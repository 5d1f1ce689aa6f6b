import SyeLabs.Letters.Threads

/-!
# The buffers of the letter counter

`main` allocates the text, the parameters and the handles of the threads, and its error
paths fall from one label to the next. What it frees, the threads may still be using.
-/

namespace SyeLabs.Letters

inductive Buffer where
  | text
  | parameters
  | threads
  deriving DecidableEq

inductive Block where
  | none
  | live
  | freed
  deriving DecidableEq

inductive Status where
  | success
  | failure
  deriving DecidableEq

/-- Where `main` stands; `work` is the two loops, and `cleaning` has the calls of `free` left
before it returns. -/
inductive Stage where
  | load
  | callocParameters
  | callocThreads
  | work
  | cleaning (left : List Buffer) (status : Status)
  | exited (status : Status)
  deriving DecidableEq

structure Process where
  stage : Stage
  heap : Buffer → Block
  threads : State

inductive Call where
  | load (ok : Bool)
  | calloc (ok : Bool)
  | run (e : Event)
  | free
  | exit

/- The labels at the end of `main`, each running on into the next. -/
def cleanText : List Buffer := [.text]
def cleanParameters : List Buffer := .parameters :: cleanText
def cleanAll : List Buffer := .threads :: cleanParameters

/-- A thread that may still touch what `main` gave it. -/
def Worker.running : Worker → Prop
  | .created | .counting _ _ => True
  | .unborn | .finished _ => False

variable (A : Alphabet) (text : List Byte) (threadNum : ℕ)

namespace Process

variable (p : Process)

def start : Process := ⟨.load, fun _ => .none, State.start⟩

def alloc (b : Buffer) (next : Stage) : Process :=
  { p with stage := next, heap := Function.update p.heap b .live }

/-- After a step of the loops. -/
def worked (s : State) : Process :=
  match s.main with
  | .done => { p with threads := s, stage := .cleaning [.text, .threads, .parameters] .success }
  | .failed => { p with threads := s, stage := .cleaning cleanAll .failure }
  | _ => { p with threads := s }

/- The threads go on until the process exits. -/
def step (p : Process) : Call → Option Process
  | .load ok => match p.stage with
    | .load => some (if ok then p.alloc .text .callocParameters
        else { p with stage := .exited .failure })
    | _ => none
  | .calloc ok => match p.stage with
    | .callocParameters => some (if ok then p.alloc .parameters .callocThreads
        else { p with stage := .cleaning cleanText .failure })
    | .callocThreads => some (if ok then p.alloc .threads .work
        else { p with stage := .cleaning cleanParameters .failure })
    | _ => none
  | .run e => match p.stage, e with
    | .work, e => (p.threads.step A text threadNum e).map p.worked
    | .cleaning _ _, .thread i =>
      (p.threads.threadStep A text threadNum i).map fun s => { p with threads := s }
    | _, _ => none
  | .free => match p.stage with
    | .cleaning (b :: left) status => some { p with
        stage := .cleaning left status
        heap := Function.update p.heap b .freed }
    | _ => none
  | .exit => match p.stage with
    | .cleaning [] status => some { p with stage := .exited status }
    | _ => none

/-- The buffers a step of the loops or of a thread reads or writes. -/
def accesses : Call → List Buffer
  | .run .main => match p.stage, p.threads.main with
    | .work, .creating i | .work, .joining i =>
      if i < threadNum then [.parameters, .threads] else []
    | _, _ => []
  | .run .mainFails => match p.stage, p.threads.main with
    | .work, .creating i => if i < threadNum then [.parameters, .threads] else []
    | .work, .joining i => if i < threadNum then [.threads] else []
    | _, _ => []
  | .run (.thread i) => match p.stage, p.threads.workers i with
    | .exited _, _ => []
    | _, .created => [.parameters]
    | _, .counting n _ =>
      if (State.chunk text threadNum i)[n]? = none then [.parameters] else [.parameters, .text]
    | _, .unborn | _, .finished _ => []
  | _ => []

/-- The step would touch memory that is not allocated. -/
def Faults (c : Call) : Prop := ∃ b ∈ p.accesses text threadNum c, p.heap b ≠ .live

/-! ### What holds along a run -/

/-- The threads joined so far have returned. -/
def Joined (s : State) : Prop :=
  match s.main with
  | .creating _ | .failed => True
  | .joining i => ∀ j < i, ∃ counters, s.workers j = .finished counters
  | .done => ∀ j < threadNum, ∃ counters, s.workers j = .finished counters

/-- What is allocated at each stage. -/
def StageOk : Prop :=
  match p.stage with
  | .load => p.threads = State.start ∧ ∀ b, p.heap b = .none
  | .callocParameters => p.threads = State.start ∧ ∀ b, p.heap b = .live ↔ b = .text
  | .callocThreads => p.threads = State.start ∧ ∀ b, p.heap b = .live ↔ b ≠ .threads
  | .work => (∀ b, p.heap b = .live) ∧ p.threads.main ≠ .done ∧ p.threads.main ≠ .failed
  | .cleaning left status => left.Nodup ∧ (∀ b, p.heap b = .live ↔ b ∈ left) ∧
    (status = .success → p.threads.main = .done) ∧
    (status = .failure → p.threads.main = .failed ∨ p.threads = State.start)
  | .exited status => (∀ b, p.heap b ≠ .live) ∧ (status = .success → p.threads.main = .done)

structure Ok : Prop where
  threads : State.Inv A text threadNum p.threads
  joined : Joined threadNum p.threads
  stage : p.StageOk

variable {A text threadNum p} {p' : Process} {s s' : State}

theorem joined_threadStep {i : ℕ} (hs : Joined threadNum s)
    (h : s.threadStep A text threadNum i = some s') : Joined threadNum s' := by
  obtain ⟨w, rfl, hcases⟩ := State.threadStep_cases h
  have hlive : ∀ counters, s.workers i ≠ .finished counters := by
    rcases hcases with ⟨hw, -⟩ | ⟨n, counters, hw, -⟩ <;> simp [hw]
  have hkept : ∀ j, (∃ counters, s.workers j = .finished counters) →
      ∃ counters, Function.update s.workers i w j = .finished counters := by
    rintro j ⟨counters, hj⟩
    have hji : j ≠ i := by
      rintro rfl
      exact hlive counters hj
    exact ⟨counters, by rw [Function.update_of_ne hji, hj]⟩
  unfold Joined at hs ⊢
  cases hm : s.main with
  | creating k => trivial
  | failed => trivial
  | joining k =>
    simp only [hm] at hs ⊢
    exact fun j hj => hkept j (hs j hj)
  | done =>
    simp only [hm] at hs ⊢
    exact fun j hj => hkept j (hs j hj)

theorem joined_main (hs : Joined threadNum s) (h : State.MainMove threadNum s s') : Joined threadNum s' := by
  unfold Joined at hs ⊢
  cases h with
  | create i hm hi => trivial
  | created i hm hi => exact fun j hj => absurd hj (Nat.not_lt_zero j)
  | join i counters hm hi hw =>
    simp only [hm] at hs
    intro j hj
    rcases Nat.lt_or_eq_of_le (Nat.le_of_lt_succ hj) with hlt | rfl
    · exact hs j hlt
    · exact ⟨counters, hw⟩
  | joined i hm hi =>
    simp only [hm] at hs
    exact fun j hj => hs j (Nat.lt_of_lt_of_le hj hi)
  | fail i hm hi => trivial

theorem threads_step (hpos : 1 ≤ threadNum) (hinv : State.Inv A text threadNum s)
    (hs : Joined threadNum s) {e : Event} (h : s.step A text threadNum e = some s') :
    State.Inv A text threadNum s' ∧ Joined threadNum s' := by
  cases e with
  | main =>
    have hmove := State.mainStep_move h
    exact ⟨State.inv_main hpos hinv hmove, joined_main hs hmove⟩
  | mainFails =>
    have hmove := State.mainFails_move h
    exact ⟨State.inv_main hpos hinv hmove, joined_main hs hmove⟩
  | thread i => exact ⟨State.inv_threadStep hinv h, joined_threadStep hs h⟩

theorem ok_start : (start).Ok A text threadNum :=
  ⟨State.inv_start, trivial, rfl, fun _ => rfl⟩

theorem ok_worked (hpos : 1 ≤ threadNum) (hp : p.Ok A text threadNum) (hstage : p.stage = .work)
    {e : Event} (h : p.threads.step A text threadNum e = some s) :
    (p.worked s).Ok A text threadNum := by
  obtain ⟨hinv, hjoined⟩ := threads_step hpos hp.threads hp.joined h
  have hheap : ∀ b, p.heap b = .live := by
    have hok := hp.stage
    simp only [StageOk, hstage] at hok
    exact hok.1
  unfold worked
  cases hm : s.main with
  | creating i =>
    refine ⟨hinv, hjoined, ?_⟩
    simp only [StageOk, hstage, hm]
    exact ⟨hheap, nofun, nofun⟩
  | joining i =>
    refine ⟨hinv, hjoined, ?_⟩
    simp only [StageOk, hstage, hm]
    exact ⟨hheap, nofun, nofun⟩
  | done =>
    refine ⟨hinv, hjoined, by decide, fun b => ?_, fun _ => hm, nofun⟩
    simp only [hheap, true_iff]
    cases b <;> decide
  | failed =>
    refine ⟨hinv, hjoined, by decide, fun b => ?_, nofun, fun _ => Or.inl hm⟩
    simp only [hheap, true_iff]
    cases b <;> decide

theorem ok_step (hpos : 1 ≤ threadNum) (hp : p.Ok A text threadNum) {c : Call}
    (h : p.step A text threadNum c = some p') : p'.Ok A text threadNum := by
  have hok := hp.stage
  cases c with
  | load ok =>
    cases hstage : p.stage <;> simp only [step, hstage, reduceCtorEq, Option.some.injEq] at h
    simp only [StageOk, hstage] at hok
    subst h
    cases ok with
    | true =>
      refine ⟨hp.threads, hp.joined, hok.1, fun b => ?_⟩
      by_cases hb : b = .text <;> simp [alloc, hb, hok.2]
    | false => exact ⟨hp.threads, hp.joined, by simp [hok.2], nofun⟩
  | calloc ok =>
    cases hstage : p.stage <;> simp only [step, hstage, reduceCtorEq, Option.some.injEq] at h
    case callocParameters =>
      simp only [StageOk, hstage] at hok
      subst h
      cases ok with
      | true =>
        refine ⟨hp.threads, hp.joined, hok.1, fun b => ?_⟩
        by_cases hb : b = .parameters
        · simp [alloc, hb]
        · cases b <;> simp_all [alloc]
      | false =>
        refine ⟨hp.threads, hp.joined, by decide, fun b => ?_, nofun, fun _ => Or.inr hok.1⟩
        simp [hok.2, cleanText]
    case callocThreads =>
      simp only [StageOk, hstage] at hok
      subst h
      cases ok with
      | true =>
        refine ⟨hp.threads, hp.joined, fun b => ?_, ?_, ?_⟩
        · by_cases hb : b = .threads
          · simp [alloc, hb]
          · simp [alloc, hb, hok.2]
        · simp [alloc, hok.1, State.start]
        · simp [alloc, hok.1, State.start]
      | false =>
        refine ⟨hp.threads, hp.joined, by decide, fun b => ?_, nofun, fun _ => Or.inr hok.1⟩
        cases b <;> simp [hok.2, cleanParameters, cleanText]
  | run e =>
    cases hstage : p.stage <;> simp only [step, hstage, reduceCtorEq] at h
    case work =>
      obtain ⟨s, hs, rfl⟩ := Option.map_eq_some_iff.mp h
      exact ok_worked hpos hp hstage hs
    case cleaning left status =>
      cases e with
      | main => cases h
      | mainFails => cases h
      | thread i =>
        obtain ⟨s, hs, rfl⟩ := Option.map_eq_some_iff.mp h
        obtain ⟨hinv, hjoined⟩ := threads_step hpos hp.threads hp.joined (e := .thread i) hs
        simp only [StageOk, hstage] at hok
        refine ⟨hinv, hjoined, ?_⟩
        simp only [StageOk, State.threadStep_main hs]
        refine ⟨hok.1, hok.2.1, hok.2.2.1, fun hfail => (hok.2.2.2 hfail).imp_right fun hstart => ?_⟩
        -- no thread has been created yet
        rw [hstart] at hs
        cases hs
  | free =>
    cases hstage : p.stage <;> simp only [step, hstage, reduceCtorEq] at h
    case cleaning left status =>
      cases left with
      | nil => cases h
      | cons b left =>
        cases h
        simp only [StageOk, hstage] at hok
        obtain ⟨hnodup, hlive, hdone, hfail⟩ := hok
        obtain ⟨hb, hnodup⟩ := List.nodup_cons.mp hnodup
        refine ⟨hp.threads, hp.joined, hnodup, fun d => ?_, hdone, hfail⟩
        by_cases hd : d = b
        · simp [hd, hb]
        · simp [hd, hlive]
  | exit =>
    cases hstage : p.stage <;> simp only [step, hstage, reduceCtorEq] at h
    case cleaning left status =>
      cases left with
      | cons b left => cases h
      | nil =>
        cases h
        simp only [StageOk, hstage] at hok
        refine ⟨hp.threads, hp.joined, fun b hb => ?_, hok.2.2.1⟩
        exact absurd ((hok.2.1 b).mp hb) List.not_mem_nil

theorem ok_run (hpos : 1 ≤ threadNum) (hp : p.Ok A text threadNum) {cs : List Call}
    (hrun : Run.exec (step A text threadNum) p cs = some p') : p'.Ok A text threadNum :=
  Run.exec_invariant_of_step (I := Ok A text threadNum)
    (fun _ _ _ h hs => ok_step hpos h hs) hp hrun

/-! ### Who can touch what has been freed -/

theorem running_of_thread {i : ℕ} {b : Buffer}
    (h : b ∈ p.accesses text threadNum (.run (.thread i))) : (p.threads.workers i).running := by
  cases hw : p.threads.workers i with
  | created => trivial
  | counting n counters => trivial
  | unborn => cases hstage : p.stage <;> simp [accesses, hstage, hw] at h
  | finished counters => cases hstage : p.stage <;> simp [accesses, hstage, hw] at h

theorem not_running_of_done (hp : p.Ok A text threadNum) (hm : p.threads.main = .done) (i : ℕ) :
    ¬ (p.threads.workers i).running := by
  rcases Nat.lt_or_ge i threadNum with hi | hi
  · have hjoined := hp.joined
    simp only [Joined, hm] at hjoined
    obtain ⟨counters, hw⟩ := hjoined i hi
    simp [hw, Worker.running]
  · simp [hp.threads.outside i hi, Worker.running]

/-- Only a thread that has not returned, and only while `main` is on its way out after a
failed call of the loops. -/
theorem faults_cleaning (hp : p.Ok A text threadNum) {c : Call} (h : p.Faults text threadNum c) :
    p.threads.main = .failed ∧ ∃ i, (p.threads.workers i).running := by
  obtain ⟨b, hb, hdead⟩ := h
  have hok := hp.stage
  cases c with
  | run e =>
    cases hstage : p.stage with
    | work =>
      simp only [StageOk, hstage] at hok
      exact absurd (hok.1 b) hdead
    | load =>
      simp only [StageOk, hstage] at hok
      cases e <;> simp [accesses, hstage, hok.1, State.start] at hb
    | callocParameters =>
      simp only [StageOk, hstage] at hok
      cases e <;> simp [accesses, hstage, hok.1, State.start] at hb
    | callocThreads =>
      simp only [StageOk, hstage] at hok
      cases e <;> simp [accesses, hstage, hok.1, State.start] at hb
    | exited status => cases e <;> simp [accesses, hstage] at hb
    | cleaning left status =>
      simp only [StageOk, hstage] at hok
      cases e with
      | main => simp [accesses, hstage] at hb
      | mainFails => simp [accesses, hstage] at hb
      | thread i =>
        have hrunning := running_of_thread hb
        refine ⟨?_, i, hrunning⟩
        cases status with
        | success =>
          exact absurd hrunning (not_running_of_done hp (hok.2.2.1 rfl) i)
        | failure =>
          refine (hok.2.2.2 rfl).resolve_right fun hstart => ?_
          simp [hstart, State.start, Worker.running] at hrunning
  | load ok => exact absurd hb List.not_mem_nil
  | calloc ok => exact absurd hb List.not_mem_nil
  | free => exact absurd hb List.not_mem_nil
  | exit => exact absurd hb List.not_mem_nil

theorem step_threads {c : Call} (h : p.step A text threadNum c = some p') :
    p'.threads = p.threads ∨ ∃ e, c = .run e ∧
      p.threads.step A text threadNum e = some p'.threads ∧ (p.stage = .work ∨ ∃ i, e = .thread i) := by
  cases c with
  | load ok =>
    cases hstage : p.stage <;> simp only [step, hstage, reduceCtorEq, Option.some.injEq] at h
    cases ok <;> cases h <;> exact Or.inl rfl
  | calloc ok =>
    cases hstage : p.stage <;> simp only [step, hstage, reduceCtorEq, Option.some.injEq] at h
    all_goals cases ok <;> cases h <;> exact Or.inl rfl
  | run e =>
    refine Or.inr ⟨e, rfl, ?_⟩
    cases hstage : p.stage <;> simp only [step, hstage, reduceCtorEq] at h
    case work =>
      obtain ⟨s, hs, rfl⟩ := Option.map_eq_some_iff.mp h
      refine ⟨?_, Or.inl rfl⟩
      rw [hs]
      cases hm : s.main <;> simp only [worked, hm]
    case cleaning left status =>
      cases e with
      | main => cases h
      | mainFails => cases h
      | thread i =>
        obtain ⟨s, hs, rfl⟩ := Option.map_eq_some_iff.mp h
        exact ⟨hs, Or.inr ⟨i, rfl⟩⟩
  | free =>
    cases hstage : p.stage <;> simp only [step, hstage, reduceCtorEq] at h
    case cleaning left status =>
      cases left <;> cases h
      exact Or.inl rfl
  | exit =>
    cases hstage : p.stage <;> simp only [step, hstage, reduceCtorEq] at h
    case cleaning left status =>
      cases left <;> cases h
      exact Or.inl rfl

theorem main_ne_failed {cs : List Call} (hrun : Run.exec (step A text threadNum) p cs = some p')
    (hcs : ∀ c ∈ cs, c ≠ .run .mainFails) (hp : p.threads.main ≠ .failed) :
    p'.threads.main ≠ .failed := by
  refine Run.exec_invariant_of_forall (I := fun q => q.threads.main ≠ .failed)
    (fun q c q' hq hc hstep => ?_) hp hcs hrun
  rcases step_threads hstep with hsame | ⟨e, rfl, hs, -⟩
  · rwa [hsame]
  · exact State.step_ne_failed (fun heq => hc (by rw [heq])) hs hq

/-- After the failed call no thread is created any more. -/
theorem still_running (hpos : 1 ≤ threadNum) (hp : p.Ok A text threadNum)
    (hm : p.threads.main = .failed) (hnone : ∀ i, ¬ (p.threads.workers i).running)
    {cs : List Call} (hrun : Run.exec (step A text threadNum) p cs = some p') :
    ∀ i, ¬ (p'.threads.workers i).running := by
  have hend : p'.Ok A text threadNum ∧ p'.threads.main = .failed ∧
      ∀ i, ¬ (p'.threads.workers i).running := by
    refine Run.exec_invariant_of_step
      (I := fun q => q.Ok A text threadNum ∧ q.threads.main = .failed ∧
        ∀ i, ¬ (q.threads.workers i).running)
      (fun q c q' hq hstep => ?_) ⟨hp, hm, hnone⟩ hrun
    obtain ⟨hok, hfailed, hidle⟩ := hq
    refine ⟨ok_step hpos hok hstep, ?_⟩
    rcases step_threads hstep with hsame | ⟨e, rfl, hs, hwhere⟩
    · rw [hsame]
      exact ⟨hfailed, hidle⟩
    · rcases hwhere with hwork | ⟨i, rfl⟩
      · have hstage := hok.stage
        simp only [StageOk, hwork] at hstage
        exact absurd hfailed hstage.2.2
      · -- a thread that takes a step is running
        obtain ⟨w, -, hcases⟩ := State.threadStep_cases hs
        have hrunning : (q.threads.workers i).running := by
          rcases hcases with ⟨hw, -⟩ | ⟨n, counters, hw, -⟩ <;> rw [hw] <;> trivial
        exact absurd hrunning (hidle i)
  exact hend.2.2

theorem step_mainFails
    (h : p.step A text threadNum (.run .mainFails) = some p') :
    p'.stage = .cleaning cleanAll .failure ∧ p'.threads.main = .failed := by
  cases hstage : p.stage <;> simp only [step, hstage, reduceCtorEq] at h
  obtain ⟨s, hs, rfl⟩ := Option.map_eq_some_iff.mp h
  have hm : s.main = .failed := by
    simp only [State.step, State.mainFails] at hs
    cases hmain : p.threads.main <;> simp only [hmain, reduceCtorEq] at hs
    all_goals
      split_ifs at hs
      cases hs
      rfl
  simp only [worked, hm, and_self]

/-- Two calls of `free` later, a thread that is still running touches freed memory. -/
theorem faults_after_two {i : ℕ} (hstage : p.stage = .cleaning cleanAll .failure)
    (hi : (p.threads.workers i).running) : ∃ q,
    Run.exec (step A text threadNum) p [.free, .free] = some q ∧
      q.Faults text threadNum (.run (.thread i)) := by
  refine ⟨{ p with
    stage := .cleaning cleanText .failure
    heap := Function.update (Function.update p.heap .threads .freed) .parameters .freed }, ?_,
    .parameters, ?_, by simp⟩
  · simp [Run.exec_cons, step, hstage, cleanAll, cleanParameters]
  · cases hw : p.threads.workers i with
    | created => simp [accesses, hw]
    | counting n counters =>
      simp only [accesses, hw]
      split_ifs <;> simp
    | unborn => simp [hw, Worker.running] at hi
    | finished counters => simp [hw, Worker.running] at hi

end Process

open Process

/-- After a call of `pthread_create` or `pthread_join` has failed, memory can be touched that
is freed exactly when some thread has not returned at that moment. -/
theorem use_after_free_iff (A : Alphabet) (text : List Byte) {threadNum : ℕ} (hpos : 1 ≤ threadNum)
    {cs : List Call} {p p' : Process}
    (hrun : Run.exec (Process.step A text threadNum) Process.start cs = some p)
    (hfails : p.step A text threadNum (.run .mainFails) = some p') :
    (∃ ds q c, Run.exec (Process.step A text threadNum) p' ds = some q ∧
      q.Faults text threadNum c) ↔ ∃ i, (p'.threads.workers i).running := by
  have hp := ok_run hpos ok_start hrun
  have hp' := ok_step hpos hp hfails
  obtain ⟨hstage, hm⟩ := step_mainFails hfails
  constructor
  · rintro ⟨ds, q, c, hds, hfault⟩
    by_contra hnone
    obtain ⟨-, i, hi⟩ := faults_cleaning (ok_run hpos hp' hds) hfault
    exact still_running hpos hp' hm (not_exists.mp hnone) hds i hi
  · rintro ⟨i, hi⟩
    obtain ⟨q, hq, hfault⟩ := faults_after_two hstage hi
    exact ⟨_, q, _, hq, hfault⟩

/- The first thread has been created when the creation of the second fails. -/
theorem use_after_free_of_two : ∃ p p', Run.exec (Process.step ascii [97] 2) Process.start
      [.load true, .calloc true, .calloc true, .run .main] = some p ∧
    p.step ascii [97] 2 (.run .mainFails) = some p' ∧
    ∃ ds q c, Run.exec (Process.step ascii [97] 2) p' ds = some q ∧ q.Faults [97] 2 c := by
  have hrun : Run.exec (Process.step ascii [97] 2) Process.start
      [.load true, .calloc true, .calloc true, .run .main] = some _ := rfl
  refine ⟨_, _, hrun, rfl, ?_⟩
  exact (use_after_free_iff ascii [97] (by decide) hrun rfl).mpr ⟨0, trivial⟩

end SyeLabs.Letters
