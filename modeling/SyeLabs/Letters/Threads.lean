import SyeLabs.Letters.CountLetters
import SyeLabs.Library.Run
import Mathlib.Algebra.Order.BigOperators.Group.Finset

/-!
# The threads of the letter counter

`main` creates the threads one after the other and joins them in that order, while
each created thread goes over its chunk at its own pace.
-/

namespace SyeLabs.Letters

/-- Where `main` stands: before the creation or the join of thread `i`, or at the end. -/
inductive Main where
  | creating (i : ℕ)
  | joining (i : ℕ)
  | done
  | failed
  deriving DecidableEq

/-- A thread that has looked at `i` characters, or has returned. -/
inductive Worker where
  | unborn
  | created
  | counting (i : ℕ) (counters : Counters)
  | finished (counters : Counters)

structure State where
  main : Main
  workers : ℕ → Worker
  resultCounters : Counters

inductive Event where
  | main
  | mainFails
  | thread (i : ℕ)
  deriving DecidableEq

variable (A : Alphabet) (text : List Byte) (threadNum : ℕ)

namespace State

/- `result_counters` is assumed to start at 0. -/
def start : State := ⟨.creating 0, fun _ => .unborn, fun _ => 0⟩

def chunk (i : ℕ) : List Byte := (parameters text.length threadNum i).chunk text

def threadStep (s : State) (i : ℕ) : Option State :=
  match s.workers i with
  | .unborn | .finished _ => none
  | .created => some { s with workers := Function.update s.workers i (.counting 0 fun _ => 0) }
  | .counting n counters =>
    match (chunk text threadNum i)[n]? with
    | none => some { s with workers := Function.update s.workers i (.finished counters) }
    | some b => (countLetter A counters b).map fun counters =>
        { s with workers := Function.update s.workers i (.counting (n + 1) counters) }

/- A join waits for the thread to have returned. -/
def mainStep (s : State) : Option State :=
  match s.main with
  | .creating i =>
    if i < threadNum then
      some { s with main := .creating (i + 1), workers := Function.update s.workers i .created }
    else some { s with main := .joining 0 }
  | .joining i =>
    if i < threadNum then
      match s.workers i with
      | .finished counters => some { s with
          main := .joining (i + 1)
          resultCounters := fun j => s.resultCounters j + counters j }
      | _ => none
    else some { s with main := .done }
  | .done | .failed => none

/- `pthread_create` or `pthread_join` returns an error. -/
def mainFails (s : State) : Option State :=
  match s.main with
  | .creating i => if i < threadNum then some { s with main := .failed } else none
  | .joining i => if i < threadNum then some { s with main := .failed } else none
  | .done | .failed => none

def step (s : State) : Event → Option State
  | .main => s.mainStep threadNum
  | .mainFails => s.mainFails threadNum
  | .thread i => s.threadStep A text threadNum i

/-! ### What holds along a run -/

/-- A thread has counted what it has looked at. -/
def WorkerOk (i : ℕ) : Worker → Prop
  | .unborn | .created => True
  | .counting n counters => n ≤ (chunk text threadNum i).length ∧
    countLetters A ((chunk text threadNum i).take n) = some counters
  | .finished counters => countLetters A (chunk text threadNum i) = some counters

/-- The results are those of the chunks joined so far, and the threads of the loops exist. -/
def MainOk (s : State) : Prop :=
  match s.main with
  | .creating i => i ≤ threadNum ∧ (∀ j, s.workers j = .unborn ↔ i ≤ j) ∧
    s.resultCounters = fun _ => 0
  | .joining i => i ≤ threadNum ∧ (∀ j < threadNum, s.workers j ≠ .unborn) ∧
    countLetters A (text.take (boundary text.length threadNum i)) = some s.resultCounters
  | .done => countLetters A text = some s.resultCounters
  | .failed => True

structure Inv (s : State) : Prop where
  worker : ∀ i, WorkerOk A text threadNum i (s.workers i)
  outside : ∀ i, threadNum ≤ i → s.workers i = .unborn
  main : MainOk A text threadNum s

variable {A text threadNum} {s s' : State}

theorem inv_start : Inv A text threadNum start :=
  ⟨fun _ => trivial, fun _ _ => rfl, Nat.zero_le _, fun j => ⟨fun _ => Nat.zero_le j, fun _ => rfl⟩,
    rfl⟩

/- A step of thread `i` changes nothing but what that thread has. -/
theorem threadStep_cases {i : ℕ} (h : s.threadStep A text threadNum i = some s') :
    ∃ w, s' = { s with workers := Function.update s.workers i w } ∧
      ((s.workers i = .created ∧ w = .counting 0 fun _ => 0) ∨
        ∃ n counters, s.workers i = .counting n counters ∧
          (((chunk text threadNum i)[n]? = none ∧ w = .finished counters) ∨
            ∃ b next, (chunk text threadNum i)[n]? = some b ∧
              countLetter A counters b = some next ∧ w = .counting (n + 1) next)) := by
  unfold threadStep at h
  cases hw : s.workers i with
  | unborn => simp [hw] at h
  | finished counters => simp [hw] at h
  | created =>
    simp only [hw, Option.some.injEq] at h
    exact ⟨_, h.symm, Or.inl ⟨rfl, rfl⟩⟩
  | counting n counters =>
    simp only [hw] at h
    cases hb : (chunk text threadNum i)[n]? with
    | none =>
      simp only [hb, Option.some.injEq] at h
      exact ⟨_, h.symm, Or.inr ⟨n, counters, rfl, Or.inl ⟨hb, rfl⟩⟩⟩
    | some b =>
      simp only [hb] at h
      obtain ⟨next, hnext, rfl⟩ := Option.map_eq_some_iff.mp h
      exact ⟨_, rfl, Or.inr ⟨n, counters, rfl, Or.inr ⟨b, next, hb, hnext, rfl⟩⟩⟩

theorem threadStep_main {i : ℕ} (h : s.threadStep A text threadNum i = some s') :
    s'.main = s.main := by
  obtain ⟨w, rfl, -⟩ := threadStep_cases h
  rfl

theorem countLetters_succ {cs : List Byte} {n : ℕ} {b : Byte} (hb : cs[n]? = some b) :
    countLetters A (cs.take (n + 1)) =
      (countLetters A (cs.take n)).bind fun counters => countLetter A counters b := by
  unfold countLetters
  rw [List.take_add_one, hb, Option.toList_some, List.foldlM_append]
  congr 1
  funext counters
  exact bind_pure _

/- What a thread has counted after its step. -/
theorem workerOk_next {i : ℕ} {w : Worker} (hs : Inv A text threadNum s)
    (hcases : (s.workers i = .created ∧ w = .counting 0 fun _ => 0) ∨
      ∃ n counters, s.workers i = .counting n counters ∧
        (((chunk text threadNum i)[n]? = none ∧ w = .finished counters) ∨
          ∃ b next, (chunk text threadNum i)[n]? = some b ∧
            countLetter A counters b = some next ∧ w = .counting (n + 1) next)) :
    WorkerOk A text threadNum i w := by
  have hworker := hs.worker i
  rcases hcases with ⟨_, rfl⟩ | ⟨n, counters, hw, ⟨hend, rfl⟩ | ⟨b, next, hb, hnext, rfl⟩⟩
  · exact ⟨Nat.zero_le _, rfl⟩
  · rw [hw] at hworker
    have hlen := List.getElem?_eq_none_iff.mp hend
    have hcount := hworker.2
    rwa [List.take_of_length_le hlen] at hcount
  · rw [hw] at hworker
    obtain ⟨hlt, _⟩ := List.getElem?_eq_some_iff.mp hb
    refine ⟨hlt, ?_⟩
    rw [countLetters_succ hb, hworker.2, Option.bind_some, hnext]

theorem workers_update {i : ℕ} {w : Worker} (hs : Inv A text threadNum s)
    (hw : WorkerOk A text threadNum i w) (j : ℕ) :
    WorkerOk A text threadNum j (Function.update s.workers i w j) := by
  by_cases hji : j = i
  · rw [hji, Function.update_self]
    exact hw
  · rw [Function.update_of_ne hji]
    exact hs.worker j

theorem inv_threadStep {i : ℕ} (hs : Inv A text threadNum s)
    (h : s.threadStep A text threadNum i = some s') : Inv A text threadNum s' := by
  obtain ⟨w, rfl, hcases⟩ := threadStep_cases h
  have hborn : s.workers i ≠ .unborn ∧ w ≠ .unborn := by
    rcases hcases with ⟨hw, rfl⟩ | ⟨n, counters, hw, ⟨_, rfl⟩ | ⟨b, next, _, _, rfl⟩⟩
    · exact ⟨hw ▸ nofun, nofun⟩
    · exact ⟨hw ▸ nofun, nofun⟩
    · exact ⟨hw ▸ nofun, nofun⟩
  have hsame : ∀ j, Function.update s.workers i w j = .unborn ↔ s.workers j = .unborn := by
    intro j
    by_cases hji : j = i
    · rw [hji, Function.update_self]
      exact ⟨fun h => absurd h hborn.2, fun h => absurd h hborn.1⟩
    · rw [Function.update_of_ne hji]
  refine ⟨workers_update hs (workerOk_next hs hcases),
    fun j hj => (hsame j).mpr (hs.outside j hj), ?_⟩
  have hmain := hs.main
  unfold MainOk at hmain ⊢
  cases hm : s.main with
  | creating m =>
    simp only [hm] at hmain ⊢
    exact ⟨hmain.1, fun j => (hsame j).trans (hmain.2.1 j), hmain.2.2⟩
  | joining m =>
    simp only [hm] at hmain ⊢
    exact ⟨hmain.1, fun j hj h => hmain.2.1 j hj ((hsame j).mp h), hmain.2.2⟩
  | done =>
    simp only [hm] at hmain ⊢
    exact hmain
  | failed => trivial

/-- What `main` does in a step. -/
inductive MainMove (threadNum : ℕ) (s : State) : State → Prop where
  | create (i) : s.main = .creating i → i < threadNum → MainMove threadNum s
      { s with main := .creating (i + 1), workers := Function.update s.workers i .created }
  | created (i) : s.main = .creating i → threadNum ≤ i →
      MainMove threadNum s { s with main := .joining 0 }
  | join (i counters) : s.main = .joining i → i < threadNum → s.workers i = .finished counters →
      MainMove threadNum s { s with
        main := .joining (i + 1)
        resultCounters := fun j => s.resultCounters j + counters j }
  | joined (i) : s.main = .joining i → threadNum ≤ i →
      MainMove threadNum s { s with main := .done }
  | fail (i) : s.main = .creating i ∨ s.main = .joining i → i < threadNum →
      MainMove threadNum s { s with main := .failed }

theorem mainStep_move (h : s.mainStep threadNum = some s') : MainMove threadNum s s' := by
  unfold mainStep at h
  cases hm : s.main with
  | creating i =>
    simp only [hm] at h
    split_ifs at h with hi
    · obtain rfl := Option.some.inj h
      exact .create i hm hi
    · obtain rfl := Option.some.inj h
      exact .created i hm (Nat.le_of_not_lt hi)
  | joining i =>
    simp only [hm] at h
    split_ifs at h with hi
    · cases hw : s.workers i with
      | finished counters =>
        simp only [hw, Option.some.injEq] at h
        subst h
        exact .join i counters hm hi hw
      | unborn => simp [hw] at h
      | created => simp [hw] at h
      | counting n counters => simp [hw] at h
    · obtain rfl := Option.some.inj h
      exact .joined i hm (Nat.le_of_not_lt hi)
  | done => simp [hm] at h
  | failed => simp [hm] at h

theorem mainStep_ne_failed (h : s.mainStep threadNum = some s') : s'.main ≠ .failed := by
  unfold mainStep at h
  cases hm : s.main with
  | creating i =>
    simp only [hm] at h
    split_ifs at h <;> cases h <;> exact nofun
  | joining i =>
    simp only [hm] at h
    split_ifs at h
    · cases hw : s.workers i <;> simp only [hw, reduceCtorEq] at h
      cases h
      exact nofun
    · cases h
      exact nofun
  | done => simp [hm] at h
  | failed => simp [hm] at h

theorem mainFails_move (h : s.mainFails threadNum = some s') : MainMove threadNum s s' := by
  unfold mainFails at h
  cases hm : s.main with
  | creating i =>
    simp only [hm] at h
    split_ifs at h with hi
    obtain rfl := Option.some.inj h
    exact .fail i (.inl hm) hi
  | joining i =>
    simp only [hm] at h
    split_ifs at h with hi
    obtain rfl := Option.some.inj h
    exact .fail i (.inr hm) hi
  | done => simp [hm] at h
  | failed => simp [hm] at h

theorem inv_main (hpos : 1 ≤ threadNum) (hs : Inv A text threadNum s)
    (h : MainMove threadNum s s') : Inv A text threadNum s' := by
  have hmain := hs.main
  unfold MainOk at hmain
  cases h with
  | create i hm hi =>
    simp only [hm] at hmain
    refine ⟨workers_update hs trivial, fun j hj => ?_, hi, fun j => ?_, hmain.2.2⟩
    · have hji : j ≠ i := by omega
      simp only [Function.update_of_ne hji]
      exact hs.outside j hj
    · by_cases hji : j = i
      · simp [hji]
      · simp only [Function.update_of_ne hji, hmain.2.1 j]
        omega
  | created i hm hi =>
    simp only [hm] at hmain
    refine ⟨hs.worker, hs.outside, Nat.zero_le _, fun j hj hunborn => ?_, ?_⟩
    · have hle := (hmain.2.1 j).mp hunborn
      omega
    · rw [boundary_zero hpos, hmain.2.2]
      rfl
  | join i counters hm hi hw =>
    simp only [hm] at hmain
    have hchunk : countLetters A ((parameters text.length threadNum i).chunk text) =
        some counters := by
      have hworker := hs.worker i
      rw [hw] at hworker
      exact hworker
    refine ⟨hs.worker, hs.outside, hi, hmain.2.1, ?_⟩
    rw [take_boundary text hi, countLetters_append, hmain.2.2, Option.bind_some, hchunk]
    rfl
  | joined i hm hi =>
    simp only [hm] at hmain
    have hend : i = threadNum := Nat.le_antisymm hmain.1 hi
    have hcount := hmain.2.2
    rw [hend, boundary_last, List.take_length] at hcount
    exact ⟨hs.worker, hs.outside, hcount⟩
  | fail i hm hi => exact ⟨hs.worker, hs.outside, trivial⟩

theorem inv_run (hpos : 1 ≤ threadNum) {es : List Event}
    (hrun : Run.exec (step A text threadNum) start es = some s) : Inv A text threadNum s := by
  have hstep : ∀ u e u', Inv A text threadNum u → step A text threadNum u e = some u' →
      Inv A text threadNum u' := fun u e u' hu h => by
    cases e with
    | main => exact inv_main hpos hu (mainStep_move h)
    | mainFails => exact inv_main hpos hu (mainFails_move h)
    | thread i => exact inv_threadStep hu h
  exact Run.exec_invariant_of_step hstep inv_start hrun

/- Only a failing call of `main` takes it out of its loops. -/
theorem step_ne_failed {e : Event} (he : e ≠ .mainFails)
    (h : s.step A text threadNum e = some s') (hs : s.main ≠ .failed) : s'.main ≠ .failed := by
  cases e with
  | main => exact mainStep_ne_failed h
  | mainFails => exact absurd rfl he
  | thread i => rwa [threadStep_main h]

theorem main_ne_failed {es : List Event} (hes : .mainFails ∉ es)
    (hrun : Run.exec (step A text threadNum) start es = some s) : s.main ≠ .failed := by
  have hstart : (start).main ≠ .failed := nofun
  exact Run.exec_invariant_of_notMem (I := fun u => u.main ≠ .failed)
    (fun u e u' hu he h => step_ne_failed he h hu) hstart hes hrun

/-! ### Every run goes on to its end -/

theorem chunk_counted {k : Counters} {i : ℕ} (hk : countLetters A text = some k)
    (hi : i < threadNum) : ∃ c, countLetters A (chunk text threadNum i) = some c := by
  rw [← List.take_append_drop (boundary text.length threadNum (i + 1)) text] at hk
  obtain ⟨k₁, _, hk₁, _, _⟩ := countLetters_append_some hk
  rw [take_boundary text hi] at hk₁
  obtain ⟨_, c, _, hc, _⟩ := countLetters_append_some hk₁
  exact ⟨c, hc⟩

/- A thread that was created and has not returned can take a step. -/
theorem thread_goes_on {k : Counters} {i : ℕ} (hk : countLetters A text = some k)
    (hs : Inv A text threadNum s) (hi : i < threadNum) (hborn : s.workers i ≠ .unborn)
    (hend : ∀ counters, s.workers i ≠ .finished counters) :
    ∃ s', s.threadStep A text threadNum i = some s' := by
  have hworker := hs.worker i
  unfold threadStep
  cases hw : s.workers i with
  | unborn => exact absurd hw hborn
  | finished counters => exact absurd hw (hend counters)
  | created => exact ⟨_, rfl⟩
  | counting n counters =>
    rw [hw] at hworker
    simp only
    cases hb : (chunk text threadNum i)[n]? with
    | none => exact ⟨_, rfl⟩
    | some b =>
      obtain ⟨c, hc⟩ := chunk_counted hk hi
      rw [← List.take_append_drop (n + 1) (chunk text threadNum i)] at hc
      obtain ⟨k₁, _, hk₁, _, _⟩ := countLetters_append_some hc
      rw [countLetters_succ hb, hworker.2, Option.bind_some] at hk₁
      simp only [hk₁, Option.map_some]
      exact ⟨_, rfl⟩

theorem goes_on {k : Counters} (hk : countLetters A text = some k) (hs : Inv A text threadNum s)
    (hdone : s.main ≠ .done) (hfailed : s.main ≠ .failed) :
    ∃ e s', e ≠ .mainFails ∧ s.step A text threadNum e = some s' := by
  have hmain := hs.main
  unfold MainOk at hmain
  cases hm : s.main with
  | creating i =>
    refine ⟨.main, ?_⟩
    simp only [step, mainStep, hm]
    split_ifs
    · exact ⟨_, nofun, rfl⟩
    · exact ⟨_, nofun, rfl⟩
  | joining i =>
    simp only [hm] at hmain
    by_cases hi : i < threadNum
    · by_cases hend : ∃ counters, s.workers i = .finished counters
      · obtain ⟨counters, hw⟩ := hend
        refine ⟨.main, ?_⟩
        simp only [step, mainStep, hm, hi, if_true, hw]
        exact ⟨_, nofun, rfl⟩
      · -- the join waits for a thread that still has something to do
        obtain ⟨s', hs'⟩ := thread_goes_on hk hs hi (hmain.2.1 i hi)
          fun counters hw => hend ⟨counters, hw⟩
        exact ⟨.thread i, s', nofun, hs'⟩
    · refine ⟨.main, ?_⟩
      simp only [step, mainStep, hm, hi, if_false]
      exact ⟨_, nofun, rfl⟩
  | done => exact absurd hm hdone
  | failed => exact absurd hm hfailed

def mainRank (threadNum : ℕ) : Main → ℕ
  | .creating i => i
  | .joining i => threadNum + 1 + i
  | .done | .failed => 2 * threadNum + 2

def workerRank (length : ℕ) : Worker → ℕ
  | .unborn => 0
  | .created => 1
  | .counting n _ => n + 2
  | .finished _ => length + 3

/-- How far the run has come. -/
def rank (length threadNum : ℕ) (s : State) : ℕ :=
  mainRank threadNum s.main + ∑ i ∈ Finset.range threadNum, workerRank length (s.workers i)

theorem chunk_length_le (i : ℕ) : (chunk text threadNum i).length ≤ text.length := by
  unfold chunk CountParam.chunk
  rw [List.length_take, List.length_drop]
  omega

theorem workerRank_le (hs : Inv A text threadNum s) (i : ℕ) :
    workerRank text.length (s.workers i) ≤ text.length + 3 := by
  have hworker := hs.worker i
  have hlen : (chunk text threadNum i).length ≤ text.length := chunk_length_le i
  cases hw : s.workers i with
  | unborn => exact Nat.zero_le _
  | created => exact Nat.le_add_left _ _
  | counting n counters =>
    rw [hw] at hworker
    have hn := hworker.1
    simp only [workerRank]
    omega
  | finished counters => exact Nat.le_refl _

theorem rank_le (hs : Inv A text threadNum s) :
    rank text.length threadNum s ≤ 2 * threadNum + 2 + threadNum * (text.length + 3) := by
  have hsum : ∑ i ∈ Finset.range threadNum, workerRank text.length (s.workers i) ≤
      ∑ _i ∈ Finset.range threadNum, (text.length + 3) :=
    Finset.sum_le_sum fun i _ => workerRank_le hs i
  rw [Finset.sum_const_nat fun _ _ => rfl, Finset.card_range] at hsum
  have hmain := hs.main
  have hrank : mainRank threadNum s.main ≤ 2 * threadNum + 2 := by
    unfold MainOk at hmain
    cases hm : s.main with
    | creating i =>
      simp only [hm] at hmain
      simp only [mainRank]
      omega
    | joining i =>
      simp only [hm] at hmain
      simp only [mainRank]
      omega
    | done => exact Nat.le_refl _
    | failed => exact Nat.le_refl _
  unfold rank
  omega

/- The sum grows when one worker of the loops goes on. -/
theorem sum_rank_lt {i : ℕ} {w : Worker} (length : ℕ) (hi : i < threadNum)
    (hlt : workerRank length (s.workers i) < workerRank length w) :
    ∑ j ∈ Finset.range threadNum, workerRank length (s.workers j) <
      ∑ j ∈ Finset.range threadNum, workerRank length (Function.update s.workers i w j) := by
  refine Finset.sum_lt_sum (fun j _ => ?_) ⟨i, Finset.mem_range.mpr hi, ?_⟩
  · by_cases hji : j = i
    · rw [hji, Function.update_self]
      exact Nat.le_of_lt hlt
    · rw [Function.update_of_ne hji]
  · rwa [Function.update_self]

theorem threadStep_rank {i : ℕ} (hs : Inv A text threadNum s)
    (h : s.threadStep A text threadNum i = some s') :
    rank text.length threadNum s < rank text.length threadNum s' := by
  obtain ⟨w, rfl, hcases⟩ := threadStep_cases h
  have hworker := hs.worker i
  have hlen : (chunk text threadNum i).length ≤ text.length := chunk_length_le i
  have hi : i < threadNum := by
    by_contra hout
    have hunborn := hs.outside i (Nat.le_of_not_lt hout)
    rcases hcases with ⟨hw, _⟩ | ⟨n, counters, hw, _⟩ <;> rw [hw] at hunborn <;> cases hunborn
  have hlt : workerRank text.length (s.workers i) < workerRank text.length w := by
    rcases hcases with ⟨hw, rfl⟩ | ⟨n, counters, hw, ⟨_, rfl⟩ | ⟨b, next, _, _, rfl⟩⟩
    · rw [hw]
      exact Nat.lt_succ_self 1
    · rw [hw] at hworker ⊢
      have hn := hworker.1
      simp only [workerRank]
      omega
    · rw [hw]
      exact Nat.lt_succ_self (n + 2)
  exact Nat.add_lt_add_left (sum_rank_lt text.length hi hlt) _

theorem main_rank (hs : Inv A text threadNum s) (h : MainMove threadNum s s') :
    rank text.length threadNum s < rank text.length threadNum s' := by
  have hmain := hs.main
  unfold MainOk at hmain
  cases h with
  | create i hm hi =>
    simp only [hm] at hmain
    have hlt : workerRank text.length (s.workers i) < workerRank text.length .created := by
      rw [(hmain.2.1 i).mpr (Nat.le_refl i)]
      exact Nat.one_pos
    have hsum := sum_rank_lt text.length hi hlt
    simp only [rank, hm, mainRank]
    omega
  | created i hm hi =>
    simp only [hm] at hmain
    simp only [rank, hm, mainRank]
    omega
  | join i counters hm hi hw =>
    simp only [rank, hm, mainRank]
    omega
  | joined i hm hi =>
    simp only [hm] at hmain
    simp only [rank, hm, mainRank]
    omega
  | fail i hm hi =>
    rcases hm with hm | hm
    · simp only [rank, hm, mainRank]
      omega
    · simp only [rank, hm, mainRank]
      omega

theorem length_le_rank (hpos : 1 ≤ threadNum) {es : List Event} {s t : State}
    (hs : Inv A text threadNum s) (hrun : Run.exec (step A text threadNum) s es = some t) :
    rank text.length threadNum s + es.length ≤ rank text.length threadNum t := by
  induction es generalizing s with
  | nil =>
    cases hrun
    exact Nat.le_refl _
  | cons e es ih =>
    obtain ⟨s', hs', hrest⟩ := Run.exec_cons_some hrun
    have hnext : Inv A text threadNum s' ∧
        rank text.length threadNum s < rank text.length threadNum s' := by
      cases e with
      | main => exact ⟨inv_main hpos hs (mainStep_move hs'), main_rank hs (mainStep_move hs')⟩
      | mainFails =>
        exact ⟨inv_main hpos hs (mainFails_move hs'), main_rank hs (mainFails_move hs')⟩
      | thread i => exact ⟨inv_threadStep hs hs', threadStep_rank hs hs'⟩
    have hlen := ih hnext.1 hrest
    rw [List.length_cons]
    omega

end State

open State

/-- The chunks split the text for any number of threads, and when the text can be counted at
all, no order of steps makes a difference: a run that is at its end has the counters of
one thread over the whole text, only a failing call of `main` ends a run early, any other
goes on, and no run is longer than a bound. -/
theorem letters_same_for_all_threads (A : Alphabet) (text : List Byte) {threadNum : ℕ}
    (hpos : 1 ≤ threadNum) :
    Partition text.length threadNum ∧
      ∀ counters, countLetters A text = some counters →
        ∀ es s, Run.exec (State.step A text threadNum) State.start es = some s →
          (s.main = .done → s.resultCounters = counters) ∧
          (.mainFails ∉ es → s.main ≠ .failed) ∧
          (s.main ≠ .done → s.main ≠ .failed →
            ∃ e s', e ≠ .mainFails ∧ s.step A text threadNum e = some s') ∧
          es.length ≤ 2 * threadNum + 2 + threadNum * (text.length + 3) := by
  refine ⟨parameters_partition hpos, fun counters hk es s hrun => ?_⟩
  have hinv := inv_run hpos hrun
  refine ⟨fun hdone => ?_, fun hes => main_ne_failed hes hrun, goes_on hk hinv, ?_⟩
  · have hmain := hinv.main
    unfold MainOk at hmain
    simp only [hdone] at hmain
    exact Option.some.inj (hmain.symm.trans hk)
  · have hlen := length_le_rank hpos inv_start hrun
    have hbound := rank_le hinv
    omega

/- `A` is 65 and `a` is 97 in ASCII; `char` is unsigned. -/
def ascii : Alphabet := ⟨65, 97, false⟩

/- Over "aBA" the second of two threads is the first to end. -/
def twoThreads : List Event :=
  [.main, .main, .thread 1, .main, .thread 1, .thread 0, .thread 1, .thread 1, .thread 0, .thread 0,
    .main, .main, .main]

theorem letters_of_two_threads :
    Partition 3 2 ∧ ∃ counters s, countLetters ascii [97, 66, 65] = some counters ∧
      Run.exec (State.step ascii [97, 66, 65] 2) State.start twoThreads = some s ∧
      .mainFails ∉ twoThreads ∧ s.main = .done ∧ s.resultCounters = counters ∧
      List.ofFn s.resultCounters = 2 :: 1 :: List.replicate 24 0 := by
  have hcount : (countLetters ascii [97, 66, 65]).isSome := by decide
  have hend : (Run.exec (State.step ascii [97, 66, 65] 2) State.start twoThreads).map
      (fun s => (s.main, List.ofFn s.resultCounters)) =
        some (.done, 2 :: 1 :: List.replicate 24 0) := by decide
  obtain ⟨counters, hcounters⟩ := Option.isSome_iff_exists.mp hcount
  obtain ⟨s, hrun, hs⟩ := Option.map_eq_some_iff.mp hend
  obtain ⟨hdone, hresult⟩ := Prod.mk.inj hs
  obtain ⟨hpartition, hcounts⟩ := letters_same_for_all_threads ascii [97, 66, 65] (Nat.le_succ 1)
  exact ⟨hpartition, counters, s, hcounters, hrun, by decide, hdone,
    (hcounts counters hcounters twoThreads s hrun).1 hdone, hresult⟩

end SyeLabs.Letters
