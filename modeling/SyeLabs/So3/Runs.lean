import SyeLabs.So3.Waitpid
import SyeLabs.Library.Run
import Mathlib.Data.List.Nodup

/-!
# Runs of `fork`, `exit` and `waitpid`

From the table that holds only the root process, live processes call in any order.
`TableStep` says once what a call can do to the table; the results about runs are
derived from it.
-/

namespace SyeLabs.So3

variable (X : Platform)

inductive Call where
  | fork
  | exit (exitStatus : Word)
  | waitpid (pid : Word) (wstatus : Option Word) (options : Word)

structure Event where
  thread : Tid
  call : Call

/-- The kernel, the processes whose page table `waitpid` has released and those whose
status it has handed over, in order. -/
structure Sys where
  kernel : Kernel
  released : List PcbPtr
  delivered : List PcbPtr

def Effect.released? : Effect → Option PcbPtr
  | .release child _ => some child
  | _ => none

def Effect.delivered? : Effect → Option PcbPtr
  | .deliver child _ => some child
  | _ => none

namespace Sys

/- `current` is the thread that calls. -/
def perform (s : Sys) : Call → Option Sys
  | .fork => (doFork X s.kernel).map fun out => { s with kernel := out.1 }
  | .exit exitStatus => (doExit exitStatus s.kernel).map fun k => { s with kernel := k }
  | .waitpid pid wstatus options =>
    (doWaitpid X pid wstatus options s.kernel).map fun r =>
      { kernel := r.kernel
        released := s.released ++ r.effects.filterMap Effect.released?
        delivered := s.delivered ++ r.effects.filterMap Effect.delivered? }

/-- A call by a thread of a live process, taken when it can complete. -/
def step (s : Sys) (e : Event) : Option Sys :=
  let k := { s.kernel with current := e.thread }
  match k.caller with
  | none => none
  | some p =>
    if p ∈ k.procList ∧ (k.pcbs p).state ≠ .zombie then perform X { s with kernel := k } e.call
    else none

end Sys

/-- The join of a call that completes at once: the process of the thread is a zombie,
and at most loses its main thread. -/
structure JoinsInStep (join : Option Tid → Kernel → Option Kernel) : Prop where
  waits : ∀ t k k' c, join (some t) k = some k' → c ∈ k.procList →
    (k.pcbs c).mainThread = some t → (k.pcbs c).state = .zombie
  pcbs : ∀ t k k' c, join t k = some k' → k'.pcbs c = k.pcbs c ∨
    ((k.pcbs c).mainThread = t ∧ k'.pcbs c = { k.pcbs c with mainThread := none })
  procList : ∀ t k k', join t k = some k' → k'.procList = k.procList
  created : ∀ t k k', join t k = some k' → k'.created = k.created
  pidCurrent : ∀ t k k', join t k = some k' → k'.pidCurrent = k.pidCurrent

/-- A finished thread that is joined is no main thread any more. -/
def JoinDrops (join : Option Tid → Kernel → Option Kernel) : Prop :=
  ∀ t k k' c, join t k = some k' → (k.pcbs c).mainThread = t → (k'.pcbs c).mainThread = none

theorem joinFinished_inStep : JoinsInStep joinFinished := by
  have hjoined : ∀ {t k k'}, joinFinished t k = some k' →
      (∀ c ∈ k.procList, (k.pcbs c).mainThread = t → (k.pcbs c).state = .zombie) ∧
        k.joined t = k' := fun {t k k'} h => by
    unfold joinFinished at h
    split_ifs at h with hall
    exact ⟨hall, Option.some.inj h⟩
  refine ⟨fun t k k' c h => (hjoined h).1 c, fun t k k' c h => ?_, fun t k k' h => ?_,
    fun t k k' h => ?_, fun t k k' h => ?_⟩
  · rw [← (hjoined h).2]
    change k.dropThread t c = _ ∨ _
    by_cases ht : (k.pcbs c).mainThread = t
    · exact Or.inr ⟨ht, if_pos ht⟩
    · exact Or.inl (if_neg ht)
  · rw [← (hjoined h).2]
    rfl
  · rw [← (hjoined h).2]
    rfl
  · rw [← (hjoined h).2]
    rfl

/-! ### What a call can do to the table -/

structure SameTable (k k' : Kernel) : Prop where
  pcbs : k'.pcbs = k.pcbs
  procList : k'.procList = k.procList
  created : k'.created = k.created
  pidCurrent : k'.pidCurrent = k.pidCurrent

structure Forks (k k' : Kernel) (p : PcbPtr) (child : Pcb) : Prop where
  pcbs : k'.pcbs = Function.update k.pcbs k.created child
  procList : k'.procList = k.procList ++ [k.created]
  created : k'.created = k.created + 1
  pidCurrent : k'.pidCurrent = k.pidCurrent + 1
  pid : child.pid = k.pidCurrent
  parent : child.parent = some p
  state : child.state = .ready
  request : child.ptracePendingReq = .noRequest
  mainThread : child.mainThread ≠ none

structure Exits (k k' : Kernel) (p : PcbPtr) (exitStatus : Word) : Prop where
  parent : (k.pcbs p).parent ≠ none
  pcbs : k'.pcbs =
    Function.update k.pcbs p { k.pcbs p with state := .zombie, exitStatus := exitStatus }
  procList : k'.procList = k.procList
  created : k'.created = k.created
  pidCurrent : k'.pidCurrent = k.pidCurrent

structure Reaps (k k' : Kernel) (child : PcbPtr) : Prop where
  finished : (k.pcbs child).mainThread ≠ none →
    ∀ c ∈ k.procList, (k.pcbs c).mainThread = (k.pcbs child).mainThread →
      (k.pcbs c).state = .zombie
  pcbs : ∀ c, k'.pcbs c = k.pcbs c ∨ ((k.pcbs c).mainThread = (k.pcbs child).mainThread ∧
    k'.pcbs c = { k.pcbs c with mainThread := none })
  procList : k'.procList =
    if k.findProcByParent child = none then k.procList.erase child else k.procList
  created : k'.created = k.created
  pidCurrent : k'.pidCurrent = k.pidCurrent

/-- What a step can do: nothing, or one process appears, ends or is reaped. The list
tells who was reaped. -/
inductive TableStep (k k' : Kernel) : List PcbPtr → Prop
  | same (h : SameTable k k') : TableStep k k' []
  | fork (p : PcbPtr) (child : Pcb) (hp : p ∈ k.procList) (h : Forks k k' p child) :
    TableStep k k' []
  | exit (p : PcbPtr) (exitStatus : Word) (hp : p ∈ k.procList) (h : Exits k k' p exitStatus) :
    TableStep k k' []
  | reap (child : PcbPtr) (hchild : child ∈ k.procList) (h : Reaps k k' child) :
    TableStep k k' [child]

/-- Processes of the table are alive or zombies, none is traced, and one that has no main
thread is a zombie. -/
structure Settled (k : Kernel) : Prop where
  fresh : ∀ a ∈ k.procList, a < k.created
  nodup : k.procList.Nodup
  untraced : ∀ a ∈ k.procList, (k.pcbs a).ptracePendingReq = .noRequest
  notWaiting : ∀ a ∈ k.procList, (k.pcbs a).state ≠ .waiting
  finished : ∀ a ∈ k.procList, (k.pcbs a).mainThread = none → (k.pcbs a).state = .zombie

variable {X} {k k' : Kernel}

theorem Start.settled (h : Start k) : Settled k := by
  have hroot : ∀ a ∈ k.procList, a = 0 := fun a ha => by
    rw [h.procList] at ha
    exact List.mem_singleton.mp ha
  refine ⟨fun a ha => ?_, ?_, fun a ha => ?_, fun a ha => ?_, fun a ha hnone => ?_⟩
  · rw [hroot a ha, h.created]
    exact Nat.one_pos
  · rw [h.procList]
    exact List.nodup_singleton 0
  · rw [hroot a ha, h.request]
  · rw [hroot a ha, h.state]
    exact nofun
  · rw [hroot a ha] at hnone
    exact absurd hnone h.mainThread

/-! ### The steps of the calls -/

theorem doFork_table {r : Word} (h : doFork X k = some (k', r)) :
    SameTable k k' ∨ ∃ p child, k.caller = some p ∧ Forks k k' p child := by
  obtain ⟨p, hp, ⟨_, rfl, _⟩ | ⟨_, _, child, tcbs, mem, rfl, hpid, hparent, hstate, hreq, hmain⟩⟩ :=
    doFork_cases h
  · exact Or.inl ⟨rfl, rfl, rfl, rfl⟩
  · exact Or.inr ⟨p, child, hp, rfl, rfl, rfl, rfl, hpid, hparent, hstate, hreq, hmain⟩

theorem doExit_table {exitStatus : Word} (h : doExit exitStatus k = some k') :
    ∃ p, k.caller = some p ∧ Exits k k' p exitStatus := by
  obtain ⟨p, hp, hparent, rfl⟩ := doExit_cases h
  exact ⟨p, hp, hparent, rfl, rfl, rfl, rfl⟩

theorem findProcByParent_congr {a : PcbPtr} (hlist : k'.procList = k.procList)
    (hparent : ∀ c, (k'.pcbs c).parent = (k.pcbs c).parent) :
    k'.findProcByParent a = k.findProcByParent a := by
  simp only [Kernel.findProcByParent, hlist, hparent]

theorem reapChild_released {child : PcbPtr} {status : Word} {wstatus : Option Word} :
    (reapChild child status wstatus k).2.2.filterMap Effect.released? = [child] := by
  rw [reapChild]
  split_ifs <;> rfl

theorem reapChild_delivered {child : PcbPtr} {status : Word} {wstatus : Option Word} :
    (reapChild child status wstatus k).2.2.filterMap Effect.delivered? =
      if wstatus.isSome then [child] else [] := by
  rw [reapChild]
  split_ifs <;> rfl

section
variable {pid options : Word} {wstatus : Option Word} {r : WaitReturn}

/-- A wait finds nobody, finds a process that lives and does not wait for it, or reaps. -/
inductive WaitStep (X : Platform) (k : Kernel) (pid : Word) (wstatus : Option Word)
    (options : Word) (r : WaitReturn) : Prop
  | unknown (hchild : selectChild pid k = none) (hret : r.ret = -1) (heffects : r.effects = [])
    (h : SameTable k r.kernel)
  | alive (child : PcbPtr) (hchild : selectChild pid k = some child)
    (hnohang : options &&& X.wnohang ≠ 0) (hstate : (k.pcbs child).state ≠ .zombie)
    (hret : r.ret = 0) (heffects : r.effects = []) (h : SameTable k r.kernel)
  | reaped (child : PcbPtr) (hchild : selectChild pid k = some child)
    (hwait : ¬ (options &&& X.wnohang ≠ 0 ∧ (k.pcbs child).state ≠ .zombie))
    (hret : r.ret = (k.pcbs child).pid)
    (hreleased : r.effects.filterMap Effect.released? = [child])
    (hdelivered : r.effects.filterMap Effect.delivered? = if wstatus.isSome then [child] else [])
    (hdropped : JoinDrops X.threadJoin → (r.kernel.pcbs child).mainThread = none)
    (h : Reaps k r.kernel child)

theorem reaps_of_join {child : PcbPtr} {k₁ : Kernel} (status : Word) (wstatus : Option Word)
    (hjoin : JoinsInStep X.threadJoin)
    (hk₁ : X.threadJoin (k.pcbs child).mainThread k = some k₁) :
    Reaps k (reapChild child status wstatus k₁).1 child := by
  have hparent : ∀ c, (k₁.pcbs c).parent = (k.pcbs c).parent := fun c => by
    rcases hjoin.pcbs _ _ _ c hk₁ with hsame | ⟨_, hdropped⟩
    · rw [hsame]
    · rw [hdropped]
  rw [reapChild_kernel]
  refine ⟨fun hmain c hmem hc => ?_, fun c => hjoin.pcbs _ k k₁ c hk₁, ?_, hjoin.created _ k k₁ hk₁,
    hjoin.pidCurrent _ k k₁ hk₁⟩
  · obtain ⟨t, ht⟩ := Option.ne_none_iff_exists'.mp hmain
    rw [ht] at hk₁ hc
    exact hjoin.waits t k k₁ c hk₁ hmem hc
  · change (if k₁.findProcByParent child = none then _ else _) = _
    rw [findProcByParent_congr (hjoin.procList _ _ _ hk₁) hparent, hjoin.procList _ _ _ hk₁]

theorem doWaitpid_step (hjoin : JoinsInStep X.threadJoin) (hk : Settled k)
    (hr : doWaitpid X pid wstatus options k = some r) : WaitStep X k pid wstatus options r := by
  rcases doWaitpid_cases hr with ⟨hnone, hret, heffects, hkernel⟩ |
    ⟨child, hchild, ⟨hnohang, hstate, rfl⟩ | ⟨hwait, k₁, hk₁, rfl⟩⟩
  · exact .unknown hnone hret heffects (by rw [hkernel]; exact ⟨rfl, rfl, rfl, rfl⟩)
  · exact .alive child hchild hnohang hstate rfl rfl ⟨rfl, rfl, rfl, rfl⟩
  · have hmem := selectChild_mem hchild
    have hrunning : ¬ (k.localIrqSave.pcbs child).Stopped := fun hstopped =>
      hstopped.1 (hk.untraced child hmem)
    have hnotwaiting : (k.localIrqSave.pcbs child).state ≠ .waiting := hk.notWaiting child hmem
    rw [resumeChild_unstopped hrunning, joinChild_joins hnotwaiting] at hk₁
    have hreq : (k₁.pcbs child).ptracePendingReq = .noRequest := by
      rw [← hk.untraced child hmem]
      rcases hjoin.pcbs _ _ _ child hk₁ with hsame | ⟨_, hdropped⟩
      · rw [hsame]
        rfl
      · rw [hdropped]
        rfl
    have hreaps := fun status => reaps_of_join (k := k.localIrqSave) status wstatus hjoin hk₁
    rw [resumeChild_unstopped hrunning, collectChild_untraced hreq]
    refine .reaped child hchild hwait (selectChild_pid hchild) reapChild_released
      reapChild_delivered (fun hdrops => ?_) ?_
    · have hdropped := hdrops _ _ _ child hk₁ rfl
      rwa [reapChild_kernel]
    · obtain ⟨hfinished, hpcbs, hlist, hcreated, hcurrent⟩ := hreaps _
      exact ⟨hfinished, hpcbs, hlist, hcreated, hcurrent⟩

end

/-! ### The steps of a run -/

section
variable {s s' : Sys} {e : Event}

/- Which thread calls makes no difference to the table. -/
def Sys.enter (s : Sys) (t : Tid) : Kernel := { s.kernel with current := t }

theorem Settled.enter {t : Tid} (hs : Settled s.kernel) : Settled (s.enter t) :=
  ⟨hs.fresh, hs.nodup, hs.untraced, hs.notWaiting, hs.finished⟩

theorem step_perform (h : Sys.step X s e = some s') :
    ∃ p, (s.enter e.thread).caller = some p ∧ p ∈ s.kernel.procList ∧
      (s.kernel.pcbs p).state ≠ .zombie ∧
      Sys.perform X { s with kernel := s.enter e.thread } e.call = some s' := by
  rw [Sys.step] at h
  split at h
  · cases h
  · rename_i p hp
    split_ifs at h with hlive
    exact ⟨p, hp, hlive.1, hlive.2, h⟩

theorem step_waitpid {t : Tid} {pid options : Word} {wstatus : Option Word}
    (h : Sys.step X s ⟨t, .waitpid pid wstatus options⟩ = some s') :
    ∃ r, doWaitpid X pid wstatus options (s.enter t) = some r ∧ s'.kernel = r.kernel ∧
      s'.released = s.released ++ r.effects.filterMap Effect.released? ∧
      s'.delivered = s.delivered ++ r.effects.filterMap Effect.delivered? := by
  obtain ⟨_, _, _, _, hperform⟩ := step_perform h
  obtain ⟨r, hr, rfl⟩ := Option.map_eq_some_iff.mp hperform
  exact ⟨r, hr, rfl, rfl, rfl⟩

/-- The event is a `waitpid` that reaps `child` if it completes. -/
def WaitsFor (X : Platform) (k : Kernel) (e : Event) (child : PcbPtr) : Prop :=
  ∃ pid wstatus options, e.call = .waitpid pid wstatus options ∧ selectChild pid k = some child ∧
    ¬ (options &&& X.wnohang ≠ 0 ∧ (k.pcbs child).state ≠ .zombie)

/-- What a step of a run does: to the table, and to the two logs. -/
structure SysStep (X : Platform) (s s' : Sys) (e : Event) (reaped : List PcbPtr) : Prop where
  table : TableStep s.kernel s'.kernel reaped
  released : s'.released = s.released ++ reaped
  delivered : s'.delivered = s.delivered ∨ s'.delivered = s.delivered ++ reaped
  waits : ∀ child, WaitsFor X s.kernel e child ↔ reaped = [child]
  dropped : JoinDrops X.threadJoin → ∀ c ∈ reaped, (s'.kernel.pcbs c).mainThread = none

theorem SysStep.of_table (h : TableStep s.kernel s'.kernel [])
    (hreleased : s'.released = s.released) (hdelivered : s'.delivered = s.delivered)
    (hwaits : ∀ child, ¬ WaitsFor X s.kernel e child) : SysStep X s s' e [] :=
  ⟨h, by rw [hreleased, List.append_nil], Or.inl hdelivered,
    fun child => ⟨fun hw => absurd hw (hwaits child), fun hnil => nomatch hnil⟩,
    fun _ _ hc => absurd hc List.not_mem_nil⟩

theorem step_table (hjoin : JoinsInStep X.threadJoin) (hs : Settled s.kernel)
    (h : Sys.step X s e = some s') : ∃ reaped, SysStep X s s' e reaped := by
  obtain ⟨p, hcaller, hp, _, hperform⟩ := step_perform h
  obtain ⟨t, call⟩ := e
  cases call with
  | fork =>
    obtain ⟨⟨k', r⟩, hfork, rfl⟩ := Option.map_eq_some_iff.mp hperform
    refine ⟨[], .of_table ?_ rfl rfl fun child ⟨_, _, _, hcall, _⟩ => nomatch hcall⟩
    rcases doFork_table hfork with h | ⟨q, child, hq, h⟩
    · exact .same ⟨h.pcbs, h.procList, h.created, h.pidCurrent⟩
    · obtain rfl := Option.some.inj (hcaller.symm.trans hq)
      exact .fork p child hp ⟨h.pcbs, h.procList, h.created, h.pidCurrent, h.pid, h.parent,
        h.state, h.request, h.mainThread⟩
  | exit exitStatus =>
    obtain ⟨k', hexit, rfl⟩ := Option.map_eq_some_iff.mp hperform
    refine ⟨[], .of_table ?_ rfl rfl fun child ⟨_, _, _, hcall, _⟩ => nomatch hcall⟩
    obtain ⟨q, hq, h⟩ := doExit_table hexit
    obtain rfl := Option.some.inj (hcaller.symm.trans hq)
    exact .exit p exitStatus hp ⟨h.parent, h.pcbs, h.procList, h.created, h.pidCurrent⟩
  | waitpid pid wstatus options =>
    obtain ⟨r, hr, rfl⟩ := Option.map_eq_some_iff.mp hperform
    cases doWaitpid_step hjoin hs.enter hr with
    | unknown hnone _ heffects h =>
      refine ⟨[], .of_table (.same ⟨h.pcbs, h.procList, h.created, h.pidCurrent⟩)
        (by simp [heffects]) (by simp [heffects]) fun child ⟨_, _, _, hcall, hchild, _⟩ => ?_⟩
      cases hcall
      exact nomatch hnone.symm.trans hchild
    | alive c hc hnohang hstate _ heffects h =>
      refine ⟨[], .of_table (.same ⟨h.pcbs, h.procList, h.created, h.pidCurrent⟩)
        (by simp [heffects]) (by simp [heffects]) fun child ⟨_, _, _, hcall, hchild, hwait⟩ => ?_⟩
      cases hcall
      cases hc.symm.trans hchild
      exact hwait ⟨hnohang, hstate⟩
    | reaped c hc hwait _ hreleased hdelivered hdropped h =>
      refine ⟨[c], .reap c (selectChild_mem (k := s.enter t) hc)
        ⟨h.finished, h.pcbs, h.procList, h.created, h.pidCurrent⟩, by simp [hreleased], ?_,
        fun child => ⟨fun ⟨_, _, _, hcall, hchild, _⟩ => ?_, fun heq => ?_⟩, fun hdrops d hd => ?_⟩
      · simp only [hdelivered]
        split_ifs
        · exact Or.inr rfl
        · exact Or.inl (List.append_nil _)
      · cases hcall
        cases hc.symm.trans hchild
        rfl
      · cases heq
        exact ⟨pid, wstatus, options, rfl, hc, hwait⟩
      · rw [List.mem_singleton.mp hd]
        exact hdropped hdrops

end

/-! ### What every step keeps -/

theorem Reaps.same {child : PcbPtr} (h : Reaps k k' child) (c : PcbPtr) :
    ∃ m, k'.pcbs c = { k.pcbs c with mainThread := m } := by
  rcases h.pcbs c with hsame | ⟨_, hdropped⟩
  · exact ⟨(k.pcbs c).mainThread, hsame⟩
  · exact ⟨none, hdropped⟩

theorem Reaps.mem {child c : PcbPtr} (h : Reaps k k' child) (hc : c ∈ k'.procList) :
    c ∈ k.procList := by
  rw [h.procList] at hc
  split_ifs at hc
  · exact List.mem_of_mem_erase hc
  · exact hc

theorem Reaps.zombie {child : PcbPtr} (h : Reaps k k' child) (hk : Settled k)
    (hchild : child ∈ k.procList) : (k.pcbs child).state = .zombie := by
  by_cases hmain : (k.pcbs child).mainThread = none
  · exact hk.finished child hchild hmain
  · exact h.finished hmain child hchild rfl

theorem Forks.old {p a : PcbPtr} {child : Pcb} (h : Forks k k' p child) (hk : Settled k)
    (ha : a ∈ k.procList) : k'.pcbs a = k.pcbs a := by
  rw [h.pcbs]
  exact Function.update_of_ne (Nat.ne_of_lt (hk.fresh a ha)) _ _

theorem Forks.born {p : PcbPtr} {child : Pcb} (h : Forks k k' p child) :
    k'.pcbs k.created = child := by
  rw [h.pcbs]
  exact Function.update_self _ _ _

theorem SameTable.settled (h : SameTable k k') (hk : Settled k) : Settled k' := by
  refine ⟨?_, ?_, ?_, ?_, ?_⟩
  · rw [h.procList, h.created]
    exact hk.fresh
  · rw [h.procList]
    exact hk.nodup
  · rw [h.procList, h.pcbs]
    exact hk.untraced
  · rw [h.procList, h.pcbs]
    exact hk.notWaiting
  · rw [h.procList, h.pcbs]
    exact hk.finished

theorem Forks.settled {p : PcbPtr} {child : Pcb} (h : Forks k k' p child) (hk : Settled k) :
    Settled k' := by
  have hcases : ∀ a ∈ k'.procList, a ∈ k.procList ∨ a = k.created := fun a ha => by
    rw [h.procList] at ha
    exact (List.mem_append.mp ha).imp_right List.mem_singleton.mp
  refine ⟨fun a ha => ?_, ?_, fun a ha => ?_, fun a ha => ?_, fun a ha hnone => ?_⟩
  · rw [h.created]
    rcases hcases a ha with ha | rfl
    · exact Nat.lt_succ_of_lt (hk.fresh a ha)
    · exact Nat.lt_succ_self _
  · rw [h.procList, List.nodup_append]
    refine ⟨hk.nodup, List.nodup_singleton _, fun a ha b hb => ?_⟩
    rw [List.mem_singleton.mp hb]
    exact Nat.ne_of_lt (hk.fresh a ha)
  · rcases hcases a ha with ha | rfl
    · rw [h.old hk ha, hk.untraced a ha]
    · rw [h.born, h.request]
  · rcases hcases a ha with ha | rfl
    · rw [h.old hk ha]
      exact hk.notWaiting a ha
    · rw [h.born, h.state]
      exact nofun
  · rcases hcases a ha with ha | rfl
    · rw [h.old hk ha] at hnone ⊢
      exact hk.finished a ha hnone
    · rw [h.born] at hnone
      exact absurd hnone h.mainThread

theorem Exits.pcb {p : PcbPtr} {exitStatus : Word} (h : Exits k k' p exitStatus) (a : PcbPtr) :
    k'.pcbs a = if a = p then { k.pcbs p with state := .zombie, exitStatus := exitStatus }
      else k.pcbs a := by
  rw [h.pcbs, Function.update_apply]

theorem Exits.settled {p : PcbPtr} {exitStatus : Word} (h : Exits k k' p exitStatus)
    (hk : Settled k) (hp : p ∈ k.procList) : Settled k' := by
  refine ⟨?_, ?_, fun a ha => ?_, fun a ha => ?_, fun a ha hnone => ?_⟩
  · rw [h.procList, h.created]
    exact hk.fresh
  · rw [h.procList]
    exact hk.nodup
  · rw [h.procList] at ha
    rw [h.pcb]
    split_ifs
    · exact hk.untraced p hp
    · exact hk.untraced a ha
  · rw [h.procList] at ha
    rw [h.pcb]
    split_ifs
    · exact nofun
    · exact hk.notWaiting a ha
  · rw [h.procList] at ha
    rw [h.pcb] at hnone ⊢
    split_ifs at hnone ⊢
    · rfl
    · exact hk.finished a ha hnone

theorem Reaps.settled {child : PcbPtr} (h : Reaps k k' child) (hk : Settled k) : Settled k' := by
  refine ⟨fun a ha => ?_, ?_, fun a ha => ?_, fun a ha => ?_, fun a ha hnone => ?_⟩
  · rw [h.created]
    exact hk.fresh a (h.mem ha)
  · rw [h.procList]
    split_ifs
    · exact hk.nodup.erase child
    · exact hk.nodup
  · obtain ⟨m, hm⟩ := h.same a
    rw [hm]
    exact hk.untraced a (h.mem ha)
  · obtain ⟨m, hm⟩ := h.same a
    rw [hm]
    exact hk.notWaiting a (h.mem ha)
  · rcases h.pcbs a with hsame | ⟨hmain, hdropped⟩
    · rw [hsame] at hnone ⊢
      exact hk.finished a (h.mem ha) hnone
    · rw [hdropped]
      by_cases hchildren : (k.pcbs child).mainThread = none
      · exact hk.finished a (h.mem ha) (hmain.trans hchildren)
      · exact h.finished hchildren a (h.mem ha) hmain

theorem Settled.step {reaped : List PcbPtr} (hk : Settled k) (h : TableStep k k' reaped) :
    Settled k' := by
  cases h with
  | same h => exact h.settled hk
  | fork p child hp h => exact h.settled hk
  | exit p exitStatus hp h => exact h.settled hk hp
  | reap child hchild h => exact h.settled hk

end SyeLabs.So3
