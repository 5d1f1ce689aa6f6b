import SyeLabs.Shell.Sessions
import SyeLabs.So3.ProcessTree
import SyeLabs.So3.Reaping

/-!
# The shell on the kernel (`lab7/sh.c` and `lab9/process.c`)

The shell is a thread of one process, and its `fork` and `waitpid` are calls of the
kernel. The other processes, its children among them, fork, end and wait in between.
-/

namespace SyeLabs.Shell

open ByteMemory (CStr Memory)
open Interaction (Prog)
open So3 (Sys Platform PcbPtr Tid Kernel Genealogy TableStep)

/-- The kernel, what is left of the shell's round, and the shell's calls so far. -/
structure Host where
  sys : Sys
  tokens : Memory
  shell : Cmd
  log : List (Call × Answer)

inductive HostEvent where
  | line (input : CStr) (stack : Stack) (self : ℤ)
  /-- the next call of the shell; `a` stands for what this kernel does not decide -/
  | call (a : Answer)
  /-- a fork, exit or wait of another process, nobody being traced -/
  | other (e : So3.Event)

variable (X : Platform) (processCmd : Memory → Stack → ℤ → Cmd) (t : Tid) (p : PcbPtr)

/-- A call of the shell's thread. -/
def serve (s : Sys) (c : Call) (a : Answer) : Option (Sys × Answer) :=
  match c with
  | .fork => do
    let s' ← s.step X ⟨t, .fork⟩
    let (_, pid) ← So3.doFork X (s.enter t)
    some (s', {a with ret := pid.toInt})
  | .waitpid pid => do
    let s' ← s.step X ⟨t, .waitpid (BitVec.ofInt 32 pid) none 0⟩
    let r ← So3.doWaitpid X (BitVec.ofInt 32 pid) none 0 (s.enter t)
    some (s', {a with ret := r.ret.toInt})
  | _ => some (s, a)

namespace Host

def step (h : Host) : HostEvent → Option Host
  | .line input stack self =>
    match h.shell with
    | .done .returned =>
      some {h with
        tokens := match readLine h.tokens input with
          | .ok m => m
          | .error _ => h.tokens
        shell := mainRound processCmd h.tokens stack self input}
    | _ => none
  | .call a =>
    match h.shell with
    | .done _ => none
    | .call c next =>
      if (h.sys.enter t).caller = some p then
        (serve X t h.sys c a).map fun r =>
          {h with sys := r.1, shell := next r.2, log := h.log ++ [(c, r.2)]}
      else none
  | .other e =>
    if (h.sys.enter e.thread).caller = some p then none
    else (h.sys.step X e).map fun s => {h with sys := s}

/-- The shell before its first line. -/
def start (s : Sys) (tokens : Memory) : Host := ⟨s, tokens, returned, []⟩

end Host

variable {X processCmd t p}

/-- What a step does: a line is read, the shell calls, or another process calls. -/
inductive HostStep (X : Platform) (processCmd : Memory → Stack → ℤ → Cmd) (t : Tid) (p : PcbPtr)
    (h : Host) : HostEvent → Host → Prop
  | line (input : CStr) (stack : Stack) (self : ℤ) (m : Memory) (hprompt : h.shell = returned) :
    HostStep X processCmd t p h (.line input stack self)
      {h with tokens := m, shell := mainRound processCmd h.tokens stack self input}
  | call (c : Call) (next : Answer → Cmd) (a a' : Answer) (s' : Sys)
    (hshell : h.shell = .call c next) (hcaller : (h.sys.enter t).caller = some p)
    (hserve : serve X t h.sys c a = some (s', a')) :
    HostStep X processCmd t p h (.call a)
      {h with sys := s', shell := next a', log := h.log ++ [(c, a')]}
  | other (e : So3.Event) (s' : Sys) (hother : (h.sys.enter e.thread).caller ≠ some p)
    (hs' : h.sys.step X e = some s') : HostStep X processCmd t p h (.other e) {h with sys := s'}

theorem host_step {h h' : Host} {e : HostEvent} (hstep : h.step X processCmd t p e = some h') :
    HostStep X processCmd t p h e h' := by
  cases e with
  | line input stack self =>
    simp only [Host.step] at hstep
    split at hstep
    · rename_i hprompt
      cases hstep
      exact .line input stack self _ hprompt
    · cases hstep
  | call a =>
    simp only [Host.step] at hstep
    split at hstep
    · cases hstep
    · rename_i c next hshell
      split_ifs at hstep with hcaller
      obtain ⟨⟨s', a'⟩, hserve, rfl⟩ := Option.map_eq_some_iff.mp hstep
      exact .call c next a a' s' hshell hcaller hserve
  | other e =>
    simp only [Host.step] at hstep
    split_ifs at hstep with hother
    obtain ⟨s', hs', rfl⟩ := Option.map_eq_some_iff.mp hstep
    exact .other e s' hother hs'

/-! ### Pids -/

/-- The pid of a process, as `fork` returns it. -/
def pidOf (a : PcbPtr) : ℤ := (BitVec.ofNat 32 (a + 1)).toInt

/-- The shell waited for the pid after a fork had returned it. -/
def WaitedFor (log : List (Call × Answer)) (pid : ℤ) : Prop :=
  List.Sublist [.started pid, .waited pid] (children log)

variable {s s' : Sys} {log log' : List (Call × Answer)} {a : PcbPtr}

theorem ofInt_pidOf (a : PcbPtr) : BitVec.ofInt 32 (pidOf a) = BitVec.ofNat 32 (a + 1) :=
  BitVec.ofInt_toInt

theorem pidOf_inj {a b : ℕ} (ha : a + 1 < 2 ^ 32) (hb : b + 1 < 2 ^ 32) (h : pidOf a = pidOf b) :
    a = b := by
  have hword := congrArg BitVec.toNat (BitVec.eq_of_toInt_eq h)
  rw [BitVec.toNat_ofNat, BitVec.toNat_ofNat, Nat.mod_eq_of_lt ha, Nat.mod_eq_of_lt hb] at hword
  exact Nat.succ.inj hword

theorem ofNat_ne_neg_one {a : ℕ} (ha : a + 1 < 2 ^ 32 - 1) : BitVec.ofNat 32 (a + 1) ≠ -1 := by
  intro h
  have hword := congrArg BitVec.toNat h
  rw [BitVec.toNat_ofNat, Nat.mod_eq_of_lt (by omega)] at hword
  have hall : (-1 : BitVec 32).toNat = 2 ^ 32 - 1 := by decide
  omega

theorem pidOf_ne_failed {a : ℕ} (ha : a + 1 < 2 ^ 32 - 1) : pidOf a ≠ -1 := by
  intro h
  have hword := congrArg (BitVec.ofInt 32) h
  rw [ofInt_pidOf] at hword
  exact ofNat_ne_neg_one ha hword

theorem pair_sublist_snoc {α : Type} {x y z : α} {l : List α}
    (h : List.Sublist [x, y] (l ++ [z])) : List.Sublist [x, y] l ∨ (y = z ∧ x ∈ l) := by
  induction l with
  | nil =>
    cases h with
    | cons _ h => exact absurd h (by simp)
    | cons_cons _ h => exact absurd h (by simp)
  | cons w l ih =>
    cases h with
    | cons _ h =>
      rcases ih h with hsub | ⟨hy, hx⟩
      · exact Or.inl (hsub.cons w)
      · exact Or.inr ⟨hy, List.mem_cons_of_mem _ hx⟩
    | cons_cons _ h =>
      rcases List.mem_append.mp (List.singleton_sublist.mp h) with hy | hy
      · exact Or.inl ((List.singleton_sublist.mpr hy).cons_cons _)
      · exact Or.inr ⟨List.mem_singleton.mp hy, List.mem_cons_self ..⟩

/-! ### The children of the shell in the table -/

/-- What the log tells about the processes whose parent is `p`: their pids were returned by
forks, and those that were waited for are reaped. -/
structure Tracked (p : PcbPtr) (s : Sys) (log : List (Call × Answer)) : Prop where
  started : ∀ a ∈ s.kernel.procList, (s.kernel.pcbs a).parent = some p →
    .started (pidOf a) ∈ children log
  born : ∀ pid, .started pid ∈ children log → pid = -1 ∨ ∃ a < s.kernel.created, pid = pidOf a
  reaped : ∀ a ∈ s.kernel.procList, WaitedFor log (pidOf a) → a ∈ s.released

/-- The process was in the table before the step. -/
def Stays (s s' : Sys) (a : PcbPtr) : Prop :=
  a ∈ s.kernel.procList ∧ (s'.kernel.pcbs a).parent = (s.kernel.pcbs a).parent

/-- The process is the one that the step has made. -/
def Born (s s' : Sys) (a : PcbPtr) (parent : Option PcbPtr) : Prop :=
  a = s.kernel.created ∧ s'.kernel.created = s.kernel.created + 1 ∧
    (s'.kernel.pcbs a).parent = parent

theorem Tracked.not_waited (h : Tracked p s log) (hfew : s.kernel.created + 1 < 2 ^ 32 - 1) :
    .started (pidOf s.kernel.created) ∉ children log := by
  intro hmem
  rcases h.born _ hmem with hfailed | ⟨a, ha, heq⟩
  · exact pidOf_ne_failed hfew hfailed
  · have hsame := pidOf_inj (by omega) (by omega) heq
    exact absurd hsame (Nat.ne_of_gt ha)

/-- A step that goes with the entry `entry` in the shell's log. -/
theorem Tracked.advance (h : Tracked p s log) {entry : List (Call × Answer)}
    (parent : Option PcbPtr) (hfew : s'.kernel.created < 2 ^ 32 - 1)
    (hcreated : s.kernel.created ≤ s'.kernel.created)
    (hcomes : ∀ a ∈ s'.kernel.procList, Stays s s' a ∨ Born s s' a parent)
    (hreleased : ∀ a ∈ s.released, a ∈ s'.released)
    (hparent : parent = some p → .started (pidOf s.kernel.created) ∈ children (log ++ entry))
    (hborn : ∀ pid, .started pid ∈ children entry →
      pid = -1 ∨ ∃ a < s'.kernel.created, pid = pidOf a)
    (hwaited : ∀ pid, WaitedFor (log ++ entry) pid → WaitedFor log pid ∨
      (.started pid ∈ children log ∧ ∀ a ∈ s'.kernel.procList, pid = pidOf a → a ∈ s'.released)) :
    Tracked p s' (log ++ entry) := by
  refine ⟨fun a ha hp => ?_, fun pid hpid => ?_, fun a ha hwait => ?_⟩
  · rcases hcomes a ha with ⟨hold, hsame⟩ | ⟨rfl, _, hnew⟩
    · rw [children_append]
      exact List.mem_append_left _ (h.started a hold (hsame.symm.trans hp))
    · exact hparent (hnew.symm.trans hp)
  · rw [children_append] at hpid
    rcases List.mem_append.mp hpid with hold | hnew
    · refine (h.born pid hold).imp_right fun ⟨a, ha, heq⟩ => ⟨a, ?_, heq⟩
      exact Nat.lt_of_lt_of_le ha hcreated
    · exact hborn pid hnew
  · have hstarted : WaitedFor log (pidOf a) → .started (pidOf a) ∈ children log :=
      fun hsub => hsub.subset (List.mem_cons_self ..)
    rcases hcomes a ha with ⟨hold, _⟩ | ⟨rfl, hgrown, _⟩
    · rcases hwaited _ hwait with hbefore | ⟨_, hnow⟩
      · exact hreleased a (h.reaped a hold hbefore)
      · exact hnow a ha rfl
    · have hnot := h.not_waited (by omega)
      rcases hwaited _ hwait with hbefore | ⟨hmem, _⟩
      · exact absurd (hstarted hbefore) hnot
      · exact absurd hmem hnot

/-! ### The calls -/

theorem step_comes (hjoin : So3.JoinsInStep X.threadJoin) (hs : So3.Settled s.kernel) {e : So3.Event}
    (h : s.step X e = some s') :
    ∀ a ∈ s'.kernel.procList,
      Stays s s' a ∨ (e.call = .fork ∧ Born s s' a (s.enter e.thread).caller) := by
  obtain ⟨q, hcaller, hq, _, hperform⟩ := So3.step_perform h
  intro a ha
  obtain ⟨t, call⟩ := e
  cases call with
  | fork =>
    obtain ⟨⟨k', r⟩, hfork, rfl⟩ := Option.map_eq_some_iff.mp hperform
    rcases So3.doFork_table hfork with hsame | ⟨q', child, hq', hforks⟩
    · rw [hsame.procList] at ha
      exact Or.inl ⟨ha, by rw [hsame.pcbs]; rfl⟩
    · rw [hforks.procList] at ha
      rcases List.mem_append.mp ha with hold | hnew
      · exact Or.inl ⟨hold, by rw [hforks.old hs.enter hold]; rfl⟩
      · have hlast : a = s.kernel.created := List.mem_singleton.mp hnew
        refine Or.inr ⟨rfl, hlast, hforks.created, ?_⟩
        have hborn : k'.pcbs a = child := hlast ▸ hforks.born
        rw [hborn, hforks.parent]
        exact hq'.symm
  | exit exitStatus =>
    obtain ⟨k', hexit, rfl⟩ := Option.map_eq_some_iff.mp hperform
    obtain ⟨q', _, hexits⟩ := So3.doExit_table hexit
    rw [hexits.procList] at ha
    refine Or.inl ⟨ha, ?_⟩
    rw [hexits.pcb]
    split_ifs with haq
    · rw [haq]
      rfl
    · rfl
  | waitpid pid wstatus options =>
    obtain ⟨r, hr, rfl⟩ := Option.map_eq_some_iff.mp hperform
    have hsame : ∀ {k'}, So3.SameTable (s.enter t) k' → a ∈ k'.procList →
        a ∈ s.kernel.procList ∧ (k'.pcbs a).parent = (s.kernel.pcbs a).parent := by
      intro k' htable hmem
      rw [htable.procList] at hmem
      exact ⟨hmem, by rw [htable.pcbs]; rfl⟩
    cases So3.doWaitpid_step hjoin hs.enter hr with
    | unknown _ _ _ htable => exact Or.inl (hsame htable ha)
    | alive _ _ _ _ _ _ htable => exact Or.inl (hsame htable ha)
    | reaped child _ _ _ _ _ _ hreaps =>
      obtain ⟨m, hm⟩ := hreaps.same a
      exact Or.inl ⟨hreaps.mem ha, by rw [hm]; rfl⟩

/-- What every step of the kernel keeps. -/
structure Grows (s s' : Sys) : Prop where
  genealogy : Genealogy s'.kernel
  created : s.kernel.created ≤ s'.kernel.created
  released : ∀ a ∈ s.released, a ∈ s'.released

theorem grows_of_step (hjoin : So3.JoinsInStep X.threadJoin) (hs : Genealogy s.kernel)
    {e : So3.Event} (h : s.step X e = some s') : Grows s s' := by
  obtain ⟨reaped, hstep⟩ := So3.step_table hjoin hs.settled h
  refine ⟨hs.step hstep.table, hstep.table.created_le, fun a ha => ?_⟩
  rw [hstep.released]
  exact List.mem_append_left _ ha

theorem Tracked.other (h : Tracked p s log) (hjoin : So3.JoinsInStep X.threadJoin)
    (hs : Genealogy s.kernel) {e : So3.Event} (hother : (s.enter e.thread).caller ≠ some p)
    (hstep : s.step X e = some s') (hfew : s'.kernel.created < 2 ^ 32 - 1) : Tracked p s' log := by
  have hgrows := grows_of_step hjoin hs hstep
  rw [← List.append_nil log]
  refine h.advance _ hfew hgrows.created
    (fun a ha => (step_comes hjoin hs.settled hstep a ha).imp_right And.right) hgrows.released
    (fun hp => absurd hp hother) (fun pid hpid => absurd hpid List.not_mem_nil) fun pid hwait => ?_
  rw [List.append_nil] at hwait
  exact Or.inl hwait

theorem serve_fork {a a' : Answer} (h : serve X t s .fork a = some (s', a')) :
    s.step X ⟨t, .fork⟩ = some s' ∧
      ∃ k r, So3.doFork X (s.enter t) = some (k, r) ∧ a'.ret = r.toInt := by
  obtain ⟨s₁, hstep, h⟩ := Option.bind_eq_some_iff.mp h
  obtain ⟨⟨k, r⟩, hfork, h⟩ := Option.bind_eq_some_iff.mp h
  cases h
  exact ⟨hstep, k, r, hfork, rfl⟩

theorem serve_waitpid {a a' : Answer} {pid : ℤ} (h : serve X t s (.waitpid pid) a = some (s', a')) :
    s.step X ⟨t, .waitpid (BitVec.ofInt 32 pid) none 0⟩ = some s' := by
  obtain ⟨s₁, hstep, h⟩ := Option.bind_eq_some_iff.mp h
  obtain ⟨r, hwait, h⟩ := Option.bind_eq_some_iff.mp h
  cases h
  exact hstep

theorem waitedFor_snoc {c : Call × Answer} {event : ChildEvent} {pid : ℤ}
    (hc : children [c] = [event]) (h : WaitedFor (log ++ [c]) pid) :
    WaitedFor log pid ∨ (event = .waited pid ∧ .started pid ∈ children log) := by
  rw [WaitedFor, children_append, hc] at h
  exact (pair_sublist_snoc h).imp_right fun ⟨hevent, hmem⟩ => ⟨hevent.symm, hmem⟩

theorem Tracked.fork (h : Tracked p s log) (hjoin : So3.JoinsInStep X.threadJoin)
    (hs : Genealogy s.kernel) {a a' : Answer} (hserve : serve X t s .fork a = some (s', a'))
    (hfew : s'.kernel.created < 2 ^ 32 - 1) : Tracked p s' (log ++ [(.fork, a')]) := by
  obtain ⟨hstep, k, r, hfork, hret⟩ := serve_fork hserve
  have hgrows := grows_of_step hjoin hs hstep
  obtain ⟨_, _, _, _, hperform⟩ := So3.step_perform hstep
  obtain ⟨out, hout, rfl⟩ := Option.map_eq_some_iff.mp hperform
  obtain rfl : out = (k, r) := Option.some.inj (hout.symm.trans hfork)
  have hentry : children [(Call.fork, a')] = [.started a'.ret] := rfl
  have hwaited : ∀ pid, WaitedFor (log ++ [(.fork, a')]) pid → WaitedFor log pid := fun pid hwait =>
    (waitedFor_snoc hentry hwait).resolve_right fun hlast => nomatch hlast.1
  have hstarted : ∀ pid, ChildEvent.started pid ∈ children [(Call.fork, a')] → pid = a'.ret :=
    fun pid hpid => ChildEvent.started.inj (List.mem_singleton.mp hpid)
  obtain ⟨_, _, ⟨_, hk, hr⟩ | ⟨_, hr, child, tcbs, mem, hk, _⟩⟩ := So3.doFork_cases hfork
  · -- not the main thread: nothing has changed
    have hfailed : a'.ret = -1 := by
      rw [hret, hr]
      rfl
    refine h.advance none hfew hgrows.created (fun b hb => ?_) hgrows.released
      (fun hnone => nomatch hnone) (fun pid hpid => Or.inl ((hstarted pid hpid).trans hfailed))
      fun pid hwait => Or.inl (hwaited pid hwait)
    rw [hk] at hb ⊢
    exact Or.inl ⟨hb, rfl⟩
  · have hpid : a'.ret = pidOf s.kernel.created := by
      rw [hret, hr]
      exact congrArg BitVec.toInt hs.pidCurrent
    have hnew : s.kernel.created < k.created := by
      rw [hk]
      exact Nat.lt_succ_self _
    refine h.advance _ hfew hgrows.created
      (fun b hb => (step_comes hjoin hs.settled hstep b hb).imp_right And.right) hgrows.released
      (fun _ => ?_)
      (fun pid hmem => Or.inr ⟨_, hnew, (hstarted pid hmem).trans hpid⟩)
      fun pid hwait => Or.inl (hwaited pid hwait)
    rw [children_append, hentry, hpid]
    exact List.mem_append_right _ (List.mem_singleton.mpr rfl)

/- The process that the pid names is gone from the table, or it is the one that is reaped. -/
theorem reaped_of_waitpid (hjoin : So3.JoinsInStep X.threadJoin) (hs : Genealogy s.kernel)
    (hfew : s.kernel.created < 2 ^ 32 - 1)
    (hstep : s.step X ⟨t, .waitpid (BitVec.ofNat 32 (a + 1)) none 0⟩ = some s')
    (hold : a ∈ s.kernel.procList) : a ∈ s'.released := by
  obtain ⟨r, hr, hkernel, hreleased, _⟩ := So3.step_waitpid hstep
  have hfresh : a < s.kernel.created := hs.settled.fresh a hold
  have hselect : So3.selectChild (BitVec.ofNat 32 (a + 1)) (s.enter t) =
      s.kernel.findProcByPid (BitVec.ofNat 32 (a + 1)) :=
    if_neg (ofNat_ne_neg_one (Nat.lt_of_le_of_lt hfresh hfew))
  cases So3.doWaitpid_step hjoin hs.settled.enter hr with
  | unknown hnone _ _ _ =>
    rw [hselect, So3.Kernel.findProcByPid, List.find?_eq_none] at hnone
    exact absurd (by simpa using hs.pid a hold) (hnone a hold)
  | alive _ _ hnohang _ _ _ _ => exact absurd (by simp) hnohang
  | reaped child hchild _ _ hlogged _ _ _ =>
    rw [hselect] at hchild
    obtain ⟨hmem, hpid⟩ := So3.findProcByPid_some hchild
    rw [hs.pid child hmem] at hpid
    have hsame : child = a := by
      have hsmall : ∀ b ∈ s.kernel.procList, b + 1 < 2 ^ 32 := fun b hb => by
        have hb' : b < s.kernel.created := hs.settled.fresh b hb
        exact Nat.lt_of_le_of_lt hb' (by omega)
      exact pidOf_inj (hsmall child hmem) (hsmall a hold) (congrArg BitVec.toInt hpid)
    rw [hreleased, hlogged, hsame]
    exact List.mem_append_right _ (List.mem_singleton.mpr rfl)

theorem Tracked.waitpid (h : Tracked p s log) (hjoin : So3.JoinsInStep X.threadJoin)
    (hs : Genealogy s.kernel) {pid : ℤ} {a a' : Answer}
    (hserve : serve X t s (.waitpid pid) a = some (s', a'))
    (hfew : s'.kernel.created < 2 ^ 32 - 1) : Tracked p s' (log ++ [(.waitpid pid, a')]) := by
  have hstep := serve_waitpid hserve
  have hgrows := grows_of_step hjoin hs hstep
  have hentry : children [(Call.waitpid pid, a')] = [.waited pid] := rfl
  have hstays : ∀ b ∈ s'.kernel.procList, Stays s s' b := fun b hb =>
    (step_comes hjoin hs.settled hstep b hb).resolve_right fun hborn => nomatch hborn.1
  refine h.advance none hfew hgrows.created (fun b hb => Or.inl (hstays b hb)) hgrows.released
    (fun hnone => nomatch hnone) (fun x hx => nomatch List.mem_singleton.mp hx) fun x hwait => ?_
  refine (waitedFor_snoc hentry hwait).imp_right fun ⟨hlast, hstarted⟩ => ⟨hstarted, ?_⟩
  obtain rfl := ChildEvent.waited.inj hlast
  rintro b hb rfl
  rw [ofInt_pidOf] at hstep
  exact reaped_of_waitpid hjoin hs (Nat.lt_of_le_of_lt hgrows.created hfew) hstep (hstays b hb).1

theorem Tracked.unrelated (h : Tracked p s log) {c : Call × Answer} (hc : children [c] = []) :
    Tracked p s (log ++ [c]) := by
  have hchildren : children (log ++ [c]) = children log := by
    rw [children_append, hc, List.append_nil]
  refine ⟨?_, ?_, ?_⟩
  · rw [hchildren]
    exact h.started
  · rw [hchildren]
    exact h.born
  · intro a ha hwait
    rw [WaitedFor, hchildren] at hwait
    exact h.reaped a ha hwait

/-! ### Runs -/

/-- The reaped processes of the table are zombies. -/
def Dead (s : Sys) : Prop :=
  ∀ a ∈ s.released, a ∈ s.kernel.procList → (s.kernel.pcbs a).state = .zombie

theorem Dead.step (h : Dead s) (hs : So3.Logged s) {e : So3.Event} {reaped : List PcbPtr}
    (hstep : So3.SysStep X s s' e reaped) : Dead s' := by
  intro a ha hmem
  rw [hstep.released] at ha
  cases hstep.table with
  | same htable =>
    rw [List.append_nil] at ha
    rw [htable.procList] at hmem
    rw [htable.pcbs]
    exact h a ha hmem
  | fork q child _ hforks =>
    rw [List.append_nil] at ha
    have hold : a ∈ s.kernel.procList :=
      (hstep.table.mem hmem).resolve_right (Nat.ne_of_lt (hs.released a ha))
    rw [hforks.old hs.settled hold]
    exact h a ha hold
  | exit q exitStatus _ hexits =>
    rw [List.append_nil] at ha
    rw [hexits.procList] at hmem
    rw [hexits.pcb]
    split_ifs
    · rfl
    · exact h a ha hmem
  | reap child hchild hreaps =>
    obtain ⟨m, hm⟩ := hreaps.same a
    rw [hm]
    rcases List.mem_append.mp ha with hbefore | hnow
    · exact h a hbefore (hreaps.mem hmem)
    · rw [List.mem_singleton.mp hnow]
      exact hreaps.zombie hs.settled hchild

structure Hosted (p : PcbPtr) (h : Host) : Prop where
  genealogy : Genealogy h.sys.kernel
  logged : So3.Logged h.sys
  dead : Dead h.sys
  attended : Returns (fun rest => Lab7.Attended (h.log ++ rest)) h.shell
  tracked : h.sys.kernel.created < 2 ^ 32 - 1 → Tracked p h.sys h.log

variable {h h' : Host}

theorem Hosted.at_prompt (hh : Hosted p h) (hprompt : h.shell = returned) :
    Lab7.Attended h.log := by
  have hattended := hh.attended
  rw [hprompt] at hattended
  have hlog : Lab7.Attended (h.log ++ []) := hattended (fun _ => ⟨0, (0, 0)⟩) rfl
  rwa [List.append_nil] at hlog

theorem Hosted.sysStep (hh : Hosted p h) (hjoin : So3.JoinsInStep X.threadJoin) {e : So3.Event}
    (hstep : h.sys.step X e = some s') :
    Grows h.sys s' ∧ So3.Logged s' ∧ Dead s' := by
  obtain ⟨reaped, hdone⟩ := So3.step_table hjoin hh.genealogy.settled hstep
  exact ⟨grows_of_step hjoin hh.genealogy hstep, hh.logged.step hdone,
    hh.dead.step hh.logged hdone⟩

theorem Hosted.line (hh : Hosted p h) {input : CStr} {stack : Stack} {self : ℤ}
    (hprompt : h.shell = returned) (m : Memory) :
    Hosted p {h with
      tokens := m
      shell := mainRound Lab7.processCmd h.tokens stack self input} := by
  have hlog := hh.at_prompt hprompt
  refine ⟨hh.genealogy, hh.logged, hh.dead, ?_, hh.tracked⟩
  exact (Lab7.mainRound_attended h.tokens stack self input).imp fun _ _ hround hret =>
    hlog.append (hround hret)

theorem Hosted.other (hh : Hosted p h) (hjoin : So3.JoinsInStep X.threadJoin) {e : So3.Event}
    (hother : (h.sys.enter e.thread).caller ≠ some p) (hstep : h.sys.step X e = some s') :
    Hosted p {h with sys := s'} := by
  obtain ⟨hgrows, hlogged, hdead⟩ := hh.sysStep hjoin hstep
  refine ⟨hgrows.genealogy, hlogged, hdead, hh.attended, fun hfew => ?_⟩
  exact (hh.tracked (Nat.lt_of_le_of_lt hgrows.created hfew)).other hjoin hh.genealogy hother hstep
    hfew

/-- The rest of the round, after the answer to its next call. -/
theorem Hosted.answered (hh : Hosted p h) {c : Call} {next : Answer → Cmd}
    (hshell : h.shell = .call c next) (a : Answer) :
    Returns (fun rest => Lab7.Attended (h.log ++ [(c, a)] ++ rest)) (next a) := by
  have hattended := hh.attended
  rw [hshell] at hattended
  refine (hattended.answer a).imp fun rest o hlog hret => ?_
  change Lab7.Attended (h.log ++ [(c, a)] ++ rest)
  rw [List.append_assoc, List.singleton_append]
  exact hlog hret

theorem Hosted.call (hh : Hosted p h) (hjoin : So3.JoinsInStep X.threadJoin) {c : Call}
    {next : Answer → Cmd} (hshell : h.shell = .call c next) {a a' : Answer}
    (hserve : serve X t h.sys c a = some (s', a')) :
    Hosted p {h with sys := s', shell := next a', log := h.log ++ [(c, a')]} := by
  have hrest := hh.answered hshell a'
  cases c with
  | fork =>
    obtain ⟨hgrows, hlogged, hdead⟩ := hh.sysStep hjoin (serve_fork hserve).1
    refine ⟨hgrows.genealogy, hlogged, hdead, hrest, fun hfew => ?_⟩
    exact (hh.tracked (Nat.lt_of_le_of_lt hgrows.created hfew)).fork hjoin hh.genealogy hserve hfew
  | waitpid pid =>
    obtain ⟨hgrows, hlogged, hdead⟩ := hh.sysStep hjoin (serve_waitpid hserve)
    refine ⟨hgrows.genealogy, hlogged, hdead, hrest, fun hfew => ?_⟩
    exact (hh.tracked (Nat.lt_of_le_of_lt hgrows.created hfew)).waitpid hjoin hh.genealogy hserve
      hfew
  | _ =>
    cases hserve
    exact ⟨hh.genealogy, hh.logged, hh.dead, hrest, fun hfew => (hh.tracked hfew).unrelated rfl⟩

theorem hosted_step (hjoin : So3.JoinsInStep X.threadJoin) {e : HostEvent} (hh : Hosted p h)
    (hstep : h.step X Lab7.processCmd t p e = some h') : Hosted p h' := by
  cases host_step hstep with
  | line input stack self m hprompt => exact hh.line hprompt m
  | call c next a a' s' hshell _ hserve => exact hh.call hjoin hshell hserve
  | other e s' hother hs' => exact hh.other hjoin hother hs'

/- The root process has no parent. -/
theorem start_childless (hstart : So3.Start s.kernel) :
    ∀ a ∈ s.kernel.procList, (s.kernel.pcbs a).parent ≠ some p := by
  intro a ha
  rw [hstart.procList] at ha
  rw [List.mem_singleton.mp ha, hstart.parent]
  exact nofun

theorem logged_start (hstart : So3.Start s.kernel) (hlogs : s.released = [] ∧ s.delivered = []) :
    So3.Logged s := by
  refine ⟨hstart.settled, ?_, ?_⟩
  · rw [hlogs.1]
    exact fun a ha => absurd ha List.not_mem_nil
  · rw [hlogs.2]
    exact fun a ha => absurd ha List.not_mem_nil

theorem tracked_start (hstart : So3.Start s.kernel) : Tracked p s [] := by
  refine ⟨?_, ?_, ?_⟩
  · exact fun a ha hp => absurd hp (start_childless hstart a ha)
  · exact fun pid hpid => absurd hpid List.not_mem_nil
  · exact fun a _ hwait => absurd (hwait.subset (List.mem_cons_self ..)) List.not_mem_nil

theorem hosted_start (hstart : So3.Start s.kernel) (hlogs : s.released = [] ∧ s.delivered = [])
    (m : Memory) : Hosted p (Host.start s m) := by
  refine ⟨hstart.genealogy, logged_start hstart hlogs, ?_, ?_, fun _ => tracked_start hstart⟩
  · intro a ha
    rw [Host.start, hlogs.1] at ha
    exact absurd ha List.not_mem_nil
  · exact returns_returned Lab7.attended_nil

/-- Whenever the shell is at its prompt, every child that is still in the table is dead and
has been reaped. -/
theorem shell_reaps_children (hjoin : So3.JoinsInStep X.threadJoin) (hstart : So3.Start s.kernel)
    (hlogs : s.released = [] ∧ s.delivered = []) {m : Memory} {es : List HostEvent}
    (hrun : Run.exec (Host.step X Lab7.processCmd t p) (Host.start s m) es = some h)
    (hfew : h.sys.kernel.created < 2 ^ 32 - 1) (hprompt : h.shell = returned) :
    ∀ a ∈ h.sys.kernel.procList, (h.sys.kernel.pcbs a).parent = some p →
      a ∈ h.sys.released ∧ (h.sys.kernel.pcbs a).state = .zombie := by
  have hhosted : Hosted p h := Run.exec_invariant_of_step
    (fun u e u' hu hstep => hosted_step hjoin hu hstep) (hosted_start hstart hlogs m) hrun
  have htracked := hhosted.tracked hfew
  obtain ⟨pids, _, hpids⟩ := hhosted.at_prompt hprompt
  intro a ha hparent
  have hstarted := htracked.started a ha hparent
  rw [hpids, List.mem_flatMap] at hstarted
  obtain ⟨pid, hpid, hmem⟩ := hstarted
  have hsame : pidOf a = pid := by
    rcases List.mem_cons.mp hmem with heq | heq
    · exact ChildEvent.started.inj heq
    · exact nomatch List.mem_singleton.mp heq
  have hwait : WaitedFor h.log (pidOf a) := by
    rw [WaitedFor, hpids, hsame]
    exact List.sublist_flatten_of_mem (List.mem_map_of_mem hpid)
  have hreaped := htracked.reaped a ha hwait
  exact ⟨hreaped, hhosted.dead a hreaped ha⟩

/-- The round of a line without `|` that names a program. -/
theorem mainRound_plain (line : CStr) (m : Memory) (stack : Stack) (self : ℤ)
    (hlen : line.val.length < TOKEN_MAX) (hwords : (lineWords line).length < TOKEN_NR)
    (hne : lineWords line ≠ []) (hname : (lineWords line).getD 0 [] ∉ builtinNames)
    (hbar : bar ∉ lineWords line) :
    ∃ scan : Lab7.Scan, mainRound Lab7.processCmd m stack self line = .call .fork fun a =>
      if a.ret = -1 then .act (.printf .fork1Failed) (exit EXIT_FAILURE)
      else if a.ret = 0 then Lab7.child1 stack scan stack.pipeFd
      else .act (.waitpid a.ret) returned := by
  obtain ⟨m', hm, hround⟩ := mainRound_eq Lab7.processCmd m stack self hlen (Nat.le_of_lt hwords)
  have hempty : [] ∉ lineWords line := fun h => lineWords_ne_nil h rfl
  obtain ⟨scan, vectors, hscan, hend, hv⟩ := Lab7.scan_vectors stack hm hempty hwords
  have hpipe : vectors.isPipe = false := by
    rw [← Bool.not_eq_true, hv.piped]
    exact hbar
  refine ⟨vectors, ?_⟩
  rw [hround, if_pos hne, Lab7.processCmd, builtins_launch (hm.name ▸ hname)]
  simp only [Lab7.launch, hscan, hend, Prog.attempt_ok, Lab7.forkChildren, hpipe, if_false,
    Bool.false_eq_true]

/- `ls`, whose process is forked, ends, and is waited for. -/
def lsForeground : CStr := ⟨[108#8, 115#8], by decide⟩

def lsEvents : List HostEvent :=
  [.line lsForeground zeroStack 1, .call ⟨0, (0, 0)⟩, .other ⟨1, .exit 0⟩, .call ⟨0, (0, 0)⟩]

theorem step_call {cmd : Memory → Stack → ℤ → Cmd} {c : Call} {next : Answer → Cmd}
    {a a' : Answer} (hshell : h.shell = .call c next) (hcaller : (h.sys.enter t).caller = some p)
    (hserve : serve X t h.sys c a = some (s', a')) : h.step X cmd t p (.call a) =
      some {h with sys := s', shell := next a', log := h.log ++ [(c, a')]} := by
  simp only [Host.step, hshell, hcaller, hserve, if_true, Option.map_some]

theorem step_other {cmd : Memory → Stack → ℤ → Cmd} {e : So3.Event}
    (hother : (h.sys.enter e.thread).caller ≠ some p) (hstep : h.sys.step X e = some s') :
    h.step X cmd t p (.other e) = some {h with sys := s'} := by
  simp only [Host.step, if_neg hother, hstep, Option.map_some]

/- The three calls of the kernel. -/
theorem ls_calls : ∃ s₁ s₂ s₃ a₁ a₂, serve So3.rootPlatform 0 So3.rootSys .fork ⟨0, (0, 0)⟩ =
      some (s₁, a₁) ∧ a₁.ret = 2 ∧ (s₁.enter 1).caller = some 1 ∧
    s₁.step So3.rootPlatform ⟨1, .exit 0⟩ = some s₂ ∧ (s₂.enter 0).caller = some 0 ∧
    serve So3.rootPlatform 0 s₂ (.waitpid 2) ⟨0, (0, 0)⟩ = some (s₃, a₂) ∧
    s₃.kernel.created = 2 := by
  refine ⟨_, _, _, _, _, rfl, rfl, rfl, rfl, rfl, rfl, rfl⟩

theorem shell_reaps_ls : ∃ h : Host,
    Run.exec (Host.step So3.rootPlatform Lab7.processCmd 0 0)
      (Host.start So3.rootSys fun _ => 0#8) lsEvents = some h ∧ h.shell = returned ∧
    ∀ a ∈ h.sys.kernel.procList, (h.sys.kernel.pcbs a).parent = some 0 →
      a ∈ h.sys.released ∧ (h.sys.kernel.pcbs a).state = .zombie := by
  obtain ⟨scan, hround⟩ := mainRound_plain lsForeground (fun _ => 0#8) zeroStack 1
    (by decide) (by decide) (by decide) (by decide) (by decide)
  obtain ⟨s₁, s₂, s₃, a₁, a₂, hfork, hpid, hchild, hexit, hshell, hwait, hcreated⟩ := ls_calls
  obtain ⟨next, hnext⟩ : ∃ next : Answer → Cmd, next = fun a =>
      if a.ret = -1 then .act (.printf .fork1Failed) (exit EXIT_FAILURE)
      else if a.ret = 0 then Lab7.child1 zeroStack scan zeroStack.pipeFd
      else .act (.waitpid a.ret) returned := ⟨_, rfl⟩
  have hparent : next a₁ = .act (.waitpid 2) returned := by
    simp only [hnext, hpid]
    rfl
  rw [← hnext] at hround
  have hother : (s₁.enter 1).caller ≠ some 0 := by
    rw [hchild]
    decide
  obtain ⟨tokens, hline⟩ : ∃ tokens, Host.step So3.rootPlatform Lab7.processCmd 0 0
      (Host.start So3.rootSys fun _ => 0#8) (.line lsForeground zeroStack 1) =
        some ⟨So3.rootSys, tokens, .call .fork next, []⟩ := by
    rw [← hround]
    exact ⟨_, rfl⟩
  have hrun : Run.exec (Host.step So3.rootPlatform Lab7.processCmd 0 0)
      (Host.start So3.rootSys fun _ => 0#8) lsEvents =
        some ⟨s₃, tokens, returned, [(.fork, a₁), (.waitpid 2, a₂)]⟩ := by
    rw [lsEvents, Run.exec_cons, hline, Option.bind_some, Run.exec_cons, step_call rfl rfl hfork,
      Option.bind_some, Run.exec_cons, step_other hother hexit, Option.bind_some, Run.exec_cons,
      step_call hparent hshell hwait]
    rfl
  have hfew : s₃.kernel.created < 2 ^ 32 - 1 := by
    rw [hcreated]
    decide
  exact ⟨_, hrun, rfl, shell_reaps_children So3.joinFinished_inStep So3.rootKernel_start
    ⟨rfl, rfl⟩ hrun hfew rfl⟩

end SyeLabs.Shell
