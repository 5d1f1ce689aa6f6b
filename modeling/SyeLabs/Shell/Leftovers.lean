import SyeLabs.Shell.OnSo3

/-!
# The children nobody waits for (`lab5/sh.c` and `lab9/process.c`)

The shell of `lab5/sh.c` does not wait for the process of a line with `&`, and never asks
for it later. The kernel keeps the entry of a process in its table until someone does.
-/

namespace SyeLabs.Shell

open ByteMemory (CStr Memory)
open Interaction (Prog)
open So3 (Sys Platform PcbPtr Tid Word Genealogy SysStep)

/-- The children of `p` in the table that have not been reaped. -/
def unreaped (p : PcbPtr) (s : Sys) : List PcbPtr :=
  s.kernel.procList.filter fun a => (s.kernel.pcbs a).parent = some p ∧ a ∉ s.released

/-- The process that a step has made, if `p` is its parent. -/
def newborn (p : PcbPtr) (s s' : Sys) : List PcbPtr :=
  if s.kernel.created ∈ s'.kernel.procList ∧
      (s'.kernel.pcbs s.kernel.created).parent = some p then [s.kernel.created] else []

def pidWord (a : PcbPtr) : Word := BitVec.ofNat 32 (a + 1)

def ChildEvent.note (pids : List Word) : ChildEvent → List Word
  | .started pid => pids ++ [BitVec.ofInt 32 pid]
  | .waited pid => pids.erase (BitVec.ofInt 32 pid)

/-- The pids that were started and not waited for. -/
def unwaited (events : List ChildEvent) : List Word := events.foldl ChildEvent.note []

variable {X : Platform} {t : Tid} {p : PcbPtr} {s s' : Sys} {e : So3.Event} {reaped : List PcbPtr}
  {log : List (Call × Answer)} {h h' : Host}

theorem unwaited_snoc (log : List (Call × Answer)) {c : Call × Answer} {event : ChildEvent}
    (hc : children [c] = [event]) :
    unwaited (children (log ++ [c])) = event.note (unwaited (children log)) := by
  rw [children_append, hc, unwaited, List.foldl_append]
  rfl

theorem mem_unreaped {a : PcbPtr} : a ∈ unreaped p s ↔
    a ∈ s.kernel.procList ∧ (s.kernel.pcbs a).parent = some p ∧ a ∉ s.released := by
  rw [unreaped, List.mem_filter, decide_eq_true_eq]

/-! ### A step of the kernel -/

theorem newborn_none (hs : So3.Settled s.kernel) (hlist : ∀ a ∈ s'.kernel.procList,
    a ∈ s.kernel.procList) : newborn p s s' = [] :=
  if_neg fun ⟨hmem, _⟩ => Nat.lt_irrefl _ (hs.fresh _ (hlist _ hmem))

theorem unreaped_congr (hlist : s'.kernel.procList = s.kernel.procList)
    (hparent : ∀ a ∈ s.kernel.procList, (s'.kernel.pcbs a).parent = (s.kernel.pcbs a).parent)
    (hreleased : s'.released = s.released ++ reaped) :
    unreaped p s' = (unreaped p s).filter (· ∉ reaped) := by
  rw [unreaped, unreaped, hlist, List.filter_filter]
  refine List.filter_congr fun a ha => ?_
  rw [hparent a ha, hreleased, Bool.eq_iff_iff]
  simp only [List.mem_append, not_or, Bool.and_eq_true, decide_eq_true_eq]
  tauto

/-- What a step does to the list: who is reaped leaves it, who is forked by `p` enters it. -/
theorem unreaped_step (hs : So3.Logged s) (hstep : SysStep X s s' e reaped) :
    unreaped p s' = (unreaped p s).filter (· ∉ reaped) ++ newborn p s s' := by
  have hreleased := hstep.released
  cases hstep.table with
  | same htable =>
    rw [newborn_none hs.settled fun a ha => htable.procList ▸ ha, List.append_nil]
    exact unreaped_congr htable.procList (fun a _ => by rw [htable.pcbs]) hreleased
  | exit q exitStatus hq hexits =>
    rw [newborn_none hs.settled fun a ha => hexits.procList ▸ ha, List.append_nil]
    refine unreaped_congr hexits.procList (fun a _ => ?_) hreleased
    rw [hexits.pcb]
    split_ifs with haq
    · rw [haq]
    · rfl
  | fork q child hq hforks =>
    have hfresh : s.kernel.created ∉ s.released := fun hmem =>
      Nat.lt_irrefl _ (hs.released _ hmem)
    have hmem : s.kernel.created ∈ s'.kernel.procList := by
      rw [hforks.procList]
      exact List.mem_append_right _ (List.mem_singleton.mpr rfl)
    rw [List.append_nil] at hreleased
    rw [unreaped, hforks.procList, List.filter_append, newborn]
    congr 1
    · rw [unreaped, List.filter_filter]
      refine List.filter_congr fun a ha => ?_
      rw [hforks.old hs.settled ha, hreleased]
      simp
    · rw [hreleased]
      by_cases hparent : (s'.kernel.pcbs s.kernel.created).parent = some p
      · simp [hparent, hfresh, hmem]
      · simp [hparent]
  | reap child hchild hreaps =>
    have hlist : ∀ a ∈ s'.kernel.procList, a ∈ s.kernel.procList := fun a ha => hreaps.mem ha
    have hparent : ∀ a, (s'.kernel.pcbs a).parent = (s.kernel.pcbs a).parent := fun a => by
      obtain ⟨m, hm⟩ := hreaps.same a
      rw [hm]
    rw [newborn_none hs.settled hlist, List.append_nil]
    have hprocs := hreaps.procList
    split_ifs at hprocs
    · rw [hs.settled.nodup.erase_eq_filter] at hprocs
      rw [unreaped, unreaped, hprocs, List.filter_filter, List.filter_filter]
      refine List.filter_congr fun a ha => ?_
      rw [hparent a, hreleased, Bool.eq_iff_iff]
      simp only [List.mem_append, not_or, Bool.and_eq_true, decide_eq_true_eq, bne_iff_ne,
        List.mem_singleton]
      tauto
    · exact unreaped_congr hprocs (fun a _ => hparent a) hreleased

/-- Only a fork of `p` makes a child of `p`. -/
theorem newborn_other (hjoin : So3.JoinsInStep X.threadJoin) (hs : So3.Settled s.kernel)
    (hstep : s.step X e = some s')
    (hother : ¬ (e.call = .fork ∧ (s.enter e.thread).caller = some p)) :
    newborn p s s' = [] := by
  refine if_neg fun ⟨hmem, hparent⟩ => ?_
  rcases step_comes hjoin hs hstep _ hmem with ⟨hold, _⟩ | ⟨hfork, _, _, hborn⟩
  · exact Nat.lt_irrefl _ (hs.fresh _ hold)
  · exact hother ⟨hfork, hborn.symm.trans hparent⟩

theorem unreaped_parent {a : PcbPtr} (ha : a ∈ unreaped p s) :
    (s.kernel.pcbs a).parent = some p := (mem_unreaped.mp ha).2.1

/-- The processes of the list have different pids. -/
theorem unreaped_nodup (hs : Genealogy s.kernel) (hfew : s.kernel.created < 2 ^ 32) :
    ((unreaped p s).map pidWord).Nodup := by
  have hpids : s.kernel.procList.map pidWord =
      s.kernel.procList.map fun a => (s.kernel.pcbs a).pid :=
    List.map_congr_left fun a ha => (hs.pid a ha).symm
  have hall : (s.kernel.procList.map pidWord).Nodup := by
    rw [hpids]
    exact (hs.intact hfew).pids
  exact hall.sublist (List.Sublist.map pidWord List.filter_sublist)

/-- Who is selected by a pid of the table has this pid. -/
theorem selectChild_word (hs : Genealogy s.kernel) (hfew : s.kernel.created < 2 ^ 32)
    {a : PcbPtr} {pid : Word} (ha : a ∈ s.kernel.procList) (hpid : pid ≠ -1) :
    So3.selectChild pid s.kernel = some a ↔ pidWord a = pid := by
  have hselect : So3.selectChild pid s.kernel = s.kernel.findProcByPid pid := if_neg hpid
  constructor
  · intro hchild
    rw [hselect] at hchild
    exact (hs.pid a ha).symm.trans (So3.findProcByPid_some hchild).2
  · rintro rfl
    have hinj := (List.nodup_map_iff_inj_on hs.settled.nodup).mp (hs.intact hfew).pids
    cases hfound : s.kernel.findProcByPid (pidWord a) with
    | none =>
      rw [So3.Kernel.findProcByPid, List.find?_eq_none] at hfound
      exact absurd (decide_eq_true (hs.pid a ha)) (hfound a ha)
    | some b =>
      obtain ⟨hb, hbpid⟩ := So3.findProcByPid_some hfound
      rw [hselect, hfound, hinj b hb a ha (hbpid.trans (hs.pid a ha).symm)]

/-- A wait without options takes the process with this pid from the list, if it is there. -/
theorem unreaped_waitpid (hjoin : So3.JoinsInStep X.threadJoin) (hs : Genealogy s.kernel)
    (hlogged : So3.Logged s) (hfew : s.kernel.created < 2 ^ 32) {pid : Word} (hpid : pid ≠ -1)
    (hstep : s.step X ⟨t, .waitpid pid none 0⟩ = some s') :
    (unreaped p s').map pidWord = ((unreaped p s).map pidWord).erase pid := by
  obtain ⟨reaped, hdone⟩ := So3.step_table hjoin hs.settled hstep
  have hborn : newborn p s s' = [] :=
    newborn_other hjoin hs.settled hstep fun hfork => nomatch hfork.1
  have hreaped : ∀ a ∈ s.kernel.procList, a ∈ reaped ↔ pidWord a = pid := by
    intro a ha
    rw [← selectChild_word hs hfew ha hpid]
    constructor
    · intro hmem
      obtain ⟨pid', _, _, hcall, hchild, _⟩ := (hdone.waits a).mpr (hdone.table.reaped_eq hmem)
      cases hcall
      exact hchild
    · intro hchild
      rw [(hdone.waits a).mp ⟨pid, none, 0, rfl, hchild, fun hnohang => hnohang.1 (by simp)⟩]
      exact List.mem_singleton.mpr rfl
  rw [unreaped_step hlogged hdone, hborn, List.append_nil,
    (unreaped_nodup hs hfew).erase_eq_filter, List.filter_map]
  congr 1
  refine List.filter_congr fun a ha => ?_
  rw [Bool.eq_iff_iff, decide_eq_true_eq, hreaped a (mem_unreaped.mp ha).1]
  simp

/-! ### The list and the log -/

/-- The list is what the shell has started and not waited for, less what others have reaped;
`spared` says that they have reaped nothing. -/
structure Owed (spared : Prop) (p : PcbPtr) (s : Sys) (log : List (Call × Answer)) : Prop where
  sub : List.Sublist ((unreaped p s).map pidWord) (unwaited (children log))
  all : spared → (unreaped p s).map pidWord = unwaited (children log)

/-- No fork has failed, and no wait was for any child. -/
def Clean (log : List (Call × Answer)) : Prop :=
  .started (-1) ∉ children log ∧ ∀ pid, .waited pid ∈ children log → BitVec.ofInt 32 pid ≠ -1

variable {spared : Prop}

theorem Clean.of_append {log' : List (Call × Answer)} (h : Clean (log ++ log')) : Clean log := by
  refine ⟨fun hmem => h.1 ?_, fun pid hmem => h.2 pid ?_⟩
  · rw [children_append]
    exact List.mem_append_left _ hmem
  · rw [children_append]
    exact List.mem_append_left _ hmem

/-- A fork by the main thread of `p`. -/
theorem newborn_fork {k : So3.Kernel} {r : Word} (hcaller : (s.enter t).caller = some p)
    (hstep : s.step X ⟨t, .fork⟩ = some s') (hfork : So3.doFork X (s.enter t) = some (k, r))
    (hr : r ≠ -1) : newborn p s s' = [s.kernel.created] ∧ r = s.kernel.pidCurrent := by
  obtain ⟨_, _, _, _, hperform⟩ := So3.step_perform hstep
  obtain ⟨out, hout, rfl⟩ := Option.map_eq_some_iff.mp hperform
  obtain rfl : out = (k, r) := Option.some.inj (hout.symm.trans hfork)
  obtain ⟨q, hq, ⟨_, _, hfailed⟩ | ⟨_, hpid, child, tcbs, mem, rfl, _, hparent, _⟩⟩ :=
    So3.doFork_cases hfork
  · exact absurd hfailed hr
  · obtain rfl : q = p := Option.some.inj (hq.symm.trans hcaller)
    refine ⟨if_pos ⟨?_, ?_⟩, hpid⟩
    · exact List.mem_append_right _ (List.mem_singleton.mpr rfl)
    · change (Function.update s.kernel.pcbs s.kernel.created child s.kernel.created).parent = some q
      rw [Function.update_self, hparent]

theorem Owed.fork (ho : Owed spared p s log) (hjoin : So3.JoinsInStep X.threadJoin)
    (hs : Genealogy s.kernel) (hlogged : So3.Logged s) {a a' : Answer}
    (hcaller : (s.enter t).caller = some p) (hserve : serve X t s .fork a = some (s', a'))
    (hclean : Clean (log ++ [(.fork, a')])) : Owed spared p s' (log ++ [(.fork, a')]) := by
  obtain ⟨hstep, k, r, hfork, hret⟩ := serve_fork hserve
  obtain ⟨reaped, hdone⟩ := So3.step_table hjoin hs.settled hstep
  have hentry : children [(Call.fork, a')] = [.started a'.ret] := rfl
  have hr : r ≠ -1 := by
    rintro rfl
    refine hclean.1 ?_
    rw [children_append, hentry, hret]
    exact List.mem_append_right _ (List.mem_singleton.mpr rfl)
  obtain ⟨hborn, hpid⟩ := newborn_fork hcaller hstep hfork hr
  have hnobody : ∀ c, c ∉ reaped := by
    intro c hc
    obtain ⟨_, _, _, hcall, _⟩ := (hdone.waits c).mpr (hdone.table.reaped_eq hc)
    cases hcall
  have hword : BitVec.ofInt 32 a'.ret = pidWord s.kernel.created := by
    rw [hret, hpid, BitVec.ofInt_toInt]
    exact hs.pidCurrent
  have hlist : (unreaped p s').map pidWord =
      (unreaped p s).map pidWord ++ [BitVec.ofInt 32 a'.ret] := by
    rw [unreaped_step hlogged hdone, hborn, List.map_append, hword,
      List.filter_eq_self.mpr fun c _ => decide_eq_true (hnobody c)]
    rfl
  have hnote : unwaited (children (log ++ [(.fork, a')])) =
      unwaited (children log) ++ [BitVec.ofInt 32 a'.ret] := unwaited_snoc log hentry
  refine ⟨?_, fun hspared => ?_⟩
  · rw [hlist, hnote]
    exact ho.sub.append (List.Sublist.refl _)
  · rw [hlist, hnote, ho.all hspared]

theorem Owed.waitpid (ho : Owed spared p s log) (hjoin : So3.JoinsInStep X.threadJoin)
    (hs : Genealogy s.kernel) (hlogged : So3.Logged s) (hfew : s.kernel.created < 2 ^ 32)
    {pid : ℤ} {a a' : Answer} (hserve : serve X t s (.waitpid pid) a = some (s', a'))
    (hclean : Clean (log ++ [(.waitpid pid, a')])) :
    Owed spared p s' (log ++ [(.waitpid pid, a')]) := by
  have hentry : children [(Call.waitpid pid, a')] = [.waited pid] := rfl
  have hpid : BitVec.ofInt 32 pid ≠ -1 := by
    refine hclean.2 pid ?_
    rw [children_append, hentry]
    exact List.mem_append_right _ (List.mem_singleton.mpr rfl)
  have hlist := @unreaped_waitpid X t p s s' hjoin hs hlogged hfew _ hpid (serve_waitpid hserve)
  have hnote : unwaited (children (log ++ [(.waitpid pid, a')])) =
      (unwaited (children log)).erase (BitVec.ofInt 32 pid) := unwaited_snoc log hentry
  refine ⟨?_, fun hspared => ?_⟩
  · rw [hlist, hnote]
    exact ho.sub.erase _
  · rw [hlist, hnote, ho.all hspared]

theorem Owed.unrelated (ho : Owed spared p s log) {c : Call × Answer} (hc : children [c] = []) :
    Owed spared p s (log ++ [c]) := by
  have hchildren : children (log ++ [c]) = children log := by
    rw [children_append, hc, List.append_nil]
  refine ⟨?_, ?_⟩
  · rw [hchildren]
    exact ho.sub
  · rw [hchildren]
    exact ho.all

/-- The call of another process reaps no child of `p`. -/
def Spares (X : Platform) (p : PcbPtr) (s : Sys) (e : So3.Event) : Prop :=
  ∀ child, So3.WaitsFor X s.kernel e child → (s.kernel.pcbs child).parent ≠ some p

theorem Owed.other (ho : Owed spared p s log) (hjoin : So3.JoinsInStep X.threadJoin)
    (hs : Genealogy s.kernel) (hlogged : So3.Logged s)
    (hother : (s.enter e.thread).caller ≠ some p) (hstep : s.step X e = some s')
    (hspares : spared → Spares X p s e) : Owed spared p s' log := by
  obtain ⟨reaped, hdone⟩ := So3.step_table hjoin hs.settled hstep
  have hborn : newborn p s s' = [] :=
    newborn_other hjoin hs.settled hstep fun hfork => hother hfork.2
  have hlist := @unreaped_step X p s s' e reaped hlogged hdone
  rw [hborn, List.append_nil] at hlist
  refine ⟨?_, fun hyes => ?_⟩
  · rw [hlist]
    exact (List.filter_sublist.map pidWord).trans ho.sub
  · have hnobody : ∀ a ∈ unreaped p s, a ∉ reaped := fun a ha hmem =>
      hspares hyes a ((hdone.waits a).mpr (hdone.table.reaped_eq hmem)) (unreaped_parent ha)
    rw [hlist, List.filter_eq_self.mpr fun a ha => decide_eq_true (hnobody a ha)]
    exact ho.all hyes

/-! ### Runs -/

/-- The lines typed in a run. -/
def inputs (es : List HostEvent) : List CStr := es.filterMap fun
  | .line input _ _ => some input
  | _ => none

/-- No other process reaps a child of the shell. -/
def HostEvent.Spares (X : Platform) (p : PcbPtr) (h : Host) : HostEvent → Prop
  | .other e => Shell.Spares X p h.sys e
  | _ => True

/-- What every run keeps, whatever the shell does. -/
structure Kept (spared : Prop) (p : PcbPtr) (h : Host) : Prop where
  genealogy : Genealogy h.sys.kernel
  logged : So3.Logged h.sys
  tracked : h.sys.kernel.created < 2 ^ 32 - 1 → Tracked p h.sys h.log
  owed : h.sys.kernel.created < 2 ^ 32 - 1 → Clean h.log → Owed spared p h.sys h.log

variable {cmd : Memory → Stack → ℤ → Cmd}

theorem Kept.sysStep (hh : Kept spared p h) (hjoin : So3.JoinsInStep X.threadJoin)
    (hstep : h.sys.step X e = some s') : Grows h.sys s' ∧ So3.Logged s' := by
  obtain ⟨reaped, hdone⟩ := So3.step_table hjoin hh.genealogy.settled hstep
  exact ⟨grows_of_step hjoin hh.genealogy hstep, hh.logged.step hdone⟩

theorem Kept.other (hh : Kept spared p h) (hjoin : So3.JoinsInStep X.threadJoin)
    (hother : (h.sys.enter e.thread).caller ≠ some p) (hstep : h.sys.step X e = some s')
    (hspares : spared → Spares X p h.sys e) : Kept spared p {h with sys := s'} := by
  obtain ⟨hgrows, hlogged⟩ := hh.sysStep hjoin hstep
  refine ⟨hgrows.genealogy, hlogged, fun hfew => ?_, fun hfew hclean => ?_⟩
  · exact (hh.tracked (Nat.lt_of_le_of_lt hgrows.created hfew)).other hjoin hh.genealogy hother
      hstep hfew
  · exact (hh.owed (Nat.lt_of_le_of_lt hgrows.created hfew) hclean).other hjoin hh.genealogy
      hh.logged hother hstep hspares

theorem Kept.call (hh : Kept spared p h) (hjoin : So3.JoinsInStep X.threadJoin) {c : Call}
    {next : Answer → Cmd} {a a' : Answer} (hcaller : (h.sys.enter t).caller = some p)
    (hserve : serve X t h.sys c a = some (s', a')) :
    Kept spared p {h with sys := s', shell := next a', log := h.log ++ [(c, a')]} := by
  cases c with
  | fork =>
    obtain ⟨hgrows, hlogged⟩ := hh.sysStep hjoin (serve_fork hserve).1
    refine ⟨hgrows.genealogy, hlogged, fun hfew => ?_, fun hfew hclean => ?_⟩
    · exact (hh.tracked (Nat.lt_of_le_of_lt hgrows.created hfew)).fork hjoin hh.genealogy hserve
        hfew
    · exact (hh.owed (Nat.lt_of_le_of_lt hgrows.created hfew) hclean.of_append).fork hjoin
        hh.genealogy hh.logged hcaller hserve hclean
  | waitpid pid =>
    obtain ⟨hgrows, hlogged⟩ := hh.sysStep hjoin (serve_waitpid hserve)
    refine ⟨hgrows.genealogy, hlogged, fun hfew => ?_, fun hfew hclean => ?_⟩
    · exact (hh.tracked (Nat.lt_of_le_of_lt hgrows.created hfew)).waitpid hjoin hh.genealogy
        hserve hfew
    · have hbefore : h.sys.kernel.created < 2 ^ 32 - 1 :=
        Nat.lt_of_le_of_lt hgrows.created hfew
      exact (hh.owed hbefore hclean.of_append).waitpid hjoin hh.genealogy hh.logged
        (Nat.lt_of_lt_of_le hbefore (Nat.sub_le _ _)) hserve hclean
  | _ =>
    cases hserve
    exact ⟨hh.genealogy, hh.logged, fun hfew => (hh.tracked hfew).unrelated rfl,
      fun hfew hclean => (hh.owed hfew hclean.of_append).unrelated rfl⟩

theorem kept_step (hjoin : So3.JoinsInStep X.threadJoin) {e : HostEvent} (hh : Kept spared p h)
    (hspares : spared → e.Spares X p h) (hstep : h.step X cmd t p e = some h') :
    Kept spared p h' := by
  cases host_step hstep with
  | line => exact ⟨hh.genealogy, hh.logged, hh.tracked, hh.owed⟩
  | call c next a a' s' _ hcaller hserve => exact hh.call hjoin hcaller hserve
  | other e s' hother hs' => exact hh.other hjoin hother hs' hspares

theorem kept_start (hstart : So3.Start s.kernel) (hlogs : s.released = [] ∧ s.delivered = [])
    (m : Memory) : Kept spared p (Host.start s m) := by
  have hnobody : unreaped p s = [] := by
    rw [unreaped, List.filter_eq_nil_iff]
    intro a ha
    simp [@start_childless p s hstart a ha]
  have hnothing : (unreaped p s).map pidWord = unwaited (children []) := by
    rw [hnobody]
    rfl
  refine ⟨hstart.genealogy, logged_start hstart hlogs, fun _ => tracked_start hstart, ?_⟩
  exact fun _ _ => ⟨hnothing ▸ List.Sublist.refl _, fun _ => hnothing⟩

theorem kept_run (hjoin : So3.JoinsInStep X.threadJoin) (hstart : So3.Start s.kernel)
    (hlogs : s.released = [] ∧ s.delivered = []) {m : Memory} {es : List HostEvent}
    (hrun : Run.exec (Host.step X cmd t p) (Host.start s m) es = some h)
    (hspares : spared →
      Run.Meets (Host.step X cmd t p) (fun u e => e.Spares X p u) (Host.start s m) es) :
    Kept spared p h := by
  have hmeets : Run.Meets (Host.step X cmd t p) (fun u e => spared → e.Spares X p u)
      (Host.start s m) es := by
    by_cases hyes : spared
    · exact Run.meets_of_invariant (I := fun _ => True) (fun _ _ _ _ _ _ => trivial)
        (fun _ _ _ hG _ => hG) trivial (hspares hyes)
    · exact Run.meets_of_forall (K := fun _ => True) (fun _ _ _ h => absurd h hyes)
        fun _ _ => trivial
  exact Run.exec_invariant (fun u e u' hu hG hstep => kept_step hjoin hu hG hstep)
    (kept_start hstart hlogs m) hmeets hrun

/-! ### The lines with `&` -/

namespace Lab5

/-- The line starts a program in the background. -/
def Background (line : CStr) : Prop := Launches line ∧ ampersand ∈ lineWords line

instance (line : CStr) : Decidable (Background line) := inferInstanceAs (Decidable (_ ∧ _))

/-- The shell's calls so far and those until it is back at its prompt, round by round. -/
def Follows (es : List HostEvent) (h : Host) : Prop :=
  Returns (fun rest => ∃ turns : List Turn, turns.map Turn.input = inputs es ∧
    children (h.log ++ rest) = turns.flatMap childOf) h.shell

theorem follows_start (s : Sys) (m : Memory) : Follows [] (Host.start s m) := by
  unfold Follows
  exact returns_returned ⟨[], rfl, rfl⟩

theorem follows_step {es : List HostEvent} {e : HostEvent}
    (hh : (∀ line ∈ inputs es, Fits line) → Follows es h)
    (hstep : h.step X processCmd t p e = some h') (hfits : ∀ line ∈ inputs (es ++ [e]), Fits line) :
    Follows (es ++ [e]) h' := by
  have hinputs : inputs (es ++ [e]) = inputs es ++ inputs [e] := List.filterMap_append
  rw [hinputs] at hfits
  have hfollows := hh fun line hline => hfits line (List.mem_append_left _ hline)
  intro answers hret
  cases host_step hstep with
  | line input stack self m hprompt =>
    rw [Follows, hprompt] at hfollows
    obtain ⟨turns, hturns, hlog⟩ := hfollows (fun _ => ⟨0, (0, 0)⟩) rfl
    obtain ⟨l, hl⟩ : ∃ l : Turn, l = ⟨input, stack, self, answers⟩ := ⟨_, rfl⟩
    have hround := @mainRound_children h.tokens l (hfits l.input (List.mem_append_right _ (by
      rw [hl]
      exact List.mem_singleton.mpr rfl)))
    subst hl
    refine ⟨turns ++ [⟨input, stack, self, answers⟩], ?_, ?_⟩
    · rw [List.map_append, hturns, hinputs]
      rfl
    · rw [children_append, (hround hret).2, List.flatMap_append, ← hlog, List.flatMap_singleton]
      change children h.log ++ _ = children (h.log ++ []) ++ _
      rw [List.append_nil]
  | call c next a a' s' hshell hcaller hserve =>
    rw [Follows, hshell] at hfollows
    obtain ⟨turns, hturns, hchildren⟩ := Prog.Records.answer hfollows a' answers hret
    refine ⟨turns, ?_, ?_⟩
    · rw [hturns, hinputs]
      exact (List.append_nil _).symm
    · change children (h.log ++ [(c, a')] ++ (next a').log answers) = _
      rw [List.append_assoc, List.singleton_append]
      exact hchildren
  | other e s' hother hs' =>
    obtain ⟨turns, hturns, hchildren⟩ := hfollows answers hret
    refine ⟨turns, ?_, hchildren⟩
    rw [hturns, hinputs]
    exact (List.append_nil _).symm

/-- The shell waits for every process but those of the lines with `&`. -/
theorem length_unwaited (turns : List Turn) : (unwaited (turns.flatMap childOf)).length =
    (turns.map Turn.input).countP Background := by
  induction turns using List.reverseRecOn with
  | nil => rfl
  | append_singleton turns l ih =>
    have hsnoc : unwaited ((turns ++ [l]).flatMap childOf) =
        (childOf l).foldl ChildEvent.note (unwaited (turns.flatMap childOf)) := by
      rw [List.flatMap_append, List.flatMap_singleton, unwaited, List.foldl_append]
      rfl
    rw [hsnoc, List.map_append, List.countP_append, ← ih, List.map_singleton, List.countP_singleton,
      childOf]
    by_cases hlaunch : Launches l.input
    · by_cases hbackground : ampersand ∈ lineWords l.input
      · have hline : Background l.input := ⟨hlaunch, hbackground⟩
        rw [if_pos hlaunch, if_pos hbackground, if_pos (decide_eq_true hline)]
        exact List.length_append
      · have hline : ¬ Background l.input := fun h => hbackground h.2
        rw [if_pos hlaunch, if_neg hbackground, if_neg (mt of_decide_eq_true hline)]
        simp only [attended, List.foldl_cons, List.foldl_nil, ChildEvent.note]
        rw [List.length_erase_of_mem (List.mem_append_right _ (List.mem_singleton.mpr rfl)),
          List.length_append]
        rfl
    · have hline : ¬ Background l.input := fun h => hlaunch h.1
      rw [if_neg hlaunch, if_neg (mt of_decide_eq_true hline)]
      rfl

/-- Whoever is waited for was forked before. -/
theorem started_of_waited {turns : List Turn} {pid : ℤ}
    (h : .waited pid ∈ turns.flatMap childOf) : .started pid ∈ turns.flatMap childOf := by
  obtain ⟨l, hl, hmem⟩ := List.mem_flatMap.mp h
  refine List.mem_flatMap.mpr ⟨l, hl, ?_⟩
  rw [childOf] at hmem ⊢
  split_ifs at hmem ⊢
  · exact absurd hmem (by simp)
  · simp only [attended, List.mem_cons, List.not_mem_nil, or_false, reduceCtorEq, false_or,
      ChildEvent.waited.injEq] at hmem
    rw [hmem]
    exact List.mem_cons_self ..
  · exact absurd hmem List.not_mem_nil

/-- At the prompt of this shell, as long as no fork of it fails, the children that are in the
table and that nobody has reaped are no more than the lines with `&` so far, and as many if no
other process reaps a child of the shell. -/
theorem background_unreaped (hjoin : So3.JoinsInStep X.threadJoin) (hstart : So3.Start s.kernel)
    (hlogs : s.released = [] ∧ s.delivered = []) {m : Memory} {es : List HostEvent}
    (hrun : Run.exec (Host.step X processCmd t p) (Host.start s m) es = some h)
    (hfits : ∀ line ∈ inputs es, Fits line) (hforks : ∀ a, (.fork, a) ∈ h.log → a.ret ≠ -1)
    (hfew : h.sys.kernel.created < 2 ^ 32 - 1) (hprompt : h.shell = returned) :
    (unreaped p h.sys).length ≤ (inputs es).countP Background ∧
    (Run.Meets (Host.step X processCmd t p) (fun u e => e.Spares X p u) (Host.start s m) es →
      (unreaped p h.sys).length = (inputs es).countP Background) := by
  obtain ⟨spared, hspared⟩ : ∃ spared, spared = Run.Meets (Host.step X processCmd t p)
      (fun u e => e.Spares X p u) (Host.start s m) es := ⟨_, rfl⟩
  have hkept : Kept spared p h := kept_run hjoin hstart hlogs hrun fun hyes => hspared ▸ hyes
  have hfollows : Follows es h := Run.exec_history
    (J := fun u es => (∀ line ∈ inputs es, Fits line) → Follows es u)
    (fun _ => follows_start s m)
    (fun u e u' es hu hstep => follows_step hu hstep) hrun hfits
  rw [Follows, hprompt] at hfollows
  obtain ⟨turns, hturns, hlog⟩ := hfollows (fun _ => ⟨0, (0, 0)⟩) rfl
  have hchildren : children h.log = turns.flatMap childOf := by
    rw [← hlog]
    exact congrArg children (List.append_nil _).symm
  have hstarted : .started (-1) ∉ children h.log := by
    intro hmem
    obtain ⟨a, ha, hret⟩ := fork_of_started hmem
    exact hforks a ha hret
  have hclean : Clean h.log := by
    refine ⟨hstarted, fun pid hwaited => ?_⟩
    rw [hchildren] at hwaited hstarted
    have hbefore := started_of_waited hwaited
    rcases (hkept.tracked hfew).born pid (hchildren ▸ hbefore) with rfl | ⟨a, ha, rfl⟩
    · exact absurd hbefore hstarted
    · rw [ofInt_pidOf]
      exact ofNat_ne_neg_one (Nat.lt_of_le_of_lt ha hfew)
  have howed := hkept.owed hfew hclean
  have hcount : (unwaited (children h.log)).length = (inputs es).countP Background := by
    rw [hchildren, length_unwaited, hturns]
  have hpids : ((unreaped p h.sys).map pidWord).length = (unreaped p h.sys).length :=
    List.length_map pidWord
  rw [← hcount, ← hpids]
  exact ⟨howed.sub.length_le, fun hyes => congrArg List.length (howed.all (hspared ▸ hyes))⟩

/-- The round of a line that names a program. -/
theorem mainRound_launches {line : CStr} (m : Memory) (stack : Stack) (self : ℤ)
    (hfits : Fits line) (hlaunch : Launches line) :
    ∃ m' argv, mainRound processCmd m stack self line = .call .fork fun a =>
      if a.ret = 0 then child m' stack argv
      else if ampersand ∈ lineWords line then returned else .act (.waitpid a.ret) returned := by
  obtain ⟨m', hm, hround⟩ := mainRound_eq processCmd m stack self hfits.1 (Nat.le_of_lt hfits.2)
  have hempty : [] ∉ lineWords line := fun h => lineWords_ne_nil h rfl
  obtain ⟨argv, hcmd⟩ := processCmd_launch stack self hm hempty hfits.2 hlaunch.2
  exact ⟨m', argv, by rw [hround, if_pos hlaunch.1, hcmd]⟩

/- `ls &`, whose process is forked and ends while the shell is at its prompt again. -/
def backgroundEvents : List HostEvent :=
  [.line lsBackground zeroStack 1, .call ⟨0, (0, 0)⟩, .other ⟨1, .exit 0⟩]

theorem background_calls : ∃ s₁ s₂ a₁,
    serve So3.rootPlatform 0 So3.rootSys .fork ⟨0, (0, 0)⟩ = some (s₁, a₁) ∧ a₁.ret = 2 ∧
    (s₁.enter 1).caller = some 1 ∧ s₁.step So3.rootPlatform ⟨1, .exit 0⟩ = some s₂ ∧
    s₂.kernel.created = 2 := by
  refine ⟨_, _, _, rfl, rfl, rfl, rfl, rfl⟩

theorem background_unreaped_ls : ∃ h : Host,
    Run.exec (Host.step So3.rootPlatform processCmd 0 0)
      (Host.start So3.rootSys fun _ => 0#8) backgroundEvents = some h ∧ h.shell = returned ∧
    (unreaped 0 h.sys).length = (inputs backgroundEvents).countP Background := by
  obtain ⟨m', argv, hround⟩ := mainRound_launches (fun _ => 0#8) zeroStack 1
    (show Fits lsBackground by decide) (by decide)
  obtain ⟨s₁, s₂, a₁, hfork, hpid, hchild, hexit, hcreated⟩ := background_calls
  obtain ⟨next, hnext⟩ : ∃ next : Answer → Cmd, next = fun a =>
      if a.ret = 0 then child m' zeroStack argv
      else if ampersand ∈ lineWords lsBackground then returned
      else .act (.waitpid a.ret) returned := ⟨_, rfl⟩
  have hparent : next a₁ = returned := by
    have hbackground : ampersand ∈ lineWords lsBackground := by decide
    simp only [hnext, hpid, hbackground]
    rfl
  rw [← hnext] at hround
  have hother : (s₁.enter 1).caller ≠ some 0 := by
    rw [hchild]
    decide
  obtain ⟨tokens, hline⟩ : ∃ tokens, Host.step So3.rootPlatform processCmd 0 0
      (Host.start So3.rootSys fun _ => 0#8) (.line lsBackground zeroStack 1) =
        some ⟨So3.rootSys, tokens, .call .fork next, []⟩ := by
    rw [← hround]
    exact ⟨_, rfl⟩
  have hrun : Run.exec (Host.step So3.rootPlatform processCmd 0 0)
      (Host.start So3.rootSys fun _ => 0#8) backgroundEvents =
        some ⟨s₂, tokens, returned, [(.fork, a₁)]⟩ := by
    rw [backgroundEvents, Run.exec_cons, hline, Option.bind_some, Run.exec_cons,
      step_call rfl rfl hfork, Option.bind_some, Run.exec_cons, step_other hother hexit, hparent]
    rfl
  have hfits : ∀ line ∈ inputs backgroundEvents, Fits line := by decide
  have hforks : ∀ a : Answer, (Call.fork, a) ∈ [(Call.fork, a₁)] → a.ret ≠ -1 := by
    intro a ha
    cases List.mem_singleton.mp ha
    rw [hpid]
    decide
  have hfew : s₂.kernel.created < 2 ^ 32 - 1 := by
    rw [hcreated]
    decide
  -- nobody waits for anyone
  have hspares : Run.Meets (Host.step So3.rootPlatform processCmd 0 0)
      (fun u e => e.Spares So3.rootPlatform 0 u) (Host.start So3.rootSys fun _ => 0#8)
      backgroundEvents := by
    refine Run.meets_of_prefixes fun es₁ e es₂ u hes _ => ?_
    have hmem : e ∈ backgroundEvents := by
      rw [hes]
      exact List.mem_append_right _ (List.mem_cons_self ..)
    simp only [backgroundEvents, List.mem_cons, List.not_mem_nil, or_false] at hmem
    rcases hmem with rfl | rfl | rfl
    · trivial
    · trivial
    · rintro child ⟨_, _, _, hcall, _⟩
      cases hcall
  exact ⟨_, hrun, rfl, (background_unreaped So3.joinFinished_inStep So3.rootKernel_start
    ⟨rfl, rfl⟩ hrun hfits hforks hfew rfl).2 hspares⟩

end Lab5

end SyeLabs.Shell
