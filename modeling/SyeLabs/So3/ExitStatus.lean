import SyeLabs.So3.Reaping
import SyeLabs.So3.Termination

/-!
# From `exit` to `waitpid`

A run keeps a record of the exits so far, by pid. Whatever a wait returns is in the record.
-/

namespace SyeLabs.So3

variable (X : Platform)

/-- The pid of the process that the event ends, and the code it gives. -/
def Sys.exitOf (s : Sys) (e : Event) : Option (Word × Word) :=
  match e.call, (s.enter e.thread).caller with
  | .exit exitStatus, some p => some ((s.kernel.pcbs p).pid, exitStatus)
  | _, _ => none

structure Chronicle where
  sys : Sys
  exits : List (Word × Word)

def Chronicle.step (c : Chronicle) (e : Event) : Option Chronicle :=
  (c.sys.step X e).map fun s => ⟨s, c.exits ++ (c.sys.exitOf e).toList⟩

/-- The pids are given out in order. -/
structure Numbered (k : Kernel) : Prop where
  pid : ∀ a < k.created, (k.pcbs a).pid = BitVec.ofNat 32 (a + 1)
  pidCurrent : k.pidCurrent = BitVec.ofNat 32 (k.created + 1)

/-- The record has the processes of `order` with what stands in their PCBs, and no zombie of
the table is missing. -/
structure Recorded (order : List PcbPtr) (c : Chronicle) : Prop where
  settled : Settled c.sys.kernel
  numbered : Numbered c.sys.kernel
  nodup : order.Nodup
  ended : ∀ a ∈ order, a < c.sys.kernel.created ∧ (c.sys.kernel.pcbs a).state = .zombie
  exits : c.exits = order.map fun a => ((c.sys.kernel.pcbs a).pid, (c.sys.kernel.pcbs a).exitStatus)
  zombies : ∀ a ∈ c.sys.kernel.procList, (c.sys.kernel.pcbs a).state = .zombie → a ∈ order

/-- No process ends: at most a thread is joined, and a process that lives appears. -/
structure Quiet (k k' : Kernel) : Prop where
  old : ∀ a < k.created, ∃ m, k'.pcbs a = { k.pcbs a with mainThread := m }
  zombies : ∀ a ∈ k'.procList, (k'.pcbs a).state = .zombie → a ∈ k.procList
  created : k.created ≤ k'.created

variable {X} {k k' : Kernel} {s s' : Sys} {e : Event} {c c' : Chronicle} {order : List PcbPtr}

theorem SameTable.quiet (h : SameTable k k') : Quiet k k' :=
  ⟨fun a _ => ⟨(k.pcbs a).mainThread, by rw [h.pcbs]⟩, fun a ha _ => h.procList ▸ ha,
    Nat.le_of_eq h.created.symm⟩

theorem Forks.quiet {p : PcbPtr} {child : Pcb} (h : Forks k k' p child) : Quiet k k' := by
  refine ⟨fun a ha => ⟨(k.pcbs a).mainThread, ?_⟩, fun a ha hzombie => ?_, ?_⟩
  · rw [h.pcbs, Function.update_of_ne (Nat.ne_of_lt ha)]
  · rw [h.procList] at ha
    refine (List.mem_append.mp ha).resolve_right fun hnew => ?_
    rw [List.mem_singleton.mp hnew, h.born, h.state] at hzombie
    cases hzombie
  · rw [h.created]
    exact Nat.le_succ _

theorem Reaps.quiet {child : PcbPtr} (h : Reaps k k' child) : Quiet k k' :=
  ⟨fun a _ => h.same a, fun _ ha _ => h.mem ha, Nat.le_of_eq h.created.symm⟩

theorem Quiet.numbered (h : Quiet k k') (hk : Numbered k) (hcreated : k'.created = k.created)
    (hcurrent : k'.pidCurrent = k.pidCurrent) : Numbered k' := by
  refine ⟨fun a ha => ?_, ?_⟩
  · rw [hcreated] at ha
    obtain ⟨m, hm⟩ := h.old a ha
    rw [hm, ← hk.pid a ha]
  · rw [hcurrent, hcreated, hk.pidCurrent]

theorem Forks.numbered {p : PcbPtr} {child : Pcb} (h : Forks k k' p child) (hk : Numbered k) :
    Numbered k' := by
  refine ⟨fun a ha => ?_, ?_⟩
  · rw [h.created] at ha
    rcases Nat.lt_succ_iff_lt_or_eq.mp ha with hold | rfl
    · obtain ⟨m, hm⟩ := h.quiet.old a hold
      rw [hm, ← hk.pid a hold]
    · rw [h.born, h.pid, hk.pidCurrent]
  · rw [h.pidCurrent, h.created, hk.pidCurrent]
    exact (BitVec.ofNat_add (k.created + 1) 1).symm

theorem Recorded.quiet (hc : Recorded order c) (hquiet : Quiet c.sys.kernel s'.kernel)
    (hsettled : Settled s'.kernel) (hnumbered : Numbered s'.kernel) :
    Recorded order ⟨s', c.exits⟩ := by
  refine ⟨hsettled, hnumbered, hc.nodup, fun a ha => ?_, ?_, fun a ha hzombie => ?_⟩
  · obtain ⟨hold, hzombie⟩ := hc.ended a ha
    obtain ⟨m, hm⟩ := hquiet.old a hold
    refine ⟨Nat.lt_of_lt_of_le hold hquiet.created, ?_⟩
    rw [hm, hzombie]
  · rw [hc.exits]
    refine List.map_congr_left fun a ha => ?_
    obtain ⟨m, hm⟩ := hquiet.old a (hc.ended a ha).1
    rw [hm]
  · have hmem := hquiet.zombies a ha hzombie
    obtain ⟨m, hm⟩ := hquiet.old a (hc.settled.fresh a hmem)
    rw [hm] at hzombie
    exact hc.zombies a hmem hzombie

/-- The process that ends was alive, so it is not in the record yet. -/
theorem Recorded.exit {p : PcbPtr} {exitStatus : Word} (hc : Recorded order c)
    (h : Exits c.sys.kernel s'.kernel p exitStatus) (hp : p ∈ c.sys.kernel.procList)
    (halive : (c.sys.kernel.pcbs p).state ≠ .zombie) :
    Recorded (order ++ [p]) ⟨s', c.exits ++ [((c.sys.kernel.pcbs p).pid, exitStatus)]⟩ := by
  have hnew : p ∉ order := fun hmem => halive (hc.ended p hmem).2
  have hself : s'.kernel.pcbs p =
      { c.sys.kernel.pcbs p with state := .zombie, exitStatus := exitStatus } := by
    rw [h.pcb, if_pos rfl]
  have hother : ∀ a ∈ order, s'.kernel.pcbs a = c.sys.kernel.pcbs a := fun a ha => by
    have hap : a ≠ p := fun hap => hnew (hap ▸ ha)
    rw [h.pcb, if_neg hap]
  have hsame : order.map (fun a => ((s'.kernel.pcbs a).pid, (s'.kernel.pcbs a).exitStatus)) =
      c.exits := by
    rw [hc.exits]
    refine List.map_congr_left fun a ha => ?_
    rw [hother a ha]
  refine ⟨h.settled hc.settled hp, ⟨fun a ha => ?_, ?_⟩, ?_, fun a ha => ?_, ?_,
    fun a ha hzombie => ?_⟩
  · rw [h.created] at ha
    rw [h.pcb, ← hc.numbered.pid a ha]
    split_ifs with hap
    · rw [hap]
    · rfl
  · rw [h.pidCurrent, h.created, hc.numbered.pidCurrent]
  · rw [List.nodup_append]
    refine ⟨hc.nodup, List.nodup_singleton p, fun a ha b hb hab => hnew ?_⟩
    rw [← List.mem_singleton.mp hb, ← hab]
    exact ha
  · rw [h.created]
    rcases List.mem_append.mp ha with hold | hlast
    · rw [hother a hold]
      exact hc.ended a hold
    · rw [List.mem_singleton.mp hlast, hself]
      exact ⟨hc.settled.fresh p hp, rfl⟩
  · rw [List.map_append, List.map_singleton, hself, hsame]
  · rw [h.procList] at ha
    rw [h.pcb] at hzombie
    split_ifs at hzombie with hap
    · rw [hap]
      exact List.mem_append_right _ (List.mem_singleton_self p)
    · exact List.mem_append_left _ (hc.zombies a ha hzombie)

theorem SameTable.recorded (h : SameTable c.sys.kernel s'.kernel) (hc : Recorded order c) :
    Recorded order ⟨s', c.exits⟩ :=
  hc.quiet h.quiet (h.settled hc.settled)
    (h.quiet.numbered hc.numbered h.created h.pidCurrent)

theorem Recorded.step (hjoin : JoinsInStep X.threadJoin) (hc : Recorded order c)
    (h : Chronicle.step X c e = some c') : ∃ order, Recorded order c' := by
  obtain ⟨s', hs', rfl⟩ := Option.map_eq_some_iff.mp h
  obtain ⟨p, hcaller, hp, halive, hperform⟩ := step_perform hs'
  obtain ⟨t, call⟩ := e
  cases call with
  | fork =>
    obtain ⟨⟨k', ret⟩, hfork, rfl⟩ := Option.map_eq_some_iff.mp hperform
    simp only [Sys.exitOf, Option.toList_none, List.append_nil]
    rcases doFork_table hfork with h | ⟨q, child, _, h⟩
    · have hsame : SameTable c.sys.kernel k' := ⟨h.pcbs, h.procList, h.created, h.pidCurrent⟩
      exact ⟨order, hsame.recorded hc⟩
    · have hforks : Forks c.sys.kernel k' q child := ⟨h.pcbs, h.procList, h.created, h.pidCurrent,
        h.pid, h.parent, h.state, h.request, h.mainThread⟩
      exact ⟨order, hc.quiet hforks.quiet (hforks.settled hc.settled)
        (hforks.numbered hc.numbered)⟩
  | exit exitStatus =>
    obtain ⟨k', hexit, rfl⟩ := Option.map_eq_some_iff.mp hperform
    obtain ⟨q, hq, h⟩ := doExit_table hexit
    obtain rfl := Option.some.inj (hcaller.symm.trans hq)
    simp only [Sys.exitOf, hcaller, Option.toList_some]
    have hexits : Exits c.sys.kernel k' p exitStatus :=
      ⟨h.parent, h.pcbs, h.procList, h.created, h.pidCurrent⟩
    exact ⟨order ++ [p], hc.exit hexits hp halive⟩
  | waitpid pid wstatus options =>
    obtain ⟨r, hr, rfl⟩ := Option.map_eq_some_iff.mp hperform
    simp only [Sys.exitOf, Option.toList_none, List.append_nil]
    cases doWaitpid_step hjoin hc.settled.enter hr with
    | unknown _ _ _ h =>
      have hsame : SameTable c.sys.kernel r.kernel :=
        ⟨h.pcbs, h.procList, h.created, h.pidCurrent⟩
      exact ⟨order, hsame.recorded hc⟩
    | alive _ _ _ _ _ _ h =>
      have hsame : SameTable c.sys.kernel r.kernel :=
        ⟨h.pcbs, h.procList, h.created, h.pidCurrent⟩
      exact ⟨order, hsame.recorded hc⟩
    | reaped child _ _ _ _ _ _ h =>
      have hreaps : Reaps c.sys.kernel r.kernel child :=
        ⟨h.finished, h.pcbs, h.procList, h.created, h.pidCurrent⟩
      exact ⟨order, hc.quiet hreaps.quiet (hreaps.settled hc.settled)
        (hreaps.quiet.numbered hc.numbered h.created h.pidCurrent)⟩

theorem recorded_start (h : Start s.kernel) : Recorded [] ⟨s, []⟩ := by
  refine ⟨h.settled, ⟨fun a ha => ?_, ?_⟩, List.nodup_nil, fun a ha => ?_, rfl,
    fun a ha hzombie => ?_⟩
  · rw [h.created] at ha
    obtain rfl := Nat.lt_one_iff.mp ha
    exact h.pid
  · rw [h.pidCurrent, h.created]
    rfl
  · exact absurd ha List.not_mem_nil
  · rw [h.procList] at ha
    rw [List.mem_singleton.mp ha, h.state] at hzombie
    cases hzombie

theorem recorded_run {es : List Event} (hjoin : JoinsInStep X.threadJoin) (hstart : Start s.kernel)
    (hrun : Run.exec (Chronicle.step X) ⟨s, []⟩ es = some c) : ∃ order, Recorded order c :=
  Run.exec_invariant_of_step (I := fun c => ∃ order, Recorded order c)
    (fun _ _ _ ⟨_, hu⟩ h => hu.step hjoin h) ⟨[], recorded_start hstart⟩ hrun

theorem Numbered.pid_inj (hk : Numbered k) (hfew : k.created < 2 ^ 32) {a b : PcbPtr}
    (ha : a < k.created) (hb : b < k.created) (h : (k.pcbs a).pid = (k.pcbs b).pid) : a = b := by
  rw [hk.pid a ha, hk.pid b hb] at h
  have hnat := congrArg BitVec.toNat h
  rw [BitVec.toNat_ofNat, BitVec.toNat_ofNat, Nat.mod_eq_of_lt (Nat.lt_of_le_of_lt ha hfew),
    Nat.mod_eq_of_lt (Nat.lt_of_le_of_lt hb hfew)] at hnat
  exact Nat.succ.inj hnat

/-- One exit stands under the pid of a process that has ended. -/
theorem Recorded.filter_exits (hc : Recorded order c) (hfew : c.sys.kernel.created < 2 ^ 32)
    {a : PcbPtr} (ha : a ∈ order) :
    c.exits.filter (fun x => x.1 = (c.sys.kernel.pcbs a).pid) =
      [((c.sys.kernel.pcbs a).pid, (c.sys.kernel.pcbs a).exitStatus)] := by
  have hsame : ∀ b ∈ order, ((c.sys.kernel.pcbs b).pid = (c.sys.kernel.pcbs a).pid ↔ b = a) :=
    fun b hb => ⟨hc.numbered.pid_inj hfew (hc.ended b hb).1 (hc.ended a ha).1, fun h => by rw [h]⟩
  have hone : order.filter (fun b => (c.sys.kernel.pcbs b).pid = (c.sys.kernel.pcbs a).pid) =
      [a] := by
    rw [List.filter_congr fun b hb => decide_eq_decide.mpr (hsame b hb), List.filter_eq,
      List.count_eq_one_of_mem hc.nodup ha, List.replicate_one]
  rw [hc.exits, List.filter_map]
  exact congrArg (List.map _) hone

/-! ### What a wait returns -/

section
variable {pid options : Word} {wstatus : Option Word} {r : WaitReturn}

/-- A wait that reaps reports the code in the PCB. -/
theorem doWaitpid_status (hjoin : JoinsInStep X.threadJoin) (hk : Settled k)
    (hr : doWaitpid X pid wstatus options k = some r) (hzero : r.ret ≠ 0) (herror : r.ret ≠ -1) :
    ∃ child ∈ k.procList, (k.pcbs child).state = .zombie ∧ (k.pcbs child).pid = r.ret ∧
      ∀ status, r.wstatus = some status → NormalExit status (k.pcbs child).exitStatus := by
  cases doWaitpid_step hjoin hk hr with
  | unknown _ hret => exact absurd hret herror
  | alive _ _ _ _ hret => exact absurd hret hzero
  | reaped child hchild hwait hret _ _ _ h =>
    have hmem := selectChild_mem hchild
    have hzombie := h.zombie hk hmem
    refine ⟨child, hmem, hzombie, hret.symm, fun status hstatus => ?_⟩
    rcases doWaitpid_cases hr with ⟨hnone, _⟩ | ⟨c, hc, ⟨hnohang, hstate, _⟩ | ⟨_, k₁, hk₁, rfl⟩⟩
    · exact nomatch hchild.symm.trans hnone
    · obtain rfl := Option.some.inj (hchild.symm.trans hc)
      exact absurd hzombie hstate
    · obtain rfl := Option.some.inj (hchild.symm.trans hc)
      have hrunning : ¬ (k.localIrqSave.pcbs child).Stopped := fun hstopped =>
        hstopped.1 (hk.untraced child hmem)
      rw [resumeChild_unstopped hrunning, joinChild_zombie (k := k.localIrqSave) hzombie] at hk₁
      obtain ⟨m, hm⟩ : ∃ m, k₁.pcbs child = { k.pcbs child with mainThread := m } := by
        rcases hjoin.pcbs _ _ _ child hk₁ with hsame | ⟨_, hdropped⟩
        · exact ⟨(k.pcbs child).mainThread, hsame⟩
        · exact ⟨none, hdropped⟩
      have hreq : (k₁.pcbs child).ptracePendingReq = .noRequest := by
        rw [hm]
        exact hk.untraced child hmem
      have hended : (k₁.pcbs child).state = .zombie := by rw [hm, hzombie]
      rw [collectChild_untraced hreq, if_pos hended, reapChild_status, hm] at hstatus
      obtain ⟨_, _, rfl⟩ := Option.map_eq_some_iff.mp hstatus
      exact statusBits_normalExit _

/-- In every run whose pids do not wrap, a wait that returns a pid returns the one of a process
that has ended once, and the status has the code of that `exit`; a wait that does not hang
returns 0 only for a process that has not ended. -/
theorem wait_reports_exit {es : List Event} {t : Tid} (hjoin : JoinsInStep X.threadJoin)
    (hstart : Start s.kernel) (hrun : Run.exec (Chronicle.step X) ⟨s, []⟩ es = some c)
    (hfew : c.sys.kernel.created < 2 ^ 32)
    (hr : doWaitpid X pid wstatus options (c.sys.enter t) = some r) :
    (r.ret ≠ 0 → r.ret ≠ -1 → ∃ exitStatus,
      c.exits.filter (fun x => x.1 = r.ret) = [(r.ret, exitStatus)] ∧
        ∀ status, r.wstatus = some status → NormalExit status exitStatus) ∧
    (r.ret = 0 → ∀ x ∈ c.exits, x.1 ≠ pid) := by
  obtain ⟨order, hc⟩ := recorded_run hjoin hstart hrun
  constructor
  · intro hzero herror
    obtain ⟨child, hmem, hzombie, hpid, hstatus⟩ :=
      doWaitpid_status hjoin hc.settled.enter hr hzero herror
    refine ⟨(c.sys.kernel.pcbs child).exitStatus, ?_, hstatus⟩
    rw [← hpid]
    exact hc.filter_exits hfew (hc.zombies child hmem hzombie)
  · intro hzero x hx hpid
    cases doWaitpid_step hjoin hc.settled.enter hr with
    | unknown _ hret => exact absurd (hret.symm.trans hzero) (by decide)
    | alive child hchild _ hstate =>
      have hmem : child ∈ c.sys.kernel.procList := selectChild_mem hchild
      rw [hc.exits] at hx
      obtain ⟨a, ha, rfl⟩ := List.mem_map.mp hx
      obtain ⟨hlt, hzombie⟩ := hc.ended a ha
      unfold selectChild at hchild
      split_ifs at hchild
      · exact hstate (findProcZombieToClean_some hchild).2.1
      · have hsame := hpid.trans (findProcByPid_some hchild).2.symm
        obtain rfl := hc.numbered.pid_inj hfew hlt (hc.settled.fresh child hmem) hsame
        exact hstate hzombie
    | reaped child hchild _ hret =>
      have hmem : child ∈ c.sys.kernel.procList := selectChild_mem hchild
      have hlt := hc.settled.fresh child hmem
      have hnat : (BitVec.ofNat 32 (child + 1)).toNat = (0 : Word).toNat := by
        rw [← hc.numbered.pid child hlt]
        exact congrArg BitVec.toNat (hret.symm.trans hzero)
      rw [BitVec.toNat_ofNat, Nat.mod_eq_of_lt (Nat.lt_of_le_of_lt hlt hfew)] at hnat
      exact absurd hnat (Nat.succ_ne_zero child)

/- The root process forks, its child ends with 3, and the root waits for any process. -/
def childExits : List Event := [⟨0, .fork⟩, ⟨1, .exit 3⟩]

theorem wait_reports_exit_child : ∃ c r,
    Run.exec (Chronicle.step rootPlatform) ⟨rootSys, []⟩ childExits = some c ∧
    doWaitpid rootPlatform (-1) (some 0) 0 (c.sys.enter 0) = some r ∧ r.ret = 2 ∧
    ∃ exitStatus, c.exits.filter (fun x => x.1 = r.ret) = [(r.ret, exitStatus)] ∧
      ∀ status, r.wstatus = some status → NormalExit status exitStatus := by
  have hlast : ((Run.exec (Chronicle.step rootPlatform) ⟨rootSys, []⟩ childExits).bind fun c =>
      (doWaitpid rootPlatform (-1) (some 0) 0 (c.sys.enter 0)).map fun r =>
        (c.sys.kernel.created, r.ret)) = some (2, 2) := by decide
  obtain ⟨c, hc, hwait⟩ := Option.bind_eq_some_iff.mp hlast
  obtain ⟨r, hr, hout⟩ := Option.map_eq_some_iff.mp hwait
  obtain ⟨hcreated, hret⟩ := Prod.mk.inj hout
  have hreports := wait_reports_exit joinFinished_inStep rootKernel_start hc
    (by rw [hcreated]; decide) hr
  exact ⟨c, r, hc, hr, hret, hreports.1 (by rw [hret]; decide) (by rw [hret]; decide)⟩

end

end SyeLabs.So3
