import SyeLabs.So3.Reaping

/-!
# Reaping a process twice

A wait for any process skips those without a main thread, which are reaped; a wait for a
pid does not look.
-/

namespace SyeLabs.So3

variable (X : Platform)

/-- No page table was released twice and no status handed over twice. -/
def Sys.ReapedOnce (s : Sys) : Prop := s.released.Nodup ∧ s.delivered.Nodup

/-- The event is a wait for the pid of a process that was reaped. -/
def Event.Names (e : Event) (s : Sys) (pid : Word) (wstatus : Option Word) (options : Word) : Prop :=
  e.call = .waitpid pid wstatus options ∧ pid ≠ -1 ∧
    ∃ a ∈ s.released, (s.kernel.pcbs a).pid = pid

/-- A wait for the pid of a reaped process returns -1 and leaves the table unchanged. -/
def RefusesReaped (s : Sys) (e : Event) : Prop :=
  ∀ pid wstatus options, e.Names s pid wstatus options →
    ∀ r, doWaitpid X pid wstatus options (s.enter e.thread) = some r →
      r.ret = -1 ∧ SameTable s.kernel r.kernel

/-- A wait names the pid of a reaped process and a process of the table has it. -/
def FindsReaped (s : Sys) (e : Event) : Prop :=
  ∃ pid wstatus options, e.Names s pid wstatus options ∧ s.kernel.findProcByPid pid ≠ none

/-- A reaped process of the table has no main thread. -/
structure Threadless (s : Sys) : Prop where
  logged : Logged s
  mainThread : ∀ a ∈ s.released, a ∈ s.kernel.procList → (s.kernel.pcbs a).mainThread = none

variable {X} {k k' : Kernel} {s s' : Sys} {e : Event} {reaped : List PcbPtr}

theorem TableStep.mainThread_none (h : TableStep k k' reaped) (hk : Settled k) {a : PcbPtr}
    (ha : a ∈ k.procList) (hnone : (k.pcbs a).mainThread = none) :
    (k'.pcbs a).mainThread = none := by
  cases h with
  | same h => rw [h.pcbs, hnone]
  | fork p child hp h => rw [h.old hk ha, hnone]
  | exit p exitStatus hp h =>
    rw [h.pcb]
    split_ifs with hap
    · rw [← hap, hnone]
    · exact hnone
  | reap child hchild h =>
    rcases h.pcbs a with hsame | ⟨_, hdropped⟩
    · rw [hsame, hnone]
    · rw [hdropped]

theorem Threadless.step (hs : Threadless s) (hdrops : JoinDrops X.threadJoin)
    (h : SysStep X s s' e reaped) : Threadless s' := by
  refine ⟨hs.logged.step h, fun a ha hmem => ?_⟩
  rw [h.released] at ha
  rcases List.mem_append.mp ha with ha | ha
  · have hold : a ∈ s.kernel.procList := (h.table.mem hmem).resolve_right
      (Nat.ne_of_lt (hs.logged.released a ha))
    exact h.table.mainThread_none hs.logged.settled hold (hs.mainThread a ha hold)
  · exact h.dropped hdrops a ha

/- What is reaped was not reaped before, unless its pid was given. -/
theorem not_released_of_waits (hs : Threadless s) (hno : ¬ FindsReaped s e) {c : PcbPtr}
    (hwaits : WaitsFor X s.kernel e c) : c ∉ s.released := by
  obtain ⟨pid, wstatus, options, hcall, hchild, _⟩ := hwaits
  intro hc
  unfold selectChild at hchild
  split_ifs at hchild with hany
  · obtain ⟨hmem, _, hmain⟩ := findProcZombieToClean_some hchild
    exact hmain (hs.mainThread c hc hmem)
  · have hpid := (findProcByPid_some hchild).2
    have hfound : s.kernel.findProcByPid pid ≠ none := by
      rw [hchild]
      exact Option.some_ne_none c
    exact hno ⟨pid, wstatus, options, ⟨hcall, hany, c, hc, hpid⟩, hfound⟩

theorem reapedOnce_step (hs : Threadless s) (honce : s.ReapedOnce) (hno : ¬ FindsReaped s e)
    (h : SysStep X s s' e reaped) : s'.ReapedOnce := by
  have hnew : ∀ a ∈ s.released, ∀ b ∈ reaped, a ≠ b := fun a ha b hb hab =>
    not_released_of_waits hs hno ((h.waits b).mpr (h.table.reaped_eq hb)) (hab ▸ ha)
  have hsingle : reaped.Nodup := by
    cases h.table with
    | reap child _ _ => exact List.nodup_singleton child
    | same _ => exact List.nodup_nil
    | fork _ _ _ _ => exact List.nodup_nil
    | exit _ _ _ _ => exact List.nodup_nil
  constructor
  · rw [h.released, List.nodup_append]
    exact ⟨honce.1, hsingle, hnew⟩
  · rcases h.delivered with hsame | hmore
    · rw [hsame]
      exact honce.2
    · rw [hmore, List.nodup_append]
      exact ⟨honce.2, hsingle, fun a ha => hnew a (hs.logged.delivered a ha)⟩

theorem refuses_of_unknown (hno : ¬ FindsReaped s e) : RefusesReaped X s e := by
  intro pid wstatus options hnames r hr
  have hnone : s.kernel.findProcByPid pid = none := by
    by_contra hfound
    exact hno ⟨pid, wstatus, options, hnames, hfound⟩
  rw [doWaitpid_unknown (k := s.enter e.thread) hnames.2.1 hnone] at hr
  obtain rfl := Option.some.inj hr
  exact ⟨rfl, rfl, rfl, rfl, rfl⟩

theorem unknown_of_refuses (hjoin : JoinsInStep X.threadJoin) (hs : Settled s.kernel)
    (hstep : Sys.step X s e = some s') (h : RefusesReaped X s e) : ¬ FindsReaped s e := by
  rintro ⟨pid, wstatus, options, hnames, hfound⟩
  obtain ⟨t, call⟩ := e
  obtain rfl : call = .waitpid pid wstatus options := hnames.1
  obtain ⟨r, hr, _⟩ := step_waitpid hstep
  have hret := (h pid wstatus options hnames r hr).1
  cases doWaitpid_step hjoin hs.enter hr with
  | unknown hnone _ _ _ =>
    rw [selectChild, if_neg hnames.2.1] at hnone
    exact hfound hnone
  | alive _ _ _ _ hzero _ _ => exact absurd (hzero.symm.trans hret) (by decide)
  | reaped c hc _ hpid _ _ _ _ =>
    have hgiven := selectChild_pid hc
    rw [if_neg hnames.2.1] at hgiven
    exact hnames.2.1 (hgiven.trans (hpid.symm.trans hret))

/-- In a run each process is reaped at most once exactly when no wait finds a process by
the pid of one already reaped. -/
theorem reapedOnce_iff {t : Sys} {es : List Event} (hjoin : JoinsInStep X.threadJoin)
    (hdrops : JoinDrops X.threadJoin) (hstart : Start s.kernel)
    (hlog : s.released = [] ∧ s.delivered = []) (hrun : Run.exec (Sys.step X) s es = some t) :
    (Run.Along (Sys.step X) Sys.ReapedOnce s es ∧ Run.Meets (Sys.step X) (RefusesReaped X) s es) ↔
      Run.Meets (Sys.step X) (fun u e => ¬ FindsReaped u e) s es := by
  have hthreadless : Threadless s := ⟨⟨hstart.settled, by simp [hlog.1], by simp [hlog.2]⟩,
    by simp [hlog.1]⟩
  have honce : s.ReapedOnce := ⟨by rw [hlog.1]; exact List.nodup_nil,
    by rw [hlog.2]; exact List.nodup_nil⟩
  have hstep : ∀ u e u', Threadless u → Sys.step X u e = some u' → Threadless u' :=
    fun u e u' hu h => by
      obtain ⟨reaped, hdone⟩ := step_table hjoin hu.logged.settled h
      exact hu.step hdrops hdone
  refine Run.along_meets_iff hstep (fun u e u' hu hP h => ?_) hthreadless honce hrun
  obtain ⟨reaped, hdone⟩ := step_table hjoin hu.logged.settled h
  exact ⟨fun hboth => unknown_of_refuses hjoin hu.logged.settled h hboth.2,
    fun hno => ⟨reapedOnce_step hu hP hno hdone, refuses_of_unknown hno⟩⟩

theorem joinFinished_drops : JoinDrops joinFinished := by
  intro t k k' c h ht
  unfold joinFinished at h
  split_ifs at h
  obtain rfl := Option.some.inj h
  change (k.dropThread t c).mainThread = none
  rw [Kernel.dropThread, if_pos ht]

/- The root process forks 1, which forks 2 and ends; the root reaps 1 and waits for its
pid once more. -/
def secondWait : List Event :=
  [⟨0, .fork⟩, ⟨1, .fork⟩, ⟨1, .exit 3⟩, ⟨0, .waitpid (-1) (some 0) 0⟩, ⟨0, .waitpid 2 (some 0) 0⟩]

theorem reapedOnce_secondWait :
    ∃ t, Run.exec (Sys.step rootPlatform) rootSys secondWait = some t ∧ t.released = [1, 1] ∧
      ¬ Run.Meets (Sys.step rootPlatform) (fun u e => ¬ FindsReaped u e) rootSys secondWait := by
  have hlast : (Run.exec (Sys.step rootPlatform) rootSys secondWait).map Sys.released =
      some [1, 1] := by decide
  obtain ⟨t, ht, hreleased⟩ := Option.map_eq_some_iff.mp hlast
  refine ⟨t, ht, hreleased, fun hmeets => ?_⟩
  obtain ⟨halong, -⟩ := (reapedOnce_iff joinFinished_inStep joinFinished_drops rootKernel_start
    ⟨rfl, rfl⟩ ht).mpr hmeets
  have honce : t.released.Nodup := (Run.along_last halong ht).1
  rw [hreleased] at honce
  exact absurd honce (by decide)

theorem second_wait_reaps_again :
    ∃ t, Run.exec (Sys.step rootPlatform) rootSys secondWait = some t ∧ ¬ t.ReapedOnce := by
  have hlast : (Run.exec (Sys.step rootPlatform) rootSys secondWait).map
      (fun t => (t.released, t.delivered)) = some ([1, 1], [1, 1]) := by decide
  obtain ⟨t, ht, hlogs⟩ := Option.map_eq_some_iff.mp hlast
  refine ⟨t, ht, fun honce => ?_⟩
  have hreleased : t.released.Nodup := honce.1
  rw [(Prod.mk.inj hlogs).1] at hreleased
  exact absurd hreleased (by decide)

end SyeLabs.So3
