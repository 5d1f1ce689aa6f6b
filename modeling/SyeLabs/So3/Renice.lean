import SyeLabs.So3.Reaping

/-!
# Changing a priority (`lab9/process.c`, lines 84-108)

`do_renice` takes the process that `find_proc_by_pid` gives and its main thread as they
come, and each of the two may be NULL.
-/

namespace SyeLabs.So3

/-- `prio` is the field of the threads; `none` is an access through NULL. -/
def doRenice (k : Kernel) (prio : Tid → Word) (pid newPrio : Word) :
    Option ((Tid → Word) × Word) :=
  if pid.toNat < 0 ∨ newPrio.toNat < 1 then some (prio, -1)
  else do
    let pcb ← k.findProcByPid pid
    let thread ← (k.pcbs pcb).mainThread
    some (Function.update prio thread newPrio, 0)

variable {k : Kernel} {prio : Tid → Word} {pid newPrio : Word}

/-- The process that has the pid, and its main thread. -/
def Kernel.MainThreadOf (k : Kernel) (pid : Word) (thread : Tid) : Prop :=
  ∃ a, k.findProcByPid pid = some a ∧ (k.pcbs a).mainThread = some thread

/-- One priority changes, or nothing does and the result is -1. -/
structure Renices (k : Kernel) (prio : Tid → Word) (pid newPrio : Word) : Prop where
  answers : ∃ prio' ret, doRenice k prio pid newPrio = some (prio', ret) ∧
    (ret = 0 ∧ (∃ thread, k.MainThreadOf pid thread ∧ prio' = Function.update prio thread newPrio) ∨
      ret = -1 ∧ prio' = prio)
  refuses : newPrio.toNat < 1 ∨ (¬ ∃ thread, k.MainThreadOf pid thread) →
    doRenice k prio pid newPrio = some (prio, -1)

theorem doRenice_low (h : newPrio.toNat < 1) : doRenice k prio pid newPrio = some (prio, -1) :=
  if_pos (.inr h)

theorem doRenice_found {thread : Tid} (hprio : ¬ newPrio.toNat < 1)
    (h : k.MainThreadOf pid thread) :
    doRenice k prio pid newPrio = some (Function.update prio thread newPrio, 0) := by
  obtain ⟨a, hfind, hmain⟩ := h
  have hrange : ¬ (pid.toNat < 0 ∨ newPrio.toNat < 1) :=
    not_or.mpr ⟨Nat.not_lt_zero _, hprio⟩
  simp only [doRenice, if_neg hrange, hfind, Option.bind_eq_bind, Option.bind_some, hmain]

/- The process or its thread is NULL. -/
theorem doRenice_null (hprio : ¬ newPrio.toNat < 1) (h : ¬ ∃ thread, k.MainThreadOf pid thread) :
    doRenice k prio pid newPrio = none := by
  have hrange : ¬ (pid.toNat < 0 ∨ newPrio.toNat < 1) :=
    not_or.mpr ⟨Nat.not_lt_zero _, hprio⟩
  rw [doRenice, if_neg hrange]
  cases hfind : k.findProcByPid pid with
  | none => rfl
  | some a =>
    cases hmain : (k.pcbs a).mainThread with
    | none => simp only [Option.bind_eq_bind, Option.bind_some, hmain, Option.bind_none]
    | some thread => exact absurd ⟨thread, a, hfind, hmain⟩ h

theorem not_renices (hprio : ¬ newPrio.toNat < 1) (h : ¬ ∃ thread, k.MainThreadOf pid thread) :
    ¬ Renices k prio pid newPrio := by
  intro hlaw
  obtain ⟨prio', ret, hsome, _⟩ := hlaw.answers
  rw [doRenice_null hprio h] at hsome
  cases hsome

/-- `renice` keeps to its law exactly when it refuses the priority or there is a thread to
take it. -/
theorem renices_iff (k : Kernel) (prio : Tid → Word) (pid newPrio : Word) :
    Renices k prio pid newPrio ↔ newPrio.toNat < 1 ∨ ∃ thread, k.MainThreadOf pid thread := by
  constructor
  · intro h
    by_contra hnot
    rw [not_or] at hnot
    exact not_renices hnot.1 hnot.2 h
  · intro h
    by_cases hprio : newPrio.toNat < 1
    · have hlow : doRenice k prio pid newPrio = some (prio, -1) := doRenice_low hprio
      exact ⟨⟨prio, -1, hlow, .inr ⟨rfl, rfl⟩⟩, fun _ => hlow⟩
    · obtain ⟨thread, hthread⟩ := h.resolve_left hprio
      refine ⟨⟨_, 0, doRenice_found hprio hthread, .inl ⟨rfl, thread, hthread, rfl⟩⟩, ?_⟩
      exact fun hrefused => absurd ⟨thread, hthread⟩ (hrefused.resolve_left hprio)

/- The root process forks 1, which forks 2 and ends; the root reaps 1, which stays for 2. -/
def halfCleaned : List Event :=
  [⟨0, .fork⟩, ⟨1, .fork⟩, ⟨1, .exit 0⟩, ⟨0, .waitpid (-1) none 0⟩]

/- The pid 2 is that of process 1, and nobody has the pid 99. -/
theorem renice_of_reaped :
    ∃ t, Run.exec (Sys.step rootPlatform) rootSys halfCleaned = some t ∧
      t.kernel.findProcByPid 2 = some 1 ∧
      ∀ prio, ¬ Renices t.kernel prio 2 5 ∧ ¬ Renices t.kernel prio 99 5 := by
  have hstate : (Run.exec (Sys.step rootPlatform) rootSys halfCleaned).map
      (fun t => (t.kernel.findProcByPid 2, (t.kernel.pcbs 1).mainThread,
        t.kernel.findProcByPid 99)) = some (some 1, none, none) := by decide
  obtain ⟨t, ht, hfacts⟩ := Option.map_eq_some_iff.mp hstate
  simp only [Prod.mk.injEq] at hfacts
  obtain ⟨hfind, hmain, hunknown⟩ := hfacts
  refine ⟨t, ht, hfind, fun prio => ⟨not_renices (by decide) ?_, not_renices (by decide) ?_⟩⟩
  · rintro ⟨thread, a, hfound, hthread⟩
    rw [hfind] at hfound
    cases hfound
    rw [hmain] at hthread
    cases hthread
  · rintro ⟨thread, a, hfound, _⟩
    rw [hunknown] at hfound
    cases hfound

end SyeLabs.So3
