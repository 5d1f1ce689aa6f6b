import SyeLabs.Shell.Delivery
import SyeLabs.Shell.Stages
import Mathlib.Data.Finset.Card
import Mathlib.Data.Fintype.EquivFin

/-!
# The descriptors of the shell (`lab7/sh.c`)

One pipeline after the other, with the set of descriptors that the shell has open.
`pipe()` returns two that are not in use, and the two `close` give them back.
-/

namespace SyeLabs.Shell

/-- The pipeline at hand, the open descriptors of the shell and `pipe_fd`. -/
structure Session where
  line : Line
  state : State
  opened : Finset ℕ
  pipeFd : ℕ × ℕ

namespace Session

inductive Event where
  /-- a step of one of the three processes -/
  | call (e : Proc × Act)
  /-- `pipe()` succeeds -/
  | pipe (fds : ℕ × ℕ)
  /-- `process_cmd` has returned and is called for the next pipeline -/
  | next (line : Line)

/- What a call of the shell leaves open; the other processes have copies. -/
def leaves (s : Session) : Proc × Act → Finset ℕ
  | (.shell, .ok) => match s.state.shell with
    | .closeRead => s.opened.erase s.pipeFd.1
    | .closeWrite => s.opened.erase s.pipeFd.2
    | _ => s.opened
  | (.shell, .fail) => ∅
  | _ => s.opened

def step (s : Session) : Event → Option Session
  | .call e =>
    if s.state.shell = .pipe ∧ e = (.shell, .ok) then none
    else (s.state.step s.line e).map fun t => {s with state := t, opened := s.leaves e}
  | .pipe fds =>
    if s.state.shell = .pipe ∧ fds.1 ∉ s.opened ∧ fds.2 ∉ s.opened ∧ fds.1 ≠ fds.2 then
      (s.state.step s.line (.shell, .ok)).map fun t =>
        {s with state := t, opened := {fds.1, fds.2} ∪ s.opened, pipeFd := fds}
    else none
  | .next line =>
    if s.state.shell = .returned then some {s with line := line, state := .start} else none

def start (line : Line) (opened : Finset ℕ) (pipeFd : ℕ × ℕ) : Session :=
  ⟨line, .start, opened, pipeFd⟩

end Session

namespace ShellPc

/-- The descriptors of the pipe that the shell still has. -/
def held (fds : ℕ × ℕ) : ShellPc → Finset ℕ
  | .fork1 | .waitpid1 | .fork2 | .closeRead => {fds.1, fds.2}
  | .closeWrite => {fds.2}
  | .pipe | .waitpid2 | .returned | .exited => ∅

/-- The shell has what it had at first and the ends of the pipe that are counted. -/
structure Keeps (pc : ShellPc) (fds : ℕ × ℕ) (first now : Finset ℕ) : Prop where
  now_eq : pc ≠ .exited → now = pc.held fds ∪ first
  fresh : Disjoint (pc.held fds) first
  counted : (pc.held fds).card = pc.ends.read + pc.ends.write

variable {fds : ℕ × ℕ} {first now : Finset ℕ}

theorem keeps_pipe : Keeps .pipe fds first first :=
  ⟨fun _ => (Finset.empty_union _).symm, Finset.disjoint_empty_left _, rfl⟩

theorem keeps_exited : Keeps .exited fds first now :=
  ⟨fun h => absurd rfl h, Finset.disjoint_empty_left _, rfl⟩

theorem keeps_fork1 (h1 : fds.1 ∉ first) (h2 : fds.2 ∉ first) (hne : fds.1 ≠ fds.2) :
    Keeps .fork1 fds first ({fds.1, fds.2} ∪ first) := by
  refine ⟨fun _ => rfl, ?_, Finset.card_pair hne⟩
  rw [held, Finset.disjoint_insert_left, Finset.disjoint_singleton_left]
  exact ⟨h1, h2⟩

/- From one place to another where the shell has the same. -/
theorem Keeps.move {pc pc' : ShellPc} (h : Keeps pc fds first now) (hpc : pc ≠ .exited)
    (hheld : pc'.held fds = pc.held fds) (hends : pc'.ends = pc.ends) :
    Keeps pc' fds first now := by
  refine ⟨fun _ => ?_, ?_, ?_⟩
  · rw [hheld]
    exact h.now_eq hpc
  · rw [hheld]
    exact h.fresh
  · rw [hheld, hends]
    exact h.counted

theorem Keeps.closeRead (h : Keeps .closeRead fds first now) :
    Keeps .closeWrite fds first (now.erase fds.1) := by
  have hne : fds.1 ≠ fds.2 := by
    intro heq
    have hcard := h.counted
    rw [held, heq, Finset.pair_eq_singleton, Finset.card_singleton] at hcard
    cases hcard
  have hfresh := h.fresh
  rw [held, Finset.disjoint_insert_left, Finset.disjoint_singleton_left] at hfresh
  refine ⟨fun _ => ?_, Finset.disjoint_singleton_left.mpr hfresh.2, rfl⟩
  rw [h.now_eq (by decide), held, held, Finset.insert_union, Finset.erase_insert]
  rw [Finset.mem_union, Finset.mem_singleton, not_or]
  exact ⟨hne, hfresh.1⟩

theorem Keeps.closeWrite (h : Keeps .closeWrite fds first now) :
    Keeps .waitpid2 fds first (now.erase fds.2) := by
  have hfresh := Finset.disjoint_singleton_left.mp h.fresh
  refine ⟨fun _ => ?_, Finset.disjoint_empty_left _, rfl⟩
  rw [h.now_eq (by decide), held, held, Finset.empty_union, Finset.singleton_union,
    Finset.erase_insert hfresh]

end ShellPc

namespace Session

variable {first : Finset ℕ} {s s' : Session} {line : Line}

structure Kept (first : Finset ℕ) (s : Session) : Prop where
  reached : ∃ calls, Run.exec (State.step s.line) .start calls = some s.state
  keeps : s.state.shell.Keeps s.pipeFd first s.opened

/- The steps of the session are steps of the pipeline. -/
theorem Kept.reached_step (h : Kept first s) {e : Proc × Act} {t : State}
    (ht : s.state.step s.line e = some t) :
    ∃ calls, Run.exec (State.step s.line) .start calls = some t := by
  obtain ⟨calls, hrun⟩ := h.reached
  refine ⟨calls ++ [e], ?_⟩
  rw [Run.exec_append, hrun, Option.bind_some, Run.exec_cons, ht]
  rfl

theorem keeps_shell (h : Kept first s) {a : Act} {t : State}
    (hpipe : s.state.shell = .pipe → a ≠ .ok) (ht : s.state.shellStep a = some t) :
    t.shell.Keeps s.pipeFd first (s.leaves (.shell, a)) := by
  have hkeeps := h.keeps
  cases a with
  | ok =>
    cases hpc : s.state.shell <;> simp [State.shellStep, hpc] at ht
    case pipe => exact absurd rfl (hpipe hpc)
    all_goals
      rw [hpc] at hkeeps
    case closeRead =>
      subst ht
      simp only [leaves, hpc]
      exact hkeeps.closeRead
    case closeWrite =>
      subst ht
      simp only [leaves, hpc]
      exact hkeeps.closeWrite
    case waitpid1 | waitpid2 =>
      obtain ⟨_, rfl⟩ := ht
      simp only [leaves, hpc]
      exact hkeeps.move (by decide) rfl rfl
    all_goals
      subst ht
      simp only [leaves, hpc]
      exact hkeeps.move (by decide) rfl rfl
  | fail =>
    cases hpc : s.state.shell <;> simp [State.shellStep, hpc] at ht
    all_goals
      subst ht
      exact ShellPc.keeps_exited
  | write n | broken | read n => simp [State.shellStep] at ht

/- Between two pipelines. -/
theorem Kept.opened_eq (h : Kept first s)
    (hpc : s.state.shell = .pipe ∨ s.state.shell = .returned) : s.opened = first := by
  have hnow := h.keeps.now_eq
  rcases hpc with hpc | hpc
  · rw [hpc] at hnow
    exact (hnow (by decide)).trans (Finset.empty_union _)
  · rw [hpc] at hnow
    exact (hnow (by decide)).trans (Finset.empty_union _)

theorem kept_step (h : Kept first s) {e : Event} (hs : s.step e = some s') : Kept first s' := by
  cases e with
  | call e =>
    simp only [step] at hs
    split_ifs at hs with hpipe
    obtain ⟨t, ht, rfl⟩ := Option.map_eq_some_iff.mp hs
    refine ⟨h.reached_step ht, ?_⟩
    obtain ⟨p, a⟩ := e
    cases p with
    | shell => exact keeps_shell h (fun hpc hok => hpipe ⟨hpc, by rw [hok]⟩) ht
    | left =>
      simp only [(leftStep_move ht).2.1]
      exact h.keeps
    | right =>
      simp only [(rightStep_move ht).2.1]
      exact h.keeps
  | pipe fds =>
    simp only [step] at hs
    split_ifs at hs with hnew
    obtain ⟨t, ht, rfl⟩ := Option.map_eq_some_iff.mp hs
    obtain ⟨hpc, h1, h2, hne⟩ := hnew
    refine ⟨h.reached_step ht, ?_⟩
    have hnow := h.opened_eq (.inl hpc)
    rw [hnow] at h1 h2
    simp [State.step, State.shellStep, hpc] at ht
    subst ht
    simp only [hnow]
    exact ShellPc.keeps_fork1 h1 h2 hne
  | next line =>
    simp only [step] at hs
    split_ifs at hs with hpc
    cases hs
    refine ⟨⟨[], rfl⟩, ?_⟩
    simp only [h.opened_eq (.inr hpc)]
    exact ShellPc.keeps_pipe

theorem kept_run {fds : ℕ × ℕ} {es : List Event}
    (h : Run.exec step (start line first fds) es = some s) : Kept first s :=
  Run.exec_invariant_of_step (fun _ _ _ h hs => kept_step h hs) ⟨⟨[], rfl⟩, ShellPc.keeps_pipe⟩ h

/-- In every sequence of pipelines, the shell has an open descriptor more for each end of the
pipe that is counted to it, and each pipeline is a run of its own. -/
theorem counted_run {fds : ℕ × ℕ} {es : List Event} (hlive : s.state.shell ≠ .exited)
    (h : Run.exec step (start line first fds) es = some s) :
    s.opened.card = first.card + (s.state.pipe.ends .shell).read +
      (s.state.pipe.ends .shell).write ∧
    ∃ calls, Run.exec (State.step s.line) .start calls = some s.state := by
  obtain ⟨hreached, hkeeps⟩ := kept_run h
  refine ⟨?_, hreached⟩
  obtain ⟨calls, hrun⟩ := hreached
  rw [(State.inv_run hrun).shellEnds, hkeeps.now_eq hlive,
    Finset.card_union_of_disjoint hkeeps.fresh, hkeeps.counted]
  omega

/- A call of one of the processes that fails. -/
def Event.Fails : Event → Prop
  | .call e => e.2 = .fail
  | .pipe _ | .next _ => False

theorem step_ne_exited {e : Event} (he : e ≠ .call (.shell, .fail)) (hs : s.step e = some s')
    (hexited : s.state.shell ≠ .exited) : s'.state.shell ≠ .exited := by
  cases e with
  | call e =>
    simp only [step] at hs
    split_ifs at hs with hpipe
    obtain ⟨t, ht, rfl⟩ := Option.map_eq_some_iff.mp hs
    exact State.step_ne_exited (fun heq => he (by rw [heq])) ht hexited
  | pipe fds =>
    simp only [step] at hs
    split_ifs at hs with hnew
    obtain ⟨t, ht, rfl⟩ := Option.map_eq_some_iff.mp hs
    have hok : (Proc.shell, Act.ok) ≠ (.shell, .fail) := by decide
    exact State.step_ne_exited hok ht hexited
  | next line =>
    simp only [step] at hs
    split_ifs at hs with hpc
    cases hs
    simp [State.start]

theorem run_ne_exited {fds : ℕ × ℕ} {es : List Event} (hes : .call (.shell, .fail) ∉ es)
    (h : Run.exec step (start line first fds) es = some s) : s.state.shell ≠ .exited := by
  have hstart : (start line first fds).state.shell ≠ .exited := by simp [start, State.start]
  exact Run.exec_invariant_of_notMem (I := fun u => u.state.shell ≠ .exited)
    (fun u e u' hu he hs => step_ne_exited he hs hu) hstart hes h

/- Two descriptors that are not in use. -/
theorem exists_fresh (opened : Finset ℕ) :
    ∃ fds : ℕ × ℕ, fds.1 ∉ opened ∧ fds.2 ∉ opened ∧ fds.1 ≠ fds.2 := by
  obtain ⟨m, hm⟩ := Infinite.exists_notMem_finset opened
  obtain ⟨n, hn⟩ := Infinite.exists_notMem_finset (insert m opened)
  rw [Finset.mem_insert, not_or] at hn
  exact ⟨(m, n), hm, hn.2, Ne.symm hn.1⟩

theorem Kept.goes_on (h : Kept first s) (hfits : s.line.output.length ≤ s.line.capacity)
    (hexited : s.state.shell ≠ .exited) : ∃ e s', ¬ Event.Fails e ∧ s.step e = some s' := by
  by_cases hreturned : s.state.shell = .returned
  · exact ⟨.next s.line, _, not_false, if_pos hreturned⟩
  by_cases hpipe : s.state.shell = .pipe
  · obtain ⟨fds, hfds⟩ := exists_fresh s.opened
    obtain ⟨t, ht⟩ : ∃ t, s.state.step s.line (.shell, .ok) = some t := by
      simp only [State.step, State.shellStep, hpipe]
      exact ⟨_, rfl⟩
    have hs : s.step (.pipe fds) =
        some {s with state := t, opened := {fds.1, fds.2} ∪ s.opened, pipeFd := fds} := by
      simp only [step]
      rw [if_pos ⟨hpipe, hfds⟩, ht]
      rfl
    exact ⟨.pipe fds, _, not_false, hs⟩
  · obtain ⟨calls, hrun⟩ := h.reached
    obtain ⟨e, t, he, ht⟩ := (State.inv_run hrun).goes_on hfits hreturned hexited
    have hs : s.step (.call e) = some {s with state := t, opened := s.leaves e} := by
      simp only [step]
      rw [if_neg fun hcall => hpipe hcall.1, ht]
      rfl
    exact ⟨.call e, _, he, hs⟩

/-- What a sequence of pipelines has left open, and that it goes on unless a call of the
shell fails. -/
structure Lasts (first : Finset ℕ) (es : List Event) (s : Session) : Prop where
  opened_eq : s.state.shell = .returned → s.opened = first
  started : .call (.shell, .fail) ∉ es → s.state.shell ≠ .exited
  goesOn : s.line.output.length ≤ s.line.capacity → s.state.shell ≠ .exited →
    ∃ e s', ¬ Event.Fails e ∧ s.step e = some s'

end Session

/-- The shell has the same descriptors after any number of pipelines. -/
def KeepsDescriptors (first : Finset ℕ) : Prop :=
  ∀ line fds es s, Run.exec Session.step (Session.start line first fds) es = some s →
    Session.Lasts first es s

theorem keepsDescriptors (first : Finset ℕ) : KeepsDescriptors first := by
  intro line fds es s hrun
  have hkept := Session.kept_run hrun
  exact ⟨fun hpc => hkept.opened_eq (.inr hpc), fun hes => Session.run_ne_exited hes hrun,
    hkept.goes_on⟩

/-- What the left program writes is what the right program reads before the end of the
stream, and the shell keeps no descriptor. -/
theorem pipeline_delivers :
    (∀ line : Line, line.output.length ≤ line.capacity → Delivers line) ∧
      ∀ first, KeepsDescriptors first :=
  ⟨fun _ hfits => delivers hfits, keepsDescriptors⟩

/- Two bytes into a pipe that has room for three. -/
def twoBytes : Line := ⟨3, [65, 66]⟩

/- A run in which the right program reads the first byte before the shell has closed its
write end. -/
def earlyRead : List (Proc × Act) :=
  [(.shell, .ok), (.shell, .ok), (.left, .ok), (.left, .ok), (.left, .ok), (.left, .write 2),
    (.left, .ok), (.left, .ok), (.shell, .ok), (.shell, .ok), (.right, .ok), (.right, .ok),
    (.right, .ok), (.right, .read 1), (.shell, .ok), (.shell, .ok), (.right, .read 1),
    (.right, .ok), (.right, .ok), (.shell, .ok)]

/- The same line twice, with new descriptors for each pipe. -/
def twice : List Session.Event :=
  .pipe (3, 4) :: earlyRead.tail.map .call ++
    .next twoBytes :: .pipe (4, 3) :: earlyRead.tail.map .call

theorem two_bytes_delivered :
    (∃ s, Run.exec (State.step twoBytes) .start earlyRead = some s ∧ s.shell = .returned ∧
      s.received = [65, 66]) ∧
    ∃ s, Run.exec Session.step (Session.start twoBytes {0, 1, 2} (0, 0)) twice = some s ∧
      s.state.shell = .returned ∧ s.opened = {0, 1, 2} := by
  have hline : (Run.exec (State.step twoBytes) .start earlyRead).map State.shell =
      some .returned := by decide
  have hsession : (Run.exec Session.step (Session.start twoBytes {0, 1, 2} (0, 0)) twice).map
      (fun s => s.state.shell) = some .returned := by decide
  obtain ⟨s, hrun, hs⟩ := Option.map_eq_some_iff.mp hline
  obtain ⟨t, hruns, ht⟩ := Option.map_eq_some_iff.mp hsession
  have hdelivered := pipeline_delivers.1 twoBytes (by decide) earlyRead s hrun
  have hlasts := pipeline_delivers.2 {0, 1, 2} twoBytes (0, 0) twice t hruns
  exact ⟨⟨s, hrun, hs, hdelivered.returned hs (by decide)⟩, t, hruns, ht, hlasts.opened_eq ht⟩

end SyeLabs.Shell
