import SyeLabs.Library.Pipe
import SyeLabs.Library.Run

/-!
# A pipeline of two programs (`lab7/sh.c`, lines 163-256)

`process_cmd` on a line `left | right`, from `pipe()` on. The three processes
take their steps in any order; the left program is the bytes it writes, the right
one reads to the end of the stream.
-/

namespace SyeLabs.Shell

abbrev Byte := BitVec 8

inductive Proc where
  | shell
  | left
  | right
  deriving DecidableEq

instance : Fintype Proc := ⟨{.shell, .left, .right}, fun p => by cases p <;> decide⟩

/- The next call of `process_cmd` in the parent. -/
inductive ShellPc where
  | pipe
  | fork1
  | waitpid1
  | fork2
  | closeRead
  | closeWrite
  | waitpid2
  | returned
  | exited
  deriving DecidableEq

/- The next call in a child; `closeUnused` closes the end it does not need,
`closeUsed` the other one, after `execv` failed. -/
inductive ChildPc where
  | unborn
  | closeUnused
  | dup2
  | execv
  | program
  | closeUsed
  | exit
  | terminated
  deriving DecidableEq

/-- The capacity of pipes and the bytes the left program writes before it ends. -/
structure Line where
  capacity : ℕ
  output : List Byte

structure State where
  shell : ShellPc
  left : ChildPc
  right : ChildPc
  pending : List Byte
  received : List Byte
  pipe : Pipe Proc Byte

/-- `ok` is the next call returning with success, `fail` with -1. -/
inductive Act where
  | ok
  | fail
  | write (n : ℕ)
  | broken
  | read (n : ℕ)
  deriving DecidableEq

namespace State

def shellStep (s : State) : Act → Option State
  | .ok => match s.shell with
    | .pipe => some {s with shell := .fork1, pipe := s.pipe.create .shell}
    | .fork1 =>
      some {s with shell := .waitpid1, left := .closeUnused, pipe := s.pipe.fork .shell .left}
    | .waitpid1 => if s.left = .terminated then some {s with shell := .fork2} else none
    | .fork2 =>
      some {s with shell := .closeRead, right := .closeUnused, pipe := s.pipe.fork .shell .right}
    | .closeRead => some {s with shell := .closeWrite, pipe := s.pipe.closeRead .shell}
    | .closeWrite => some {s with shell := .waitpid2, pipe := s.pipe.closeWrite .shell}
    | .waitpid2 => if s.right = .terminated then some {s with shell := .returned} else none
    | .returned | .exited => none
  | .fail => match s.shell with
    | .pipe | .fork1 | .fork2 => some {s with shell := .exited, pipe := s.pipe.exit .shell}
    | _ => none
  | _ => none

def leftStep (line : Line) (s : State) : Act → Option State
  | .ok => match s.left with
    | .closeUnused => some {s with left := .dup2, pipe := s.pipe.closeRead .left}
    | .dup2 => some {s with left := .execv, pipe := s.pipe.dupWrite .left}
    | .execv => some {s with left := .program, pending := line.output}
    | .program => if s.pending = [] then some {s with left := .exit} else none
    | .closeUsed => some {s with left := .exit, pipe := s.pipe.closeWrite .left}
    | .exit => some {s with left := .terminated, pipe := s.pipe.exit .left}
    | .unborn | .terminated => none
  | .fail => if s.left = .execv then some {s with left := .closeUsed} else none
  | .write n =>
    if s.left = .program ∧ 0 < n ∧ n ≤ s.pending.length ∧ s.pipe.HasReader ∧
        s.pipe.buffer.length + n ≤ line.capacity then
      some {s with pending := s.pending.drop n, pipe := s.pipe.put (s.pending.take n)}
    else none
  | .broken =>
    -- no process is left that could read: the write fails instead of waiting
    if s.left = .program ∧ s.pending ≠ [] ∧ ¬ s.pipe.HasReader then some {s with pending := []}
    else none
  | .read _ => none

def rightStep (s : State) : Act → Option State
  | .ok => match s.right with
    | .closeUnused => some {s with right := .dup2, pipe := s.pipe.closeWrite .right}
    | .dup2 => some {s with right := .execv, pipe := s.pipe.dupRead .right}
    | .execv => some {s with right := .program}
    | .program =>
      if s.pipe.buffer = [] ∧ ¬ s.pipe.HasWriter then some {s with right := .exit} else none
    | .closeUsed => some {s with right := .exit, pipe := s.pipe.closeRead .right}
    | .exit => some {s with right := .terminated, pipe := s.pipe.exit .right}
    | .unborn | .terminated => none
  | .fail => if s.right = .execv then some {s with right := .closeUsed} else none
  | .read n =>
    if s.right = .program ∧ 0 < n ∧ n ≤ s.pipe.buffer.length then
      some {s with received := s.received ++ s.pipe.buffer.take n, pipe := s.pipe.drop n}
    else none
  | _ => none

def step (line : Line) (s : State) : Proc × Act → Option State
  | (.shell, a) => s.shellStep a
  | (.left, a) => s.leftStep line a
  | (.right, a) => s.rightStep a

def start : State := ⟨.pipe, .unborn, .unborn, [], [], ⟨[], fun _ => ⟨0, 0⟩⟩⟩

/-! ### Deadlock -/

def Live (s : State) : Proc → Prop
  | .shell => s.shell ≠ .exited
  | .left => s.left ≠ .unborn ∧ s.left ≠ .terminated
  | .right => s.right ≠ .unborn ∧ s.right ≠ .terminated

def Blocked (line : Line) (s : State) : Proc → Prop
  | .shell => s.shell = .waitpid1 ∧ s.left ≠ .terminated ∨
      s.shell = .waitpid2 ∧ s.right ≠ .terminated
  | .left => s.left = .program ∧ s.pending ≠ [] ∧ s.pipe.WriteBlocks line.capacity
  | .right => s.right = .program ∧ s.pipe.ReadBlocks

/-- Some process lives, `process_cmd` has not returned, and nobody can go on. -/
structure Deadlocked (line : Line) (s : State) : Prop where
  unfinished : s.shell ≠ .returned
  live : ∃ p, s.Live p
  blocked : ∀ p, s.Live p → s.Blocked line p

end State

def DeadlockFree (line : Line) : Prop :=
  ∀ es s, Run.exec (State.step line) State.start es = some s → ¬ s.Deadlocked line

/-! ### What a child does -/

/-- How a child goes on. -/
inductive ChildPc.Move : ChildPc → ChildPc → Prop where
  | stays (pc) : Move pc pc
  | closeUnused : Move .closeUnused .dup2
  | dup2 : Move .dup2 .execv
  | execv : Move .execv .program
  | execvFails : Move .execv .closeUsed
  | program : Move .program .exit
  | closeUsed : Move .closeUsed .exit
  | exit : Move .exit .terminated

section

variable {line : Line} {s s' : State} {a : Act}

theorem leftStep_move (h : s.leftStep line a = some s') :
    ChildPc.Move s.left s'.left ∧ s'.shell = s.shell ∧ s'.right = s.right := by
  cases a with
  | ok =>
    cases hpc : s.left <;> simp [State.leftStep, hpc] at h
    case program =>
      obtain ⟨_, rfl⟩ := h
      exact ⟨.program, rfl, rfl⟩
    all_goals
      subst h
      exact ⟨by constructor, rfl, rfl⟩
  | fail =>
    simp only [State.leftStep] at h
    split_ifs at h with hpc
    obtain rfl := Option.some.inj h
    exact ⟨hpc ▸ .execvFails, rfl, rfl⟩
  | write n =>
    simp only [State.leftStep] at h
    split_ifs at h
    obtain rfl := Option.some.inj h
    exact ⟨.stays _, rfl, rfl⟩
  | broken =>
    simp only [State.leftStep] at h
    split_ifs at h
    obtain rfl := Option.some.inj h
    exact ⟨.stays _, rfl, rfl⟩
  | read n => cases h

theorem rightStep_move (h : s.rightStep a = some s') :
    ChildPc.Move s.right s'.right ∧ s'.shell = s.shell ∧ s'.left = s.left := by
  cases a with
  | ok =>
    cases hpc : s.right <;> simp [State.rightStep, hpc] at h
    case program =>
      obtain ⟨_, rfl⟩ := h
      exact ⟨.program, rfl, rfl⟩
    all_goals
      subst h
      exact ⟨by constructor, rfl, rfl⟩
  | fail =>
    simp only [State.rightStep] at h
    split_ifs at h with hpc
    obtain rfl := Option.some.inj h
    exact ⟨hpc ▸ .execvFails, rfl, rfl⟩
  | read n =>
    simp only [State.rightStep] at h
    split_ifs at h
    obtain rfl := Option.some.inj h
    exact ⟨.stays _, rfl, rfl⟩
  | write n | broken => cases h

end

/-! ### What holds of every reachable state -/

def ShellPc.ends : ShellPc → Pipe.Ends
  | .fork1 | .waitpid1 | .fork2 | .closeRead => ⟨1, 1⟩
  | .closeWrite => ⟨0, 1⟩
  | .pipe | .waitpid2 | .returned | .exited => ⟨0, 0⟩

/-- Which children there are at each point of `process_cmd`. -/
def ShellPc.Family (left right : ChildPc) : ShellPc → Prop
  | .pipe | .fork1 => left = .unborn ∧ right = .unborn
  | .waitpid1 => left ≠ .unborn ∧ right = .unborn
  | .fork2 => left = .terminated ∧ right = .unborn
  | .closeRead | .closeWrite | .waitpid2 | .returned => left = .terminated ∧ right ≠ .unborn
  | .exited => (left = .unborn ∨ left = .terminated) ∧ right = .unborn

theorem ShellPc.Family.moveLeft {pc : ShellPc} {l l' r : ChildPc} (h : pc.Family l r)
    (hborn : l ≠ .unborn) (hlive : l ≠ .terminated) (hl' : l' ≠ .unborn) : pc.Family l' r := by
  cases pc <;> simp_all [Family]

theorem ShellPc.Family.moveRight {pc : ShellPc} {l r r' : ChildPc} (h : pc.Family l r)
    (hborn : r ≠ .unborn) (hr' : r' ≠ .unborn) : pc.Family l r' := by
  cases pc <;> simp_all [Family]

namespace State

structure Inv (line : Line) (s : State) : Prop where
  family : s.shell.Family s.left s.right
  shellEnds : s.pipe.ends .shell = s.shell.ends
  leftEnds : s.left = .terminated → (s.pipe.ends .left).write = 0
  rightEnds : (s.pipe.ends .right).write = if s.right = .closeUnused then 1 else 0
  unused : s.left ∈ [.unborn, .closeUnused, .dup2, .execv] → s.pipe.buffer = []
  room : s.pipe.buffer.length + s.pending.length ≤ line.output.length

variable {line : Line} {s s' : State}

theorem inv_start (line : Line) : start.Inv line := by
  constructor <;> simp [start, ShellPc.Family, ShellPc.ends]

attribute [local simp] Pipe.create Pipe.fork Pipe.closeRead Pipe.closeWrite Pipe.dupRead
  Pipe.dupWrite Pipe.exit

theorem inv_shell (h : s.Inv line) {a : Act} (hs : s.shellStep a = some s') : s'.Inv line := by
  obtain ⟨hfamily, hshell, hleft, hright, hunused, hroom⟩ := h
  cases a with
  | ok =>
    cases hpc : s.shell <;> simp [shellStep, hpc] at hs
    -- the two calls of `waitpid` return only once the child has terminated
    case waitpid1 | waitpid2 =>
      obtain ⟨hdone, rfl⟩ := hs
      constructor <;> simp_all [ShellPc.Family, ShellPc.ends]
    all_goals
      subst hs
      constructor <;> simp_all [ShellPc.Family, ShellPc.ends]
  | fail =>
    cases hpc : s.shell <;> simp [shellStep, hpc] at hs
    all_goals
      subst hs
      constructor <;> simp_all [ShellPc.Family, ShellPc.ends]
  | write n | broken | read n => simp [shellStep] at hs

theorem leftStep_live {a : Act} (hs : s.leftStep line a = some s') :
    s.left ≠ .unborn ∧ s.left ≠ .terminated := by
  constructor <;>
    · intro hpc
      cases a <;> simp [leftStep, hpc] at hs

theorem rightStep_live {a : Act} (hs : s.rightStep a = some s') :
    s.right ≠ .unborn ∧ s.right ≠ .terminated := by
  constructor <;>
    · intro hpc
      cases a <;> simp [rightStep, hpc] at hs

/- A live left child is at work during the first `waitpid` only, so its moves are
seen by no other process. -/
theorem Inv.of_left (h : s.Inv line) (hlive : s.left ≠ .unborn ∧ s.left ≠ .terminated)
    (hshell : s'.shell = s.shell) (hright : s'.right = s.right)
    (hends : ∀ p, p ≠ .left → s'.pipe.ends p = s.pipe.ends p) (hborn : s'.left ≠ .unborn)
    (hleft : s'.left = .terminated → (s'.pipe.ends .left).write = 0)
    (hunused : s'.left ∈ [.unborn, .closeUnused, .dup2, .execv] → s'.pipe.buffer = [])
    (hroom : s'.pipe.buffer.length + s'.pending.length ≤ line.output.length) : s'.Inv line := by
  refine ⟨?_, ?_, hleft, ?_, hunused, hroom⟩
  · rw [hshell, hright]
    exact h.family.moveLeft hlive.1 hlive.2 hborn
  · rw [hends _ (by decide), hshell]
    exact h.shellEnds
  · rw [hends _ (by decide), hright]
    exact h.rightEnds

theorem inv_left (h : s.Inv line) {a : Act} (hs : s.leftStep line a = some s') : s'.Inv line := by
  have hlive := leftStep_live hs
  have hroom := h.room
  cases a with
  | ok =>
    cases hpc : s.left <;> simp [leftStep, hpc] at hs
    case closeUnused | dup2 =>
      subst hs
      exact h.of_left hlive rfl rfl (fun _ hp => Function.update_of_ne hp ..) (by simp) (by simp)
        (fun _ => h.unused (by simp [hpc])) hroom
    case execv =>
      subst hs
      refine h.of_left hlive rfl rfl (fun _ _ => rfl) (by simp) (by simp) (by simp) ?_
      rw [h.unused (by simp [hpc])]
      simp
    case program =>
      obtain ⟨-, rfl⟩ := hs
      exact h.of_left hlive rfl rfl (fun _ _ => rfl) (by simp) (by simp) (by simp) hroom
    case closeUsed =>
      subst hs
      exact h.of_left hlive rfl rfl (fun _ hp => Function.update_of_ne hp ..) (by simp) (by simp)
        (by simp) hroom
    case exit =>
      subst hs
      exact h.of_left hlive rfl rfl (fun _ hp => Function.update_of_ne hp ..) (by simp) (by simp)
        (by simp) hroom
  | fail =>
    obtain ⟨hpc, rfl⟩ := by simpa [leftStep] using hs
    exact h.of_left hlive rfl rfl (fun _ _ => rfl) (by simp) (by simp) (by simp) hroom
  | write n =>
    obtain ⟨⟨hpc, -, -, -, -⟩, rfl⟩ := by simpa [leftStep] using hs
    refine h.of_left hlive rfl rfl (fun _ _ => rfl) hlive.1 h.leftEnds (by simp [hpc]) ?_
    simp only [Pipe.put_buffer, List.length_append, List.length_take, List.length_drop]
    omega
  | broken =>
    obtain ⟨⟨hpc, -, -⟩, rfl⟩ := by simpa [leftStep] using hs
    refine h.of_left hlive rfl rfl (fun _ _ => rfl) hlive.1 h.leftEnds (by simp [hpc]) ?_
    simp only [List.length_nil]
    omega
  | read n => simp [leftStep] at hs

theorem Inv.of_right (h : s.Inv line) (hlive : s.right ≠ .unborn ∧ s.right ≠ .terminated)
    (hshell : s'.shell = s.shell) (hleft : s'.left = s.left) (hpending : s'.pending = s.pending)
    (hends : ∀ p, p ≠ .right → s'.pipe.ends p = s.pipe.ends p) (hborn : s'.right ≠ .unborn)
    (hright : (s'.pipe.ends .right).write = if s'.right = .closeUnused then 1 else 0)
    (hbuffer : s'.pipe.buffer <:+ s.pipe.buffer) : s'.Inv line := by
  refine ⟨?_, ?_, ?_, hright, ?_, ?_⟩
  · rw [hshell, hleft]
    exact h.family.moveRight hlive.1 hborn
  · rw [hends _ (by decide), hshell]
    exact h.shellEnds
  · rw [hends _ (by decide), hleft]
    exact h.leftEnds
  · intro hl
    rw [hleft] at hl
    rw [h.unused hl] at hbuffer
    exact List.suffix_nil.mp hbuffer
  · rw [hpending]
    have hle := hbuffer.length_le
    have hroom := h.room
    omega

theorem inv_right (h : s.Inv line) {a : Act} (hs : s.rightStep a = some s') : s'.Inv line := by
  have hlive := rightStep_live hs
  have hright := h.rightEnds
  have hall : s.pipe.buffer <:+ s.pipe.buffer := List.suffix_rfl
  cases a with
  | ok =>
    cases hpc : s.right <;> simp [rightStep, hpc] at hs
    all_goals
      rw [hpc] at hright
    case program =>
      obtain ⟨-, rfl⟩ := hs
      exact h.of_right hlive rfl rfl rfl (fun _ _ => rfl) (by simp) (by simpa using hright) hall
    case execv =>
      subst hs
      exact h.of_right hlive rfl rfl rfl (fun _ _ => rfl) (by simp) (by simpa using hright) hall
    all_goals
      subst hs
      exact h.of_right hlive rfl rfl rfl (fun _ hp => Function.update_of_ne hp ..) (by simp)
        (by simp [hright]) hall
  | fail =>
    obtain ⟨hpc, rfl⟩ := by simpa [rightStep] using hs
    rw [hpc] at hright
    exact h.of_right hlive rfl rfl rfl (fun _ _ => rfl) (by simp) (by simpa using hright) hall
  | read n =>
    obtain ⟨⟨hpc, -, -⟩, rfl⟩ := by simpa [rightStep] using hs
    exact h.of_right hlive rfl rfl rfl (fun _ _ => rfl) hlive.1 hright (List.drop_suffix ..)
  | write n | broken => simp [rightStep] at hs

theorem inv_step (h : s.Inv line) {e : Proc × Act} (hs : s.step line e = some s') :
    s'.Inv line := by
  obtain ⟨p, a⟩ := e
  cases p with
  | shell => exact inv_shell h hs
  | left => exact inv_left h hs
  | right => exact inv_right h hs

theorem inv_run {es : List (Proc × Act)} (h : Run.exec (step line) start es = some s) :
    s.Inv line :=
  Run.exec_invariant_of_step (fun _ _ _ h hs => inv_step h hs) (inv_start line) h

/-! ### Deadlock and the capacity -/

theorem Inv.not_deadlocked (h : s.Inv line) (hfits : line.output.length ≤ line.capacity) :
    ¬ s.Deadlocked line := by
  intro hdead
  have hfamily := h.family
  have hexited : s.shell ≠ .exited := by
    intro hpc
    obtain ⟨p, hp⟩ := hdead.live
    rw [hpc] at hfamily
    obtain ⟨hleft, hright⟩ := hfamily
    cases p with
    | shell => exact hp hpc
    | left => exact hleft.elim hp.1 hp.2
    | right => exact hp.1 hright
  rcases hdead.blocked .shell hexited with ⟨hpc, hterm⟩ | ⟨hpc, hterm⟩
  · -- the shell waits for the left program, which waits for room
    rw [hpc] at hfamily
    obtain ⟨-, hpending, hfull, -⟩ := hdead.blocked .left ⟨hfamily.1, hterm⟩
    have hroom := h.room
    have hpos := List.length_pos_iff.mpr hpending
    omega
  · -- the shell waits for the right program, which waits for data of a closed pipe
    rw [hpc] at hfamily
    obtain ⟨hprogram, -, p, hp⟩ := hdead.blocked .right ⟨hfamily.2, hterm⟩
    cases p with
    | shell => simp [h.shellEnds, hpc, ShellPc.ends] at hp
    | left => simp [h.leftEnds hfamily.1] at hp
    | right => simp [h.rightEnds, hprogram] at hp

/- The left program runs while the shell waits for it. -/
def launched : List (Proc × Act) :=
  [(.shell, .ok), (.shell, .ok), (.left, .ok), (.left, .ok), (.left, .ok)]

theorem launched_run (line : Line) : ∃ s, Run.exec (step line) start launched = some s ∧
    s.shell = .waitpid1 ∧ s.left = .program ∧ s.right = .unborn ∧ s.pending = line.output ∧
    s.pipe.buffer = [] ∧ s.pipe.HasReader :=
  ⟨_, rfl, rfl, rfl, rfl, rfl, rfl, .shell, Nat.one_pos⟩

theorem deadlocked_of_full (hshell : s.shell = .waitpid1) (hleft : s.left = .program)
    (hright : s.right = .unborn) (hpending : s.pending ≠ [])
    (hfull : s.pipe.WriteBlocks line.capacity) : s.Deadlocked line := by
  refine ⟨by simp [hshell], ⟨.shell, by simp [Live, hshell]⟩, fun p hp => ?_⟩
  cases p with
  | shell => exact Or.inl ⟨hshell, by simp [hleft]⟩
  | left => exact ⟨hleft, hpending, hfull⟩
  | right => exact absurd hright hp.1

/- The left program fills the pipe and has more to write. -/
theorem deadlock_of_overflow (h : line.capacity < line.output.length) :
    ∃ es s, Run.exec (step line) start es = some s ∧ s.Deadlocked line := by
  obtain ⟨s, hrun, hshell, hleft, hright, hpending, hempty, hreader⟩ := launched_run line
  by_cases hzero : line.capacity = 0
  · refine ⟨launched, s, hrun, deadlocked_of_full hshell hleft hright ?_ ⟨?_, hreader⟩⟩
    · rw [hpending]
      exact List.ne_nil_of_length_pos (by omega)
    · omega
  · let s' : State := {s with
      pending := s.pending.drop line.capacity
      pipe := s.pipe.put (s.pending.take line.capacity)}
    have hwrite : s.step line (.left, .write line.capacity) = some s' := by
      refine if_pos ⟨hleft, by omega, ?_, hreader, ?_⟩
      · rw [hpending]
        exact h.le
      · simp [hempty]
    refine ⟨launched ++ [(.left, .write line.capacity)], s', ?_,
      deadlocked_of_full hshell hleft hright ?_ ⟨?_, hreader⟩⟩
    · rw [Run.exec_append, hrun, Option.bind_some, Run.exec_cons, hwrite]
      rfl
    · refine List.ne_nil_of_length_pos ?_
      simp only [s', hpending, List.length_drop]
      omega
    · simp only [s', Pipe.put_buffer, hempty, hpending, List.nil_append, List.length_take]
      omega

end State

/-- A pipeline is free of deadlock exactly when the left output fits in the pipe. -/
theorem deadlockFree_iff (line : Line) :
    DeadlockFree line ↔ line.output.length ≤ line.capacity := by
  constructor
  · intro h
    by_contra hover
    obtain ⟨es, s, hrun, hdead⟩ := State.deadlock_of_overflow (Nat.not_le.mp hover)
    exact h es s hrun hdead
  · intro hfits es s hrun
    exact (State.inv_run hrun).not_deadlocked hfits

/- Two bytes into a pipe of one. -/
def overfull : Line := ⟨1, [65#8, 66#8]⟩

theorem pipeline_deadlocks : 1 ≤ overfull.capacity ∧ ¬ DeadlockFree overfull := by
  refine ⟨by decide, fun h => ?_⟩
  obtain ⟨es, s, hrun, hdead⟩ := @State.deadlock_of_overflow overfull (by decide)
  exact h es s hrun hdead

end SyeLabs.Shell
