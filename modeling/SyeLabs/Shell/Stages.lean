import SyeLabs.Shell.Pipeline
import SyeLabs.Shell.Reaction

/-!
# The stages of a pipeline in `process_cmd` (`lab7/sh.c`)

The program counters of the three processes of a pipeline are places of the code: a
process stands where answers to its calls lead from the start of `process_cmd`.
-/

namespace SyeLabs.Shell

open ByteMemory (CStr Memory)
open Interaction (Prog)
open Words (before behind)

/-- What a child of a pipeline does, and what it prints when `execv` fails. -/
structure Child where
  unused : ℤ
  used : ℤ
  std : ℤ
  path : CStr
  args : List CStr
  complaint : Option Message

namespace Child

variable (k : Child)

def closeUsed : Cmd := .act (.close k.used) (exit EXIT_FAILURE)

def failed : Cmd :=
  match k.complaint with
  | none => k.closeUsed
  | some text => .act (.printf text) k.closeUsed

def execv : Cmd :=
  .call (.execv k.path k.args) fun a => if a.ret = -1 then k.failed else .done .replaced

def dup2 : Cmd := .act (.dup2 k.used k.std) k.execv

def code : Cmd := .act (.close k.unused) k.dup2

/-- The code that is left to a child. -/
def At (c : Cmd) : ChildPc → Prop
  | .unborn => False
  | .closeUnused => c = k.code
  | .dup2 => c = k.dup2
  | .execv => c = k.execv
  | .program => c = .done .replaced
  | .closeUsed => c = k.closeUsed
  | .exit | .terminated => c = .done .replaced ∨ c = exit EXIT_FAILURE

end Child

variable {line : Line} {s s' : State} {a : Act} {p c : Cmd} {k : Child}

theorem State.leftStep_unborn (h : s.left = .unborn) : s.leftStep line a = none := by
  cases a <;> simp [leftStep, h]

theorem State.rightStep_unborn (h : s.right = .unborn) : s.rightStep a = none := by
  cases a <;> simp [rightStep, h]

/-- A child stands at a place that its code leads to. -/
def Child.Stands (k : Child) (p : Cmd) (pc : ChildPc) : Prop := ∃ c, p.Reaches c ∧ k.At c pc

def succeeds : Answer := ⟨0, (0, 0)⟩
def fails : Answer := ⟨-1, (0, 0)⟩

theorem Child.Stands.move {pc pc' : ChildPc} (h : k.Stands p pc) (hmove : pc.Move pc') :
    k.Stands p pc' := by
  obtain ⟨c, hc, hat⟩ := h
  cases hmove with
  | stays => exact ⟨c, hc, hat⟩
  | closeUnused =>
    obtain rfl : c = k.code := hat
    exact ⟨k.dup2, hc.act succeeds, rfl⟩
  | dup2 =>
    obtain rfl : c = k.dup2 := hat
    exact ⟨k.execv, hc.act succeeds, rfl⟩
  | execv =>
    obtain rfl : c = k.execv := hat
    exact ⟨.done .replaced, hc.answer succeeds, rfl⟩
  | execvFails =>
    obtain rfl : c = k.execv := hat
    have hfailed : p.Reaches k.failed := hc.answer fails
    unfold failed at hfailed
    cases hcomplaint : k.complaint with
    | none =>
      rw [hcomplaint] at hfailed
      exact ⟨k.closeUsed, hfailed, rfl⟩
    | some text =>
      rw [hcomplaint] at hfailed
      exact ⟨k.closeUsed, hfailed.act succeeds, rfl⟩
  | program => exact ⟨c, hc, .inl hat⟩
  | closeUsed =>
    obtain rfl : c = k.closeUsed := hat
    exact ⟨exit EXIT_FAILURE, hc.act succeeds, .inr rfl⟩
  | exit => exact ⟨c, hc, hat⟩

/-! ### The parent -/

namespace Lab7

variable (stack : Stack) (scan : Scan) (fd : ℤ × ℤ) (pid1 pid2 : ℤ)

/-- The code that is left to the parent, when `pipe` has stored `fd` and the two calls of
`fork` return `pid1` and `pid2`. -/
def parent : ShellPc → Cmd
  | .pipe => .call .pipe fun a =>
      if a.ret = -1 then .act (.printf .pipeFailed) (exit EXIT_FAILURE)
      else forkChildren stack scan a.fds
  | .fork1 => forkChildren stack scan fd
  | .waitpid1 => .act (.waitpid pid1) (rightHand stack scan fd)
  | .fork2 => rightHand stack scan fd
  | .closeRead => .act (.close fd.1) <| .act (.close fd.2) <| .act (.waitpid pid2) returned
  | .closeWrite => .act (.close fd.2) <| .act (.waitpid pid2) returned
  | .waitpid2 => .act (.waitpid pid2) returned
  | .returned => returned
  | .exited => exit EXIT_FAILURE

/-- Every process stands at a place that the code of the parent leads to. -/
structure Stands (p : Cmd) (left right : Child) (s : State) : Prop where
  shell : p.Reaches (parent stack scan fd pid1 pid2 s.shell)
  left : s.left ≠ .unborn → left.Stands p s.left
  right : s.right ≠ .unborn → right.Stands p s.right

variable {stack scan fd pid1 pid2} {left right : Child}

theorem Stands.shell_step (hpipe : scan.isPipe = true) (hpid1 : 0 < pid1) (hpid2 : 0 < pid2)
    (hleft : child1 stack scan fd = left.code) (hright : child2 stack scan fd = right.code)
    (hs : Stands stack scan fd pid1 pid2 p left right s) (h : s.shellStep a = some s') :
    Stands stack scan fd pid1 pid2 p left right s' := by
  have hshell := hs.shell
  cases a with
  | ok =>
    cases hpc : s.shell <;> rw [hpc] at hshell <;> simp [State.shellStep, hpc] at h
    case pipe =>
      subst h
      have hparent : p.Reaches (forkChildren stack scan fd) := hshell.answer (Answer.mk 0 fd)
      exact ⟨hparent, hs.left, hs.right⟩
    case fork1 =>
      subst h
      have hchild : p.Reaches (child1 stack scan fd) := hshell.answer succeeds
      have hparent := hshell.answer ⟨pid1, fd⟩
      rw [if_neg (by simp only; omega), if_neg (by simp only; omega), if_pos hpipe] at hparent
      exact ⟨hparent, fun _ => ⟨left.code, hleft ▸ hchild, rfl⟩, hs.right⟩
    case waitpid1 =>
      obtain ⟨_, rfl⟩ := h
      exact ⟨hshell.act succeeds, hs.left, hs.right⟩
    case fork2 =>
      subst h
      have hchild : p.Reaches (child2 stack scan fd) := hshell.answer succeeds
      have hparent := hshell.answer ⟨pid2, fd⟩
      rw [if_neg (by simp only; omega), if_neg (by simp only; omega)] at hparent
      exact ⟨hparent, hs.left, fun _ => ⟨right.code, hright ▸ hchild, rfl⟩⟩
    case waitpid2 =>
      obtain ⟨_, rfl⟩ := h
      exact ⟨hshell.act succeeds, hs.left, hs.right⟩
    all_goals
      subst h
      exact ⟨hshell.act succeeds, hs.left, hs.right⟩
  | fail =>
    cases hpc : s.shell <;> rw [hpc] at hshell <;> simp [State.shellStep, hpc] at h
    case pipe =>
      subst h
      have hfailed := hshell.answer fails
      exact ⟨hfailed.act succeeds, hs.left, hs.right⟩
    case fork1 =>
      subst h
      have hfailed := (hshell.answer fails).act succeeds
      rw [if_pos hpipe] at hfailed
      exact ⟨(hfailed.act succeeds).act succeeds, hs.left, hs.right⟩
    case fork2 =>
      subst h
      have hfailed := hshell.answer fails
      exact ⟨hfailed.act succeeds, hs.left, hs.right⟩
  | write n | broken | read n => simp [State.shellStep] at h

theorem Stands.step (hpipe : scan.isPipe = true) (hpid1 : 0 < pid1) (hpid2 : 0 < pid2)
    (hleft : child1 stack scan fd = left.code) (hright : child2 stack scan fd = right.code)
    (hs : Stands stack scan fd pid1 pid2 p left right s) {e : Proc × Act}
    (h : s.step line e = some s') : Stands stack scan fd pid1 pid2 p left right s' := by
  obtain ⟨proc, a⟩ := e
  cases proc with
  | shell => exact hs.shell_step hpipe hpid1 hpid2 hleft hright h
  | left =>
    obtain ⟨hmove, hshell, hother⟩ := leftStep_move h
    refine ⟨hshell ▸ hs.shell, fun _ => (hs.left ?_).move hmove, hother ▸ hs.right⟩
    intro hunborn
    rw [State.step, State.leftStep_unborn hunborn] at h
    cases h
  | right =>
    obtain ⟨hmove, hshell, hother⟩ := rightStep_move h
    refine ⟨hshell ▸ hs.shell, hother ▸ hs.left, fun _ => (hs.right ?_).move hmove⟩
    intro hunborn
    rw [State.step, State.rightStep_unborn hunborn] at h
    cases h

/-- The code of the first child, when its name is there and fits. -/
theorem child1_code (stack : Stack) (fd : ℤ × ℤ) {ws : List (List ByteMemory.Byte)}
    (hs : Vectors ws scan) (hmem : bar ∈ ws) {w : List ByteMemory.Byte}
    (hw : (before bar ws).head? = some w) (hlen : w.length < FILE_MAX) :
    ∃ path args, path.val = w ++ elf ∧ args.map chars = before bar ws ∧
      child1 stack scan fd = Child.code ⟨fd.1, fd.2, STDOUT_FILENO, path, args, none⟩ := by
  obtain ⟨name, hname, rfl⟩ := Option.map_eq_some_iff.mp (hs.left.name.trans hw)
  have hreach := stack.reach_le
  obtain ⟨path, args, hpath, hargs, hcall⟩ := execute_call hs.left hname
    (strncpy_holds stack.filename hlen) (Nat.lt_of_lt_of_le hlen hreach)
  refine ⟨path, args, hpath, hargs, ?_⟩
  simp only [child1, hs.piped.mpr hmem, if_true, not_true, if_false, hcall]
  rfl

/-- And the code of the second one. -/
theorem child2_code (stack : Stack) (fd : ℤ × ℤ) {ws : List (List ByteMemory.Byte)}
    (hs : Vectors ws scan) (hmem : bar ∈ ws) {w : List ByteMemory.Byte}
    (hw : (behind bar ws).head? = some w) (hlen : w.length < FILE_MAX) :
    ∃ name path args, path.val = w ++ elf ∧ args.map chars = behind bar ws ∧
      child2 stack scan fd = Child.code ⟨fd.2, fd.1, STDIN_FILENO, path, args,
        some (.execFailed name)⟩ := by
  have hright := hs.right hmem
  obtain ⟨name, hname, rfl⟩ := Option.map_eq_some_iff.mp (hright.name.trans hw)
  have hreach := stack.reach_le
  obtain ⟨path, args, hpath, hargs, hcall⟩ := execute_call hright hname
    (strncpy_holds stack.filename hlen) (Nat.lt_of_lt_of_le hlen hreach)
  refine ⟨name, path, args, hpath, hargs, ?_⟩
  simp only [child2, hcall]
  rfl

/-- In every run of the pipeline the three processes are where `process_cmd` can be, and the
programs of the children are the two sides of the line. -/
theorem pipeline_stages {m : Memory} {ws : List (List ByteMemory.Byte)} (stack : Stack)
    (hm : Holding m ws) (hne : [] ∉ ws) (hlen : ws.length < TOKEN_NR) (hmem : bar ∈ ws)
    {w1 w2 : List ByteMemory.Byte} (hw1 : (before bar ws).head? = some w1)
    (hw2 : (behind bar ws).head? = some w2) (hlen1 : w1.length < FILE_MAX)
    (hlen2 : w2.length < FILE_MAX) (hpid1 : 0 < pid1) (hpid2 : 0 < pid2) (fd : ℤ × ℤ) :
    ∃ scan left right, left.path.val = w1 ++ elf ∧ left.args.map chars = before bar ws ∧
      right.path.val = w2 ++ elf ∧ right.args.map chars = behind bar ws ∧
      ∀ line es s, Run.exec (State.step line) State.start es = some s →
        Stands stack scan fd pid1 pid2 (launch m stack) left right s := by
  obtain ⟨scan, scan', hscan, hend, hs⟩ := scan_vectors stack hm hne hlen
  have hpipe : scan'.isPipe = true := hs.piped.mpr hmem
  obtain ⟨path1, args1, hpath1, hargs1, hleft⟩ := child1_code stack fd hs hmem hw1 hlen1
  obtain ⟨name, path2, args2, hpath2, hargs2, hright⟩ := child2_code stack fd hs hmem hw2 hlen2
  let left : Child := ⟨fd.1, fd.2, STDOUT_FILENO, path1, args1, none⟩
  let right : Child := ⟨fd.2, fd.1, STDIN_FILENO, path2, args2, some (.execFailed name)⟩
  refine ⟨scan', left, right, hpath1, hargs1, hpath2, hargs2, fun line es s hrun => ?_⟩
  have hlaunch : launch m stack = parent stack scan' fd pid1 pid2 .pipe := by
    simp only [launch, hscan, hend, Prog.attempt_ok, hpipe, if_true, parent]
  refine Run.exec_invariant_of_step ?_ ?_ hrun
  · exact fun s e s' hs' hstep => hs'.step hpipe hpid1 hpid2 hleft hright hstep
  · rw [hlaunch]
    exact ⟨.start, fun h => absurd rfl h, fun h => absurd rfl h⟩

end Lab7

end SyeLabs.Shell
