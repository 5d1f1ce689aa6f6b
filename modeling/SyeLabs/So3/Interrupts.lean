import SyeLabs.So3.Exec
import SyeLabs.So3.Boot

/-!
# The interrupt flag across a system call

`local_irq_save` at the start of a call is matched by `local_irq_restore` before it
returns, but on some early returns of `fork` and `waitpid`.
-/

namespace SyeLabs.So3
open ByteMemory

variable (X : Platform)

inductive Syscall where
  | fork
  | fork2
  | waitpid (pid : Word) (wstatus : Option Word) (options : Word)
  | execve (image : Option ElfImage) (filename : CStr) (argv envp : Option (List CStr)) (args : ℕ)

/-- The kernel when the call returns to its caller. -/
def Syscall.back (c : Syscall) (k : Kernel) : Option Kernel :=
  match c with
  | .fork => (doFork X k).map (·.1)
  | .fork2 => (doFork2 X k).map (·.1)
  | .waitpid pid wstatus options => (doWaitpid X pid wstatus options k).map (·.kernel)
  | .execve image filename argv envp args =>
    match doExecve X image filename argv envp args k with
    | .returned k' _ => some k'
    | .replaced _ => none
    | .stopped => none

def Syscall.Balanced (c : Syscall) (k : Kernel) : Prop :=
  ∀ k', c.back X k = some k' → k'.irqsOff = k.irqsOff

/-- The call takes a `return` that skips `local_irq_restore`: a fork from another thread
than the main one; a pid that no process has, or with `WNOHANG` a process still alive. -/
def Syscall.SkipsRestore (c : Syscall) (k : Kernel) : Prop :=
  match c with
  | .fork => ∃ parent, k.caller = some parent ∧ some k.current ≠ (k.pcbs parent).mainThread
  | .fork2 => ∃ parent, k.caller = some parent ∧ some k.current ≠ (k.pcbs parent).mainThread
  | .waitpid pid _ options =>
    (pid ≠ -1 ∧ k.findProcByPid pid = none) ∨
      ∃ child, selectChild pid k = some child ∧ options &&& X.wnohang ≠ 0 ∧
        (k.pcbs child).state ≠ .zombie
  | .execve .. => False

variable {X} {k : Kernel}

theorem fork_balanced_iff :
    (∀ k' r, doFork X k = some (k', r) → k'.irqsOff = k.irqsOff) ↔
      k.irqsOff = true ∨
        ¬ ∃ parent, k.caller = some parent ∧ some k.current ≠ (k.pcbs parent).mainThread := by
  constructor
  · intro h
    by_cases hearly : ∃ parent, k.caller = some parent ∧ some k.current ≠ (k.pcbs parent).mainThread
    · obtain ⟨parent, hcaller, hmain⟩ := hearly
      exact Or.inl (h _ _ (doFork_refused hcaller hmain)).symm
    · exact Or.inr hearly
  · intro h k' r hfork
    obtain ⟨parent, hcaller, ⟨hmain, rfl, _⟩ | ⟨_, _, child, tcbs, mem, rfl, _⟩⟩ :=
      doFork_cases hfork
    · rcases h with hoff | hnone
      · exact hoff.symm
      · exact absurd ⟨parent, hcaller, hmain⟩ hnone
    · rfl

theorem waitpid_balanced_iff {pid options : Word} {wstatus : Option Word} :
    (∀ r, doWaitpid X pid wstatus options k = some r → r.kernel.irqsOff = k.irqsOff) ↔
      k.irqsOff = true ∨ ¬ (Syscall.waitpid pid wstatus options).SkipsRestore X k := by
  constructor
  · intro h
    by_cases hearly : (Syscall.waitpid pid wstatus options).SkipsRestore X k
    · rcases hearly with ⟨hpid, hnone⟩ | ⟨child, hchild, hnohang, hstate⟩
      · exact Or.inl (h _ (doWaitpid_unknown hpid hnone)).symm
      · exact Or.inl (h _ (doWaitpid_nohang hchild hnohang hstate)).symm
    · exact Or.inr hearly
  · intro h r hwait
    rcases doWaitpid_cases hwait with ⟨hnone, _, _, hkernel⟩ |
      ⟨child, hchild, ⟨hnohang, hstate, rfl⟩ | ⟨_, k₁, _, rfl⟩⟩
    · rw [hkernel]
      by_cases hpid : pid = -1
      · simp [hpid, Kernel.localIrqRestore]
      · rcases h with hoff | hnone'
        · simp [Kernel.localIrqRestore, hoff]
        · rw [selectChild, if_neg hpid] at hnone
          exact absurd (Or.inl ⟨hpid, hnone⟩) hnone'
    · rcases h with hoff | hnone'
      · exact hoff.symm
      · exact absurd (Or.inr ⟨child, hchild, hnohang, hstate⟩) hnone'
    · rfl

theorem execve_balanced {image : Option ElfImage} {filename : CStr}
    {argv envp : Option (List CStr)} {args : ℕ} :
    (Syscall.execve image filename argv envp args).Balanced X k := by
  intro k' hback
  rw [Syscall.back] at hback
  split at hback
  · rename_i k₁ ret hout
    obtain rfl := Option.some.inj hback
    cases hcaller : k.caller with
    | none => simp [doExecve, hcaller] at hout
    | some a =>
      obtain ⟨_, _, _, rfl⟩ := doExecve_returned hcaller hout
      rfl
  · cases hback
  · cases hback

/-- The flag is what it was at entry exactly when it was already off there or the call
does not take one of those returns. -/
theorem syscall_balanced_iff (X : Platform) (c : Syscall) (k : Kernel) :
    c.Balanced X k ↔ k.irqsOff = true ∨ ¬ c.SkipsRestore X k := by
  cases c with
  | fork =>
    rw [Syscall.SkipsRestore, ← fork_balanced_iff (X := X)]
    simp [Syscall.Balanced, Syscall.back]
  | fork2 =>
    rw [Syscall.SkipsRestore, ← fork_balanced_iff (X := X)]
    simp [Syscall.Balanced, Syscall.back, doFork2]
  | waitpid pid wstatus options =>
    rw [← waitpid_balanced_iff]
    simp [Syscall.Balanced, Syscall.back]
  | execve image filename argv envp args =>
    exact ⟨fun _ => Or.inr not_false, fun _ => execve_balanced⟩

/- The root process waits for the pid 7, which no process has. -/
theorem waitpid_leaves_irqs_off :
    ¬ (Syscall.waitpid 7 none 0).Balanced rootPlatform rootKernel := by
  intro h
  exact nomatch h _ rfl

end SyeLabs.So3
