import SyeLabs.So3.Exec
import SyeLabs.So3.Boot

/-!
# When `exec` fails

Two things can go wrong: the executable is not loaded, or the arguments are refused.
The name of the process is overwritten before the first is known, and the second is
not noticed, because a NULL pointer is not below 0.
-/

namespace SyeLabs.So3
open ByteMemory

variable (X : Platform) (image : Option ElfImage) (filename : CStr)
  (argv envp : Option (List CStr)) (args : ℕ) (a : PcbPtr) (k : Kernel)

/- `preserve_args_and_env` is called when the process already has its new name. -/
def ArgsRefused : Prop :=
  ∃ e, (preserveCall X argv envp args a
    (k.localIrqSave.setPcb a { k.pcbs a with name := filename })).2 = .error e

/-- The call returns a negative value; the PCB, its list of pages and its page table
are as they were. -/
def LeftAsItWas (o : ExecOutcome) : Prop :=
  ∃ k' ret, o = .returned k' ret ∧ ret.toInt < 0 ∧ k'.pcbs a = k.pcbs a ∧
    k'.mem.spaces a = k.mem.spaces a

/-- A call that fails leaves the process as it was. -/
def FailsCleanly : Prop :=
  image = none ∨ ArgsRefused X filename argv envp args a k →
    LeftAsItWas a k (doExecve X image filename argv envp args k)

/- Whether the arguments are accepted depends on their sizes only. -/
def ArgsFit : Prop :=
  X.arch.Fits (argCount argv) (argStrings filename (argCount argv) (argVector argv))
    (envStrings envp)

variable {X image filename argv envp args a k}

theorem argVector_isSome (h : 0 < argCount argv) : (argVector argv).isSome := by
  cases argv with
  | none => exact absurd h (Nat.lt_irrefl 0)
  | some l => rfl

theorem argsRefused_iff :
    ArgsRefused X filename argv envp args a k ↔ ¬ ArgsFit X filename argv envp := by
  rw [ArgsRefused, ArgsFit, preserveCall, setPcb_pcbs_self, setPcb_mem]
  exact preserve_error_iff X.arch args filename (argCount argv) (argVector argv) envp k.mem.bytes
    argVector_isSome

/- The slots alone of too many arguments are more than a page. -/
theorem argsFit_slots {l : List CStr} (h : ArgsFit X filename (some l) envp) :
    X.arch.w * l.length ≤ X.arch.pageSize := by
  rcases h with ⟨hzero, _⟩ | h
  · have hlen : l.length = 0 := hzero
    rw [hlen, Nat.mul_zero]
    exact Nat.zero_le _
  · have hlen : l.length ≤ (argStrings filename (argCount (some l)) (argVector (some l)) ++
        envStrings envp).length + 1 := by
      rw [List.length_append, argStrings_length filename argVector_isSome]
      exact Nat.le_succ_of_le (Nat.le_add_right_of_le (Nat.le_max_left l.length 1))
    have hslots := Nat.mul_le_mul_left X.arch.w hlen
    unfold Arch.required at h
    omega

/- Without an image the PCB has the new name and is otherwise the same. -/
theorem notLoaded_iff (hcaller : k.caller = some a) :
    LeftAsItWas a k (doExecve X none filename argv envp args k) ↔
      some k.current = (k.pcbs a).mainThread ∧ (k.pcbs a).name = filename := by
  constructor
  · rintro ⟨k', ret, hout, _, hpcb, _⟩
    obtain ⟨_, hmain, _, rfl⟩ := doExecve_returned hcaller hout
    refine ⟨hmain, ?_⟩
    have hname : ((k.setPcb a { k.pcbs a with name := filename }).pcbs a).name =
        (k.pcbs a).name := congrArg Pcb.name hpcb
    rw [setPcb_pcbs_self] at hname
    exact hname.symm
  · rintro ⟨hmain, hname⟩
    refine ⟨_, _, doExecve_notLoaded hcaller hmain, by decide, ?_, rfl⟩
    change (k.setPcb a { k.pcbs a with name := filename }).pcbs a = k.pcbs a
    rw [setPcb_pcbs_self, ← hname]

/-- A failing `exec` leaves the process as it was exactly when, of the executable that
is not loaded, it already bears the name, and the arguments of one that is loaded fit. -/
theorem failsCleanly_iff (hcaller : k.caller = some a) :
    FailsCleanly X image filename argv envp args a k ↔
      (image = none → some k.current = (k.pcbs a).mainThread ∧ (k.pcbs a).name = filename) ∧
        (image ≠ none → ArgsFit X filename argv envp) := by
  cases image with
  | none =>
    rw [FailsCleanly, notLoaded_iff hcaller]
    simp
  | some elf =>
    rw [FailsCleanly, argsRefused_iff]
    have hnever : ¬ LeftAsItWas a k (doExecve X (some elf) filename argv envp args k) := by
      rintro ⟨k', ret, hout, _⟩
      exact nomatch (doExecve_returned hcaller hout).1
    simp [hnever]

theorem failsCleanly_iff_root :
    FailsCleanly rootPlatform none (CStr.ofBytes []) none none 4096 0 rootKernel ↔
      (none = (none : Option ElfImage) → some 0 = some 0 ∧ CStr.ofBytes [] = CStr.ofBytes []) ∧
        (none ≠ (none : Option ElfImage) → ArgsFit rootPlatform (CStr.ofBytes []) none none) :=
  failsCleanly_iff rfl

/- The root process runs `exec("ls")`: the file is missing, or the 1100 arguments do
not fit in a page of 4096 bytes. -/
theorem exec_fails_badly :
    ¬ FailsCleanly rootPlatform none (CStr.ofBytes (ascii "ls")) none none 4096 0 rootKernel ∧
      ¬ FailsCleanly rootPlatform (some ⟨4096, 1, [], [], 0⟩) (CStr.ofBytes (ascii "ls"))
        (some (List.replicate 1100 (CStr.ofBytes []))) none 4096 0 rootKernel := by
  constructor
  · intro h
    have hname := ((notLoaded_iff (a := 0) rfl).mp (h (Or.inl rfl))).2
    exact absurd hname (by decide)
  · intro h
    have hbig : ¬ ArgsFit rootPlatform (CStr.ofBytes (ascii "ls"))
        (some (List.replicate 1100 (CStr.ofBytes []))) none := fun hfits => by
      have hslots := argsFit_slots hfits
      rw [List.length_replicate] at hslots
      exact absurd hslots (by decide)
    obtain ⟨k', ret, hout, _⟩ := h (Or.inr (argsRefused_iff.mpr hbig))
    exact nomatch (doExecve_returned (a := 0) rfl hout).1

end SyeLabs.So3
