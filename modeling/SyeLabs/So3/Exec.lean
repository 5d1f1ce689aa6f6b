import SyeLabs.So3.Process
import SyeLabs.So3.ArgsImage
import SyeLabs.So3.Calls

/-!
# `exec` (`lab9/process.c`, lines 541-757)

`do_execve` replaces the image of the calling process. `elf_load_buffer` and the
parsing of the sections and segments are not part of the source; what they give, an
image or NULL, is an argument, and so is the page that `malloc` returns for the
arguments.
-/

namespace SyeLabs.So3
open ByteMemory

structure ElfSection where
  name : CStr
  nobits : Bool
  addr : Word
  offset : Word
  size : Word

structure ElfSegment where
  load : Bool
  offset : Word
  memsz : Word

structure ElfImage where
  entry : Word
  segmentPageCount : ℕ
  segments : List ElfSegment
  sections : List ElfSection
  fileBuffer : ℕ

def supportedSectionNames : List CStr :=
  [".text", ".rodata", ".data", ".sbss", ".bss", ".scommon"].map fun s => CStr.ofBytes (ascii s)

/- The conditions under which the inner loop reaches `memcpy`. -/
def loaded (seg : ElfSegment) (sec : ElfSection) : Bool :=
  let segmentStart := seg.offset
  let segmentEnd := segmentStart + seg.memsz
  let sectionStart := sec.offset
  let sectionEnd := sectionStart + sec.size
  !(sectionStart < segmentStart || segmentEnd < sectionEnd) &&
    sec.name ∈ supportedSectionNames && !sec.nobits

def loadSection (image : ElfImage) (m : Memory) (sec : ElfSection) : Memory :=
  copy m sec.addr.toNat (image.fileBuffer + sec.offset.toNat) sec.size.toNat

/-- Load sections from each loadable segment into the process' virtual pages. -/
def loadProcess (image : ElfImage) (m : Memory) : Memory :=
  (image.segments.filter (·.load)).foldl
    (fun m seg => (image.sections.filter (loaded seg)).foldl (loadSection image) m) m

def argCount : Option (List CStr) → ℕ
  | none => 0
  | some argv => argv.length

def argVector : (argv : Option (List CStr)) → Option (List.Vector CStr (argCount argv))
  | none => none
  | some argv => some ⟨argv, rfl⟩

variable (X : Platform)

/- `preserve_args_and_env` as `exec` calls it; `args` is what `malloc` returned. -/
def preserveCall (argv envp : Option (List CStr)) (args : ℕ) (a : PcbPtr) (k : Kernel) :
    Memory × Except Errno ℕ :=
  preserveArgsAndEnv X.arch args (k.pcbs a).name (argCount argv) (argVector argv) envp k.mem.bytes

/- Lines 557-607: the new address space, with its stack, its image, its heap and the
page of arguments. -/
def mapImage (image : ElfImage) (a : PcbPtr) (k : Kernel) : Option Kernel := do
  let pageSize := BitVec.ofNat 32 X.arch.pageSize
  let k := k.resetProcessStack X a
  let p := k.pcbs a
  let mem := (k.mem.resetRootPgtable a).releaseProcPages a
  let mem ← mem.allocatePage X a (p.stackTop - p.pageCount * pageSize) p.pageCount.toNat
  let p := { p with binImageEntry := image.entry }
  let p := { p with pageCount := p.pageCount + BitVec.ofNat 32 image.segmentPageCount }
  let mem ← mem.allocatePage X a image.entry image.segmentPageCount
  let p := { p with heapBase := (p.pageCount + 1) * pageSize }
  let p := { p with heapPointer := p.heapBase }
  let p := { p with pageCount := p.pageCount + BitVec.ofNat 32 (X.pagesFor X.heapSize) }
  let mem ← mem.allocatePage X a p.heapBase (X.pagesFor X.heapSize)
  let p := { p with pageCount := p.pageCount + 1 }
  let mem ← mem.allocatePage X a X.argsBase 1
  some { k.setPcb a p with mem := mem }

/- Lines 610-612. -/
def placeArgsEnv (argsEnv : ℕ) (envp : Option (List CStr)) (k : Kernel) :
    Option (Kernel × Word) :=
  if argsEnv = 0 then some (k, 0)
  else do
    let bytes ← postSetupImage X.arch ((envStrings envp).length + 1) argsEnv
      X.argsBase.toNat k.mem.bytes
    some ({ k with mem := { k.mem with bytes := bytes } }, 0)

/-- A NULL pointer is the number 0, so the test of the result never succeeds. -/
def setupProcImageReplace (image : ElfImage) (a : PcbPtr) (argv envp : Option (List CStr))
    (args : ℕ) (k : Kernel) : Option (Kernel × Word) :=
  if args = 0 then none
  else
    let (bytes, result) := preserveCall X argv envp args a k
    let k := { k with mem := { k.mem with bytes := bytes } }
    let (k, argsEnv) := match result with
      | .ok p => (k, p)
      | .error e => (k.setErrno e, 0)
    if argsEnv < 0 then some (k, -1)
    else do
      let k ← mapImage X image a k
      placeArgsEnv X argsEnv envp k

/-- The call returns, or the calling thread ends and the process goes on in the new
image, or an assertion stops the kernel. -/
inductive ExecOutcome where
  | returned (k : Kernel) (ret : Word)
  | replaced (k : Kernel)
  | stopped

/- Lines 724-757: the new main thread takes over the thread that joins the old one. -/
def startImage (a : PcbPtr) (k : Kernel) : ExecOutcome :=
  let (thread, tcbs) := X.userThread a k.tcbs
  let p := { k.pcbs a with mainThread := some thread }
  let waiting := (tcbs k.current).joinQueue
  match waiting with
  | [] => .replaced { k.setPcb a p with
      tcbs := Function.update tcbs k.current { tcbs k.current with pcb := none } }
  | cur :: rest =>
    if (tcbs cur).pcb ≠ p.parent then .stopped
    else if rest ≠ [] then .stopped
    else
      let tcbs := Function.update tcbs thread
        { tcbs thread with joinQueue := cur :: (tcbs thread).joinQueue }
      .replaced { k.setPcb a p with
        tcbs := Function.update tcbs k.current { pcb := none, joinQueue := [] } }

def doExecve (image : Option ElfImage) (filename : CStr) (argv envp : Option (List CStr))
    (args : ℕ) (k : Kernel) : ExecOutcome :=
  match k.caller with
  | none => .stopped
  | some a =>
    if some k.current ≠ (k.pcbs a).mainThread then .stopped
    else
      let flags := k.irqsOff
      let k := k.localIrqSave
      let k := k.setPcb a { k.pcbs a with name := filename }
      match image with
      | none => .returned ((k.localIrqRestore flags).setErrno .enoent) (-1)
      | some image =>
        match setupProcImageReplace X image a argv envp args k with
        | none => .stopped
        | some (k, ret) =>
          if ret.toInt < 0 then .returned k ret
          else
            let k := { k with mem := { k.mem with bytes := loadProcess image k.mem.bytes } }
            startImage X a k

variable {X} {image : Option ElfImage} {filename : CStr} {argv envp : Option (List CStr)}
  {args : ℕ} {a : PcbPtr} {k k' : Kernel} {ret : Word}

theorem placeArgsEnv_ret {argsEnv : ℕ} (h : placeArgsEnv X argsEnv envp k = some (k', ret)) :
    ret = 0 := by
  unfold placeArgsEnv at h
  split_ifs at h
  · exact (congrArg Prod.snd (Option.some.inj h)).symm
  · obtain ⟨bytes, _, hret⟩ := Option.bind_eq_some_iff.mp h
    exact (congrArg Prod.snd (Option.some.inj hret)).symm

/- `-1` is never what it returns. -/
theorem setup_ret {elf : ElfImage}
    (h : setupProcImageReplace X elf a argv envp args k = some (k', ret)) : ret = 0 := by
  unfold setupProcImageReplace at h
  split_ifs at h with hnull
  simp only [Nat.not_lt_zero, if_false] at h
  obtain ⟨k₁, _, hret⟩ := Option.bind_eq_some_iff.mp h
  exact placeArgsEnv_ret hret

theorem startImage_ne_returned : startImage X a k ≠ .returned k' ret := by
  intro h
  simp only [startImage] at h
  split at h
  · cases h
  · split_ifs at h

theorem doExecve_notLoaded (hcaller : k.caller = some a)
    (hmain : some k.current = (k.pcbs a).mainThread) :
    doExecve X none filename argv envp args k =
      .returned ((k.setPcb a { k.pcbs a with name := filename }).setErrno .enoent) (-1) := by
  rw [doExecve, hcaller]
  simp only [hmain, ne_eq, not_true_eq_false, if_false]
  rfl

/-- The only way back is that of an executable that is not loaded. -/
theorem doExecve_returned (hcaller : k.caller = some a)
    (h : doExecve X image filename argv envp args k = .returned k' ret) :
    image = none ∧ some k.current = (k.pcbs a).mainThread ∧ ret = -1 ∧
      k' = (k.setPcb a { k.pcbs a with name := filename }).setErrno .enoent := by
  rw [doExecve, hcaller] at h
  simp only at h
  split at h
  · cases h
  · rename_i hmain
    cases image with
    | none =>
      simp only [ExecOutcome.returned.injEq] at h
      exact ⟨rfl, not_not.mp hmain, h.2.symm, h.1.symm⟩
    | some elf =>
      simp only at h
      split at h
      · cases h
      · rename_i k₁ ret₁ hsetup
        rw [setup_ret hsetup, if_neg (by decide)] at h
        exact absurd h startImage_ne_returned

end SyeLabs.So3
