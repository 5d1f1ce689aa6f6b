import SyeLabs.So3.AddressSpace
import SyeLabs.So3.ExecFailure
import SyeLabs.So3.LoadBounds
import SyeLabs.So3.Life

/-!
# What the new image finds (`lab9/process.c`, lines 541-757)

`exec` copies the arguments aside, changes the address space under them, copies them back,
and copies the sections of the file. All of it is to be there when the new thread starts.
-/

namespace SyeLabs.So3
open ByteMemory

variable {X : Platform} {image : ElfImage} {filename : CStr} {argv envp : Option (List CStr)}
  {args : ℕ} {a : PcbPtr} {k k' : Kernel} {ret : Word} {ms ms' : MemState}

/-! ### The address space has no part in the bytes -/

theorem allocatePage_bytes {virt : Word} {n : ℕ}
    (h : MemState.allocatePage X a virt n ms = some ms') : ms'.bytes = ms.bytes := by
  unfold MemState.allocatePage at h
  generalize List.range n = turns at h
  induction turns generalizing ms with
  | nil =>
    obtain rfl := Option.some.inj h
    rfl
  | cons i turns ih =>
    rw [List.foldlM_cons] at h
    obtain ⟨ms₁, hturn, hrest⟩ := Option.bind_eq_some_iff.mp h
    obtain ⟨page, _, hms₁⟩ := Option.bind_eq_some_iff.mp hturn
    obtain rfl := Option.some.inj hms₁
    have hkept := ih hrest
    exact hkept

theorem mapImage_bytes (h : mapImage X image a k = some k') : k'.mem.bytes = k.mem.bytes := by
  unfold mapImage at h
  obtain ⟨ms₁, hstack, h⟩ := Option.bind_eq_some_iff.mp h
  obtain ⟨ms₂, himage, h⟩ := Option.bind_eq_some_iff.mp h
  obtain ⟨ms₃, hheap, h⟩ := Option.bind_eq_some_iff.mp h
  obtain ⟨ms₄, hargs, h⟩ := Option.bind_eq_some_iff.mp h
  obtain rfl := Option.some.inj h
  calc ms₄.bytes = ms₃.bytes := allocatePage_bytes hargs
    _ = ms₂.bytes := allocatePage_bytes hheap
    _ = ms₁.bytes := allocatePage_bytes himage
    _ = ((k.mem.resetRootPgtable a).releaseProcPages a).bytes := allocatePage_bytes hstack
    _ = k.mem.bytes := released_bytes k.mem a

/-! ### The arguments -/

/-- What the new image gets as arguments, the name of the file when there are none. -/
def execArgs (filename : CStr) (argv : Option (List CStr)) : List CStr :=
  argStrings filename (argCount argv) (argVector argv)

/-- The page in the new address space holds the arguments; no other byte has changed, but for
those of the page from `malloc`. -/
theorem setup_image
    (hfits : X.arch.required (execArgs (k.pcbs a).name argv ++ envStrings envp) ≤ X.arch.pageSize)
    (hpage : args + X.arch.pageSize ≤ X.arch.addrs)
    (hbase : X.argsBase.toNat + X.arch.pageSize ≤ X.arch.addrs)
    (h : setupProcImageReplace X image a argv envp args k = some (k', ret)) :
    Holds k'.mem.bytes X.argsBase.toNat (X.arch.image X.argsBase.toNat
      (execArgs (k.pcbs a).name argv).length (execArgs (k.pcbs a).name argv ++ envStrings envp)) ∧
    ∀ x, (x < args ∨ args + X.arch.pageSize ≤ x) →
      (x < X.argsBase.toNat ∨ X.argsBase.toNat + X.arch.pageSize ≤ x) →
        k'.mem.bytes x = k.mem.bytes x := by
  have hlen : (execArgs (k.pcbs a).name argv).length = max (argCount argv) 1 :=
    argStrings_length (k.pcbs a).name argVector_isSome
  obtain ⟨m₁, hpreserve, himage, hframe⟩ := preserve_image X.arch args (k.pcbs a).name
    (argCount argv) (argVector argv) envp k.mem.bytes argVector_isSome hfits
  unfold setupProcImageReplace at h
  split_ifs at h with hnull
  rw [preserveCall, hpreserve] at h
  simp only [Nat.not_lt_zero, if_false] at h
  obtain ⟨k₁, hmap, hplace⟩ := Option.bind_eq_some_iff.mp h
  rw [placeArgsEnv, if_neg hnull, mapImage_bytes hmap] at hplace
  obtain ⟨m₂, hpost, hk'⟩ := Option.bind_eq_some_iff.mp hplace
  obtain ⟨rfl, -⟩ := Prod.mk.inj (Option.some.inj hk')
  rw [← hlen] at himage
  have hn : (execArgs (k.pcbs a).name argv).length ≤
      (execArgs (k.pcbs a).name argv ++ envStrings envp).length := by
    rw [List.length_append]
    exact Nat.le_add_right _ _
  have hfuel : (execArgs (k.pcbs a).name argv ++ envStrings envp).length -
      (execArgs (k.pcbs a).name argv).length < (envStrings envp).length + 1 := by
    rw [List.length_append, Nat.add_sub_cancel_left]
    exact Nat.lt_succ_self _
  obtain ⟨m, hm, hholds, hsame⟩ := post_image_frame himage hfits hn hpage hbase hfuel
  obtain rfl : m₂ = m := Option.some.inj (hpost.symm.trans hm)
  exact ⟨hholds, fun x haside hplaced => (hsame x hplaced).trans (hframe x haside)⟩

/-! ### The sections -/

theorem loadProcess_copies (image : ElfImage) (m : Memory) :
    loadProcess image m = copies Memcpy.dst Memcpy.src Memcpy.n m (memcpys image) :=
  loadProcess_eq image m

/-- The file lies apart from everything that `exec` writes, and no section is loaded over
another one. -/
structure Unmixed (image : ElfImage) (pageSize args base : ℕ) : Prop where
  aside : ∀ c ∈ memcpys image, Apart args pageSize c.src c.n
  page : ∀ c ∈ memcpys image, Apart base pageSize c.src c.n
  source : ∀ c ∈ memcpys image, ∀ d ∈ memcpys image, Apart d.dst d.n c.src c.n
  target : ∀ c ∈ memcpys image, ∀ d ∈ memcpys image, d = c ∨ Apart d.dst d.n c.dst c.n

/-! ### The whole call -/

theorem doExecve_replaced
    (h : doExecve X (some image) filename argv envp args k = .replaced k') :
    ∃ a k₀ k₁ ret, (k₀.pcbs a).name = filename ∧ k₀.mem = k.mem ∧
      setupProcImageReplace X image a argv envp args k₀ = some (k₁, ret) ∧
      k'.mem.bytes = loadProcess image k₁.mem.bytes := by
  unfold doExecve at h
  split at h
  · cases h
  · rename_i a hcaller
    split at h
    · cases h
    · simp only at h
      split at h
      · cases h
      · rename_i k₁ ret hsetup
        split_ifs at h
        obtain ⟨_, hmem, _⟩ := startImage_frames h
        exact ⟨a, k.localIrqSave.setPcb a { k.pcbs a with name := filename }, k₁, ret,
          congrArg Pcb.name (setPcb_pcbs_self ..), rfl, hsetup, congrArg MemState.bytes hmem⟩

/-- When `exec` replaces the image, the new one finds the arguments and the environment of
the call in its page of arguments, and every section that is loaded at its address. -/
theorem exec_delivers
    (hfits : X.arch.required (execArgs filename argv ++ envStrings envp) ≤ X.arch.pageSize)
    (hpage : args + X.arch.pageSize ≤ X.arch.addrs)
    (hbase : X.argsBase.toNat + X.arch.pageSize ≤ X.arch.addrs)
    (hclear : ∀ c ∈ memcpys image, Apart c.dst c.n X.argsBase.toNat X.arch.pageSize)
    (h : doExecve X (some image) filename argv envp args k = .replaced k') :
    Decodes X.arch k'.mem.bytes X.argsBase.toNat (execArgs filename argv) (envStrings envp) ∧
      (Unmixed image X.arch.pageSize args X.argsBase.toNat →
        ∀ sec ∈ image.sections, image.Copies sec → Holds k'.mem.bytes sec.addr.toNat
          (read k.mem.bytes (image.fileBuffer + sec.offset.toNat) sec.size.toNat)) := by
  obtain ⟨a, k₀, k₁, ret, rfl, hmem, hsetup, hload⟩ := doExecve_replaced h
  obtain ⟨himage, hframe⟩ := setup_image hfits hpage hbase hsetup
  rw [hload, loadProcess_copies]
  constructor
  · refine decodes_image ?_ hfits hbase
    -- the sections go elsewhere
    have hkept := copies_apart Memcpy.dst Memcpy.src Memcpy.n k₁.mem.bytes
      fun c hc => (hclear c hc).mono hfits
    rw [Holds, image_length] at himage ⊢
    exact hkept.trans himage
  · intro hunmixed sec hsec hcopies
    have hc := mem_memcpys.mpr ⟨sec, hsec, hcopies, rfl⟩
    have hholds := holds_copies Memcpy.dst Memcpy.src Memcpy.n k₁.mem.bytes hc hunmixed.source
      hunmixed.target
    have hfile : read k₁.mem.bytes (image.fileBuffer + sec.offset.toNat) sec.size.toNat =
        read k.mem.bytes (image.fileBuffer + sec.offset.toNat) sec.size.toNat := by
      refine read_congr fun i hi => ?_
      rw [← hmem]
      have haside := hunmixed.aside _ hc
      have hplaced := hunmixed.page _ hc
      unfold Apart at haside hplaced
      simp only at haside hplaced
      exact hframe _ (by omega) (by omega)
    rw [← hfile]
    exact hholds

/-! ### A program of one page -/

/- The code lies in the file at 0x1000 and goes to the same address. -/
def codeText : ElfSection := ⟨CStr.ofBytes (ascii ".text"), false, 0x1000#32, 0x1000#32, 4#32⟩

def codeImage : ElfImage := ⟨0x1000#32, 1, [⟨true, 0x1000#32, 0x1000#32⟩], [codeText], 0x40000000⟩

theorem mapImage_threads (h : mapImage X image a k = some k') :
    k'.tcbs = k.tcbs ∧ k'.current = k.current := by
  unfold mapImage at h
  obtain ⟨ms₁, _, h⟩ := Option.bind_eq_some_iff.mp h
  obtain ⟨ms₂, _, h⟩ := Option.bind_eq_some_iff.mp h
  obtain ⟨ms₃, _, h⟩ := Option.bind_eq_some_iff.mp h
  obtain ⟨ms₄, _, h⟩ := Option.bind_eq_some_iff.mp h
  obtain rfl := Option.some.inj h
  exact ⟨rfl, rfl⟩

theorem placeArgsEnv_threads {argsEnv : ℕ} (h : placeArgsEnv X argsEnv envp k = some (k', ret)) :
    k'.tcbs = k.tcbs ∧ k'.current = k.current := by
  unfold placeArgsEnv at h
  split_ifs at h
  · cases h
    exact ⟨rfl, rfl⟩
  · obtain ⟨_, _, hret⟩ := Option.bind_eq_some_iff.mp h
    cases hret
    exact ⟨rfl, rfl⟩

theorem setup_threads (h : setupProcImageReplace X image a argv envp args k = some (k', ret)) :
    k'.tcbs = k.tcbs ∧ k'.current = k.current := by
  unfold setupProcImageReplace at h
  split_ifs at h
  simp only [Nat.not_lt_zero, if_false] at h
  generalize preserveCall X argv envp args a k = preserved at h
  obtain ⟨bytes, result⟩ := preserved
  obtain ⟨k₁, hmap, hplace⟩ := Option.bind_eq_some_iff.mp h
  obtain ⟨htcbs, hcurrent⟩ := placeArgsEnv_threads hplace
  obtain ⟨htcbs', hcurrent'⟩ := mapImage_threads hmap
  rw [htcbs, hcurrent, htcbs', hcurrent']
  cases result with
  | ok p => exact ⟨rfl, rfl⟩
  | error e => exact ⟨rfl, rfl⟩

theorem doExecve_setup {k₁ : Kernel} (hcaller : k.caller = some a)
    (hmain : some k.current = (k.pcbs a).mainThread)
    (hsetup : setupProcImageReplace X image a argv envp args
      (k.localIrqSave.setPcb a { k.pcbs a with name := filename }) = some (k₁, 0)) :
    doExecve X (some image) filename argv envp args k = startImage X a
      { k₁ with mem := { k₁.mem with bytes := loadProcess image k₁.mem.bytes } } := by
  have hnonneg : ¬ (0 : Word).toInt < 0 := by decide
  have hpcb : k.localIrqSave.pcbs a = k.pcbs a := rfl
  rw [doExecve, hcaller]
  simp only [hmain, ne_eq, not_true_eq_false, if_false, hpcb, hsetup, if_neg hnonneg]

theorem startImage_alone (hwaiting : ((X.userThread a k.tcbs).2 k.current).joinQueue = []) :
    ∃ k', startImage X a k = .replaced k' := by
  simp only [startImage, hwaiting]
  exact ⟨_, rfl⟩

/- `ls -l` -/
def lsName : CStr := CStr.ofBytes (ascii "ls")
def lsArgv : Option (List CStr) := some [lsName, CStr.ofBytes (ascii "-l")]

theorem codeImage_clear : ∀ c ∈ memcpys codeImage, Apart c.dst c.n 0xc0000000 4096 := by
  have hcopy : memcpys codeImage = [⟨0x1000, 0x40001000, 4⟩] := rfl
  rw [hcopy]
  exact List.forall_mem_singleton.mpr (.inl (by decide))

theorem codeImage_unmixed : Unmixed codeImage 4096 65536 0xc0000000 := by
  have hcopy : memcpys codeImage = [⟨0x1000, 0x40001000, 4⟩] := rfl
  refine ⟨?_, ?_, ?_, ?_⟩
  · rw [hcopy]
    exact List.forall_mem_singleton.mpr (.inl (by decide))
  · rw [hcopy]
    exact List.forall_mem_singleton.mpr (.inr (by decide))
  · rw [hcopy]
    exact List.forall_mem_singleton.mpr (List.forall_mem_singleton.mpr (.inl (by decide)))
  · rw [hcopy]
    exact List.forall_mem_singleton.mpr (List.forall_mem_singleton.mpr (.inl rfl))

theorem exec_delivers_code : ∃ k',
    doExecve sparePages (some codeImage) lsName lsArgv none 65536 rootKernel = .replaced k' ∧
    Decodes sparePages.arch k'.mem.bytes 0xc0000000 (execArgs lsName lsArgv) (envStrings none) ∧
    Holds k'.mem.bytes 0x1000 (read rootKernel.mem.bytes 0x40001000 4) := by
  obtain ⟨k₁, hsetup⟩ := @setup_completes sparePages codeImage 0 lsArgv none 65536
    (rootKernel.localIrqSave.setPcb 0 { rootKernel.pcbs 0 with name := lsName })
    (fun ms => ⟨_, rfl⟩) (by decide) (by decide) (by decide) (by decide) (by decide)
  obtain ⟨htcbs, hcurrent⟩ := setup_threads hsetup
  have hexec := doExecve_setup (k := rootKernel) rfl rfl hsetup
  obtain ⟨k', hreplaced⟩ := @startImage_alone sparePages 0
    { k₁ with mem := { k₁.mem with bytes := loadProcess codeImage k₁.mem.bytes } } (by
      rw [htcbs, hcurrent]
      rfl)
  rw [hreplaced] at hexec
  obtain ⟨hargs, hsections⟩ := exec_delivers (by decide) (by decide) (by decide)
    codeImage_clear hexec
  exact ⟨k', hexec, hargs, hsections codeImage_unmixed codeText (List.mem_singleton_self _)
    ⟨_, List.mem_singleton_self _, rfl, by decide⟩⟩

end SyeLabs.So3
