import SyeLabs.So3.ArgsRelocation
import SyeLabs.So3.Boot
import SyeLabs.So3.Exec
import Mathlib.Data.List.Nodup

/-!
# The address space that `exec` builds (`lab9/process.c`, lines 541-615)

Four ranges of pages are mapped one after the other, each from an anchor of its own. The
pages of the process are those of the four ranges.
-/

namespace SyeLabs.So3

/-- Pages one after the other from an address on. -/
structure Region where
  base : Word
  pages : ℕ

namespace Region

variable (pageSize : ℕ) (r : Region)

/-- The address of page `i`, as `allocate_page` computes it. -/
def virt (i : ℕ) : Word := r.base + BitVec.ofNat 32 (i * pageSize)

def virts : List Word := (List.range r.pages).map (r.virt pageSize)

/-- The first address behind the range. -/
def top : ℕ := r.base.toNat + r.pages * pageSize

variable {pageSize r}

theorem virt_toNat {i : ℕ} (htop : r.top pageSize ≤ 2 ^ 32) (hi : i < r.pages)
    (hpos : 0 < pageSize) :
    (r.virt pageSize i).toNat = r.base.toNat + i * pageSize := by
  have hlt : i * pageSize < r.pages * pageSize := Nat.mul_lt_mul_of_pos_right hi hpos
  unfold top at htop
  rw [virt, BitVec.toNat_add, BitVec.toNat_ofNat, Nat.mod_eq_of_lt (by omega),
    Nat.mod_eq_of_lt (by omega)]

end Region

variable (X : Platform) (image : ElfImage)

/-- The number of pages of the stack and of the heap. -/
def Platform.stackPages : ℕ := X.pagesFor X.procStackSize
def Platform.heapPages : ℕ := X.pagesFor X.heapSize

def stackRegion : Region :=
  ⟨X.argsBase - BitVec.ofNat 32 X.stackPages * BitVec.ofNat 32 X.arch.pageSize, X.stackPages⟩

def imageRegion : Region := ⟨image.entry, image.segmentPageCount⟩

def heapRegion : Region :=
  ⟨(BitVec.ofNat 32 X.stackPages + BitVec.ofNat 32 image.segmentPageCount + 1) *
    BitVec.ofNat 32 X.arch.pageSize, X.heapPages⟩

def argsRegion : Region := ⟨X.argsBase, 1⟩

/- In the order in which they are mapped. -/
def execRegions : List Region :=
  [stackRegion X, imageRegion image, heapRegion X image, argsRegion X]

/-- The pages mapped are those of the ranges in their order, and the list of pages has one
entry for each. -/
structure Mapped (ms : MemState) (a : PcbPtr) (virts : List Word) : Prop where
  virts : (ms.spaces a).pgtable.reverse.map Prod.fst = virts
  frames : (ms.spaces a).pgtable.reverse.map Prod.snd = (ms.spaces a).pageList
  nodup : (ms.spaces a).pageList.Nodup

variable {X image} {ms ms' : MemState} {a : PcbPtr} {virts : List Word}

theorem Mapped.page {page : Page} (h : Mapped ms a virts) (virt : Word)
    (hfresh : page ∉ (ms.spaces a).pageList) :
    Mapped (MemState.addPageToProc a page (MemState.createMapping a virt page ms)) a
      (virts ++ [virt]) := by
  have hspace : (MemState.addPageToProc a page (MemState.createMapping a virt page ms)).spaces a =
      ⟨(ms.spaces a).pageList ++ [page], (virt, page) :: (ms.spaces a).pgtable⟩ := by
    simp [MemState.addPageToProc, MemState.createMapping, MemState.setSpace]
  constructor
  · rw [hspace, List.reverse_cons, List.map_append, h.virts]
    rfl
  · rw [hspace, List.reverse_cons, List.map_append, h.frames]
    rfl
  · rw [hspace, List.nodup_append]
    refine ⟨h.nodup, List.nodup_singleton _, fun p hp q hq heq => ?_⟩
    rw [List.mem_singleton.mp hq] at heq
    exact hfresh (heq ▸ hp)

theorem Mapped.allocate (hfree : ∀ ms page, X.getFreePage ms = some page →
      page ∉ (ms.spaces a).pageList) (r : Region) (h : Mapped ms a virts)
    (halloc : MemState.allocatePage X a r.base r.pages ms = some ms') :
    Mapped ms' a (virts ++ r.virts X.arch.pageSize) := by
  unfold MemState.allocatePage at halloc
  unfold Region.virts
  generalize List.range r.pages = turns at halloc
  induction turns generalizing ms virts with
  | nil =>
    obtain rfl := Option.some.inj halloc
    rw [List.map_nil, List.append_nil]
    exact h
  | cons i turns ih =>
    rw [List.foldlM_cons] at halloc
    obtain ⟨ms₁, hturn, hrest⟩ := Option.bind_eq_some_iff.mp halloc
    obtain ⟨page, hget, hms₁⟩ := Option.bind_eq_some_iff.mp hturn
    obtain rfl := Option.some.inj hms₁
    have hnext := ih (h.page (r.virt X.arch.pageSize i) (hfree ms page hget)) hrest
    rw [List.append_assoc, List.singleton_append] at hnext
    exact hnext

/- The old image is gone. -/
theorem mapped_released (ms : MemState) (a : PcbPtr) :
    Mapped ((ms.resetRootPgtable a).releaseProcPages a) a [] := by
  have hspaces : ∀ (pages : List Page) (ms : MemState),
      (pages.foldl MemState.releasePage ms).spaces = ms.spaces := by
    intro pages
    induction pages with
    | nil => exact fun _ => rfl
    | cons page pages ih => exact fun ms => ih (ms.releasePage page)
  have hspace : ((ms.resetRootPgtable a).releaseProcPages a).spaces a = ⟨[], []⟩ := by
    rw [MemState.releaseProcPages, hspaces]
    simp [MemState.setSpace, MemState.resetRootPgtable]
  refine ⟨?_, ?_, ?_⟩
  · rw [hspace]
    rfl
  · rw [hspace]
    rfl
  · rw [hspace]
    exact List.nodup_nil

theorem mapImage_mapped {k k' : Kernel} (hstack : X.stackPages < 2 ^ 32)
    (hfree : ∀ ms page, X.getFreePage ms = some page → page ∉ (ms.spaces a).pageList)
    (h : mapImage X image a k = some k') :
    Mapped k'.mem a ((execRegions X image).flatMap (·.virts X.arch.pageSize)) ∧
      (k'.pcbs a).pageCount = BitVec.ofNat 32 X.stackPages +
        BitVec.ofNat 32 image.segmentPageCount + BitVec.ofNat 32 X.heapPages + 1 := by
  have hcount : (BitVec.ofNat 32 X.stackPages).toNat = X.stackPages := by
    rw [BitVec.toNat_ofNat, Nat.mod_eq_of_lt hstack]
  unfold mapImage at h
  simp only [Kernel.resetProcessStack, setPcb_pcbs_self, setPcb_mem] at h
  obtain ⟨ms₁, hstackPages, h⟩ := Option.bind_eq_some_iff.mp h
  obtain ⟨ms₂, himagePages, h⟩ := Option.bind_eq_some_iff.mp h
  obtain ⟨ms₃, hheapPages, h⟩ := Option.bind_eq_some_iff.mp h
  obtain ⟨ms₄, hargsPage, h⟩ := Option.bind_eq_some_iff.mp h
  obtain rfl := Option.some.inj h
  change MemState.allocatePage X a (stackRegion X).base
    (BitVec.ofNat 32 X.stackPages).toNat _ = some ms₁ at hstackPages
  rw [hcount] at hstackPages
  have h₁ := (mapped_released k.mem a).allocate hfree (stackRegion X) hstackPages
  have h₂ := h₁.allocate hfree (imageRegion image) himagePages
  have h₃ := h₂.allocate hfree (heapRegion X image) hheapPages
  have h₄ := h₃.allocate hfree (argsRegion X) hargsPage
  constructor
  · simpa [execRegions] using h₄
  · simp [Kernel.setPcb, Platform.stackPages, Platform.heapPages]

/-- The ranges follow one another in the memory, the first page left out. -/
structure Layout (pageSize : ℕ) (image heap stack args : Region) : Prop where
  zeroPage : pageSize ≤ image.base.toNat
  imageTop : image.top pageSize ≤ heap.base.toNat
  heapTop : heap.top pageSize ≤ stack.base.toNat
  stackTop : stack.top pageSize ≤ args.base.toNat
  argsTop : args.top pageSize ≤ 2 ^ 32

theorem heap_base_toNat (hsmall : (X.stackPages + image.segmentPageCount + 1) * X.arch.pageSize <
      2 ^ 32) :
    (heapRegion X image).base.toNat =
      (X.stackPages + image.segmentPageCount + 1) * X.arch.pageSize := by
  have hsum : (heapRegion X image).base =
      BitVec.ofNat 32 ((X.stackPages + image.segmentPageCount + 1) * X.arch.pageSize) := by
    rw [BitVec.ofNat_mul, BitVec.ofNat_add, BitVec.ofNat_add]
    rfl
  rw [hsum, BitVec.toNat_ofNat, Nat.mod_eq_of_lt hsmall]

theorem stack_base_toNat (hroom : X.stackPages * X.arch.pageSize ≤ X.argsBase.toNat) :
    (stackRegion X).base.toNat = X.argsBase.toNat - X.stackPages * X.arch.pageSize := by
  have hlt := X.argsBase.isLt
  have hsize : (BitVec.ofNat 32 X.stackPages * BitVec.ofNat 32 X.arch.pageSize).toNat =
      X.stackPages * X.arch.pageSize := by
    rw [← BitVec.ofNat_mul, BitVec.toNat_ofNat, Nat.mod_eq_of_lt (by omega)]
  rw [stackRegion, BitVec.toNat_sub_of_le, hsize]
  rw [BitVec.le_def, hsize]
  exact hroom

theorem exec_layout (hentry : image.entry.toNat = X.arch.pageSize)
    (hroom : (X.stackPages + image.segmentPageCount + 1 + X.heapPages) * X.arch.pageSize +
      X.stackPages * X.arch.pageSize ≤ X.argsBase.toNat)
    (hargs : X.argsBase.toNat + X.arch.pageSize ≤ 2 ^ 32) :
    Layout X.arch.pageSize (imageRegion image) (heapRegion X image) (stackRegion X)
      (argsRegion X) := by
  have hlt := X.argsBase.isLt
  rw [Nat.add_mul] at hroom
  have hheap := @heap_base_toNat X image (by omega)
  have hstack := @stack_base_toNat X (by omega)
  have hsum : (X.stackPages + image.segmentPageCount + 1) * X.arch.pageSize =
      X.stackPages * X.arch.pageSize + image.segmentPageCount * X.arch.pageSize +
        X.arch.pageSize := by
    rw [Nat.add_mul, Nat.add_mul, Nat.one_mul]
  constructor
  · exact Nat.le_of_eq hentry.symm
  · rw [hheap, Region.top]
    simp only [imageRegion, hentry]
    omega
  · rw [hstack, Region.top, hheap]
    simp only [heapRegion]
    omega
  · rw [Region.top, hstack]
    simp only [stackRegion, argsRegion]
    omega
  · simp only [Region.top, argsRegion]
    omega

variable (X image)

/-- The ranges are what was mapped, page by page, they keep apart from one another and from
page 0, and the count of pages is that of the list. -/
structure AddressSpace (a : PcbPtr) (k : Kernel) : Prop where
  mapped : Mapped k.mem a ((execRegions X image).flatMap (·.virts X.arch.pageSize))
  virt : ∀ r ∈ execRegions X image, ∀ i < r.pages,
    (r.virt X.arch.pageSize i).toNat = r.base.toNat + i * X.arch.pageSize
  disjoint : (execRegions X image).Pairwise fun r s =>
    r.top X.arch.pageSize ≤ s.base.toNat ∨ s.top X.arch.pageSize ≤ r.base.toNat
  zeroPage : ∀ r ∈ execRegions X image, X.arch.pageSize ≤ r.base.toNat
  pageCount : (k.pcbs a).pageCount.toNat = (k.mem.spaces a).pageList.length

variable {X image}

theorem Region.base_le_top (pageSize : ℕ) (r : Region) : r.base.toNat ≤ r.top pageSize :=
  Nat.le_add_right _ _

theorem Mapped.length (h : Mapped ms a virts) : (ms.spaces a).pageList.length = virts.length := by
  rw [← h.frames, ← h.virts, List.length_map, List.length_map]

/- Page counts are far below the size of a word. -/
theorem pages_small (hpos : 0 < X.arch.pageSize)
    (hroom : (X.stackPages + image.segmentPageCount + 1 + X.heapPages) * X.arch.pageSize +
      X.stackPages * X.arch.pageSize ≤ X.argsBase.toNat) :
    X.stackPages + image.segmentPageCount + 1 + X.heapPages < 2 ^ 32 := by
  have hlt := X.argsBase.isLt
  have hle : X.stackPages + image.segmentPageCount + 1 + X.heapPages ≤
      (X.stackPages + image.segmentPageCount + 1 + X.heapPages) * X.arch.pageSize :=
    Nat.le_mul_of_pos_right _ hpos
  omega

theorem placeArgsEnv_keeps {argsEnv : ℕ} {envp : Option (List ByteMemory.CStr)} {k k' : Kernel}
    {ret : Word} (h : placeArgsEnv X argsEnv envp k = some (k', ret)) :
    k'.mem.spaces = k.mem.spaces ∧ k'.pcbs = k.pcbs := by
  unfold placeArgsEnv at h
  split_ifs at h
  · cases h
    exact ⟨rfl, rfl⟩
  · obtain ⟨bytes, _, hret⟩ := Option.bind_eq_some_iff.mp h
    cases hret
    exact ⟨rfl, rfl⟩

/- The new image is mapped, from whatever kernel the arguments have left. -/
theorem setup_mapImage {argv envp : Option (List ByteMemory.CStr)} {args : ℕ} {k k' : Kernel}
    {ret : Word} (h : setupProcImageReplace X image a argv envp args k = some (k', ret)) :
    ∃ k₁ k₂, mapImage X image a k₁ = some k₂ ∧ k'.mem.spaces = k₂.mem.spaces ∧
      k'.pcbs = k₂.pcbs := by
  unfold setupProcImageReplace at h
  split_ifs at h
  simp only [Nat.not_lt_zero, if_false] at h
  obtain ⟨k₂, hmap, hplace⟩ := Option.bind_eq_some_iff.mp h
  exact ⟨_, k₂, hmap, placeArgsEnv_keeps hplace⟩

theorem pageCount_toNat
    (hsmall : X.stackPages + image.segmentPageCount + X.heapPages + 1 < 2 ^ 32) :
    (BitVec.ofNat 32 X.stackPages + BitVec.ofNat 32 image.segmentPageCount +
        BitVec.ofNat 32 X.heapPages + 1).toNat =
      ((execRegions X image).flatMap (·.virts X.arch.pageSize)).length := by
  have hword : BitVec.ofNat 32 X.stackPages + BitVec.ofNat 32 image.segmentPageCount +
      BitVec.ofNat 32 X.heapPages + 1 =
        BitVec.ofNat 32 (X.stackPages + image.segmentPageCount + X.heapPages + 1) := by
    rw [BitVec.ofNat_add, BitVec.ofNat_add, BitVec.ofNat_add]
    rfl
  have hlen : ((execRegions X image).flatMap (·.virts X.arch.pageSize)).length =
      X.stackPages + (image.segmentPageCount + (X.heapPages + 1)) := by
    simp [execRegions, Region.virts, stackRegion, imageRegion, heapRegion, argsRegion]
  rw [hword, BitVec.toNat_ofNat, Nat.mod_eq_of_lt hsmall, hlen]
  omega

/-- The address space after `setup_proc_image_replace`. -/
theorem exec_addressSpace {argv envp : Option (List ByteMemory.CStr)} {args : ℕ} {k k' : Kernel}
    {ret : Word} (hpos : 0 < X.arch.pageSize) (hentry : image.entry.toNat = X.arch.pageSize)
    (hroom : (X.stackPages + image.segmentPageCount + 1 + X.heapPages) * X.arch.pageSize +
      X.stackPages * X.arch.pageSize ≤ X.argsBase.toNat)
    (hargs : X.argsBase.toNat + X.arch.pageSize ≤ 2 ^ 32)
    (hfree : ∀ ms page, X.getFreePage ms = some page → page ∉ (ms.spaces a).pageList)
    (h : setupProcImageReplace X image a argv envp args k = some (k', ret)) :
    AddressSpace X image a k' := by
  obtain ⟨k₁, k₂, hmap, hspaces, hpcbs⟩ := setup_mapImage h
  have hsmall := pages_small hpos hroom
  obtain ⟨hmapped, hcount⟩ := mapImage_mapped (by omega) hfree hmap
  obtain ⟨hzero, himage, hheap, hstack, htop⟩ := exec_layout hentry hroom hargs
  have hbase := Region.base_le_top X.arch.pageSize
  have himageBase := hbase (imageRegion image)
  have hheapBase := hbase (heapRegion X image)
  have hstackBase := hbase (stackRegion X)
  have hargsBase := hbase (argsRegion X)
  constructor
  · obtain ⟨hvirts, hframes, hnodup⟩ := hmapped
    rw [← hspaces] at hvirts hframes hnodup
    exact ⟨hvirts, hframes, hnodup⟩
  · intro r hr i hi
    apply Region.virt_toNat _ hi hpos
    simp only [execRegions, List.mem_cons, List.not_mem_nil, or_false] at hr
    rcases hr with rfl | rfl | rfl | rfl <;> omega
  · simp only [execRegions, List.pairwise_cons, List.mem_cons, List.not_mem_nil, or_false,
      forall_eq_or_imp, forall_eq, false_imp_iff, implies_true, List.Pairwise.nil, and_true]
    omega
  · intro r hr
    simp only [execRegions, List.mem_cons, List.not_mem_nil, or_false] at hr
    rcases hr with rfl | rfl | rfl | rfl <;> omega
  · rw [hpcbs, hcount, hspaces, hmapped.length]
    exact pageCount_toNat (by omega)

/-! ### With free pages `exec` completes -/

theorem allocatePage_completes (hpages : ∀ ms, ∃ page, X.getFreePage ms = some page) (virt : Word)
    (n : ℕ) (ms : MemState) :
    ∃ ms', MemState.allocatePage X a virt n ms = some ms' ∧ ms'.bytes = ms.bytes := by
  unfold MemState.allocatePage
  induction List.range n generalizing ms with
  | nil => exact ⟨ms, rfl, rfl⟩
  | cons i turns ih =>
    obtain ⟨page, hpage⟩ := hpages ms
    obtain ⟨ms', hrest, hbytes⟩ := ih (MemState.addPageToProc a page
      (MemState.createMapping a (virt + BitVec.ofNat 32 (i * X.arch.pageSize)) page ms))
    refine ⟨ms', ?_, hbytes⟩
    rw [List.foldlM_cons, hpage]
    exact hrest

theorem released_bytes (ms : MemState) (a : PcbPtr) :
    ((ms.resetRootPgtable a).releaseProcPages a).bytes = ms.bytes := by
  have hbytes : ∀ (pages : List Page) (ms : MemState),
      (pages.foldl MemState.releasePage ms).bytes = ms.bytes := by
    intro pages
    induction pages with
    | nil => exact fun _ => rfl
    | cons page pages ih => exact fun ms => ih (ms.releasePage page)
  rw [MemState.releaseProcPages, hbytes]
  rfl

/- A step that succeeds, and then the rest. -/
theorem bind_completes {α β : Type} {o : Option α} {f : α → Option β} {P : α → Prop}
    {Q : β → Prop} (ho : ∃ x, o = some x ∧ P x) (hf : ∀ x, P x → ∃ y, f x = some y ∧ Q y) :
    ∃ y, (o >>= f) = some y ∧ Q y := by
  obtain ⟨x, rfl, hx⟩ := ho
  exact hf x hx

theorem mapImage_completes (hpages : ∀ ms, ∃ page, X.getFreePage ms = some page)
    (image : ElfImage) (a : PcbPtr) (k : Kernel) :
    ∃ k', mapImage X image a k = some k' ∧ k'.mem.bytes = k.mem.bytes := by
  have halloc := fun virt n ms => @allocatePage_completes X a hpages virt n ms
  unfold mapImage
  refine bind_completes (halloc _ _ _) fun ms₁ h₁ => ?_
  refine bind_completes (halloc _ _ _) fun ms₂ h₂ => ?_
  refine bind_completes (halloc _ _ _) fun ms₃ h₃ => ?_
  refine bind_completes (halloc _ _ _) fun ms₄ h₄ => ?_
  refine ⟨_, rfl, ?_⟩
  show ms₄.bytes = k.mem.bytes
  rw [h₄, h₃, h₂, h₁]
  exact released_bytes k.mem a

/-- The arguments fit in a page, and there are free pages. -/
theorem setup_completes {argv envp : Option (List ByteMemory.CStr)} {args : ℕ} {k : Kernel}
    (hpages : ∀ ms, ∃ page, X.getFreePage ms = some page) (hargs : args ≠ 0)
    (hargv : 0 < argCount argv → (argVector argv).isSome)
    (hfits : X.arch.required (argStrings (k.pcbs a).name (argCount argv) (argVector argv) ++
      envStrings envp) ≤ X.arch.pageSize)
    (hpage : args + X.arch.pageSize ≤ X.arch.addrs)
    (hbase : X.argsBase.toNat + X.arch.pageSize ≤ X.arch.addrs) :
    ∃ k', setupProcImageReplace X image a argv envp args k = some (k', 0) := by
  obtain ⟨m', hpreserve, himage, _⟩ := preserve_image X.arch args (k.pcbs a).name
    (argCount argv) (argVector argv) envp k.mem.bytes hargv hfits
  obtain ⟨k₁, hmap, hbytes⟩ := mapImage_completes hpages image a
    { k with mem := { k.mem with bytes := m' } }
  have hlen := argStrings_length (k.pcbs a).name hargv
  have hn : max (argCount argv) 1 ≤ (argStrings (k.pcbs a).name (argCount argv)
      (argVector argv) ++ envStrings envp).length := by
    rw [List.length_append, hlen]
    exact Nat.le_add_right _ _
  obtain ⟨m₂, hpost, _⟩ := @post_image X.arch X.argsBase.toNat args _
    ((envStrings envp).length + 1) _ m' himage hfits hn hpage hbase (by
      rw [List.length_append, hlen]
      omega)
  rw [setupProcImageReplace, if_neg hargs, preserveCall, hpreserve]
  simp only [Nat.not_lt_zero, if_false]
  refine ⟨{ k₁ with mem := { k₁.mem with bytes := m₂ } }, ?_⟩
  rw [hmap]
  simp only [Option.bind_eq_bind, Option.bind_some, placeArgsEnv, if_neg hargs, hbytes, hpost]

/- Every page has a number above those that process 0 lists. -/
def sparePages : Platform := { rootPlatform with
  getFreePage := fun ms => some ((ms.spaces 0).pageList.foldr max 0 + 1) }

theorem sparePages_fresh (ms : MemState) (page : Page)
    (h : sparePages.getFreePage ms = some page) : page ∉ (ms.spaces 0).pageList := by
  intro hmem
  have hmax : ∀ pages : List Page, page ∈ pages → page ≤ pages.foldr max 0 := by
    intro pages
    induction pages with
    | nil => exact fun h => absurd h List.not_mem_nil
    | cons p pages ih =>
      intro h
      rcases List.mem_cons.mp h with rfl | hrest
      · exact Nat.le_max_left _ _
      · exact Nat.le_trans (ih hrest) (Nat.le_max_right _ _)
  have hle := hmax _ hmem
  rw [← Option.some.inj h] at hle
  exact Nat.not_succ_le_self _ hle

/- Three pages from 0x1000 on. -/
def threePages : ElfImage := ⟨0x1000#32, 3, [], [], 0⟩

theorem exec_addressSpace_root : ∃ k,
    setupProcImageReplace sparePages threePages 0 none none 65536 rootKernel = some (k, 0) ∧
      AddressSpace sparePages threePages 0 k := by
  obtain ⟨k, hsetup⟩ := @setup_completes sparePages threePages 0 none none 65536 rootKernel
    (fun ms => ⟨_, rfl⟩) (by decide) (by decide) (by decide) (by decide) (by decide)
  exact ⟨k, hsetup, exec_addressSpace (by decide) (by decide) (by decide) (by decide)
    sparePages_fresh hsetup⟩

end SyeLabs.So3
