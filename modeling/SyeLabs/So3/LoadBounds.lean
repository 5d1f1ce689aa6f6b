import SyeLabs.So3.Exec

/-!
# Where `load_process` copies to (`lab9/process.c`, lines 618-668)

The loops select the sections by their place in the file, and copy them to an address
that stands in another field.
-/

namespace SyeLabs.So3
open ByteMemory

structure Memcpy where
  dst : ℕ
  src : ℕ
  n : ℕ

def Memcpy.run (m : Memory) (c : Memcpy) : Memory := copy m c.dst c.src c.n

/-- The calls of `memcpy`, in their order. -/
def memcpys (image : ElfImage) : List Memcpy :=
  (image.segments.filter (·.load)).flatMap fun seg =>
    (image.sections.filter (loaded seg)).map fun sec =>
      ⟨sec.addr.toNat, image.fileBuffer + sec.offset.toNat, sec.size.toNat⟩

/-- Each byte that is written is of the pages mapped for the image, and each byte that is
read is of the file. -/
structure Memcpy.Inside (A : Arch) (image : ElfImage) (fileSize : ℕ) (c : Memcpy) : Prop where
  dst : ∀ i < c.n, image.entry.toNat ≤ c.dst + i ∧
    c.dst + i < image.entry.toNat + image.segmentPageCount * A.pageSize
  src : ∀ i < c.n, image.fileBuffer ≤ c.src + i ∧ c.src + i < image.fileBuffer + fileSize

/-- The section is copied for some segment. -/
def ElfImage.Copies (image : ElfImage) (sec : ElfSection) : Prop :=
  ∃ seg ∈ image.segments, seg.load = true ∧ loaded seg sec = true

/-- What the headers of a section would have to say. -/
structure ElfSection.Placed (A : Arch) (image : ElfImage) (fileSize : ℕ) (sec : ElfSection) :
    Prop where
  low : image.entry.toNat ≤ sec.addr.toNat
  high : sec.addr.toNat + sec.size.toNat ≤
    image.entry.toNat + image.segmentPageCount * A.pageSize
  file : sec.offset.toNat + sec.size.toNat ≤ fileSize

variable {A : Arch} {image : ElfImage} {fileSize : ℕ} {sec : ElfSection}

theorem loadProcess_eq (image : ElfImage) (m : Memory) :
    loadProcess image m = (memcpys image).foldl Memcpy.run m := by
  rw [loadProcess, memcpys, List.foldl_flatMap]
  congr 1
  funext m seg
  rw [List.foldl_map]
  rfl

theorem mem_memcpys {c : Memcpy} : c ∈ memcpys image ↔ ∃ sec ∈ image.sections,
    image.Copies sec ∧
      c = ⟨sec.addr.toNat, image.fileBuffer + sec.offset.toNat, sec.size.toNat⟩ := by
  simp only [memcpys, List.mem_flatMap, List.mem_map, List.mem_filter, ElfImage.Copies]
  constructor
  · rintro ⟨seg, ⟨hseg, hload⟩, sec, ⟨hsec, hloaded⟩, rfl⟩
    exact ⟨sec, hsec, ⟨seg, hseg, hload, hloaded⟩, rfl⟩
  · rintro ⟨sec, hsec, ⟨seg, hseg, hload, hloaded⟩, rfl⟩
    exact ⟨seg, ⟨hseg, hload⟩, sec, ⟨hsec, hloaded⟩, rfl⟩

/- An empty range is inside of anything. -/
theorem range_inside {lo n a k : ℕ} :
    (∀ i < k, lo ≤ a + i ∧ a + i < lo + n) ↔ k = 0 ∨ lo ≤ a ∧ a + k ≤ lo + n := by
  constructor
  · intro h
    by_cases hk : k = 0
    · exact .inl hk
    · have hfirst := h 0 (by omega)
      have hlast := h (k - 1) (by omega)
      exact .inr ⟨by omega, by omega⟩
  · intro h i hi
    omega

theorem inside_iff :
    Memcpy.Inside A image fileSize
        ⟨sec.addr.toNat, image.fileBuffer + sec.offset.toNat, sec.size.toNat⟩ ↔
      sec.size = 0 ∨ sec.Placed A image fileSize := by
  have hsize : sec.size.toNat = 0 ↔ sec.size = 0 := BitVec.toNat_inj (y := 0#32)
  constructor
  · intro h
    have hdst := range_inside.mp h.dst
    have hsrc := range_inside.mp h.src
    by_cases hzero : sec.size = 0
    · exact .inl hzero
    · have hpos : sec.size.toNat ≠ 0 := fun h0 => hzero (hsize.mp h0)
      obtain ⟨hlow, hhigh⟩ := hdst.resolve_left hpos
      obtain ⟨_, hfile⟩ := hsrc.resolve_left hpos
      exact .inr ⟨hlow, hhigh, by simp only at hfile; omega⟩
  · rintro (hzero | ⟨hlow, hhigh, hfile⟩)
    · exact ⟨range_inside.mpr (.inl (hsize.mpr hzero)), range_inside.mpr (.inl (hsize.mpr hzero))⟩
    · exact ⟨range_inside.mpr (.inr ⟨hlow, hhigh⟩),
        range_inside.mpr (.inr ⟨Nat.le_add_right _ _, by simp only; omega⟩)⟩

theorem Memcpy.Inside.frame {c : Memcpy} (h : c.Inside A image fileSize) (m : Memory) {x : ℕ}
    (hx : x < image.entry.toNat ∨ image.entry.toNat + image.segmentPageCount * A.pageSize ≤ x) :
    c.run m x = m x := by
  apply write_outside
  rw [read_length]
  by_contra hin
  obtain ⟨i, rfl⟩ := Nat.exists_eq_add_of_le (show c.dst ≤ x by omega)
  have hdst := h.dst i (by omega)
  omega

/-- Copies that keep to the image leave the rest of the memory alone. -/
theorem loadProcess_frame (h : ∀ c ∈ memcpys image, c.Inside A image fileSize) (m : Memory) {x : ℕ}
    (hx : x < image.entry.toNat ∨ image.entry.toNat + image.segmentPageCount * A.pageSize ≤ x) :
    loadProcess image m x = m x := by
  have hall : ∀ cs : List Memcpy, (∀ c ∈ cs, c.Inside A image fileSize) →
      ∀ m, cs.foldl Memcpy.run m x = m x := by
    intro cs
    induction cs with
    | nil => exact fun _ _ => rfl
    | cons c cs ih =>
      intro hcs m
      rw [List.foldl_cons, ih (fun c hc => hcs c (List.mem_cons_of_mem _ hc))]
      exact (hcs c List.mem_cons_self).frame m hx
  rw [loadProcess_eq]
  exact hall (memcpys image) h m

/-- The copies keep to the image and to the file exactly when the sections that are copied
have an address in the image and their bytes in the file. -/
theorem load_inside_iff (A : Arch) (image : ElfImage) (fileSize : ℕ) :
    (∀ c ∈ memcpys image, c.Inside A image fileSize) ↔
      ∀ sec ∈ image.sections, image.Copies sec → sec.size ≠ 0 → sec.Placed A image fileSize := by
  constructor
  · intro h sec hsec hcopies hsize
    have hinside := h _ (mem_memcpys.mpr ⟨sec, hsec, hcopies, rfl⟩)
    exact (inside_iff.mp hinside).resolve_left hsize
  · intro h c hc
    obtain ⟨sec, hsec, hcopies, rfl⟩ := mem_memcpys.mp hc
    rw [inside_iff]
    by_cases hsize : sec.size = 0
    · exact .inl hsize
    · exact .inr (h sec hsec hcopies hsize)

/- A section with a place in the segment, and an address behind the page of the image. -/
def strayText : ElfSection := ⟨CStr.ofBytes (ascii ".text"), false, 0x8000#32, 0x1000#32, 4#32⟩

def strayImage : ElfImage :=
  ⟨0x1000#32, 1, [⟨true, 0x1000#32, 0x1000#32⟩], [strayText], 0x40000000⟩

theorem stray_section_copied :
    ¬ ∀ c ∈ memcpys strayImage, c.Inside ⟨4, 4096, by decide, by decide⟩ strayImage 0x2000 := by
  intro h
  have hcopied : ⟨0x8000, 0x40001000, 4⟩ ∈ memcpys strayImage := by
    rw [mem_memcpys]
    refine ⟨strayText, List.mem_singleton_self _, ?_, rfl⟩
    exact ⟨_, List.mem_singleton_self _, rfl, by decide⟩
  have hhigh := ((h _ hcopied).dst 0 (by decide)).2
  revert hhigh
  decide

end SyeLabs.So3
