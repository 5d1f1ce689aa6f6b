import SyeLabs.Memsim.SelfTests

/-!
# Printing a page

`print_page` has the same text in both simulators. A page is readable as a whole or not at
all, so what is printed is complete or nothing, and can be read back.
-/

namespace SyeLabs.Memsim
open Loop (forEach forEach_range forEach_range_left forEach_range_undefined)

variable {pages size : ℕ}

/- `%02x` and a space. -/
def byteText (b : Byte) : List Char :=
  [Nat.digitChar (b.toNat / 16), Nat.digitChar (b.toNat % 16), ' ']

def rowText (row : List Byte) : List Char := row.flatMap byteText

/-- What a refused call prints by itself. -/
def refusalText : Refusal → List Char
  | .badAddress => []
  | .pageFault addr msg =>
    "Page Fault @0x".toList ++ Nat.toDigits 16 addr.toNat ++ ": ".toList ++ msg.toList ++ ['\n']

namespace Simulator

variable (S : Simulator pages size)

/- `i % width` is undefined for a width of 0. -/
def printByte (m : Machine pages size) (vaddr : Vaddr) (width i : ℕ) (out : List Char) :
    Option (List Char × Option Unit) :=
  if width = 0 then none
  else
    let out := if i % width = 0 ∧ i > 0 then out ++ ['\n'] else out
    (S.getByte m (vaddr ||| BitVec.ofNat 16 i)).map fun r => match r with
      | .error e => (out ++ refusalText e, some ())
      | .ok byte => (out ++ byteText byte, none)

def printPage (m : Machine pages size) (vaddr : Vaddr) (width : BitVec 8) : Option (List Char) :=
  let width := if width.toNat > 32 then 32 else width.toNat
  (forEach (S.printByte m vaddr width) (List.range size) []).map fun r => r.1 ++ ['\n']

end Simulator

/-! ### Rows -/

/-- All rows but the last hold `width` bytes, and none is empty or longer. -/
structure Rows (width : ℕ) (bytes : List Byte) (rows : List (List Byte)) : Prop where
  flatten : rows.flatten = bytes
  full : ∀ row ∈ rows.dropLast, row.length = width
  bounded : ∀ row ∈ rows, row ≠ [] ∧ row.length ≤ width

/-- What is on the screen after `k` bytes. -/
def printed (width : ℕ) (byte : ℕ → Byte) : ℕ → List Char
  | 0 => []
  | k + 1 => (if k % width = 0 ∧ k > 0 then printed width byte k ++ ['\n']
      else printed width byte k) ++ byteText (byte k)

/-- The rows above the one being printed, and that one. -/
structure Printing (width : ℕ) (byte : ℕ → Byte) (k : ℕ) (rows : List (List Byte))
    (row : List Byte) : Prop where
  text : printed width byte k = (rows.flatMap fun r => rowText r ++ ['\n']) ++ rowText row
  bytes : rows.flatten ++ row = (List.range k).map byte
  full : ∀ r ∈ rows, r.length = width
  length : rows.length * width + row.length = k
  bounded : row.length ≤ width
  started : 0 < k → row ≠ []

theorem rowText_append (row : List Byte) (b : Byte) : rowText (row ++ [b]) =
    rowText row ++ byteText b := by
  simp [rowText]

theorem printing (width : ℕ) (hwidth : 0 < width) (byte : ℕ → Byte) (k : ℕ) :
    ∃ rows row, Printing width byte k rows row := by
  induction k with
  | zero => exact ⟨[], [], rfl, rfl, nofun, by simp, Nat.zero_le _, nofun⟩
  | succ k ih =>
    obtain ⟨rows, row, h⟩ := ih
    have hlength := h.length
    have hbounded := h.bounded
    by_cases hline : k % width = 0 ∧ k > 0
    · -- the row is full
      have hfull : row.length = width := by
        have hpos := List.length_pos_iff.mpr (h.started hline.2)
        have hmod : (rows.length * width + row.length) % width = 0 := by rw [hlength]; exact hline.1
        rw [Nat.mul_comm, Nat.mul_add_mod] at hmod
        rcases Nat.lt_or_eq_of_le hbounded with hlt | heq
        · rw [Nat.mod_eq_of_lt hlt] at hmod
          omega
        · exact heq
      refine ⟨rows ++ [row], [byte k], ?_, ?_, ?_, ?_, hwidth, fun _ => by simp⟩
      · rw [printed, if_pos hline, h.text]
        simp [rowText]
      · rw [List.range_succ, List.map_append, ← h.bytes]
        simp
      · intro r hr
        rcases List.mem_append.mp hr with hr | hr
        · exact h.full r hr
        · rw [List.mem_singleton.mp hr, hfull]
      · rw [List.length_append, List.length_singleton, List.length_singleton, Nat.succ_mul]
        omega
    · have hroom : row.length < width := by
        refine Nat.lt_of_le_of_ne hbounded fun heq => hline ⟨?_, ?_⟩
        · rw [← hlength, heq, ← Nat.succ_mul, Nat.mul_mod_left]
        · rw [← hlength, heq]
          omega
      refine ⟨rows, row ++ [byte k], ?_, ?_, h.full, ?_, ?_, fun _ => by simp⟩
      · rw [printed, if_neg hline, h.text, rowText_append, List.append_assoc]
      · rw [List.range_succ, List.map_append, ← h.bytes, List.append_assoc]
        rfl
      · rw [List.length_append, List.length_singleton]
        omega
      · rw [List.length_append, List.length_singleton]
        exact hroom

theorem printed_rows {width : ℕ} (hwidth : 0 < width) (byte : ℕ → Byte) {k : ℕ} (hk : 0 < k) :
    ∃ rows, Rows width ((List.range k).map byte) rows ∧
      printed width byte k ++ ['\n'] = rows.flatMap fun r => rowText r ++ ['\n'] := by
  obtain ⟨rows, row, h⟩ := printing width hwidth byte k
  refine ⟨rows ++ [row], ⟨?_, ?_, ?_⟩, ?_⟩
  · rw [← h.bytes]
    simp
  · rw [List.dropLast_concat]
    exact h.full
  · intro r hr
    rcases List.mem_append.mp hr with hr | hr
    · have hlen := h.full r hr
      exact ⟨List.length_pos_iff.mp (by omega), Nat.le_of_eq hlen⟩
    · rw [List.mem_singleton.mp hr]
      exact ⟨h.started hk, h.bounded⟩
  · rw [h.text]
    simp

/-! ### Reading it back -/

def hexValue (c : Char) : Option ℕ := (List.range 16).find? fun d => Nat.digitChar d = c

def readRow : List Char → Option (List Byte)
  | [] => some []
  | a :: b :: ' ' :: rest => do
    let high ← hexValue a
    let low ← hexValue b
    let row ← readRow rest
    return BitVec.ofNat 8 (16 * high + low) :: row
  | _ => none

/-- The rows of a printed page, each line up to its end. -/
def readDump (text : List Char) : Option (List (List Byte)) :=
  ((text.splitOn '\n').dropLast).mapM readRow

theorem hexValue_digitChar {d : ℕ} (h : d < 16) : hexValue (Nat.digitChar d) = some d := by
  have hall : ∀ d : Fin 16, hexValue (Nat.digitChar d.val) = some d.val := by decide
  exact hall ⟨d, h⟩

theorem digitChar_ne_newline {d : ℕ} (h : d < 16) : Nat.digitChar d ≠ '\n' := by
  have hall : ∀ d : Fin 16, Nat.digitChar d.val ≠ '\n' := by decide
  exact hall ⟨d, h⟩

theorem readRow_rowText (row : List Byte) : readRow (rowText row) = some row := by
  induction row with
  | nil => rfl
  | cons b row ih =>
    have hb : b.toNat < 256 := b.isLt
    have hhigh : b.toNat / 16 < 16 := by omega
    have hlow : b.toNat % 16 < 16 := Nat.mod_lt _ (by decide)
    have hvalue : 16 * (b.toNat / 16) + b.toNat % 16 = b.toNat := Nat.div_add_mod _ _
    have htext : rowText (b :: row) = Nat.digitChar (b.toNat / 16) ::
        Nat.digitChar (b.toNat % 16) :: ' ' :: rowText row := rfl
    rw [htext, readRow, hexValue_digitChar hhigh, hexValue_digitChar hlow, ih]
    simp only [Option.bind_eq_bind, Option.bind_some, Option.pure_def, hvalue,
      BitVec.ofNat_toNat, BitVec.setWidth_eq]

theorem newline_notMem_rowText (row : List Byte) : '\n' ∉ rowText row := by
  intro h
  obtain ⟨b, -, hb⟩ := List.mem_flatMap.mp h
  have hlt : b.toNat < 256 := b.isLt
  simp only [byteText, List.mem_cons, List.not_mem_nil, or_false] at hb
  rcases hb with hb | hb | hb
  · exact digitChar_ne_newline (by omega) hb.symm
  · exact digitChar_ne_newline (Nat.mod_lt _ (by decide)) hb.symm
  · exact absurd hb (by decide)

theorem splitOn_rows (rows : List (List Byte)) :
    (rows.flatMap fun r => rowText r ++ ['\n']).splitOn '\n' = rows.map rowText ++ [[]] := by
  induction rows with
  | nil => rfl
  | cons row rows ih =>
    have hrow : ∀ c ∈ rowText row, (c == '\n') = false := by
      intro c hc
      refine beq_eq_false_iff_ne.mpr fun heq => ?_
      exact newline_notMem_rowText row (heq ▸ hc)
    rw [List.flatMap_cons, List.append_assoc, List.singleton_append, List.splitOn,
      List.splitOnP_append_cons_of_forall_mem hrow _ (beq_self_eq_true _), List.map_cons,
      List.cons_append, ← ih]
    rfl

theorem readDump_rows (rows : List (List Byte)) :
    readDump (rows.flatMap fun r => rowText r ++ ['\n']) = some rows := by
  rw [readDump, splitOn_rows, List.dropLast_concat]
  induction rows with
  | nil => rfl
  | cons row rows ih =>
    rw [List.map_cons, List.mapM_cons, readRow_rowText, ih]
    rfl

/-! ### The page as a whole -/

theorem Layout.page_or (L : Layout pages size) (v : Vaddr) {i : ℕ} (hi : i < size) :
    L.page (v ||| BitVec.ofNat 16 i) = L.page v := by
  have hlow := hi
  rw [L.size_eq] at hlow
  have hzero : BitVec.ofNat 16 i >>> L.shift = 0#16 := by
    apply BitVec.eq_of_toNat_eq
    rw [Flags.toNat_high, BitVec.toNat_ofNat]
    have hle : i % 2 ^ 16 < 2 ^ L.shift := Nat.lt_of_le_of_lt (Nat.mod_le _ _) hlow
    rw [Nat.div_eq_of_lt hle]
    rfl
  refine Fin.ext ?_
  change ((v ||| BitVec.ofNat 16 i) >>> L.shift).toNat = (v >>> L.shift).toNat
  rw [BitVec.ushiftRight_or_distrib, hzero, BitVec.or_zero]

theorem Layout.low_or (L : Layout pages size) {v : Vaddr} (hv : v &&& L.mask = 0#16) (i : Fin size) :
    L.low (v ||| BitVec.ofNat 16 i.val) = i := by
  have hlow : i.val < 2 ^ L.shift := L.size_eq ▸ i.isLt
  have hcover : size ≤ 2 ^ 16 := by
    have hpages : 0 < pages := by
      refine Nat.pos_of_ne_zero fun hzero => ?_
      have hcover := L.cover
      simp [hzero] at hcover
    calc size = 1 * size := (Nat.one_mul size).symm
      _ ≤ pages * size := Nat.mul_le_mul_right size hpages
      _ = 2 ^ 16 := L.cover
  have hi : i.val < 2 ^ 16 := Nat.lt_of_lt_of_le i.isLt hcover
  refine Fin.ext ?_
  change ((v ||| BitVec.ofNat 16 i.val) &&& L.mask).toNat = i.val
  rw [BitVec.and_comm, BitVec.and_or_distrib_left, BitVec.and_comm L.mask v, hv, BitVec.zero_or,
    BitVec.and_comm, Flags.toNat_low _ L.mask_eq, BitVec.toNat_ofNat, Nat.mod_eq_of_lt hi,
    Nat.mod_eq_of_lt hlow]

namespace Simulator

variable {S : Simulator pages size} {m : Machine pages size} {vaddr : Vaddr} {width : BitVec 8}

/-- The number of bytes in a line. -/
def lineWidth (width : BitVec 8) : ℕ := if width.toNat > 32 then 32 else width.toNat

theorem lineWidth_pos (h : width ≠ 0) : 0 < lineWidth width := by
  have hpos : 0 < width.toNat := by
    refine Nat.pos_of_ne_zero fun hzero => h ?_
    exact BitVec.eq_of_toNat_eq hzero
  unfold lineWidth
  split_ifs
  · decide
  · exact hpos

theorem printPage_readable (hsize : 0 < size) (hwidth : width ≠ 0) {byte : ℕ → Byte}
    (h : ∀ i < size, S.getByte m (vaddr ||| BitVec.ofNat 16 i) = some (.ok (byte i))) :
    ∃ rows out, S.printPage m vaddr width = some out ∧ readDump out = some rows ∧
      Rows (lineWidth width) ((List.range size).map byte) rows := by
  have hpos := lineWidth_pos hwidth
  have hround : ∀ i < size, S.printByte m vaddr (lineWidth width) i
      (printed (lineWidth width) byte i) =
        some (printed (lineWidth width) byte (i + 1), none) := by
    intro i hi
    rw [printByte, if_neg (Nat.ne_of_gt hpos), h i hi]
    rfl
  obtain ⟨rows, hrows, htext⟩ := printed_rows hpos byte hsize
  refine ⟨rows, rows.flatMap fun r => rowText r ++ ['\n'], ?_, readDump_rows rows, hrows⟩
  have hloop := forEach_range (f := printed (lineWidth width) byte) hround
  rw [printPage, ← htext]
  change (forEach (S.printByte m vaddr (lineWidth width)) (List.range size) []).map _ = _
  rw [show ([] : List Char) = printed (lineWidth width) byte 0 from rfl, hloop]
  rfl

theorem printPage_refused (hsize : 0 < size) (hwidth : width ≠ 0) {e : Refusal}
    (h : S.getByte m (vaddr ||| BitVec.ofNat 16 0) = some (.error e)) :
    S.printPage m vaddr width = some (refusalText e ++ ['\n']) := by
  have hround : S.printByte m vaddr (lineWidth width) 0 [] = some (refusalText e, some ()) := by
    rw [printByte, if_neg (Nat.ne_of_gt (lineWidth_pos hwidth)), h]
    rfl
  have hloop := forEach_range_left (f := fun _ => ([] : List Char)) hsize
    (fun j hj => absurd hj (Nat.not_lt_zero j)) hround
  rw [printPage]
  change (forEach (S.printByte m vaddr (lineWidth width)) (List.range size) []).map _ = _
  rw [hloop]
  rfl

end Simulator

/-- The bytes of the frame that the page of `vaddr` is in, from `vaddr` on. -/
def Layout.frameBytes (L : Layout pages size) (m : Machine pages size) (vaddr : Vaddr) :
    List Byte :=
  (List.range size).map fun i =>
    m.mainMem (L.frame (m.pageTable (L.page vaddr)), L.low (vaddr ||| BitVec.ofNat 16 i))

namespace Simulator

variable {S : Simulator pages size} {L : Layout pages size} {m : Machine pages size}
  {vaddr : Vaddr} {width : BitVec 8}

/-- What is printed of a page gives its bytes back, cut into lines. -/
def Dumps (S : Simulator pages size) (L : Layout pages size) (m : Machine pages size)
    (vaddr : Vaddr) (width : BitVec 8) : Prop :=
  ∃ rows out, S.printPage m vaddr width = some out ∧ readDump out = some rows ∧
    Rows (min 32 width.toNat) (L.frameBytes m vaddr) rows

theorem dumps_of_getByte (hsize : 0 < size) (hwidth : width ≠ 0)
    (h : ∀ i < size, S.getByte m (vaddr ||| BitVec.ofNat 16 i) =
      some (.ok (m.mainMem (L.cell m.pageTable (vaddr ||| BitVec.ofNat 16 i))))) :
    S.Dumps L m vaddr width := by
  have hbytes : ∀ i < size, S.getByte m (vaddr ||| BitVec.ofNat 16 i) = some (.ok (m.mainMem
      (L.frame (m.pageTable (L.page vaddr)), L.low (vaddr ||| BitVec.ofNat 16 i)))) := by
    intro i hi
    rw [h i hi, Layout.cell, L.page_or vaddr hi]
  have hline : lineWidth width = min 32 width.toNat := by
    unfold lineWidth
    split_ifs <;> omega
  have hread := printPage_readable hsize hwidth hbytes
  rwa [hline] at hread

theorem printPage_zero (hsize : 0 < size) : S.printPage m vaddr 0 = none := by
  rw [printPage, forEach_range_undefined hsize rfl]
  rfl

end Simulator

theorem Lab11.printPage_dumps (m : Lab11.State) (vaddr : Vaddr) {width : BitVec 8}
    (hwidth : width ≠ 0) : Lab11.simulator.Dumps Lab11.layout m vaddr width := by
  refine Simulator.dumps_of_getByte (by decide) hwidth fun i _ => ?_
  rw [Lab11.implements.get]
  rfl

namespace Lab12

variable {r : Rep}

theorem getByte_page (m : State r) (v : Vaddr) :
    (Loads (m.pageTable ((layout r).page v)) → (simulator r).getByte m v =
      some (.ok (m.mainMem ((layout r).cell m.pageTable v)))) ∧
    (¬ Loads (m.pageTable ((layout r).page v)) →
      ∃ e, (simulator r).getByte m v = some (.error e)) := by
  have hget := (implements r).get m v
  constructor
  · intro hloads
    rw [hget, load_eq_ok.mpr ⟨hloads, rfl⟩]
    rfl
  · intro hloads
    cases hload : (mmu r m.pageTable).load v with
    | error e => exact ⟨e, by rw [hget, hload]; rfl⟩
    | ok c => exact absurd (load_eq_ok.mp hload).1 hloads

theorem printPage_dumps (m : State r) {vaddr : Vaddr} {width : BitVec 8} (hwidth : width ≠ 0)
    (hloads : Loads (m.pageTable ((layout r).page vaddr))) :
    (simulator r).Dumps (layout r) m vaddr width := by
  refine Simulator.dumps_of_getByte (memoryPageSize_pos r) hwidth fun i hi => ?_
  have hpage := (layout r).page_or vaddr hi
  exact (getByte_page m _).1 (hpage.symm ▸ hloads)

theorem printPage_faults (m : State r) {vaddr : Vaddr} {width : BitVec 8} (hwidth : width ≠ 0)
    (hloads : ¬ Loads (m.pageTable ((layout r).page vaddr))) :
    ∃ e, (simulator r).getByte m vaddr = some (.error e) ∧
      (simulator r).printPage m vaddr width = some (refusalText e ++ ['\n']) := by
  obtain ⟨e, he⟩ := (getByte_page m vaddr).2 hloads
  refine ⟨e, he, Simulator.printPage_refused (memoryPageSize_pos r) hwidth ?_⟩
  rw [BitVec.or_zero]
  exact he

end Lab12

/-- What `print_page` prints of a page that can be read gives its bytes back, cut into lines of
the width asked for, or of 32; of any other page only the fault is printed, and for a width
of 0 the behaviour is undefined. In lab 11 every page can be read. -/
theorem printPage_spec (vaddr : Vaddr) (width : BitVec 8) :
    (∀ (r : Rep) (m : Lab12.State r),
      (Lab12.Loads (m.pageTable ((Lab12.layout r).page vaddr)) → width ≠ 0 →
        (Lab12.simulator r).Dumps (Lab12.layout r) m vaddr width) ∧
      (¬ Lab12.Loads (m.pageTable ((Lab12.layout r).page vaddr)) → width ≠ 0 →
        ∃ e, (Lab12.simulator r).getByte m vaddr = some (.error e) ∧
          (Lab12.simulator r).printPage m vaddr width = some (refusalText e ++ ['\n'])) ∧
      (Lab12.simulator r).printPage m vaddr 0 = none ∧
      (vaddr &&& r.mask = 0#16 → ∀ i : Fin r.memoryPageSize,
        (Lab12.layout r).low (vaddr ||| BitVec.ofNat 16 i.val) = i)) ∧
    ∀ m : Lab11.State,
      (width ≠ 0 → Lab11.simulator.Dumps Lab11.layout m vaddr width) ∧
      Lab11.simulator.printPage m vaddr 0 = none ∧
      (vaddr &&& Lab11.mask = 0#16 → ∀ i : Fin Lab11.memoryPageSize,
        Lab11.layout.low (vaddr ||| BitVec.ofNat 16 i.val) = i) := by
  refine ⟨fun r m => ⟨?_, ?_, ?_, (Lab12.layout r).low_or⟩,
    fun m => ⟨?_, ?_, Lab11.layout.low_or⟩⟩
  · exact fun hloads hwidth => Lab12.printPage_dumps m hwidth hloads
  · exact fun hloads hwidth => Lab12.printPage_faults m hwidth hloads
  · exact Simulator.printPage_zero (Lab12.memoryPageSize_pos r)
  · exact Lab11.printPage_dumps m vaddr
  · exact Simulator.printPage_zero (by decide)

end SyeLabs.Memsim
