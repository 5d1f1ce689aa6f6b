import SyeLabs.Library.Loop
import SyeLabs.Memsim.ReadProtection

/-!
# The tests the simulators run on themselves

`test_mem` compares each byte with the low byte of its address, which is all that `main`
stored there; `test_mem_2` expects the attributes that `init_page_table` gives the pages.
-/

namespace SyeLabs.Memsim
open PagedMemory
open Loop (forEach forEach_range forEach_range_left)

variable {pages size : ℕ}

/-- An `int` passed as a `uint16_t`. -/
def toVaddr (vaddr : ℕ) : Vaddr := BitVec.ofNat 16 vaddr

def lowByte (vaddr : ℕ) : Byte := BitVec.ofNat 8 (vaddr &&& 0xFF)

/-- What `test_mem` prints. -/
inductive TestResult where
  | error (vaddr : ℕ)
  | failed (errorCount : ℕ)
  | successful
  deriving DecidableEq

namespace Simulator

variable (S : Simulator pages size)

/- The result of the call is not looked at. -/
def fillByte (m : Machine pages size) (vaddr : ℕ) : Option (Machine pages size) :=
  (S.call m (.store (toVaddr vaddr) (lowByte vaddr))).map Prod.fst

/-- The loop of `main` that puts data into memory. -/
def fill (m : Machine pages size) : Option (Machine pages size) :=
  Run.exec S.fillByte m (List.range (pages * size))

def testByte (m : Machine pages size) (vaddr errorCount : ℕ) : Option (ℕ × Option ℕ) :=
  (S.getByte m (toVaddr vaddr)).map fun r => match r with
    | .error _ => (errorCount, some vaddr)
    | .ok byte => (if byte ≠ lowByte vaddr then errorCount + 1 else errorCount, none)

def testMem (m : Machine pages size) : Option TestResult :=
  (forEach (S.testByte m) (List.range (pages * size)) 0).map fun r => match r.2 with
    | some vaddr => .error vaddr
    | none => if r.1 > 0 then .failed r.1 else .successful

end Simulator

/-! ### lab11 -/

namespace Lab11

theorem getByte_eq (m : State) (v : Vaddr) :
    simulator.getByte m v = some (.ok (m.mainMem (layout.cell m.pageTable v))) := by
  rw [implements.get]
  rfl

theorem fillByte_eq (m : State) (vaddr : ℕ) : simulator.fillByte m vaddr =
    some ⟨m.pageTable, Function.update m.mainMem
      (layout.cell m.pageTable (toVaddr vaddr)) (lowByte vaddr)⟩ := by
  rw [Simulator.fillByte, implements.call_eq]
  rfl

theorem lowByte_of_low {v w : ℕ} (hv : v < 2 ^ 16) (hw : w < 2 ^ 16)
    (h : layout.low (toVaddr v) = layout.low (toVaddr w)) : lowByte v = lowByte w := by
  have hlow := congrArg Fin.val h
  have hmask : ∀ u : ℕ, u < 2 ^ 16 → (layout.low (toVaddr u)).val = u % 256 := by
    intro u hu
    change (toVaddr u &&& layout.mask).toNat = u % 256
    rw [Flags.toNat_low _ layout.mask_eq]
    simp only [toVaddr, BitVec.toNat_ofNat, Nat.mod_eq_of_lt hu]
    rfl
  rw [hmask v hv, hmask w hw] at hlow
  have hand : ∀ u : ℕ, u &&& 0xFF = u % 256 := fun u => Nat.and_two_pow_sub_one_eq_mod u 8
  rw [lowByte, lowByte, hand, hand, hlow]

/-- After `k` rounds: where two addresses share a cell, they share the byte as well. -/
theorem fill_range (m : State) {k : ℕ} (hk : k ≤ 2 ^ 16) :
    ∃ m', Run.exec simulator.fillByte m (List.range k) = some m' ∧ m'.pageTable = m.pageTable ∧
      ∀ v < k, m'.mainMem (layout.cell m.pageTable (toVaddr v)) = lowByte v := by
  induction k with
  | zero => exact ⟨m, rfl, rfl, fun v hv => absurd hv (Nat.not_lt_zero v)⟩
  | succ k ih =>
    obtain ⟨m', hrun, htable, hbytes⟩ := ih (Nat.le_of_succ_le hk)
    refine ⟨⟨m'.pageTable, Function.update m'.mainMem
      (layout.cell m'.pageTable (toVaddr k)) (lowByte k)⟩, ?_, htable, fun v hv => ?_⟩
    · rw [List.range_succ, Run.exec_append, hrun, Option.bind_some, Run.exec_cons, fillByte_eq]
      rfl
    · by_cases hcell : layout.cell m.pageTable (toVaddr v) = layout.cell m.pageTable (toVaddr k)
      · have hlow : layout.low (toVaddr v) = layout.low (toVaddr k) := congrArg Prod.snd hcell
        rw [hcell, htable]
        simpa using (lowByte_of_low (by omega) (by omega) hlow).symm
      · have hlt : v < k := by
          rcases Nat.lt_or_eq_of_le (Nat.le_of_lt_succ hv) with hlt | rfl
          · exact hlt
          · exact absurd rfl hcell
        rw [htable]
        simpa [hcell] using hbytes v hlt

/-- `main` reports success whatever is in the page table, pages that share a frame included:
the byte stored depends on the offset in the page alone. -/
theorem testMem_successful (m : State) : ∃ m', simulator.fill m = some m' ∧
    m'.pageTable = m.pageTable ∧ simulator.testMem m' = some .successful := by
  obtain ⟨m', hfill, htable, hbytes⟩ := fill_range m (Nat.le_refl (2 ^ 16))
  refine ⟨m', hfill, htable, ?_⟩
  have hround : ∀ k < memoryPageNum * memoryPageSize, simulator.testByte m' k 0 =
      some (0, none) := by
    intro k hk
    rw [Simulator.testByte, getByte_eq, htable]
    simp [hbytes k hk]
  rw [Simulator.testMem, forEach_range (f := fun _ => 0) hround]
  rfl

end Lab11

/-! ### lab12 -/

namespace Layout

variable (L : Layout pages size)

theorem toNat_address {i j : ℕ} (hi : i < pages) (hj : j < size) :
    (BitVec.ofNat 16 ((i <<< L.shift) ||| j)).toNat = 2 ^ L.shift * i + j := by
  have hcover := L.cover
  have hlt : i * size + j < 2 ^ 16 := by
    have hle : i * size + size ≤ pages * size := by
      rw [← Nat.succ_mul]
      exact Nat.mul_le_mul_right size hi
    omega
  rw [L.size_eq] at hj hlt
  rw [← Nat.shiftLeft_add_eq_or_of_lt hj, Nat.shiftLeft_eq, BitVec.toNat_ofNat,
    Nat.mod_eq_of_lt hlt, Nat.mul_comm]

theorem page_address {i j : ℕ} (hi : i < pages) (hj : j < size) :
    L.page (BitVec.ofNat 16 ((i <<< L.shift) ||| j)) = ⟨i, hi⟩ := by
  refine Fin.ext ?_
  have hlow := hj
  rw [L.size_eq] at hlow
  simp only [page, Flags.toNat_high, L.toNat_address hi hj]
  rw [Nat.mul_add_div (Nat.two_pow_pos _), Nat.div_eq_of_lt hlow, Nat.add_zero]

theorem low_address {i j : ℕ} (hi : i < pages) (hj : j < size) :
    L.low (BitVec.ofNat 16 ((i <<< L.shift) ||| j)) = ⟨j, hj⟩ := by
  refine Fin.ext ?_
  have hlow := hj
  rw [L.size_eq] at hlow
  simp only [low, Flags.toNat_low _ L.mask_eq, L.toNat_address hi hj]
  rw [Nat.mul_add_mod, Nat.mod_eq_of_lt hlow]

end Layout

namespace Lab12

variable {r : Rep}

/-- The messages of `test_mem_2`, each with its address; -1 is returned with any of them. -/
inductive Failure where
  | readonly (vaddr : Vaddr)
  | validBit (vaddr : Vaddr)
  deriving DecidableEq

/- The body of the two loops. -/
def checkByte (i j : ℕ) (m : State r) : Option (State r × Option Failure) :=
  let vaddr := BitVec.ofNat 16 ((i <<< r.pageNumShift) ||| j)
  if i = 10 ∨ i = 11 ∨ i = 12 then
    (getByte m vaddr).bind fun read => match read with
      | .error _ => some (m, some (.readonly vaddr))
      | .ok _ => (storeByte m vaddr 0x01).map fun written => match written with
        | .ok m => (m, some (.readonly vaddr))
        | .error _ => (m, none)
  else if i = 5 ∨ i = 6 ∨ i = 7 ∨ i = 8 then
    (getByte m vaddr).map fun read => match read with
      | .ok _ => (m, some (.validBit vaddr))
      | .error _ => (m, none)
  else
    (getByte m vaddr).bind fun read => match read with
      | .error _ => some (m, some (.readonly vaddr))
      | .ok _ => (storeByte m vaddr 0x01).map fun written => match written with
        | .error _ => (m, some (.readonly vaddr))
        | .ok m => (m, none)

def checkPage (i : ℕ) (m : State r) : Option (State r × Option Failure) :=
  forEach (fun j => checkByte i j) (List.range r.memoryPageSize) m

def testMem2 (m : State r) : Option (State r × Option Failure) :=
  forEach checkPage (List.range r.memoryPageNum) m

/-! ### What the second test accepts -/

abbrev ReadOnlyPage (i : ℕ) : Prop := i = 10 ∨ i = 11 ∨ i = 12
abbrev InvalidPage (i : ℕ) : Prop := i = 5 ∨ i = 6 ∨ i = 7 ∨ i = 8

/-- A page the test stores into. -/
def Plain (i : ℕ) : Prop := ¬ ReadOnlyPage i ∧ ¬ InvalidPage i

instance (i : ℕ) : Decidable (Plain i) := inferInstanceAs (Decidable (_ ∧ _))

def Expected (i : ℕ) (e : Pte) : Prop :=
  if ReadOnlyPage i then Loads e ∧ ¬ Stores e
  else if InvalidPage i then ¬ Loads e
  else Loads e ∧ Stores e

def failureAt (i : ℕ) (vaddr : Vaddr) : Failure :=
  if InvalidPage i then .validBit vaddr else .readonly vaddr

variable (pt : Fin r.memoryPageNum → Pte) (mem : Fin r.memoryPageNum × Fin r.memoryPageSize → Byte)

theorem getByte_loads {i j : ℕ} (hi : i < r.memoryPageNum) (hj : j < r.memoryPageSize) :
    let vaddr := BitVec.ofNat 16 ((i <<< r.pageNumShift) ||| j)
    (Loads (pt ⟨i, hi⟩) → getByte ⟨pt, mem⟩ vaddr =
      some (.ok (mem ((layout r).frame (pt ⟨i, hi⟩), ⟨j, hj⟩)))) ∧
    (¬ Loads (pt ⟨i, hi⟩) → ∃ e, getByte ⟨pt, mem⟩ vaddr = some (.error e)) := by
  intro vaddr
  have hpage : (layout r).page vaddr = ⟨i, hi⟩ := (layout r).page_address hi hj
  have hlow : (layout r).low vaddr = ⟨j, hj⟩ := (layout r).low_address hi hj
  have hcell : (layout r).cell pt vaddr = ((layout r).frame (pt ⟨i, hi⟩), ⟨j, hj⟩) := by
    rw [Layout.cell, hpage, hlow]
  have hget := (implements r).get ⟨pt, mem⟩ vaddr
  change getByte ⟨pt, mem⟩ vaddr = _ at hget
  constructor
  · intro hloads
    rw [hget, load_eq_ok.mpr ⟨hpage ▸ hloads, hcell⟩]
    rfl
  · intro hloads
    cases hload : (mmu r pt).load vaddr with
    | error e => exact ⟨e, by rw [hget, hload]; rfl⟩
    | ok c => exact absurd (hpage ▸ (load_eq_ok.mp hload).1) hloads

theorem storeByte_stores {i j : ℕ} (hi : i < r.memoryPageNum) (hj : j < r.memoryPageSize)
    (b : Byte) :
    let vaddr := BitVec.ofNat 16 ((i <<< r.pageNumShift) ||| j)
    (Stores (pt ⟨i, hi⟩) → storeByte ⟨pt, mem⟩ vaddr b =
      some (.ok ⟨pt, Function.update mem ((layout r).frame (pt ⟨i, hi⟩), ⟨j, hj⟩) b⟩)) ∧
    (¬ Stores (pt ⟨i, hi⟩) → ∃ e, storeByte ⟨pt, mem⟩ vaddr b = some (.error e)) := by
  intro vaddr
  have hpage : (layout r).page vaddr = ⟨i, hi⟩ := (layout r).page_address hi hj
  have hlow : (layout r).low vaddr = ⟨j, hj⟩ := (layout r).low_address hi hj
  have hcell : (layout r).cell pt vaddr = ((layout r).frame (pt ⟨i, hi⟩), ⟨j, hj⟩) := by
    rw [Layout.cell, hpage, hlow]
  have hset := (implements r).store ⟨pt, mem⟩ vaddr b
  change storeByte ⟨pt, mem⟩ vaddr b = _ at hset
  constructor
  · intro hstores
    rw [hset, store_eq_ok.mpr ⟨hpage ▸ hstores, hcell⟩]
    rfl
  · intro hstores
    cases hstore : (mmu r pt).store vaddr with
    | error e => exact ⟨e, by rw [hset, hstore]; rfl⟩
    | ok c => exact absurd (hpage ▸ (store_eq_ok.mp hstore).1) hstores

instance (e : Pte) : Decidable (Loads e) := inferInstanceAs (Decidable (_ ∧ _))
instance (e : Pte) : Decidable (Stores e) := inferInstanceAs (Decidable (_ ∧ _))

theorem checkByte_expected {i j : ℕ} (hi : i < r.memoryPageNum) (hj : j < r.memoryPageSize)
    (h : Expected i (pt ⟨i, hi⟩)) : checkByte i j ⟨pt, mem⟩ = some (⟨pt, if Plain i then
      Function.update mem ((layout r).frame (pt ⟨i, hi⟩), ⟨j, hj⟩) 1 else mem⟩, none) := by
  obtain ⟨hload, hnoLoad⟩ := getByte_loads pt mem hi hj
  obtain ⟨hstore, hnoStore⟩ := storeByte_stores pt mem hi hj 0x01
  unfold Expected at h
  by_cases hro : ReadOnlyPage i
  · rw [if_pos hro] at h
    obtain ⟨e, he⟩ := hnoStore h.2
    have hplain : ¬ Plain i := fun hp => hp.1 hro
    rw [checkByte, if_pos hro, hload h.1]
    simp only [Option.bind_some, he, Option.map_some, if_neg hplain]
  · rw [if_neg hro] at h
    by_cases hinv : InvalidPage i
    · rw [if_pos hinv] at h
      obtain ⟨e, he⟩ := hnoLoad h
      have hplain : ¬ Plain i := fun hp => hp.2 hinv
      rw [checkByte, if_neg hro, if_pos hinv, he]
      simp only [Option.map_some, if_neg hplain]
    · rw [if_neg hinv] at h
      have hplain : Plain i := ⟨hro, hinv⟩
      rw [checkByte, if_neg hro, if_neg hinv, hload h.1]
      simp only [Option.bind_some, hstore h.2, Option.map_some, if_pos hplain]

theorem checkByte_unexpected {i j : ℕ} (hi : i < r.memoryPageNum) (hj : j < r.memoryPageSize)
    (h : ¬ Expected i (pt ⟨i, hi⟩)) : checkByte i j ⟨pt, mem⟩ =
      some (⟨pt, if ReadOnlyPage i ∧ Loads (pt ⟨i, hi⟩) then
          Function.update mem ((layout r).frame (pt ⟨i, hi⟩), ⟨j, hj⟩) 1 else mem⟩,
        some (failureAt i (BitVec.ofNat 16 ((i <<< r.pageNumShift) ||| j)))) := by
  obtain ⟨hload, hnoLoad⟩ := getByte_loads pt mem hi hj
  obtain ⟨hstore, hnoStore⟩ := storeByte_stores pt mem hi hj 0x01
  unfold Expected at h
  by_cases hro : ReadOnlyPage i
  · rw [if_pos hro] at h
    have hinv : ¬ InvalidPage i := by
      unfold ReadOnlyPage at hro
      unfold InvalidPage
      omega
    rw [checkByte, if_pos hro, failureAt, if_neg hinv]
    by_cases hloads : Loads (pt ⟨i, hi⟩)
    · -- the store that should have been refused has been made
      have hstores : Stores (pt ⟨i, hi⟩) := not_not.mp fun hs => h ⟨hloads, hs⟩
      simp only [hload hloads, Option.bind_some, hstore hstores, Option.map_some, hro, hloads,
        and_self, if_true]
    · obtain ⟨e, he⟩ := hnoLoad hloads
      simp only [he, Option.bind_some, hloads, and_false, if_false]
  · rw [if_neg hro] at h
    by_cases hinv : InvalidPage i
    · rw [if_pos hinv] at h
      rw [checkByte, if_neg hro, if_pos hinv, hload (not_not.mp h), failureAt, if_pos hinv]
      simp only [Option.map_some, hro, false_and, if_false]
    · rw [if_neg hinv] at h
      rw [checkByte, if_neg hro, if_neg hinv, failureAt, if_neg hinv]
      simp only [hro, false_and, if_false]
      by_cases hloads : Loads (pt ⟨i, hi⟩)
      · obtain ⟨e, he⟩ := hnoStore fun hs => h ⟨hloads, hs⟩
        simp only [hload hloads, Option.bind_some, he, Option.map_some]
      · obtain ⟨e, he⟩ := hnoLoad hloads
        simp only [he, Option.bind_some]

/-! ### The loops -/

/-- The memory after the first `k` pages. -/
def pagesStored (k : ℕ) (c : Fin r.memoryPageNum × Fin r.memoryPageSize) : Byte :=
  if ∃ i : Fin r.memoryPageNum, i.val < k ∧ Plain i.val ∧ (layout r).frame (pt i) = c.1 then 1
  else mem c

/-- And after the first `j` bytes of the next page. -/
def bytesStored (i : Fin r.memoryPageNum) (j : ℕ)
    (c : Fin r.memoryPageNum × Fin r.memoryPageSize) : Byte :=
  if Plain i.val ∧ (layout r).frame (pt i) = c.1 ∧ c.2.val < j then 1 else mem c

theorem bytesStored_zero (i : Fin r.memoryPageNum) : bytesStored pt mem i 0 = mem := by
  funext c
  exact if_neg fun h => Nat.not_lt_zero _ h.2.2

theorem bytesStored_succ (i : Fin r.memoryPageNum) {j : ℕ} (hj : j < r.memoryPageSize) :
    (if Plain i.val then Function.update (bytesStored pt mem i j)
        ((layout r).frame (pt i), ⟨j, hj⟩) 1 else bytesStored pt mem i j) =
      bytesStored pt mem i (j + 1) := by
  funext c
  obtain ⟨f, o⟩ := c
  by_cases hplain : Plain i.val
  · rw [if_pos hplain, Function.update_apply]
    simp only [bytesStored, hplain, true_and, Prod.mk.injEq, Fin.ext_iff]
    by_cases hf : f.val = ((layout r).frame (pt i)).val
    · by_cases ho : o.val = j
      · simp [hf, ho]
      · have hlt : o.val < j + 1 ↔ o.val < j := by omega
        simp [hf, ho, hlt]
    · have hf' : ¬ ((layout r).frame (pt i)).val = f.val := fun h => hf h.symm
      simp [hf, hf']
  · rw [if_neg hplain]
    simp [bytesStored, hplain]

theorem bytesStored_all (i : Fin r.memoryPageNum) :
    bytesStored pt (pagesStored pt mem i.val) i r.memoryPageSize =
      pagesStored pt mem (i.val + 1) := by
  funext c
  have hc : c.2.val < r.memoryPageSize := c.2.isLt
  simp only [bytesStored, pagesStored, hc, and_true]
  by_cases hi : Plain i.val ∧ (layout r).frame (pt i) = c.1
  · rw [if_pos hi, if_pos ⟨i, Nat.lt_succ_self _, hi⟩]
  · rw [if_neg hi]
    refine if_congr ⟨?_, ?_⟩ rfl rfl
    · rintro ⟨k, hk, hplain⟩
      exact ⟨k, Nat.lt_succ_of_lt hk, hplain⟩
    · rintro ⟨k, hk, hplain⟩
      rcases Nat.lt_or_eq_of_le (Nat.le_of_lt_succ hk) with hlt | heq
      · exact ⟨k, hlt, hplain⟩
      · obtain rfl : k = i := Fin.ext heq
        exact absurd hplain hi

theorem checkPage_expected {i : ℕ} (hi : i < r.memoryPageNum) (h : Expected i (pt ⟨i, hi⟩)) :
    checkPage i ⟨pt, pagesStored pt mem i⟩ = some (⟨pt, pagesStored pt mem (i + 1)⟩, none) := by
  have hround : ∀ j < r.memoryPageSize,
      checkByte i j ⟨pt, bytesStored pt (pagesStored pt mem i) ⟨i, hi⟩ j⟩ =
        some (⟨pt, bytesStored pt (pagesStored pt mem i) ⟨i, hi⟩ (j + 1)⟩, none) := by
    intro j hj
    rw [checkByte_expected pt _ hi hj h, bytesStored_succ pt _ ⟨i, hi⟩ hj]
  have hloop := forEach_range
    (f := fun j => (⟨pt, bytesStored pt (pagesStored pt mem i) ⟨i, hi⟩ j⟩ : State r)) hround
  simp only [bytesStored_zero, bytesStored_all pt mem ⟨i, hi⟩] at hloop
  exact hloop

theorem memoryPageSize_pos (r : Rep) : 0 < r.memoryPageSize := by cases r <;> decide

/- The attributes are those of the page, so it is the first byte that fails. -/
theorem checkPage_unexpected {i : ℕ} (hi : i < r.memoryPageNum) (h : ¬ Expected i (pt ⟨i, hi⟩)) :
    checkPage i ⟨pt, mem⟩ = some (⟨pt, if ReadOnlyPage i ∧ Loads (pt ⟨i, hi⟩) then
        Function.update mem ((layout r).frame (pt ⟨i, hi⟩), ⟨0, memoryPageSize_pos r⟩) 1 else mem⟩,
      some (failureAt i (BitVec.ofNat 16 (i <<< r.pageNumShift)))) := by
  have hfirst := checkByte_unexpected pt mem hi (memoryPageSize_pos r) h
  rw [Nat.or_zero] at hfirst
  exact forEach_range_left (f := fun _ => (⟨pt, mem⟩ : State r)) (memoryPageSize_pos r)
    (fun j hj => absurd hj (Nat.not_lt_zero j)) hfirst

theorem pagesStored_zero : pagesStored pt mem 0 = mem := by
  funext c
  exact if_neg fun ⟨_, h, _⟩ => Nat.not_lt_zero _ h

/-- `test_mem_2` returns 0 exactly when each page has the attributes it expects, and has then
stored 1 all over the pages that can be written; otherwise it stops at the first byte of
the first page that has not, and what it stored until then stays. -/
theorem testMem2_spec (r : Rep) (m : State r) :
    ((∀ i : Fin r.memoryPageNum, Expected i.val (m.pageTable i)) →
      testMem2 m =
        some (⟨m.pageTable, pagesStored m.pageTable m.mainMem r.memoryPageNum⟩, none)) ∧
    (∀ i : Fin r.memoryPageNum, ¬ Expected i.val (m.pageTable i) →
      (∀ k < i, Expected k.val (m.pageTable k)) →
      testMem2 m = some (⟨m.pageTable,
          if ReadOnlyPage i.val ∧ Loads (m.pageTable i) then
            Function.update (pagesStored m.pageTable m.mainMem i.val)
              ((layout r).frame (m.pageTable i), ⟨0, memoryPageSize_pos r⟩) 1
          else pagesStored m.pageTable m.mainMem i.val⟩,
        some (failureAt i.val (BitVec.ofNat 16 (i.val <<< r.pageNumShift))))) ∧
    ∀ i : Fin r.memoryPageNum, Expected i.val ((initPageTable m).pageTable i) := by
  obtain ⟨pt, mem⟩ := m
  refine ⟨fun h => ?_, fun i hi h => ?_, fun i => ?_⟩
  · have hround : ∀ i < r.memoryPageNum, checkPage i ⟨pt, pagesStored pt mem i⟩ =
        some (⟨pt, pagesStored pt mem (i + 1)⟩, none) :=
      fun i hi => checkPage_expected pt mem hi (h ⟨i, hi⟩)
    have hloop := forEach_range (f := fun i => (⟨pt, pagesStored pt mem i⟩ : State r)) hround
    simp only [pagesStored_zero] at hloop
    exact hloop
  · have hround : ∀ k < i.val, checkPage k ⟨pt, pagesStored pt mem k⟩ =
        some (⟨pt, pagesStored pt mem (k + 1)⟩, none) :=
      fun k hk => checkPage_expected pt mem (Nat.lt_trans hk i.isLt) (h ⟨k, _⟩ hk)
    have hloop := forEach_range_left
      (f := fun i => (⟨pt, pagesStored pt mem i⟩ : State r)) i.isLt hround
      (checkPage_unexpected pt (pagesStored pt mem i.val) i.isLt hi)
    simp only [pagesStored_zero] at hloop
    exact hloop
  · have hloads := loads_initEntry (r := r) i
    have hstores := stores_initEntry (r := r) i
    have hinv : InvalidPage i.val ↔ 5 ≤ i.val ∧ i.val ≤ 8 := by
      unfold InvalidPage
      omega
    have hro : ReadOnlyPage i.val ↔ 10 ≤ i.val ∧ i.val ≤ 12 := by
      unfold ReadOnlyPage
      omega
    change Expected i.val (initEntry r i.val)
    unfold Expected
    rw [hloads, hstores, ← hinv, ← hro]
    split_ifs with h₁ h₂
    · have h₃ : ¬ InvalidPage i.val := by omega
      simp [h₁, h₃]
    · simp [h₂]
    · simp [h₁, h₂]

end Lab12

end SyeLabs.Memsim
