import SyeLabs.Library.Flags
import Mathlib.Data.Fintype.Basic
import Mathlib.Logic.Function.Basic
import Mathlib.Tactic.IntervalCases

/-!
# The page table of the replacement simulator (`lab13/memreplace.c`)

Each entry is one byte: page number in bits 7..4, REF in bit 2, SWAP in bit 1
and VALID in bit 0. The arrays have fixed length 16, so an index is a value of
`Fin 16`; the bytes keep the arithmetic of `uint8_t`.
-/

namespace SyeLabs.Memreplace

abbrev Byte := BitVec 8

abbrev nbPages : ℕ := 16
abbrev Page := Fin nbPages

instance : NeZero nbPages := ⟨by decide⟩

def delta : ℤ := 2

def pageNbMask : Byte := 0xF0#8
def refBitMask : Byte := 0x04#8
def swapBitMask : Byte := 0x02#8
def validBitMask : Byte := 0x01#8

/-- The globals of the program, and what it wrote to `stderr`. -/
structure Mem where
  pageTable : Page → Byte
  tdu : Page → Byte
  tvc : Byte
  stderr : List String

/-- `exit(status)` after the given messages. -/
structure Exit where
  status : ℕ
  stderr : List String

def Mem.setEntry (m : Mem) (i : Page) (b : Byte) : Mem :=
  {m with pageTable := Function.update m.pageTable i b}

@[simp] theorem Mem.setEntry_tdu (m : Mem) (i : Page) (b : Byte) : (m.setEntry i b).tdu = m.tdu := rfl
@[simp] theorem Mem.setEntry_tvc (m : Mem) (i : Page) (b : Byte) : (m.setEntry i b).tvc = m.tvc := rfl
@[simp] theorem Mem.setEntry_stderr (m : Mem) (i : Page) (b : Byte) :
    (m.setEntry i b).stderr = m.stderr := rfl

@[simp] theorem Mem.setEntry_self (m : Mem) (i : Page) (b : Byte) :
    (m.setEntry i b).pageTable i = b := by
  simp [Mem.setEntry]

theorem Mem.setEntry_of_ne (m : Mem) (b : Byte) {i j : Page} (h : j ≠ i) :
    (m.setEntry i b).pageTable j = m.pageTable j := by
  simp [Mem.setEntry, h]

/-! ### The three flags -/

def Mem.valid (m : Mem) (i : Page) : Bool := m.pageTable i &&& validBitMask ≠ 0#8
def Mem.swap (m : Mem) (i : Page) : Bool := m.pageTable i &&& swapBitMask ≠ 0#8
def Mem.ref (m : Mem) (i : Page) : Bool := m.pageTable i &&& refBitMask ≠ 0#8
/-- Bits 7..4 of the entry. -/
def Mem.pageNb (m : Mem) (i : Page) : ℕ := ((m.pageTable i &&& pageNbMask) >>> 4).toNat

theorem validBitMask_eq : validBitMask = BitVec.twoPow 8 0 := by decide
theorem swapBitMask_eq : swapBitMask = BitVec.twoPow 8 1 := by decide
theorem refBitMask_eq : refBitMask = BitVec.twoPow 8 2 := by decide

def Mem.bit (m : Mem) (i : Page) (k : ℕ) : Bool := (m.pageTable i).getLsbD k

theorem valid_eq (m : Mem) (i : Page) : m.valid i = m.bit i 0 := by
  rw [Bool.eq_iff_iff, Mem.bit, ← Flags.test_iff, ← validBitMask_eq]
  simp [Mem.valid]

theorem swap_eq (m : Mem) (i : Page) : m.swap i = m.bit i 1 := by
  rw [Bool.eq_iff_iff, Mem.bit, ← Flags.test_iff, ← swapBitMask_eq]
  simp [Mem.swap]

theorem ref_eq (m : Mem) (i : Page) : m.ref i = m.bit i 2 := by
  rw [Bool.eq_iff_iff, Mem.bit, ← Flags.test_iff, ← refBitMask_eq]
  simp [Mem.ref]

theorem bit_set (m : Mem) (i j : Page) (k b : ℕ) (hk : k < 8) :
    (m.setEntry i (m.pageTable i ||| BitVec.twoPow 8 k)).bit j b =
      (m.bit j b || decide (j = i ∧ b = k)) := by
  by_cases hj : j = i
  · subst hj
    rw [Mem.bit, Mem.setEntry_self, Flags.getLsbD_set]
    simp [Mem.bit, hk, eq_comm]
  · simp [Mem.bit, Mem.setEntry_of_ne m _ hj, hj]

theorem bit_clear (m : Mem) (i j : Page) (k b : ℕ) :
    (m.setEntry i (m.pageTable i &&& ~~~BitVec.twoPow 8 k)).bit j b =
      (m.bit j b && !decide (j = i ∧ b = k)) := by
  by_cases hj : j = i
  · subst hj
    rw [Mem.bit, Mem.setEntry_self, Flags.getLsbD_clear]
    simp [Mem.bit, eq_comm]
  · simp [Mem.bit, Mem.setEntry_of_ne m _ hj, hj]

theorem pageNb_congr {m m' : Mem} {i : Page} (h : ∀ k, 4 ≤ k → m'.bit i k = m.bit i k) :
    m'.pageNb i = m.pageNb i := by
  have hbits : m'.pageTable i &&& pageNbMask = m.pageTable i &&& pageNbMask := by
    apply BitVec.eq_of_getLsbD_eq
    intro k _
    by_cases hk : 4 ≤ k
    · rw [BitVec.getLsbD_and, BitVec.getLsbD_and, ← Mem.bit, ← Mem.bit, h k hk]
    · have hmask : pageNbMask.getLsbD k = false := by
        interval_cases k <;> decide
      rw [BitVec.getLsbD_and, BitVec.getLsbD_and, hmask, Bool.and_false, Bool.and_false]
  rw [Mem.pageNb, Mem.pageNb, hbits]

end SyeLabs.Memreplace
