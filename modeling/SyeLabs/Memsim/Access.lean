import SyeLabs.Library.PagedMemory
import SyeLabs.Library.Flags
import SyeLabs.Library.Run

/-!
# Memory simulators (`lab11/memsim.c` and `lab12/memsim.c`)

A virtual address is a page number above an offset. `lab12` is compiled with
one of two splits (`REP_8_8` and its alternative) and checks the VALID and RWX
bits of the entry; `lab11` has the 8/8 split and no attributes. An access to an
array outside its bounds is `none`.
-/

namespace SyeLabs.Memsim

abbrev Vaddr := BitVec 16
abbrev Pte := BitVec 16
abbrev Byte := BitVec 8

/-- Why a call returned -1. -/
inductive Refusal where
  | badAddress
  | pageFault (addr : Vaddr) (msg : String)
  deriving DecidableEq

def at? {α : Type} {n : ℕ} (a : Fin n → α) (i : ℕ) : Option α :=
  if h : i < n then some (a ⟨i, h⟩) else none

def cell? {n s : ℕ} (i j : ℕ) : Option (Fin n × Fin s) :=
  if h : i < n ∧ j < s then some (⟨i, h.1⟩, ⟨j, h.2⟩) else none

structure Machine (n s : ℕ) where
  pageTable : Fin n → Pte
  mainMem : Fin n × Fin s → Byte

theorem at?_of_lt {α : Type} {n : ℕ} (a : Fin n → α) {i : ℕ} (h : i < n) :
    at? a i = some (a ⟨i, h⟩) := by
  simp [at?, h]

theorem cell?_of_lt {n s i j : ℕ} (hi : i < n) (hj : j < s) :
    cell? i j = some ((⟨i, hi⟩, ⟨j, hj⟩) : Fin n × Fin s) := by
  simp [cell?, hi, hj]

/-! ### lab11 -/

namespace Lab11

def memoryPageNum : ℕ := 256
def memoryPageSize : ℕ := 256
def offset : ℕ := 8
def mask : Vaddr := 0xFF#16

abbrev State := Machine memoryPageNum memoryPageSize

def virtToPte (m : State) (vaddr : Vaddr) : Option (Except Refusal Pte) :=
  (at? m.pageTable (vaddr >>> offset).toNat).map .ok

def getByte (m : State) (vaddr : Vaddr) : Option (Except Refusal Byte) := do
  match ← virtToPte m vaddr with
  | .error e => some (.error e)
  | .ok pte =>
    let pageNum := pte >>> offset
    let c ← cell? pageNum.toNat (vaddr &&& mask).toNat
    some (.ok (m.mainMem c))

def storeByte (m : State) (vaddr : Vaddr) (byte : Byte) : Option (Except Refusal State) := do
  match ← virtToPte m vaddr with
  | .error e => some (.error e)
  | .ok pte =>
    let pageNum := pte >>> offset
    let c ← cell? pageNum.toNat (vaddr &&& mask).toNat
    some (.ok {m with mainMem := Function.update m.mainMem c byte})

def initPageTable (m : State) : State :=
  let rShift := 8
  {m with pageTable := fun i => BitVec.ofNat 16 (((memoryPageNum - 1) - i.val) <<< rShift)}

end Lab11

/-! ### lab12 -/

/-- The two address layouts selected by `REP_8_8`. -/
inductive Rep where
  | rep88
  | rep610
  deriving DecidableEq

namespace Rep

def memoryPageNum : Rep → ℕ
  | rep88 => 256
  | rep610 => 64

def memoryPageSize : Rep → ℕ
  | rep88 => 256
  | rep610 => 1024

def pageNumShift : Rep → ℕ
  | rep88 => 8
  | rep610 => 10

def mask : Rep → Vaddr
  | rep88 => 0xFF#16
  | rep610 => 0x3FF#16

end Rep

namespace Lab12

def validBit : Pte := 1#16 <<< 0
def validPos : ℕ := 0
def rwxBits : Pte := 0b110#16
def rwxPos : ℕ := 1
def rPattern : Pte := 0b01#16
def wPattern : Pte := 0b10#16
def xPattern : Pte := 0b11#16
def rwxPattern : Pte := 0b00#16

abbrev State (r : Rep) := Machine r.memoryPageNum r.memoryPageSize

variable {r : Rep}

def virtToPte (m : State r) (vaddr : Vaddr) : Option (Except Refusal Pte) :=
  let pageNum := vaddr >>> r.pageNumShift
  if pageNum.toNat ≥ r.memoryPageNum then some (.error .badAddress)
  else (at? m.pageTable pageNum.toNat).map .ok

def getByte (m : State r) (vaddr : Vaddr) : Option (Except Refusal Byte) := do
  match ← virtToPte m vaddr with
  | .error e => some (.error e)
  | .ok pte =>
    if (pte &&& validBit) >>> validPos = 0#16 then
      some (.error (.pageFault vaddr "invalid page"))
    else
      let ptrn := (pte &&& rwxBits) >>> rwxPos
      if ptrn = wPattern then some (.error (.pageFault vaddr "Page is write only"))
      else
        let pageNum := pte >>> r.pageNumShift
        let c ← cell? pageNum.toNat (vaddr &&& r.mask).toNat
        some (.ok (m.mainMem c))

def storeByte (m : State r) (vaddr : Vaddr) (byte : Byte) : Option (Except Refusal (State r)) := do
  match ← virtToPte m vaddr with
  | .error e => some (.error e)
  | .ok pte =>
    if (pte &&& validBit) >>> validPos = 0#16 then
      some (.error (.pageFault vaddr "invalid page"))
    else
      let ptrn := (pte &&& rwxBits) >>> rwxPos
      if ptrn = rPattern then some (.error (.pageFault vaddr "Page is read only"))
      else if ptrn = xPattern then some (.error (.pageFault vaddr "Page is execute only"))
      else
        let pageNum := pte >>> r.pageNumShift
        let c ← cell? pageNum.toNat (vaddr &&& r.mask).toNat
        some (.ok {m with mainMem := Function.update m.mainMem c byte})

/-- The entry of page `i`: frames in reverse order, pages 10 to 12 read-only,
pages 5 to 8 not valid. -/
def initEntry (r : Rep) (i : ℕ) : Pte :=
  let e := BitVec.ofNat 16 (((r.memoryPageNum - 1) - i) <<< r.pageNumShift)
  let e := if i ≥ 10 ∧ i ≤ 12 then e ||| (rPattern <<< rwxPos) else e
  if i ≥ 5 ∧ i ≤ 8 then e ||| (0#16 <<< validPos) else e ||| (1#16 <<< validPos)

def initPageTable (m : State r) : State r := {m with pageTable := fun i => initEntry r i.val}

end Lab12

end SyeLabs.Memsim
