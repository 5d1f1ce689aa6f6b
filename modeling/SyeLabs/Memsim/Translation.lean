import SyeLabs.Memsim.Access

/-!
# The simulators as translation units

A layout fixes the split of an address and carries the facts that make the
split total: the pages cover the 16-bit address space exactly. Each simulator is
shown to be the unit of memory management read off its permission checks, and no
call leaves the arrays.
-/

namespace SyeLabs.Memsim
open PagedMemory

/-- A split of a 16-bit word into a page (or frame) number and an offset, for
`pages` pages of `size` bytes. -/
structure Layout (pages size : ℕ) where
  shift : ℕ
  mask : Vaddr
  mask_eq : mask.toNat = 2 ^ shift - 1
  size_eq : size = 2 ^ shift
  cover : pages * size = 2 ^ 16

variable {pages size : ℕ}

namespace Layout

variable (L : Layout pages size)

theorem high_lt (w : BitVec 16) : (w >>> L.shift).toNat < pages := by
  have hw := w.isLt
  have hcover := L.cover
  rw [L.size_eq] at hcover
  rw [Flags.toNat_high, Nat.div_lt_iff_lt_mul (Nat.two_pow_pos _), hcover]
  exact hw

theorem low_lt (w : BitVec 16) : (w &&& L.mask).toNat < size := by
  rw [Flags.toNat_low w L.mask_eq]
  calc w.toNat % 2 ^ L.shift < 2 ^ L.shift := Nat.mod_lt _ (Nat.two_pow_pos _)
    _ = size := L.size_eq.symm

def page (v : Vaddr) : Fin pages := ⟨(v >>> L.shift).toNat, L.high_lt v⟩

def frame (e : Pte) : Fin pages := ⟨(e >>> L.shift).toNat, L.high_lt e⟩

def low (v : Vaddr) : Fin size := ⟨(v &&& L.mask).toNat, L.low_lt v⟩

/-- The cell the page table designates for an address. -/
def cell (pt : Fin pages → Pte) (v : Vaddr) : Fin pages × Fin size :=
  (L.frame (pt (L.page v)), L.low v)

theorem eq_of_page_low {v w : Vaddr} (hp : L.page v = L.page w) (hl : L.low v = L.low w) :
    v = w := by
  have hhigh := congrArg Fin.val hp
  have hlow := congrArg Fin.val hl
  simp only [page, low, Flags.toNat_high, Flags.toNat_low _ L.mask_eq] at hhigh hlow
  exact Flags.eq_of_split hhigh hlow

theorem exists_address (i : Fin pages) (j : Fin size) : ∃ v, L.page v = i ∧ L.low v = j := by
  have hcover := L.cover
  have hj := j.isLt
  have hlt : i.val * size + j.val < 2 ^ 16 := by
    have hi : i.val * size + size ≤ pages * size := by
      rw [← Nat.succ_mul]
      exact Nat.mul_le_mul_right size i.isLt
    omega
  refine ⟨BitVec.ofNat 16 (i.val * size + j.val), Fin.ext ?_, Fin.ext ?_⟩
  · simp only [page, Flags.toNat_high, BitVec.toNat_ofNat, Nat.mod_eq_of_lt hlt, ← L.size_eq]
    rw [Nat.mul_comm, Nat.mul_add_div (by omega), Nat.div_eq_of_lt hj, Nat.add_zero]
  · simp only [low, Flags.toNat_low _ L.mask_eq, BitVec.toNat_ofNat, Nat.mod_eq_of_lt hlt,
      ← L.size_eq]
    rw [Nat.mul_comm, Nat.mul_add_mod, Nat.mod_eq_of_lt hj]

/- A unit whose accesses reach the designated cell of an accessible page never
aliases when accessible pages have distinct frames. -/
theorem injective_of_frames {M : Mmu Vaddr (Fin pages × Fin size) Refusal}
    {pt : Fin pages → Pte} {A : Fin pages → Prop}
    (hreach : ∀ v p, M.Reaches v p → p = L.cell pt v ∧ A (L.page v))
    (hframes : ∀ i j, A i → A j → L.frame (pt i) = L.frame (pt j) → i = j) : M.Injective := by
  constructor
  · intro v w p hv hw
    obtain ⟨hpv, hav⟩ := hreach v p hv
    obtain ⟨hpw, haw⟩ := hreach w p hw
    have hcell := hpv.symm.trans hpw
    have hpage := hframes _ _ hav haw (congrArg Prod.fst hcell)
    exact L.eq_of_page_low hpage (congrArg Prod.snd hcell)
  · intro v p q hp hq
    exact (hreach v p hp).1.trans (hreach v q hq).1.symm

end Layout

/-! ### Simulators and their calls -/

structure Simulator (pages size : ℕ) where
  getByte : Machine pages size → Vaddr → Option (Except Refusal Byte)
  storeByte : Machine pages size → Vaddr → Byte → Option (Except Refusal (Machine pages size))

abbrev Trace := List (Op Vaddr Byte × Reply Byte Refusal)

abbrev Translation (pages size : ℕ) :=
  (Fin pages → Pte) → Mmu Vaddr (Fin pages × Fin size) Refusal

namespace Simulator

variable (S : Simulator pages size)

/-- One call of the program; a failing call leaves the state as it was. -/
def call (m : Machine pages size) :
    Op Vaddr Byte → Option (Machine pages size × Reply Byte Refusal)
  | .load v => (S.getByte m v).map fun r => match r with
    | .ok b => (m, .byte b)
    | .error e => (m, .refused e)
  | .store v b => (S.storeByte m v b).map fun r => match r with
    | .ok m' => (m', .stored)
    | .error e => (m, .refused e)

def callTraced (s : Machine pages size × Trace) (op : Op Vaddr Byte) :
    Option (Machine pages size × Trace) :=
  (S.call s.1 op).map fun r => (r.1, s.2 ++ [(op, r.2)])

def run (m : Machine pages size) (ops : List (Op Vaddr Byte)) :
    Option (Machine pages size × Trace) :=
  Run.exec S.callTraced (m, []) ops

/-- The simulator loads and stores through `M`, which depends on the page table. -/
structure Implements (M : Translation pages size) : Prop where
  get : ∀ m v, S.getByte m v = some (((M m.pageTable).load v).map m.mainMem)
  store : ∀ m v b, S.storeByte m v b = some (((M m.pageTable).store v).map fun c =>
    {m with mainMem := Function.update m.mainMem c b})

variable {S} {M : Translation pages size}

theorem Implements.call_eq (h : S.Implements M) (pt : Fin pages → Pte)
    (mem : Fin pages × Fin size → Byte) (op : Op Vaddr Byte) :
    S.call ⟨pt, mem⟩ op = some (⟨pt, ((M pt).step mem op).1⟩, ((M pt).step mem op).2) := by
  cases op with
  | load v =>
    rw [call, h.get]
    cases hv : (M pt).load v <;> simp [Mmu.step, hv, Except.map]
  | store v b =>
    rw [call, h.store]
    cases hv : (M pt).store v <;> simp [Mmu.step, hv, Except.map]

theorem Implements.run_eq (h : S.Implements M) (pt : Fin pages → Pte)
    (mem : Fin pages × Fin size → Byte) (ops : List (Op Vaddr Byte)) :
    S.run ⟨pt, mem⟩ ops = some (⟨pt, ((M pt).run mem ops).1⟩, ((M pt).run mem ops).2) := by
  induction ops using List.reverseRecOn with
  | nil => rfl
  | append_singleton ops op ih =>
    unfold run at ih ⊢
    rw [Run.exec_append, ih, Option.bind_some, Run.exec_cons, callTraced]
    simp only [h.call_eq, Option.map_some, Option.bind_some, Run.exec_nil, Mmu.run_snoc]

end Simulator

/-! ### lab11 -/

namespace Lab11

def layout : Layout memoryPageNum memoryPageSize :=
  ⟨offset, mask, by decide, by decide, by decide⟩

def simulator : Simulator memoryPageNum memoryPageSize := ⟨getByte, storeByte⟩

def mmu : Translation memoryPageNum memoryPageSize := fun pt =>
  ⟨fun v => .ok (layout.cell pt v), fun v => .ok (layout.cell pt v)⟩

theorem virtToPte_eq (m : State) (v : Vaddr) :
    virtToPte m v = some (.ok (m.pageTable (layout.page v))) := by
  have hlt : (v >>> offset).toNat < memoryPageNum := layout.high_lt v
  rw [virtToPte, at?_of_lt m.pageTable hlt]
  rfl

theorem cell?_eq (m : State) (v : Vaddr) :
    cell? (m.pageTable (layout.page v) >>> offset).toNat (v &&& mask).toNat =
      some (layout.cell m.pageTable v) :=
  cell?_of_lt (layout.high_lt _) (layout.low_lt v)

theorem implements : simulator.Implements mmu := by
  constructor
  · intro m v
    change getByte m v = _
    simp only [getByte, virtToPte_eq, Option.bind_eq_bind, Option.bind_some]
    rw [cell?_eq]
    rfl
  · intro m v b
    change storeByte m v b = _
    simp only [storeByte, virtToPte_eq, Option.bind_eq_bind, Option.bind_some]
    rw [cell?_eq]
    rfl

end Lab11

/-! ### lab12 -/

namespace Lab12

def layout (r : Rep) : Layout r.memoryPageNum r.memoryPageSize :=
  ⟨r.pageNumShift, r.mask, by cases r <;> decide, by cases r <;> decide, by cases r <;> decide⟩

def simulator (r : Rep) : Simulator r.memoryPageNum r.memoryPageSize := ⟨getByte, storeByte⟩

abbrev Invalid (e : Pte) : Prop := (e &&& validBit) >>> validPos = 0#16
abbrev ptrn (e : Pte) : Pte := (e &&& rwxBits) >>> rwxPos

variable {r : Rep}

def mmu (r : Rep) : Translation r.memoryPageNum r.memoryPageSize := fun pt => {
  load := fun v =>
    let e := pt ((layout r).page v)
    if Invalid e then .error (.pageFault v "invalid page")
    else if ptrn e = wPattern then .error (.pageFault v "Page is write only")
    else .ok ((layout r).cell pt v)
  store := fun v =>
    let e := pt ((layout r).page v)
    if Invalid e then .error (.pageFault v "invalid page")
    else if ptrn e = rPattern then .error (.pageFault v "Page is read only")
    else if ptrn e = xPattern then .error (.pageFault v "Page is execute only")
    else .ok ((layout r).cell pt v) }

theorem virtToPte_eq (m : State r) (v : Vaddr) :
    virtToPte m v = some (.ok (m.pageTable ((layout r).page v))) := by
  have hlt : (v >>> r.pageNumShift).toNat < r.memoryPageNum := (layout r).high_lt v
  rw [virtToPte, if_neg (by omega), at?_of_lt m.pageTable hlt]
  rfl

theorem cell?_eq (m : State r) (v : Vaddr) :
    cell? (m.pageTable ((layout r).page v) >>> r.pageNumShift).toNat (v &&& r.mask).toNat =
      some ((layout r).cell m.pageTable v) :=
  cell?_of_lt ((layout r).high_lt _) ((layout r).low_lt v)

theorem implements (r : Rep) : (simulator r).Implements (mmu r) := by
  constructor
  · intro m v
    change getByte m v = _
    simp only [getByte, virtToPte_eq, Option.bind_eq_bind, Option.bind_some]
    rw [cell?_eq]
    simp only [mmu]
    split_ifs <;> rfl
  · intro m v b
    change storeByte m v b = _
    simp only [storeByte, virtToPte_eq, Option.bind_eq_bind, Option.bind_some]
    rw [cell?_eq]
    simp only [mmu]
    split_ifs <;> rfl

end Lab12

end SyeLabs.Memsim
