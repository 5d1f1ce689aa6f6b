import SyeLabs.Memsim.ReadProtection

/-!
# Write protection in lab12

The calls are taken statement by statement: an early `return -1` keeps whatever
state was reached by then. A cell only changes through a store whose page is
valid with pattern ALL or W, and the last such store decides its content.
-/

namespace SyeLabs.Memsim.Lab12
open PagedMemory

variable {r : Rep}

/-- Statements on the machine with an early `return -1`; `none` is an access
outside the arrays. -/
abbrev Action (r : Rep) (α : Type) := ExceptT Refusal (StateT (State r) Option) α

def index {α : Type} (x : Option α) : Action r α := fun m => x.map fun a => (.ok a, m)

def virtToPteAct (vaddr : Vaddr) : Action r Pte := do
  let pageNum := vaddr >>> r.pageNumShift
  if pageNum.toNat ≥ r.memoryPageNum then throw .badAddress
  else index (at? (← get).pageTable pageNum.toNat)

def getByteAct (vaddr : Vaddr) : Action r Byte := do
  let pte ← virtToPteAct vaddr
  if (pte &&& validBit) >>> validPos = 0#16 then throw (.pageFault vaddr "invalid page")
  else
    let ptrn := (pte &&& rwxBits) >>> rwxPos
    if ptrn = wPattern then throw (.pageFault vaddr "Page is write only")
    else
      let pageNum := pte >>> r.pageNumShift
      let c ← index (cell? pageNum.toNat (vaddr &&& r.mask).toNat)
      return (← get).mainMem c

def storeByteAct (vaddr : Vaddr) (byte : Byte) : Action r Unit := do
  let pte ← virtToPteAct vaddr
  if (pte &&& validBit) >>> validPos = 0#16 then throw (.pageFault vaddr "invalid page")
  else
    let ptrn := (pte &&& rwxBits) >>> rwxPos
    if ptrn = rPattern then throw (.pageFault vaddr "Page is read only")
    else if ptrn = xPattern then throw (.pageFault vaddr "Page is execute only")
    else
      let pageNum := pte >>> r.pageNumShift
      let c ← index (cell? pageNum.toNat (vaddr &&& r.mask).toNat)
      modify fun m => {m with mainMem := Function.update m.mainMem c byte}

/- One call and what the caller is told. -/
def act (op : Op Vaddr Byte) (m : State r) : Option (State r × Reply Byte Refusal) :=
  match op with
  | .load v => (getByteAct v m).map fun x => match x.1 with
    | .ok b => (x.2, .byte b)
    | .error e => (x.2, .refused e)
  | .store v b => (storeByteAct v b m).map fun x => match x.1 with
    | .ok _ => (x.2, .stored)
    | .error e => (x.2, .refused e)

def actTraced (s : State r × Trace) (op : Op Vaddr Byte) : Option (State r × Trace) :=
  (act op s.1).map fun x => (x.1, s.2 ++ [(op, x.2)])

/-- A sequence of calls, with the answer to each. -/
def acts (m : State r) (ops : List (Op Vaddr Byte)) : Option (State r × Trace) :=
  Run.exec actTraced (m, []) ops

/-! ### The calls as state transformers -/

section
variable {α β : Type} (m : State r)

@[simp] theorem pure_act (a : α) : (pure a : Action r α) m = some (.ok a, m) := rfl
@[simp] theorem throw_act (e : Refusal) : (throw e : Action r α) m = some (.error e, m) := rfl
@[simp] theorem get_act : (get : Action r (State r)) m = some (.ok m, m) := rfl
@[simp] theorem modify_act (f : State r → State r) :
    (modify f : Action r Unit) m = some (.ok (), f m) := rfl
@[simp] theorem index_act (x : Option α) : index x m = x.map fun a => (.ok a, m) := rfl

@[simp] theorem bind_act (x : Action r α) (f : α → Action r β) :
    (x >>= f) m = (x m).bind fun y => match y.1 with
      | .ok a => f a y.2
      | .error e => some (.error e, y.2) := by
  change (x m).bind _ = _
  congr 1
  funext ⟨y, m'⟩
  cases y <;> rfl

end

theorem virtToPteAct_eq (m : State r) (v : Vaddr) :
    virtToPteAct v m = (virtToPte m v).map fun x => (x, m) := by
  simp only [virtToPteAct, virtToPte]
  split_ifs
  · rfl
  · rw [bind_act, get_act, Option.map_map]
    rfl

theorem getByteAct_eq (m : State r) (v : Vaddr) :
    getByteAct v m = (getByte m v).map fun x => (x, m) := by
  rw [getByteAct, bind_act, virtToPteAct_eq, getByte, virtToPte_eq]
  simp only [Option.map_some, Option.bind_some, Option.bind_eq_bind]
  split_ifs
  · rfl
  · rfl
  · rw [bind_act, index_act, cell?_eq]
    rfl

theorem storeByteAct_eq (m : State r) (v : Vaddr) (b : Byte) :
    storeByteAct v b m = (storeByte m v b).map fun x => match x with
      | .ok m' => (.ok (), m')
      | .error e => (.error e, m) := by
  rw [storeByteAct, bind_act, virtToPteAct_eq, storeByte, virtToPte_eq]
  simp only [Option.map_some, Option.bind_some, Option.bind_eq_bind]
  split_ifs
  · rfl
  · rfl
  · rfl
  · rw [bind_act, index_act, cell?_eq]
    rfl

theorem act_eq_call (op : Op Vaddr Byte) (m : State r) : act op m = (simulator r).call m op := by
  cases op with
  | load v =>
    rw [act, getByteAct_eq, Simulator.call, Option.map_map]
    rfl
  | store v b =>
    rw [act, storeByteAct_eq, Simulator.call, Option.map_map]
    congr 1
    funext x
    cases x <;> rfl

theorem acts_eq (pt : Fin r.memoryPageNum → Pte)
    (mem : Fin r.memoryPageNum × Fin r.memoryPageSize → Byte) (ops : List (Op Vaddr Byte)) :
    acts ⟨pt, mem⟩ ops = some (⟨pt, ((mmu r pt).run mem ops).1⟩, ((mmu r pt).run mem ops).2) := by
  have hcall : actTraced = (simulator r).callTraced := by
    funext s op
    rw [actTraced, Simulator.callTraced, act_eq_call]
  rw [acts, hcall]
  exact (implements r).run_eq pt mem ops

/-! ### Which cells may change -/

def Writable (e : Pte) : Prop := ¬ Invalid e ∧ (ptrn e = rwxPattern ∨ ptrn e = wPattern)

/-- A `store_byte` of `b` to a writable page whose entry and offset designate the cell. -/
def StoresTo (pt : Fin r.memoryPageNum → Pte) (c : Fin r.memoryPageNum × Fin r.memoryPageSize)
    (b : Byte) (op : Op Vaddr Byte) : Prop :=
  ∃ v, op = .store v b ∧ Writable (pt ((layout r).page v)) ∧
    (layout r).frame (pt ((layout r).page v)) = c.1 ∧ (layout r).low v = c.2

theorem stores_iff (e : Pte) : Stores e ↔ Writable e := by
  rw [Stores, Writable]
  refine and_congr_right fun _ => ?_
  rcases ptrn_cases e with h | h | h | h <;> rw [h] <;> decide

theorem storesTo_iff (pt : Fin r.memoryPageNum → Pte)
    (c : Fin r.memoryPageNum × Fin r.memoryPageSize) (b : Byte) (op : Op Vaddr Byte) :
    StoresTo pt c b op ↔ ∃ v, op = .store v b ∧ (mmu r pt).store v = .ok c := by
  simp only [StoresTo, store_eq_ok, stores_iff, Layout.cell, Prod.ext_iff]

theorem writes_iff (pt : Fin r.memoryPageNum → Pte)
    (c : Fin r.memoryPageNum × Fin r.memoryPageSize) (op : Op Vaddr Byte) :
    (mmu r pt).Writes c op ↔ ∃ b, StoresTo pt c b op := by
  simp only [Mmu.Writes, storesTo_iff]
  exact exists_comm

/-- The effect of a sequence of calls on the machine. -/
structure OnlyStores (m : State r) (ops : List (Op Vaddr Byte)) (m' : State r) : Prop where
  pageTable : m'.pageTable = m.pageTable
  untouched : ∀ c, (∀ op ∈ ops, ∀ b, ¬ StoresTo m.pageTable c b op) → m'.mainMem c = m.mainMem c
  last : ∀ c b before op after, ops = before ++ op :: after → StoresTo m.pageTable c b op →
    (∀ op' ∈ after, ∀ b', ¬ StoresTo m.pageTable c b' op') → m'.mainMem c = b

/-- Every sequence of calls runs to its end, changes cells only as `OnlyStores`
says, and a call answered -1 leaves the machine as it was. -/
theorem write_protected (r : Rep) (m : State r) (ops : List (Op Vaddr Byte)) :
    (∃ m' trace, acts m ops = some (m', trace) ∧ trace.map Prod.fst = ops ∧
      OnlyStores m ops m') ∧
    ∀ (m₁ m₂ : State r) (op : Op Vaddr Byte) (e : Refusal),
      act op m₁ = some (m₂, .refused e) → m₂ = m₁ := by
  obtain ⟨pt, mem⟩ := m
  have hnone : ∀ (c : Fin r.memoryPageNum × Fin r.memoryPageSize) (op : Op Vaddr Byte),
      (∀ b, ¬ StoresTo pt c b op) → ¬ (mmu r pt).Writes c op :=
    fun c op h hw => ((writes_iff pt c op).mp hw).elim h
  refine ⟨⟨_, _, acts_eq pt mem ops, (mmu r pt).run_ops mem ops, rfl, ?_, ?_⟩, ?_⟩
  · intro c h
    exact (mmu r pt).run_untouched (fun op hop => hnone c op (h op hop)) mem
  · rintro c b before op after rfl hop h
    obtain ⟨v, rfl, hv⟩ := (storesTo_iff pt c b op).mp hop
    exact (mmu r pt).run_last_write hv b before (fun op hop => hnone c op (h op hop)) mem
  · intro m₁ m₂ op e h
    rw [act_eq_call, (implements r).call_eq, Option.some.injEq, Prod.mk.injEq] at h
    obtain ⟨rfl, hreply⟩ := h
    rw [(mmu r m₁.pageTable).step_refused hreply]

end SyeLabs.Memsim.Lab12
