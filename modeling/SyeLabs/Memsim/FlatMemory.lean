import SyeLabs.Memsim.Translation

/-!
# Paged memory is flat memory

With no frame shared between accessible pages, a program cannot tell the paged
memory from an array indexed by virtual addresses. The table that
`init_page_table` builds reverses the pages, so it shares no frame.
-/

namespace SyeLabs.Memsim
open PagedMemory

variable {pages size : ℕ}

/-- Two pages whose entries satisfy `A` never have the same frame. -/
def Layout.FramesDistinct (L : Layout pages size) (A : Pte → Prop) (pt : Fin pages → Pte) : Prop :=
  ∀ i j, A (pt i) → A (pt j) → L.frame (pt i) = L.frame (pt j) → i = j

namespace Simulator

variable (S : Simulator pages size)

/-- From zeroed memory every sequence of calls runs to its end within the arrays,
and each byte loaded is the one last stored at exactly that address. -/
def Flat (L : Layout pages size) (A : Pte → Prop) : Prop :=
  ∀ pt, L.FramesDistinct A pt → ∀ ops, ∃ m trace, S.run ⟨pt, fun _ => 0⟩ ops = some (m, trace) ∧
    m.pageTable = pt ∧ trace.map Prod.fst = ops ∧ FlatTrace 0 trace

def LoadSucceeds (m : Machine pages size) (v : Vaddr) : Prop := ∃ b, S.getByte m v = some (.ok b)

def StoreSucceeds (m : Machine pages size) (v : Vaddr) (b : Byte) : Prop :=
  ∃ m', S.storeByte m v b = some (.ok m')

variable {S} {M : Translation pages size}

theorem Implements.flat (h : S.Implements M) (L : Layout pages size) {A : Pte → Prop}
    (hreach : ∀ pt v p, (M pt).Reaches v p → p = L.cell pt v ∧ A (pt (L.page v))) :
    S.Flat L A := by
  intro pt hframes ops
  have hinj : (M pt).Injective := L.injective_of_frames (hreach pt) hframes
  exact ⟨_, _, h.run_eq pt (fun _ => 0) ops, rfl, (M pt).run_ops _ ops, hinj.run_flat 0 ops⟩

theorem Implements.loadSucceeds_iff (h : S.Implements M) (m : Machine pages size) (v : Vaddr) :
    S.LoadSucceeds m v ↔ ∃ c, (M m.pageTable).load v = .ok c := by
  rw [LoadSucceeds, h.get]
  cases (M m.pageTable).load v <;> simp [Except.map]

theorem Implements.storeSucceeds_iff (h : S.Implements M) (m : Machine pages size) (v : Vaddr)
    (b : Byte) : S.StoreSucceeds m v b ↔ ∃ c, (M m.pageTable).store v = .ok c := by
  rw [StoreSucceeds, h.store]
  cases (M m.pageTable).store v <;> simp [Except.map]

end Simulator

/-! ### lab11 -/

namespace Lab11

theorem flat : simulator.Flat layout fun _ => True := by
  refine implements.flat layout ?_
  rintro pt v p (hp | hp)
  · exact ⟨(Except.ok.inj hp).symm, trivial⟩
  · exact ⟨(Except.ok.inj hp).symm, trivial⟩

theorem initPageTable_frame (m : State) (i : Fin memoryPageNum) :
    (layout.frame ((initPageTable m).pageTable i)).val = memoryPageNum - 1 - i.val := by
  have htable : ∀ j : Fin memoryPageNum, (layout.frame (BitVec.ofNat 16
      (((memoryPageNum - 1) - j.val) <<< 8))).val = memoryPageNum - 1 - j.val := by
    decide +kernel
  exact htable i

end Lab11

/-! ### lab12 -/

namespace Lab12

variable {r : Rep}

/- What the checks of `get_byte` let through. -/
def Loads (e : Pte) : Prop := ¬ Invalid e ∧ ptrn e ≠ wPattern

def Stores (e : Pte) : Prop := ¬ Invalid e ∧ ptrn e ≠ rPattern ∧ ptrn e ≠ xPattern

theorem load_eq_ok {pt : Fin r.memoryPageNum → Pte} {v : Vaddr}
    {c : Fin r.memoryPageNum × Fin r.memoryPageSize} :
    (mmu r pt).load v = .ok c ↔ Loads (pt ((layout r).page v)) ∧ (layout r).cell pt v = c := by
  simp only [mmu, Loads]
  split_ifs with hinv hw
  · simp [hinv]
  · simp [hw]
  · simp [hinv, hw]

theorem store_eq_ok {pt : Fin r.memoryPageNum → Pte} {v : Vaddr}
    {c : Fin r.memoryPageNum × Fin r.memoryPageSize} :
    (mmu r pt).store v = .ok c ↔ Stores (pt ((layout r).page v)) ∧ (layout r).cell pt v = c := by
  simp only [mmu, Stores]
  split_ifs with hinv hr hx
  · simp [hinv]
  · simp [hr]
  · simp [hx]
  · simp [hinv, hr, hx]

theorem flat (r : Rep) : (simulator r).Flat (layout r) fun e => ¬ Invalid e := by
  refine (implements r).flat (layout r) ?_
  rintro pt v p (hp | hp)
  · obtain ⟨hloads, hcell⟩ := load_eq_ok.mp hp
    exact ⟨hcell.symm, hloads.1⟩
  · obtain ⟨hstores, hcell⟩ := store_eq_ok.mp hp
    exact ⟨hcell.symm, hstores.1⟩

theorem loadSucceeds_iff (m : State r) (v : Vaddr) :
    (simulator r).LoadSucceeds m v ↔ Loads (m.pageTable ((layout r).page v)) := by
  rw [(implements r).loadSucceeds_iff]
  simp only [load_eq_ok, exists_and_left, exists_eq', and_true]

theorem storeSucceeds_iff (m : State r) (v : Vaddr) (b : Byte) :
    (simulator r).StoreSucceeds m v b ↔ Stores (m.pageTable ((layout r).page v)) := by
  rw [(implements r).storeSucceeds_iff]
  simp only [store_eq_ok, exists_and_left, exists_eq', and_true]

theorem initEntry_frame (i : Fin r.memoryPageNum) :
    ((layout r).frame (initEntry r i)).val = r.memoryPageNum - 1 - i.val := by
  cases r <;> revert i <;> decide +kernel

theorem initEntry_invalid (i : Fin r.memoryPageNum) :
    Invalid (initEntry r i) ↔ 5 ≤ i.val ∧ i.val ≤ 8 := by
  cases r <;> revert i <;> decide +kernel

theorem initEntry_ptrn (i : Fin r.memoryPageNum) :
    ptrn (initEntry r i) = if 10 ≤ i.val ∧ i.val ≤ 12 then rPattern else 0#16 := by
  cases r <;> revert i <;> decide +kernel

theorem loads_initEntry (i : Fin r.memoryPageNum) :
    Loads (initEntry r i) ↔ ¬ (5 ≤ i.val ∧ i.val ≤ 8) := by
  have hw : ptrn (initEntry r i) ≠ wPattern := by
    rw [initEntry_ptrn]
    split_ifs <;> decide
  rw [Loads, initEntry_invalid]
  exact and_iff_left hw

theorem stores_initEntry (i : Fin r.memoryPageNum) :
    Stores (initEntry r i) ↔ ¬ (5 ≤ i.val ∧ i.val ≤ 8) ∧ ¬ (10 ≤ i.val ∧ i.val ≤ 12) := by
  rw [Stores, initEntry_invalid, initEntry_ptrn]
  refine and_congr_right fun _ => ?_
  split_ifs with hread
  · simp [hread]
  · exact iff_of_true ⟨by decide, by decide⟩ hread

end Lab12

theorem Layout.framesDistinct_of_reverse (L : Layout pages size) (A : Pte → Prop)
    {pt : Fin pages → Pte} (h : ∀ i, (L.frame (pt i)).val = pages - 1 - i.val) :
    L.FramesDistinct A pt := by
  intro i j _ _ hij
  have hval := congrArg Fin.val hij
  rw [h, h] at hval
  omega

theorem paged_memory_flat :
    Lab11.simulator.Flat Lab11.layout (fun _ => True) ∧
    (∀ r, (Lab12.simulator r).Flat (Lab12.layout r) fun e => ¬ Lab12.Invalid e) ∧
    (∀ m, Lab11.layout.FramesDistinct (fun _ => True) (Lab11.initPageTable m).pageTable ∧
      ∀ v b, Lab11.simulator.LoadSucceeds (Lab11.initPageTable m) v ∧
        Lab11.simulator.StoreSucceeds (Lab11.initPageTable m) v b) ∧
    ∀ (r : Rep) (m : Lab12.State r),
      (Lab12.layout r).FramesDistinct (fun e => ¬ Lab12.Invalid e)
        (Lab12.initPageTable m).pageTable ∧
      ∀ v b, ((Lab12.simulator r).LoadSucceeds (Lab12.initPageTable m) v ↔
          ¬ (5 ≤ ((Lab12.layout r).page v).val ∧ ((Lab12.layout r).page v).val ≤ 8)) ∧
        ((Lab12.simulator r).StoreSucceeds (Lab12.initPageTable m) v b ↔
          ¬ (5 ≤ ((Lab12.layout r).page v).val ∧ ((Lab12.layout r).page v).val ≤ 8) ∧
          ¬ (10 ≤ ((Lab12.layout r).page v).val ∧ ((Lab12.layout r).page v).val ≤ 12)) := by
  refine ⟨Lab11.flat, Lab12.flat, fun m => ⟨?_, fun v b => ⟨?_, ?_⟩⟩,
    fun r m => ⟨?_, fun v b => ⟨?_, ?_⟩⟩⟩
  · exact Lab11.layout.framesDistinct_of_reverse _ (Lab11.initPageTable_frame m)
  · exact (Lab11.implements.loadSucceeds_iff _ v).mpr ⟨_, rfl⟩
  · exact (Lab11.implements.storeSucceeds_iff _ v b).mpr ⟨_, rfl⟩
  · exact (Lab12.layout r).framesDistinct_of_reverse _ Lab12.initEntry_frame
  · rw [Lab12.loadSucceeds_iff]
    exact Lab12.loads_initEntry _
  · rw [Lab12.storeSucceeds_iff]
    exact Lab12.stores_initEntry _

end SyeLabs.Memsim
