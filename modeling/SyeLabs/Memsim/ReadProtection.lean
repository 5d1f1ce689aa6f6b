import SyeLabs.Memsim.FlatMemory

/-!
# Read protection in lab12

The documented encoding makes a page readable when it is valid and its pattern
is ALL or R. `get_byte` refuses only invalid and write-only pages, so it also
reads execute-only ones, which `store_byte` does refuse.
-/

namespace SyeLabs.Memsim.Lab12
open PagedMemory

variable {r : Rep}

def Readable (e : Pte) : Prop := ¬ Invalid e ∧ (ptrn e = rwxPattern ∨ ptrn e = rPattern)

def ExecuteOnly (e : Pte) : Prop := ¬ Invalid e ∧ ptrn e = xPattern

/-- The contents of frames without a readable page never show in the results or
the bytes of a sequence of calls. -/
def ReadProtected (r : Rep) (pt : Fin r.memoryPageNum → Pte) : Prop :=
  ∀ mem mem', (∀ i, Readable (pt i) → ∀ j,
      mem ((layout r).frame (pt i), j) = mem' ((layout r).frame (pt i), j)) →
    ∀ ops, ((simulator r).run ⟨pt, mem⟩ ops).map Prod.snd =
      ((simulator r).run ⟨pt, mem'⟩ ops).map Prod.snd

theorem ptrn_cases (e : Pte) :
    ptrn e = rwxPattern ∨ ptrn e = rPattern ∨ ptrn e = wPattern ∨ ptrn e = xPattern := by
  have hlow : (ptrn e).toNat < 2 ^ 2 := by
    have hle : (e &&& rwxBits).toNat ≤ rwxBits.toNat := by
      rw [BitVec.toNat_and]
      exact Nat.and_le_right
    have hbits : rwxBits.toNat = 6 := by decide
    rw [BitVec.toNat_ushiftRight, Nat.shiftRight_eq_div_pow]
    simp only [rwxPos]
    omega
  simp only [rwxPattern, rPattern, wPattern, xPattern, ← BitVec.toNat_inj, BitVec.toNat_ofNat]
  omega

theorem loads_iff (e : Pte) : Loads e ↔ Readable e ∨ ExecuteOnly e := by
  rw [Loads, Readable, ExecuteOnly, ← and_or_left]
  refine and_congr_right fun _ => ?_
  rcases ptrn_cases e with h | h | h | h <;> rw [h] <;> decide

theorem observable_iff (pt : Fin r.memoryPageNum → Pte)
    (c : Fin r.memoryPageNum × Fin r.memoryPageSize) :
    (mmu r pt).Observable c ↔ ∃ i, Loads (pt i) ∧ (layout r).frame (pt i) = c.1 := by
  constructor
  · rintro ⟨v, hv⟩
    obtain ⟨hloads, hcell⟩ := load_eq_ok.mp hv
    exact ⟨_, hloads, congrArg Prod.fst hcell⟩
  · rintro ⟨i, hloads, hframe⟩
    obtain ⟨v, hpage, hlow⟩ := (layout r).exists_address i c.2
    refine ⟨v, load_eq_ok.mpr ⟨hpage ▸ hloads, ?_⟩⟩
    rw [Layout.cell, hpage, hframe, hlow]

theorem readProtected_iff_agree (pt : Fin r.memoryPageNum → Pte) :
    ReadProtected r pt ↔ ∀ c, (mmu r pt).Observable c →
      ∃ i, Readable (pt i) ∧ (layout r).frame (pt i) = c.1 := by
  rw [← @Mmu.agree_iff _ _ Byte _ _ ⟨0, 1, by decide⟩]
  simp only [ReadProtected, (implements r).run_eq, Option.map_some, Option.some.injEq]
  refine forall_congr' fun mem => forall_congr' fun mem' => imp_congr_left ?_
  constructor
  · rintro h ⟨f, j⟩ ⟨i, hi, rfl⟩
    exact h i hi j
  · intro h i hi j
    exact h _ ⟨i, hi, rfl⟩

/-- Read protection holds exactly when each frame of an execute-only page has a
readable page as well. -/
theorem readProtected_iff (r : Rep) (pt : Fin r.memoryPageNum → Pte) :
    ReadProtected r pt ↔ ∀ i, ExecuteOnly (pt i) →
      ∃ j, Readable (pt j) ∧ (layout r).frame (pt j) = (layout r).frame (pt i) := by
  rw [readProtected_iff_agree]
  constructor
  · intro h i hi
    have hpos : 0 < r.memoryPageSize := by cases r <;> decide
    exact h ((layout r).frame (pt i), ⟨0, hpos⟩)
      ((observable_iff pt _).mpr ⟨i, (loads_iff _).mpr (Or.inr hi), rfl⟩)
  · intro h c hc
    obtain ⟨i, hloads, hframe⟩ := (observable_iff pt c).mp hc
    rcases (loads_iff _).mp hloads with hread | hexec
    · exact ⟨i, hread, hframe⟩
    · obtain ⟨j, hread, hsame⟩ := h i hexec
      exact ⟨j, hread, hsame.trans hframe⟩

/- One valid execute-only page on frame 0; every other page is invalid. -/
def executeOnlyTable : Fin Rep.rep88.memoryPageNum → Pte :=
  fun i => if i.val = 0 then 0b111#16 else 0#16

theorem executeOnly_observed : ¬ ReadProtected .rep88 executeOnlyTable := by
  intro h
  have htrace := h (fun _ => 0) (fun c => if c.1.val = 0 then 1 else 0) ?_ [.load 0]
  · rw [(implements _).run_eq, (implements _).run_eq] at htrace
    revert htrace
    decide +kernel
  · have hnone : ∀ i, ¬ Readable (executeOnlyTable i) := by
      unfold Readable
      decide +kernel
    exact fun i hi => absurd hi (hnone i)

end SyeLabs.Memsim.Lab12
