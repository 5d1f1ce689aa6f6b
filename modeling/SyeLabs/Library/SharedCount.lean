import Mathlib.Algebra.BigOperators.Group.Finset.Basic
import Mathlib.Data.Fintype.Basic
import Mathlib.Logic.Function.Basic

/-!
# Objects shared by several owners

Each owner has a list of the objects it holds, an object as often as it took it. A
counter beside each object is meant to be the number of entries for it in all lists,
and an object is disposed of when its counter comes back to 0.
-/

namespace SyeLabs.SharedCount

variable {ι α : Type*} [DecidableEq α]

/-- The entries for `x` in the lists of all owners. -/
def entries (owners : Finset ι) (held : ι → List α) (x : α) : ℕ := ∑ i ∈ owners, (held i).count x

/-- The counter of each object, and the objects disposed of, in order. -/
structure Counts (α : Type*) where
  count : α → ℤ
  freed : List α

/-- One entry goes. -/
def Counts.drop (c : Counts α) (x : α) : Counts α :=
  ⟨Function.update c.count x (c.count x - 1), if c.count x - 1 = 0 then c.freed ++ [x] else c.freed⟩

variable {owners : Finset ι} {held : ι → List α} {x : α}

theorem entries_eq_zero : entries owners held x = 0 ↔ ∀ i ∈ owners, x ∉ held i := by
  simp only [entries, Finset.sum_eq_zero_iff, List.count_eq_zero]

theorem entries_pos : 0 < entries owners held x ↔ ∃ i ∈ owners, x ∈ held i := by
  rw [Nat.pos_iff_ne_zero, Ne, entries_eq_zero]
  push Not
  rfl

/- Only the list of one owner changes. -/
theorem entries_update [DecidableEq ι] {i : ι} (hi : i ∈ owners) (l : List α) :
    entries owners (Function.update held i l) x + (held i).count x =
      entries owners held x + l.count x := by
  have hrest : ∑ j ∈ owners.erase i, (Function.update held i l j).count x =
      ∑ j ∈ owners.erase i, (held j).count x := by
    refine Finset.sum_congr rfl fun j hj => ?_
    rw [Function.update_of_ne (Finset.ne_of_mem_erase hj)]
  have hnew := Finset.add_sum_erase owners (fun j => (Function.update held i l j).count x) hi
  have hold := Finset.add_sum_erase owners (fun j => (held j).count x) hi
  simp only [Function.update_self] at hnew
  unfold entries
  omega

theorem count_le_entries [DecidableEq ι] {i : ι} (hi : i ∈ owners) :
    (held i).count x ≤ entries owners held x := by
  unfold entries
  rw [← Finset.add_sum_erase owners (fun j => (held j).count x) hi]
  exact Nat.le_add_right _ _

/- Owners that hold nothing do not matter. -/
theorem entries_of_subset {owners' : Finset ι} (hsub : owners ⊆ owners')
    (hrest : ∀ i ∈ owners', i ∉ owners → held i = []) :
    entries owners' held x = entries owners held x := by
  refine (Finset.sum_subset hsub fun i hi hnot => ?_).symm
  rw [hrest i hi hnot, List.count_nil]

/-! ### The entries of a list go one after the other -/

theorem drop_count (c : Counts α) (y : α) :
    (c.drop y).count x = c.count x - if y = x then 1 else 0 := by
  by_cases h : y = x
  · subst h
    simp [Counts.drop]
  · simp [Counts.drop, h, Function.update_of_ne (Ne.symm h)]

theorem foldl_drop_count (l : List α) (c : Counts α) :
    (l.foldl Counts.drop c).count x = c.count x - l.count x := by
  induction l generalizing c with
  | nil => simp
  | cons y l ih =>
    rw [List.foldl_cons, ih, drop_count, List.count_cons]
    by_cases h : y = x
    · simp only [h, beq_self_eq_true, if_true]
      push_cast
      omega
    · simp [h]

theorem drop_freed (c : Counts α) (y : α) :
    (c.drop y).freed = c.freed ++ if c.count y - 1 = 0 then [y] else [] := by
  by_cases h : c.count y - 1 = 0
  · simp [Counts.drop, h]
  · simp [Counts.drop, h]

/- The head of a list is disposed of at once, or with the rest of it. -/
theorem count_last {z : α} {l : List α} {n : ℤ} (hle : ((z :: l).count z : ℤ) ≤ n) :
    (if n - 1 = 0 then [z] else []).count z + (if z ∈ l ∧ n - 1 = l.count z then 1 else 0) =
      if n = (z :: l).count z then 1 else 0 := by
  rw [List.count_cons_self] at hle ⊢
  push_cast at hle ⊢
  by_cases hmem : z ∈ l
  · have hpos := List.count_pos_iff.mpr hmem
    have hne : n - 1 ≠ 0 := by omega
    simp only [hne, hmem, if_false, true_and, List.count_nil, Nat.zero_add]
    congr 1
    rw [eq_iff_iff]
    omega
  · have hnone := List.count_eq_zero.mpr hmem
    simp only [hmem, false_and, if_false, hnone]
    by_cases hlast : n - 1 = 0
    · rw [if_pos hlast, if_pos (by omega), List.count_singleton_self]
    · rw [if_neg hlast, if_neg (by omega), List.count_nil]

/- What is disposed of is what loses its last entries, once. -/
theorem foldl_drop_freed (l : List α) (c : Counts α) (hle : ∀ y, (l.count y : ℤ) ≤ c.count y) :
    ∃ f, (l.foldl Counts.drop c).freed = c.freed ++ f ∧
      ∀ y, f.count y = if y ∈ l ∧ c.count y = l.count y then 1 else 0 := by
  induction l generalizing c with
  | nil => exact ⟨[], by simp, by simp⟩
  | cons z l ih =>
    have hstep : ∀ y, (l.count y : ℤ) ≤ (c.drop z).count y := fun y => by
      have hy := hle y
      rw [List.count_cons] at hy
      rw [drop_count]
      by_cases h : z = y
      · simp only [h, beq_self_eq_true, if_true] at hy ⊢
        push_cast at hy
        omega
      · simpa [h] using hy
    obtain ⟨f, hfreed, hf⟩ := ih (c.drop z) hstep
    refine ⟨(if c.count z - 1 = 0 then [z] else []) ++ f, ?_, fun y => ?_⟩
    · rw [List.foldl_cons, hfreed, drop_freed, List.append_assoc]
    rw [List.count_append, hf, drop_count]
    by_cases h : z = y
    · subst h
      rw [if_pos rfl, count_last (hle z)]
      simp only [List.mem_cons, true_or, true_and]
    · have hnone : (if c.count z - 1 = 0 then [z] else []).count y = 0 := by
        split_ifs
        · exact List.count_singleton.trans (by simp [h])
        · rfl
      rw [hnone, Nat.zero_add, if_neg h, sub_zero, List.count_cons_of_ne h]
      simp only [List.mem_cons, Ne.symm h, false_or]

end SyeLabs.SharedCount
