import Mathlib.Data.List.Dedup
import Mathlib.Data.List.Induction

/-!
# The elements of a list in the order of their first appearance

What has been seen after a part of the list is a beginning of what is seen in the end.
-/

namespace SyeLabs

variable {α : Type*} [DecidableEq α]

/-- Each element once, where it is seen first. -/
def firstSeen (xs : List α) : List α := xs.reverse.dedup.reverse

@[simp] theorem firstSeen_nil : firstSeen ([] : List α) = [] := rfl

theorem firstSeen_snoc (xs : List α) (x : α) :
    firstSeen (xs ++ [x]) = if x ∈ xs then firstSeen xs else firstSeen xs ++ [x] := by
  rw [firstSeen, List.reverse_append, List.reverse_singleton, List.singleton_append]
  split_ifs with hx
  · rw [List.dedup_cons_of_mem (List.mem_reverse.mpr hx), ← firstSeen]
  · rw [List.dedup_cons_of_notMem fun h => hx (List.mem_reverse.mp h), List.reverse_cons,
      ← firstSeen]

@[simp] theorem mem_firstSeen {xs : List α} {x : α} : x ∈ firstSeen xs ↔ x ∈ xs := by
  rw [firstSeen, List.mem_reverse, List.mem_dedup, List.mem_reverse]

theorem firstSeen_initial (xs ys : List α) : firstSeen xs <+: firstSeen (xs ++ ys) := by
  induction ys using List.reverseRecOn with
  | nil => simp only [List.append_nil, List.prefix_rfl]
  | append_singleton ys y ih =>
    rw [← List.append_assoc, firstSeen_snoc]
    split_ifs
    · exact ih
    · exact ih.trans (List.prefix_append ..)

theorem firstSeen_length_le (xs ys : List α) :
    (firstSeen xs).length ≤ (firstSeen (xs ++ ys)).length := (firstSeen_initial xs ys).length_le

theorem firstSeen_length_snoc (xs : List α) (x : α) :
    (firstSeen (xs ++ [x])).length ≤ (firstSeen xs).length + 1 := by
  rw [firstSeen_snoc]
  split_ifs
  · exact Nat.le_succ _
  · exact Nat.le_of_eq List.length_append

/-- The first ones of a list are those seen in a part of it that is long enough. -/
theorem firstSeen_take (xs ys : List α) :
    (firstSeen (xs ++ ys)).take (firstSeen xs).length = firstSeen xs :=
  (List.prefix_iff_eq_take.mp (firstSeen_initial xs ys)).symm

end SyeLabs
