import Mathlib.Data.List.Range

/-!
# Loops that may be left early

The body is given the index and the state, and either goes on with a new state or leaves
the loop with a result. `none` is a body whose behaviour is not defined.
-/

namespace SyeLabs.Loop

variable {ι σ ρ : Type*}

def forEach (body : ι → σ → Option (σ × Option ρ)) : List ι → σ → Option (σ × Option ρ)
  | [], s => some (s, none)
  | i :: is, s => (body i s).bind fun r => match r.2 with
    | some x => some (r.1, some x)
    | none => forEach body is r.1

variable {body : ι → σ → Option (σ × Option ρ)}

theorem forEach_next {i : ι} {s t : σ} (h : body i s = some (t, none)) (is : List ι) :
    forEach body (i :: is) s = forEach body is t := by
  rw [forEach, h]
  rfl

theorem forEach_left {i : ι} {s t : σ} {x : ρ} (h : body i s = some (t, some x)) (is : List ι) :
    forEach body (i :: is) s = some (t, some x) := by
  rw [forEach, h]
  rfl

theorem forEach_append {s t : σ} {is : List ι} (h : forEach body is s = some (t, none))
    (js : List ι) : forEach body (is ++ js) s = forEach body js t := by
  induction is generalizing s with
  | nil =>
    cases h
    rfl
  | cons i is ih =>
    cases hb : body i s with
    | none => simp [forEach, hb] at h
    | some r =>
      obtain ⟨u, x⟩ := r
      cases x with
      | some x => simp [forEach_left hb] at h
      | none =>
        rw [forEach_next hb] at h
        rw [List.cons_append, forEach_next hb]
        exact ih h

variable {body : ℕ → σ → Option (σ × Option ρ)}

/-- A loop over `0 .. n - 1` that is not left, with the state before each round. -/
theorem forEach_range {f : ℕ → σ} {n : ℕ} (h : ∀ k < n, body k (f k) = some (f (k + 1), none)) :
    forEach body (List.range n) (f 0) = some (f n, none) := by
  induction n with
  | zero => rfl
  | succ n ih =>
    have hprefix := ih fun k hk => h k (Nat.lt_succ_of_lt hk)
    rw [List.range_succ, forEach_append hprefix, forEach_next (h n (Nat.lt_succ_self n))]
    rfl

/-- A loop that is left in round `k`. -/
theorem forEach_range_left {f : ℕ → σ} {n k : ℕ} {t : σ} {x : ρ} (hk : k < n)
    (h : ∀ j < k, body j (f j) = some (f (j + 1), none)) (hleft : body k (f k) = some (t, some x)) :
    forEach body (List.range n) (f 0) = some (t, some x) := by
  obtain ⟨m, rfl⟩ := Nat.exists_eq_add_of_lt hk
  have hsplit : List.range (k + m + 1) =
      List.range k ++ k :: (List.range m).map (k + 1 + ·) := by
    rw [Nat.add_assoc, List.range_add, List.range_succ_eq_map, List.map_cons, List.map_map,
      Nat.add_zero]
    congr 2
    refine List.map_congr_left fun j _ => ?_
    simp only [Function.comp_apply, Nat.succ_eq_add_one]
    omega
  rw [hsplit, forEach_append (forEach_range h), forEach_left hleft]

theorem forEach_range_undefined {s : σ} {n : ℕ} (hn : 0 < n) (h : body 0 s = none) :
    forEach body (List.range n) s = none := by
  obtain ⟨m, rfl⟩ := Nat.exists_eq_succ_of_ne_zero (Nat.ne_of_gt hn)
  rw [List.range_succ_eq_map, forEach, h]
  rfl

end SyeLabs.Loop
