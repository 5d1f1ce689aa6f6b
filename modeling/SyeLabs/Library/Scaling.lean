import Mathlib.Algebra.Order.Floor.Semifield
import Mathlib.Data.Nat.Log

/-!
# Numbers scaled to a mantissa

A natural number is rounded to the nearest one with at most `p` binary digits, and a number is
divided by a base until it is below it. How often that is comes from the logarithm.
-/

namespace SyeLabs

section Rounding

/-- The nearest multiple of `u`, and of two at the same distance the even one. -/
def nearestEven (u n : ℕ) : ℕ :=
  let q := n / u
  let r := n % u
  if 2 * r < u ∨ 2 * r = u ∧ q % 2 = 0 then q * u else (q + 1) * u

/-- The nearest number of `p` binary digits and an exponent. -/
def roundDigits (p n : ℕ) : ℕ := nearestEven (2 ^ (n.log2 + 1 - p)) n

variable {p n u k : ℕ}

theorem div_mul_le_nearestEven (u n : ℕ) : n / u * u ≤ nearestEven u n := by
  unfold nearestEven
  dsimp only
  split
  · exact le_rfl
  · exact Nat.mul_le_mul_right u (Nat.le_succ _)

theorem nearestEven_one (n : ℕ) : nearestEven 1 n = n := by
  simp [nearestEven, Nat.mod_one]

theorem roundDigits_of_lt (h : n < 2 ^ p) : roundDigits p n = n := by
  rcases Nat.eq_zero_or_pos n with rfl | hpos
  · simp [roundDigits, nearestEven]
  have hlog : n.log2 < p := (Nat.log2_lt hpos.ne').2 h
  have hnone : n.log2 + 1 - p = 0 := by omega
  rw [roundDigits, hnone, pow_zero, nearestEven_one]

/-- Rounding does not go below a power of two that has its digits. -/
theorem pow_le_roundDigits (hk : k < p) (h : 2 ^ k ≤ n) : 2 ^ k ≤ roundDigits p n := by
  rcases lt_or_ge n (2 ^ p) with hlt | hge
  · rwa [roundDigits_of_lt hlt]
  have hn : n ≠ 0 := by
    rintro rfl
    exact absurd hge (by simp)
  have hlog : p ≤ n.log2 := (Nat.le_log2 hn).2 hge
  let s := n.log2 + 1 - p
  have hquot : 2 ^ (p - 1) ≤ n / 2 ^ s := by
    rw [Nat.le_div_iff_mul_le (by positivity), ← pow_add]
    have hs : p - 1 + s = n.log2 := by
      dsimp only [s]
      omega
    rw [hs]
    exact Nat.log2_self_le hn
  calc 2 ^ k ≤ 2 ^ (p - 1) := Nat.pow_le_pow_right (by decide) (by omega)
    _ ≤ n / 2 ^ s := hquot
    _ ≤ n / 2 ^ s * 2 ^ s := Nat.le_mul_of_pos_right _ (by positivity)
    _ ≤ roundDigits p n := div_mul_le_nearestEven _ n

end Rounding

section Division

variable {K : Type*} [Field K] [LinearOrder K] {b : ℕ}

theorem floor_div_lt [IsStrictOrderedRing K] [FloorSemiring K] (hb : 1 < b) {r : K}
    (h : (b : K) ≤ r) : ⌊r / b⌋₊ < ⌊r⌋₊ := by
  have hfloor : b ≤ ⌊r⌋₊ := Nat.le_floor h
  rw [Nat.floor_div_natCast]
  exact Nat.div_lt_self (by omega) hb

/-- `while (b <= r) { r /= b; i++; }` -/
def scaleDown [IsStrictOrderedRing K] [FloorSemiring K] (b : ℕ) (hb : 1 < b) (r : K) (i : ℕ) : K × ℕ :=
  if (b : K) ≤ r then scaleDown b hb (r / b) (i + 1) else (r, i)
termination_by ⌊r⌋₊
decreasing_by
  rename_i h
  exact floor_div_lt hb h

variable [IsStrictOrderedRing K] [FloorSemiring K]

/-- One division takes one from the logarithm. -/
theorem log_floor_div (hb : 1 < b) {r : K} (h : (b : K) ≤ r) :
    Nat.log b ⌊r⌋₊ = Nat.log b ⌊r / b⌋₊ + 1 := by
  rw [Nat.floor_div_natCast]
  exact Nat.log_of_one_lt_of_le hb (Nat.le_floor h)

/-- The loop divides as often as the logarithm says. -/
theorem scaleDown_eq (hb : 1 < b) (r : K) (i : ℕ) :
    scaleDown b hb r i = (r / (b : K) ^ Nat.log b ⌊r⌋₊, i + Nat.log b ⌊r⌋₊) := by
  fun_induction scaleDown b hb r i with
  | case1 r i h ih =>
    rw [ih, log_floor_div hb h, div_div, ← pow_succ', add_assoc, add_comm 1]
  | case2 r i h =>
    have hfloor : ⌊r⌋₊ < b := (Nat.floor_lt' (by omega)).2 (not_le.1 h)
    rw [Nat.log_of_lt hfloor, pow_zero, div_one, add_zero]

theorem scaleDown_lt (hb : 1 < b) (r : K) (i : ℕ) : (scaleDown b hb r i).1 < b := by
  fun_induction scaleDown b hb r i with
  | case1 r i h ih => exact ih
  | case2 r i h => exact not_le.1 h

theorem one_le_scaleDown (hb : 1 < b) {r : K} (hr : 1 ≤ r) (i : ℕ) :
    1 ≤ (scaleDown b hb r i).1 := by
  fun_induction scaleDown b hb r i with
  | case1 r i h ih =>
    have hpos : (0 : K) < b := Nat.cast_pos.2 (by omega)
    exact ih ((one_le_div hpos).2 h)
  | case2 r i h => exact hr

/-- From a count of zero, mantissa and count give the number back. -/
theorem scaleDown_mul (hb : 1 < b) (r : K) :
    (scaleDown b hb r 0).1 * (b : K) ^ (scaleDown b hb r 0).2 = r := by
  have hpow : (b : K) ^ Nat.log b ⌊r⌋₊ ≠ 0 := pow_ne_zero _ (Nat.cast_ne_zero.2 (by omega))
  rw [scaleDown_eq, zero_add, div_mul_cancel₀ _ hpow]

/-- The count of a natural number stays below `k` exactly below the `k`-th power of the base. -/
theorem scaleDown_natCast_lt (hb : 1 < b) (n : ℕ) {k : ℕ} (hk : 0 < k) :
    (scaleDown b hb (n : K) 0).2 < k ↔ n < b ^ k := by
  rw [scaleDown_eq, zero_add, Nat.floor_natCast]
  rcases Nat.eq_zero_or_pos n with rfl | hpos
  · simp only [Nat.log_zero_right, hk, true_iff]
    positivity
  · exact Nat.log_lt_iff_lt_pow hb hpos.ne'

end Division

end SyeLabs
