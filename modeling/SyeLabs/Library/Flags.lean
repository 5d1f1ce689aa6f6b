import Mathlib.Algebra.Group.Nat.Defs

/-!
# Flags and fields of a machine word

A flag is one bit of a word, tested, set and cleared through its mask `2 ^ k`.
The three C idioms `w & mask`, `w |= mask` and `w &= ~mask` are described by
the bits of their result. A field split `w >> k` and `w & (2 ^ k - 1)` is
described by the quotient and the remainder, which determine the word.
-/

namespace SyeLabs.Flags

variable {n : ℕ}

theorem test_iff (w : BitVec n) (k : ℕ) :
    w &&& BitVec.twoPow n k ≠ 0#n ↔ w.getLsbD k = true := by
  rw [BitVec.and_twoPow]
  by_cases h : w.getLsbD k = true
  · have hk : k < n := BitVec.lt_of_getLsbD h
    simp only [h, ite_true, ne_eq, iff_true]
    intro h0
    have hbit := congrArg (fun v => v.getLsbD k) h0
    simp [hk] at hbit
  · simp [h]

theorem getLsbD_set (w : BitVec n) (k j : ℕ) :
    (w ||| BitVec.twoPow n k).getLsbD j = (w.getLsbD j || decide (k < n ∧ k = j)) := by
  rw [BitVec.getLsbD_or, BitVec.getLsbD_twoPow]
  by_cases hk : k < n <;> by_cases hj : k = j <;> simp [hk, hj]

theorem getLsbD_clear (w : BitVec n) (k j : ℕ) :
    (w &&& ~~~BitVec.twoPow n k).getLsbD j = (w.getLsbD j && decide (k ≠ j)) := by
  rw [BitVec.getLsbD_and, BitVec.getLsbD_not, BitVec.getLsbD_twoPow]
  by_cases hj : j < n
  · by_cases hkj : k = j <;> simp [hj, hkj]
  · have hw : w.getLsbD j = false := BitVec.getLsbD_of_ge w j (by omega)
    simp [hw]

theorem toNat_high (w : BitVec n) (k : ℕ) : (w >>> k).toNat = w.toNat / 2 ^ k := by
  rw [BitVec.toNat_ushiftRight, Nat.shiftRight_eq_div_pow]

theorem toNat_low (w : BitVec n) {m : BitVec n} {k : ℕ} (hm : m.toNat = 2 ^ k - 1) :
    (w &&& m).toNat = w.toNat % 2 ^ k := by
  rw [BitVec.toNat_and, hm, Nat.and_two_pow_sub_one_eq_mod]

theorem eq_of_split {v w : BitVec n} {k : ℕ} (hhigh : v.toNat / 2 ^ k = w.toNat / 2 ^ k)
    (hlow : v.toNat % 2 ^ k = w.toNat % 2 ^ k) : v = w := by
  apply BitVec.eq_of_toNat_eq
  rw [← Nat.div_add_mod v.toNat (2 ^ k), ← Nat.div_add_mod w.toNat (2 ^ k), hhigh, hlow]

end SyeLabs.Flags
