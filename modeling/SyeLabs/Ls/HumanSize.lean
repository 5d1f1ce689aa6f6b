import Mathlib.Data.Rat.Floor
import Mathlib.Data.List.DropRight
import SyeLabs.Library.Scaling

/-!
# Sizes for the reader (`lab14/ls.c`, lines 35-50)

The loop divides until the size is below `KB`, however often that is. The table of the
prefixes ends at the terabytes.
-/

namespace SyeLabs.Ls

variable {w : ℕ}

def KB : ℕ := 1024

/-- The table `prefix`. -/
def prefixes : List String := ["", "K", "M", "G", "T"]

/- `(double) bytes`: a double has fifty-three binary digits. -/
def toDouble (bytes : BitVec w) : ℚ := (roundDigits 53 bytes.toNat : ℕ)

/-- `size` and `i` behind the loop. -/
def humanScale (bytes : BitVec w) : ℚ × ℕ := scaleDown KB (by decide) (toDouble bytes) 0

/- `%g` of a number below 10^6 that is zero or at least one: six digits, without the zeros
at the end of the decimals. -/
def formatG (x : ℚ) : String :=
  let decimals := 6 - (Nat.toDigits 10 ⌊x⌋₊).length
  let n := nearestEven x.den (x.num.toNat * 10 ^ decimals) / x.den
  let digits := (Nat.toDigits 10 (10 ^ decimals + n % 10 ^ decimals)).tail.rdropWhile (· = '0')
  toString (n / 10 ^ decimals) ++ if digits = [] then "" else "." ++ String.ofList digits

/-- `bytes_to_human_readable`; `none` is a read behind the table. -/
def bytesToHumanReadable (bytes : BitVec w) : Option String :=
  let (size, i) := humanScale bytes
  prefixes[i]?.map fun unit => formatG size ++ unit

/-- The mantissa and the index say what the size is, in a unit that there is. -/
structure HasUnit (bytes : BitVec w) : Prop where
  mantissa_lt : (humanScale bytes).1 < 1024
  one_le_mantissa : bytes ≠ 0 → 1 ≤ (humanScale bytes).1
  size_eq : (humanScale bytes).1 * 1024 ^ (humanScale bytes).2 = bytes.toNat
  index_lt : (humanScale bytes).2 < prefixes.length

theorem one_le_toDouble {bytes : BitVec w} (h : bytes ≠ 0) : 1 ≤ toDouble bytes := by
  have hpos : 2 ^ 0 ≤ bytes.toNat := by
    rw [pow_zero, Nat.one_le_iff_ne_zero]
    exact fun hzero => h (BitVec.eq_of_toNat_eq hzero)
  have hround := pow_le_roundDigits (by decide : 0 < 53) hpos
  rw [pow_zero] at hround
  unfold toDouble
  exact_mod_cast hround

theorem toDouble_exact {bytes : BitVec w} (h : bytes.toNat < 2 ^ 53) :
    toDouble bytes = bytes.toNat := by
  rw [toDouble, roundDigits_of_lt h]

/-- Rounding to a double moves no size over the end of the table. -/
theorem roundDigits_lt_iff (n : ℕ) : roundDigits 53 n < 2 ^ 50 ↔ n < 2 ^ 50 := by
  constructor
  · intro h
    by_contra hge
    exact absurd (pow_le_roundDigits (by decide) (not_lt.1 hge)) (not_le.2 h)
  · intro h
    rwa [roundDigits_of_lt (h.trans (by decide))]

/-- The index is in the table exactly below 1024 terabytes. -/
theorem humanScale_index_lt_iff (bytes : BitVec w) :
    (humanScale bytes).2 < prefixes.length ↔ bytes.toNat < 2 ^ 50 := by
  rw [← roundDigits_lt_iff]
  exact scaleDown_natCast_lt (b := KB) (by decide) (roundDigits 53 bytes.toNat) (by decide)

theorem bytesToHumanReadable_isSome_iff (bytes : BitVec w) :
    (bytesToHumanReadable bytes).isSome ↔ (humanScale bytes).2 < prefixes.length := by
  simp [bytesToHumanReadable]

theorem humanSize_unit_iff (bytes : BitVec w) : HasUnit bytes ↔ bytes.toNat < 2 ^ 50 := by
  rw [← humanScale_index_lt_iff]
  refine ⟨HasUnit.index_lt, fun hindex => ?_⟩
  have hsmall : bytes.toNat < 2 ^ 53 :=
    ((humanScale_index_lt_iff bytes).1 hindex).trans (by decide)
  refine ⟨?_, ?_, ?_, hindex⟩
  · exact_mod_cast scaleDown_lt (b := KB) (by decide) (toDouble bytes) 0
  · exact fun h => one_le_scaleDown (by decide) (one_le_toDouble h) 0
  · rw [← toDouble_exact hsmall]
    exact_mod_cast scaleDown_mul (b := KB) (by decide) (toDouble bytes)

/-- A petabyte has no unit. -/
theorem humanSize_petabyte : ¬ HasUnit 0x4000000000000#64 := by
  intro h
  have hlt := (humanScale_index_lt_iff _).1 h.index_lt
  exact absurd hlt (by decide)

/-- On a target with 32 bits every size has its unit. -/
theorem humanScale_index_lt_of_32 (bytes : BitVec 32) :
    (humanScale bytes).2 < prefixes.length := by
  rw [humanScale_index_lt_iff]
  exact bytes.isLt.trans (by decide)

example : formatG (3 / 2) ++ "K" = "1.5K" := by decide +kernel

end SyeLabs.Ls
