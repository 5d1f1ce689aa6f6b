import Mathlib.Algebra.Group.Pi.Basic
import Mathlib.Logic.Function.Basic
import Mathlib.Data.Nat.Basic

/-!
# Counting letters in chunks of a text (`lab6/lab6.patch`)

The offsets of the letters and the signedness of `char` are of the template and of the
compiler, and stay open. All sizes are at most the length of the text, so the
arithmetic on `size_t` does not wrap.
-/

namespace SyeLabs.Letters

abbrev Byte := BitVec 8

def LETTERS_NB : ℕ := 26

structure Alphabet where
  A_UPPER_OFFSET : ℤ
  A_LOWER_OFFSET : ℤ
  charSigned : Bool

abbrev Counters := Fin LETTERS_NB → ℕ

/- `++params->counters[i]`; `none` is a write outside of the array. -/
def increment (counters : Counters) (i : ℤ) : Option Counters :=
  if h : 0 ≤ i ∧ i < LETTERS_NB then
    have hi : i.toNat < LETTERS_NB := by omega
    some (Function.update counters ⟨i.toNat, hi⟩ (counters ⟨i.toNat, hi⟩ + 1))
  else none

variable (A : Alphabet)

def Alphabet.char (b : Byte) : ℤ := if A.charSigned then b.toInt else b.toNat

/- The body of the loop of `count_letters`. -/
def countLetter (counters : Counters) (b : Byte) : Option Counters :=
  let c := A.char b
  if A.A_UPPER_OFFSET ≤ c ∧ c ≤ A.A_UPPER_OFFSET + LETTERS_NB then
    increment counters (c - A.A_UPPER_OFFSET)
  else if A.A_LOWER_OFFSET ≤ c ∧ c ≤ A.A_LOWER_OFFSET + LETTERS_NB then
    increment counters (c - A.A_LOWER_OFFSET)
  else some counters

def countLetters (text : List Byte) : Option Counters := text.foldlM (countLetter A) fun _ => 0

/-- `text_pointer` as an offset from the start of the text. -/
structure CountParam where
  textPointer : ℕ
  size : ℕ

/- The assignments to `parameters[i]` in `main`. -/
def parameters (textLength threadNum i : ℕ) : CountParam :=
  let chunkSize := textLength / threadNum
  let leftover := textLength % threadNum
  let size := chunkSize
  ⟨i * chunkSize, if i = threadNum - 1 then size + leftover else size⟩

def CountParam.chunk (p : CountParam) (text : List Byte) : List Byte :=
  (text.drop p.textPointer).take p.size

/-! ### The chunks -/

/-- Where chunk `i` starts, and the end of the text for `threadNum`. -/
def boundary (textLength threadNum i : ℕ) : ℕ :=
  if i = threadNum then textLength else i * (textLength / threadNum)

/-- The chunks follow one another from the start to the end of the text: no two overlap,
and each place is in one of them. -/
structure Partition (textLength threadNum : ℕ) : Prop where
  first : (parameters textLength threadNum 0).textPointer = 0
  contiguous : ∀ i, i + 1 < threadNum → (parameters textLength threadNum (i + 1)).textPointer =
    (parameters textLength threadNum i).textPointer + (parameters textLength threadNum i).size
  last : (parameters textLength threadNum (threadNum - 1)).textPointer +
    (parameters textLength threadNum (threadNum - 1)).size = textLength
  disjoint : ∀ i j, i < j → j < threadNum → (parameters textLength threadNum i).textPointer +
    (parameters textLength threadNum i).size ≤ (parameters textLength threadNum j).textPointer
  cover : ∀ p < textLength, ∃ i < threadNum, (parameters textLength threadNum i).textPointer ≤ p ∧
    p < (parameters textLength threadNum i).textPointer + (parameters textLength threadNum i).size

variable {textLength threadNum i : ℕ}

theorem parameters_start (h : i < threadNum) :
    (parameters textLength threadNum i).textPointer = boundary textLength threadNum i := by
  simp [parameters, boundary, Nat.ne_of_lt h]

theorem parameters_end (h : i < threadNum) :
    (parameters textLength threadNum i).textPointer + (parameters textLength threadNum i).size =
      boundary textLength threadNum (i + 1) := by
  have hdiv := Nat.div_add_mod textLength threadNum
  by_cases hlast : i = threadNum - 1
  · have hn : i + 1 = threadNum := by omega
    have hmul : threadNum * (textLength / threadNum) =
        i * (textLength / threadNum) + textLength / threadNum := by
      rw [← hn, Nat.succ_mul]
    simp only [parameters, boundary, hlast, if_true]
    rw [if_pos (by omega)]
    rw [← hlast]
    omega
  · have hn : i + 1 ≠ threadNum := by omega
    simp only [parameters, boundary, hlast, hn, if_false]
    rw [Nat.succ_mul]

theorem boundary_le (h : i < threadNum) :
    boundary textLength threadNum i ≤ boundary textLength threadNum (i + 1) := by
  rw [← parameters_end h, parameters_start h]
  exact Nat.le_add_right _ _

theorem boundary_mono {j : ℕ} (hij : i ≤ j) (hj : j ≤ threadNum) :
    boundary textLength threadNum i ≤ boundary textLength threadNum j := by
  induction j with
  | zero => rw [Nat.le_zero.mp hij]
  | succ j ih =>
    rcases Nat.lt_or_eq_of_le hij with hlt | rfl
    · exact Nat.le_trans (ih (Nat.le_of_lt_succ hlt) (Nat.le_of_lt hj)) (boundary_le hj)
    · exact Nat.le_refl _

theorem boundary_zero (h : 0 < threadNum) : boundary textLength threadNum 0 = 0 := by
  simp [boundary, Nat.ne_of_lt h]

theorem boundary_last : boundary textLength threadNum threadNum = textLength := if_pos rfl

theorem parameters_partition (h : 1 ≤ threadNum) : Partition textLength threadNum := by
  refine ⟨?_, fun i hi => ?_, ?_, fun i j hij hj => ?_, fun p hp => ?_⟩
  · rw [parameters_start h, boundary_zero h]
  · rw [parameters_start hi, parameters_end (by omega)]
  · rw [parameters_end (by omega), Nat.sub_add_cancel h, boundary_last]
  · rw [parameters_end (by omega), parameters_start hj]
    exact boundary_mono hij (Nat.le_of_lt hj)
  · -- the last boundary that is not beyond the place
    have hall : ∀ n ≤ threadNum, p < boundary textLength threadNum n →
        ∃ i < n, boundary textLength threadNum i ≤ p ∧
          p < boundary textLength threadNum (i + 1) := by
      intro n
      induction n with
      | zero =>
        intro _ hn
        rw [boundary_zero h] at hn
        exact absurd hn (Nat.not_lt_zero p)
      | succ n ih =>
        intro hn hlt
        by_cases hle : boundary textLength threadNum n ≤ p
        · exact ⟨n, Nat.lt_succ_self n, hle, hlt⟩
        · obtain ⟨i, hi, hin⟩ := ih (Nat.le_of_succ_le hn) (Nat.lt_of_not_le hle)
          exact ⟨i, Nat.lt_succ_of_lt hi, hin⟩
    obtain ⟨i, hi, hle, hlt⟩ := hall threadNum (Nat.le_refl _) (by rwa [boundary_last])
    refine ⟨i, hi, ?_, ?_⟩
    · rwa [parameters_start hi]
    · rwa [parameters_end hi]

theorem take_boundary (text : List Byte) (h : i < threadNum) :
    text.take (boundary text.length threadNum (i + 1)) =
      text.take (boundary text.length threadNum i) ++
        (parameters text.length threadNum i).chunk text := by
  unfold CountParam.chunk
  rw [← parameters_end h, parameters_start h, List.take_add]

/-! ### Counting is additive -/

variable {A}

theorem increment_add (k counters : Counters) (i : ℤ) :
    increment (k + counters) i = (increment counters i).map (k + ·) := by
  unfold increment
  split_ifs with h
  · rw [Option.map_some, Option.some.injEq]
    funext j
    by_cases hj : j = ⟨i.toNat, by omega⟩
    · rw [hj]
      simp [Nat.add_assoc]
    · simp [hj]
  · rfl

theorem countLetter_add (k counters : Counters) (b : Byte) :
    countLetter A (k + counters) b = (countLetter A counters b).map (k + ·) := by
  unfold countLetter
  dsimp only
  split_ifs
  · exact increment_add k counters _
  · exact increment_add k counters _
  · rfl

theorem foldlM_add (k counters : Counters) (text : List Byte) :
    text.foldlM (countLetter A) (k + counters) =
      (text.foldlM (countLetter A) counters).map (k + ·) := by
  induction text generalizing counters with
  | nil => rfl
  | cons b text ih =>
    rw [List.foldlM_cons, List.foldlM_cons, countLetter_add]
    cases hb : countLetter A counters b with
    | none => rfl
    | some next => exact ih next

/- The letters of two texts one after the other. -/
theorem countLetters_append (text rest : List Byte) :
    countLetters A (text ++ rest) = (countLetters A text).bind fun k =>
      (countLetters A rest).map (k + ·) := by
  unfold countLetters
  rw [List.foldlM_append]
  congr 1
  funext k
  have hzero : k + (fun _ => 0) = k := funext fun j => Nat.add_zero (k j)
  rw [← foldlM_add, hzero]

theorem countLetters_append_some {text rest : List Byte} {k : Counters}
    (h : countLetters A (text ++ rest) = some k) :
    ∃ k₁ k₂, countLetters A text = some k₁ ∧ countLetters A rest = some k₂ ∧ k = k₁ + k₂ := by
  rw [countLetters_append] at h
  obtain ⟨k₁, hk₁, hrest⟩ := Option.bind_eq_some_iff.mp h
  obtain ⟨k₂, hk₂, rfl⟩ := Option.map_eq_some_iff.mp hrest
  exact ⟨k₁, k₂, hk₁, hk₂, rfl⟩

end SyeLabs.Letters
