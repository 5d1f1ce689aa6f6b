import SyeLabs.Letters.CountLetters

/-!
# What `count_letters` counts (`lab6/lab6.patch`)

Both range tests include the character behind the last letter, `[` and `{` in ASCII, which
gives the index `LETTERS_NB`.
-/

namespace SyeLabs.Letters

/-- The letter number `j` of the alphabet, in upper or in lower case. -/
def IsLetter (j : Fin LETTERS_NB) (b : Byte) : Prop := b.toNat = 65 + j ∨ b.toNat = 97 + j

instance (j : Fin LETTERS_NB) (b : Byte) : Decidable (IsLetter j b) :=
  inferInstanceAs (Decidable (_ ∨ _))

def histogram (text : List Byte) : Counters := fun j => text.countP fun b => IsLetter j b

variable {A : Alphabet} {b : Byte} {k : Counters} {text : List Byte}

/- From 128 on a character is negative or no letter. -/
theorem char_cases (A : Alphabet) (b : Byte) :
    A.char b = b.toNat ∨ 128 ≤ b.toNat ∧ A.char b < 0 := by
  have hlt := b.isLt
  unfold Alphabet.char
  split_ifs
  · rw [BitVec.toInt_eq_toNat_cond]
    split_ifs with hsmall
    · exact .inl rfl
    · exact .inr ⟨by omega, by omega⟩
  · exact .inl rfl

theorem increment_some {i : ℤ} (j : Fin LETTERS_NB) (hi : i = (j : ℕ)) :
    increment k i = some (Function.update k j (k j + 1)) := by
  subst hi
  have hin : (0 : ℤ) ≤ (j : ℕ) ∧ ((j : ℕ) : ℤ) < LETTERS_NB := ⟨by omega, by have := j.isLt; omega⟩
  rw [increment, dif_pos hin]
  rfl

theorem isLetter_unique {i j : Fin LETTERS_NB} (hi : IsLetter i b) (hj : IsLetter j b) :
    i = j := by
  have hlt : (i : ℕ) < 26 ∧ (j : ℕ) < 26 := ⟨i.isLt, j.isLt⟩
  apply Fin.ext
  rcases hi with hi | hi <;> rcases hj with hj | hj <;> omega

theorem histogram_cons (b : Byte) (text : List Byte) :
    histogram (b :: text) = histogram [b] + histogram text := by
  funext j
  rw [Pi.add_apply]
  exact @List.countP_append _ _ [b] text

theorem increment_none : increment k LETTERS_NB = none :=
  dif_neg fun h => absurd h.2 (Int.lt_irrefl _)

section
variable (hupper : A.A_UPPER_OFFSET = 65) (hlower : A.A_LOWER_OFFSET = 97)
include hupper hlower

/- One counter goes up, that of the letter. -/
theorem countLetter_letter {j : Fin LETTERS_NB} (hb : IsLetter j b) :
    countLetter A k b = some (Function.update k j (k j + 1)) := by
  have hj : (j : ℕ) < 26 := j.isLt
  have hchar : A.char b = b.toNat := by
    rcases char_cases A b with hchar | ⟨hlarge, _⟩
    · exact hchar
    · rcases hb with hb | hb <;> omega
  simp only [countLetter, hupper, hlower, hchar, LETTERS_NB]
  rcases hb with hb | hb
  · rw [if_pos (by omega)]
    exact increment_some j (by omega)
  · rw [if_neg (by omega), if_pos (by omega)]
    exact increment_some j (by omega)

theorem countLetter_other (hb : ∀ j, ¬ IsLetter j b) (hbound : b ≠ 91#8 ∧ b ≠ 123#8) :
    countLetter A k b = some k := by
  have hne : b.toNat ≠ 91 ∧ b.toNat ≠ 123 :=
    ⟨fun h => hbound.1 (BitVec.eq_of_toNat_eq h), fun h => hbound.2 (BitVec.eq_of_toNat_eq h)⟩
  have hupperCase : ¬ (65 ≤ b.toNat ∧ b.toNat < 91) := fun h =>
    hb ⟨b.toNat - 65, show _ < 26 by omega⟩ (.inl (by simp only; omega))
  have hlowerCase : ¬ (97 ≤ b.toNat ∧ b.toNat < 123) := fun h =>
    hb ⟨b.toNat - 97, show _ < 26 by omega⟩ (.inr (by simp only; omega))
  have hchar := char_cases A b
  simp only [countLetter, hupper, hlower, LETTERS_NB]
  rw [if_neg (by omega), if_neg (by omega)]

theorem countLetter_bound (hb : b = 91#8 ∨ b = 123#8) : countLetter A k b = none := by
  have hchar := char_cases A b
  have hbound : b.toNat = 91 ∨ b.toNat = 123 := by
    rcases hb with rfl | rfl
    · exact .inl rfl
    · exact .inr rfl
  simp only [countLetter, hupper, hlower, LETTERS_NB]
  rcases hbound with hb | hb
  · rw [if_pos (by omega), show A.char b - 65 = LETTERS_NB by simp only [LETTERS_NB]; omega]
    exact increment_none
  · rw [if_neg (by omega), if_pos (by omega),
      show A.char b - 97 = LETTERS_NB by simp only [LETTERS_NB]; omega]
    exact increment_none

theorem countLetter_eq (hbound : b ≠ 91#8 ∧ b ≠ 123#8) :
    countLetter A k b = some (k + histogram [b]) := by
  by_cases hletter : ∃ j, IsLetter j b
  · obtain ⟨j, hj⟩ := hletter
    rw [countLetter_letter hupper hlower hj, Option.some.injEq]
    funext i
    rw [Pi.add_apply, histogram, List.countP_singleton]
    by_cases hi : i = j
    · rw [hi, Function.update_self, if_pos (decide_eq_true hj)]
    · have hother : ¬ IsLetter i b := fun h => hi (isLetter_unique h hj)
      rw [Function.update_of_ne hi, if_neg (by simpa using hother), Nat.add_zero]
  · have hnone : ∀ j, ¬ IsLetter j b := fun j h => hletter ⟨j, h⟩
    rw [countLetter_other hupper hlower hnone hbound, Option.some.injEq]
    funext i
    rw [Pi.add_apply, histogram, List.countP_singleton, if_neg (by simpa using hnone i),
      Nat.add_zero]

theorem foldlM_countLetter (text : List Byte) (k : Counters) :
    text.foldlM (countLetter A) k =
      if 91#8 ∉ text ∧ 123#8 ∉ text then some (k + histogram text) else none := by
  induction text generalizing k with
  | nil =>
    rw [if_pos ⟨List.not_mem_nil, List.not_mem_nil⟩]
    rfl
  | cons b text ih =>
    rw [List.foldlM_cons]
    by_cases hbound : b ≠ 91#8 ∧ b ≠ 123#8
    · have hiff : (91#8 ∉ b :: text ∧ 123#8 ∉ b :: text) ↔ 91#8 ∉ text ∧ 123#8 ∉ text := by
        simp [Ne.symm hbound.1, Ne.symm hbound.2]
      have hsum : k + histogram [b] + histogram text = k + histogram (b :: text) := by
        rw [histogram_cons b text]
        funext j
        exact Nat.add_assoc ..
      rw [countLetter_eq hupper hlower hbound, ← hsum]
      simp only [hiff]
      exact ih _
    · have hb : b = 91#8 ∨ b = 123#8 := by
        by_contra hnot
        exact hbound (not_or.mp hnot)
      rw [countLetter_bound hupper hlower hb, if_neg]
      · rfl
      · rcases hb with rfl | rfl
        · exact fun h => h.1 List.mem_cons_self
        · exact fun h => h.2 List.mem_cons_self

/-- The counters are the histogram of the letters exactly when the text has no `[` and
no `{`. -/
theorem countLetters_histogram_iff (text : List Byte) :
    countLetters A text = some (histogram text) ↔ 91#8 ∉ text ∧ 123#8 ∉ text := by
  have hzero : (fun _ => 0 : Counters) + histogram text = histogram text :=
    funext fun j => Nat.zero_add _
  rw [countLetters, foldlM_countLetter hupper hlower, hzero]
  simp

end

/- `Az`, where `char` is unsigned. -/
theorem histogram_of_two_letters :
    countLetters ⟨65, 97, false⟩ [65#8, 122#8] = some (histogram [65#8, 122#8]) ↔
      91#8 ∉ [65#8, 122#8] ∧ 123#8 ∉ [65#8, 122#8] :=
  countLetters_histogram_iff rfl rfl [65#8, 122#8]

/- The text `[`, whether `char` is signed or not. -/
theorem bracket_not_counted :
    ¬ ∃ charSigned, countLetters ⟨65, 97, charSigned⟩ [91#8] = some (histogram [91#8]) := by
  rintro ⟨charSigned, h⟩
  cases charSigned <;> cases h

end SyeLabs.Letters
