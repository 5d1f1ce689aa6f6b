import Mathlib.Data.List.TakeWhile

/-!
# The words of a line

The words of a list are its maximal runs without a separator. A reader that takes them
off the front, one after the other, finds them all in order.

A mark cuts a list in two: what stands before the first mark, and the rest without marks.
-/

namespace SyeLabs.Words

variable {α : Type*} (sep : α → Bool)

def words (l : List α) : List (List α) := (l.splitOnP sep).filter fun w => !w.isEmpty

/-- The first word and what follows the separator that ends it. -/
def nextWord (l : List α) : Option (List α × List α) :=
  match l.dropWhile sep with
  | [] => none
  | c :: rest =>
    some (c :: rest.takeWhile fun c => !sep c, (rest.dropWhile fun c => !sep c).drop 1)

variable {sep} {l w rest : List α}

@[simp] theorem words_nil : words sep [] = [] := by simp [words]

theorem words_append {c : α} (hc : sep c) (xs : List α) :
    words sep (xs ++ c :: l) = words sep xs ++ words sep l := by
  rw [words, List.splitOnP_append_cons xs l hc, List.filter_append]
  rfl

theorem words_separator {c : α} (hc : sep c) : words sep (c :: l) = words sep l :=
  (words_append hc []).trans (by rw [words_nil, List.nil_append])

theorem words_single (hne : w ≠ []) (hw : ∀ c ∈ w, sep c = false) : words sep w = [w] := by
  rw [words, List.splitOnP_eq_singleton hw, List.filter_cons_of_pos, List.filter_nil]
  simpa using hne

theorem words_dropWhile (l : List α) : words sep (l.dropWhile sep) = words sep l := by
  induction l with
  | nil => rfl
  | cons c l ih =>
    by_cases hc : sep c
    · rw [List.dropWhile_cons_of_pos hc, ih, words_separator hc]
    · rw [List.dropWhile_cons_of_neg hc]

theorem mem_takeWhile_not {c : α} (h : c ∈ l.takeWhile fun c => !sep c) : sep c = false := by
  have hc := List.all_eq_true.mp List.all_takeWhile c h
  simpa using hc

theorem head_dropWhile {c : α} {p : α → Bool} (h : l.dropWhile p = c :: rest) : p c = false := by
  have hne : l.dropWhile p ≠ [] := by
    rw [h]
    exact List.cons_ne_nil _ _
  have hhead := List.head_dropWhile_not p hne
  simpa [h] using hhead

theorem nextWord_none (h : nextWord sep l = none) : words sep l = [] := by
  rw [← words_dropWhile]
  unfold nextWord at h
  cases hl : l.dropWhile sep with
  | nil => exact words_nil
  | cons c rest => simp [hl] at h

/-- A word stands behind separators only, and ends at a separator or with the list. -/
theorem nextWord_shape (h : nextWord sep l = some (w, rest)) :
    w ≠ [] ∧ (∀ c ∈ w, sep c = false) ∧
      ((∃ d, sep d = true ∧ l.dropWhile sep = w ++ d :: rest) ∨
        (l.dropWhile sep = w ∧ rest = [])) := by
  unfold nextWord at h
  cases hl : l.dropWhile sep with
  | nil => simp [hl] at h
  | cons c l' =>
    simp only [hl, Option.some.injEq, Prod.mk.injEq] at h
    obtain ⟨rfl, rfl⟩ := h
    have hsplit := List.takeWhile_append_dropWhile (p := fun c => !sep c) (l := l')
    refine ⟨List.cons_ne_nil _ _, fun b hb => ?_, ?_⟩
    · rcases List.mem_cons.mp hb with rfl | hb
      · exact head_dropWhile hl
      · exact mem_takeWhile_not hb
    · cases hrest : l'.dropWhile (fun c => !sep c) with
      | nil =>
        rw [hrest, List.append_nil] at hsplit
        exact .inr ⟨by rw [hsplit], rfl⟩
      | cons d l'' =>
        have hd := head_dropWhile hrest
        rw [hrest] at hsplit
        refine .inl ⟨d, by simpa using hd, ?_⟩
        rw [List.cons_append, List.drop_one, List.tail_cons, hsplit]

theorem nextWord_some (h : nextWord sep l = some (w, rest)) :
    words sep l = w :: words sep rest := by
  obtain ⟨hne, hw, ⟨d, hd, hl⟩ | ⟨hl, rfl⟩⟩ := nextWord_shape h
  · rw [← words_dropWhile, hl, words_append hd, words_single hne hw]
    rfl
  · rw [← words_dropWhile, hl, words_single hne hw, words_nil]

theorem nextWord_length (h : nextWord sep l = some (w, rest)) :
    w.length + rest.length ≤ l.length := by
  have hle := (List.dropWhile_sublist sep (l := l)).length_le
  obtain ⟨_, _, ⟨d, _, hl⟩ | ⟨hl, rfl⟩⟩ := nextWord_shape h
  · rw [hl, List.length_append, List.length_cons] at hle
    omega
  · rw [hl] at hle
    simp only [List.length_nil]
    omega

theorem nextWord_rest_lt (h : nextWord sep l = some (w, rest)) : rest.length < l.length := by
  have hle := nextWord_length h
  have hpos := List.length_pos_iff.mpr (nextWord_shape h).1
  omega

/- The letters of a word are letters of the line. -/
theorem nextWord_subset (h : nextWord sep l = some (w, rest)) : w ⊆ l ∧ rest ⊆ l := by
  have hsub := (List.dropWhile_sublist sep (l := l)).subset
  obtain ⟨_, _, ⟨d, _, hl⟩ | ⟨hl, rfl⟩⟩ := nextWord_shape h
  · rw [hl] at hsub
    exact ⟨fun c hc => hsub (List.mem_append_left _ hc),
      fun c hc => hsub (List.mem_append_right _ (List.mem_cons_of_mem d hc))⟩
  · rw [hl] at hsub
    exact ⟨hsub, List.nil_subset _⟩

theorem word_ne_nil (h : w ∈ words sep l) : w ≠ [] := by
  have hw := (List.mem_filter.mp h).2
  simpa using hw

/-! ### The two sides of a mark -/

section Mark

variable {α : Type*} [DecidableEq α] (mark : α)

def before (l : List α) : List α := l.takeWhile (· ≠ mark)

def behind (l : List α) : List α := (l.dropWhile (· ≠ mark)).filter (· ≠ mark)

variable {mark} {l : List α} {a : α}

theorem pass_of_not_mem (h : mark ∉ l) : ∀ b ∈ l, decide (b ≠ mark) = true :=
  fun _ hb => decide_eq_true fun heq => h (heq ▸ hb)

theorem before_of_not_mem (h : mark ∉ l) : before mark l = l :=
  List.takeWhile_eq_self_iff.mpr (pass_of_not_mem h)

theorem behind_of_not_mem (h : mark ∉ l) : behind mark l = [] := by
  rw [behind, List.dropWhile_eq_nil_iff.mpr (pass_of_not_mem h), List.filter_nil]

/- The list up to its first mark, and what follows it. -/
theorem split_at_mark (h : mark ∈ l) : ∃ rest, l = before mark l ++ mark :: rest ∧
    l.dropWhile (· ≠ mark) = mark :: rest := by
  obtain ⟨xs, rest, rfl, hxs⟩ := List.eq_append_cons_of_mem h
  have hall := pass_of_not_mem hxs
  refine ⟨rest, ?_, ?_⟩
  · rw [before, List.takeWhile_append_of_pos hall]
    simp
  · rw [List.dropWhile_append_of_pos hall]
    simp

theorem before_append (h : mark ∈ l) (ys : List α) : before mark (l ++ ys) = before mark l := by
  obtain ⟨xs, rest, rfl, hxs⟩ := List.eq_append_cons_of_mem h
  have hall := pass_of_not_mem hxs
  rw [before, before, List.append_assoc, List.takeWhile_append_of_pos hall,
    List.takeWhile_append_of_pos hall]
  simp

theorem behind_append (h : mark ∈ l) (ys : List α) :
    behind mark (l ++ ys) = behind mark l ++ ys.filter (· ≠ mark) := by
  obtain ⟨xs, rest, rfl, hxs⟩ := List.eq_append_cons_of_mem h
  have hall := pass_of_not_mem hxs
  rw [behind, behind, List.append_assoc, List.dropWhile_append_of_pos hall,
    List.dropWhile_append_of_pos hall]
  simp

theorem before_snoc_mark (h : mark ∉ l) : before mark (l ++ [mark]) = l := by
  rw [before, List.takeWhile_append_of_pos (pass_of_not_mem h)]
  simp

theorem behind_snoc_mark (l : List α) : behind mark (l ++ [mark]) = behind mark l := by
  by_cases h : mark ∈ l
  · rw [behind_append h]
    simp
  · have hall : ∀ b ∈ l, decide (b ≠ mark) = true :=
      fun b hb => decide_eq_true fun hne => h (hne ▸ hb)
    rw [behind_of_not_mem h, behind, List.dropWhile_append_of_pos hall]
    simp

theorem before_length_lt (h : mark ∈ l) : (before mark l).length < l.length := by
  obtain ⟨rest, hl, _⟩ := split_at_mark h
  have hlen := congrArg List.length hl
  rw [List.length_append, List.length_cons] at hlen
  omega

theorem behind_length_le (l : List α) : (behind mark l).length ≤ l.length :=
  (List.filter_sublist.trans (List.dropWhile_sublist _)).length_le

/-- The two sides with the mark between them are the list when it has at most one mark. -/
theorem sides_eq_iff [BEq α] [LawfulBEq α] (l : List α) :
    (before mark l ++ if mark ∈ l then mark :: behind mark l else []) = l ↔
      l.count mark ≤ 1 := by
  by_cases h : mark ∈ l
  · obtain ⟨rest, hl, hdrop⟩ := split_at_mark h
    have hbefore : mark ∉ before mark l := by
      intro hmem
      have hne := List.all_eq_true.mp List.all_takeWhile mark hmem
      simp at hne
    have hbehind : behind mark l = rest.filter (· ≠ mark) := by
      rw [behind, hdrop]
      simp
    have hcount : l.count mark = rest.count mark + 1 := by
      rw [hl, List.count_append, List.count_eq_zero.mpr hbefore, List.count_cons_self,
        Nat.zero_add]
    have hrest : before mark l ++ mark :: rest.filter (· ≠ mark) = l ↔ mark ∉ rest := by
      constructor
      · intro heq hmem
        have hcancel := List.append_cancel_left (heq.trans hl)
        have hfilter := (List.cons.inj hcancel).2
        have hne := List.filter_eq_self.mp hfilter mark hmem
        simp at hne
      · intro hmem
        rw [List.filter_eq_self.mpr (pass_of_not_mem hmem)]
        exact hl.symm
    rw [if_pos h, hbehind, hcount, hrest, ← List.count_eq_zero]
    omega
  · rw [if_neg h, List.append_nil, before_of_not_mem h, List.count_eq_zero.mpr h]
    simp

end Mark

end SyeLabs.Words
