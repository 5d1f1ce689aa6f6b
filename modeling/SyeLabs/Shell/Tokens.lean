import SyeLabs.Library.ByteMemory
import SyeLabs.Library.Words
import Mathlib.Data.List.GetD

/-!
# The tokens of a line (`lab5/sh.c` and `lab7/sh.c`)

`tokens` is one array, slot after slot; a slot keeps the bytes of earlier lines behind
the string it holds now. `Memory` gives the array its bytes, `tokens[i]` from
`TOKEN_MAX * i` on.
-/

namespace SyeLabs.Shell

open ByteMemory (CStr Memory read write strcpy Holds)

def TOKEN_NR : ℕ := 10
def TOKEN_MAX : ℕ := 80
def ARGS_MAX : ℕ := 16
def FILE_MAX : ℕ := 30

def space : ByteMemory.Byte := 32#8

/-- What goes wrong where C leaves the behaviour undefined. -/
inductive Fault where
  /-- an access to `tokens` behind its last slot -/
  | tokenIndex (i : ℕ)
  /-- a copy that does not fit its slot -/
  | tokenOverflow
  /-- an access to `argv` or `argv2` behind its last entry -/
  | argIndex (i : ℕ)
  /-- a string function that is given NULL -/
  | nullString
  /-- a buffer without a zero byte -/
  | unterminated
  deriving DecidableEq

/-- `tokens[i]` as a string. -/
def token (m : Memory) (i : ℕ) : CStr := CStr.ofBytes (read m (TOKEN_MAX * i) TOKEN_MAX)

/-- `tokens[i][0] == 0` -/
def Blank (m : Memory) (i : ℕ) : Prop := m (TOKEN_MAX * i) = 0#8

instance (m : Memory) (i : ℕ) : Decidable (Blank m i) := inferInstanceAs (Decidable (_ = _))

/-- `strcpy(tokens[i], s)` -/
def copyToken (m : Memory) (i : ℕ) (s : CStr) : Except Fault Memory :=
  if TOKEN_NR ≤ i then .error (.tokenIndex i)
  else if TOKEN_MAX < s.bytes.length then .error .tokenOverflow
  else .ok (strcpy m (TOKEN_MAX * i) s)

/-- `strtok` with the delimiter `" "`: the next token and what is left for the next call. -/
def strtok (str : CStr) : Option (CStr × CStr) :=
  match h : Words.nextWord (· = space) str.val with
  | none => none
  | some (w, rest) =>
    some (⟨w, fun h0 => str.property ((Words.nextWord_subset h).1 h0)⟩,
      ⟨rest, fun h0 => str.property ((Words.nextWord_subset h).2 h0)⟩)

theorem strtok_none {str : CStr} (h : strtok str = none) :
    Words.nextWord (· = space) str.val = none := by
  unfold strtok at h
  split at h
  · assumption
  · cases h

theorem strtok_some {str next rest : CStr} (h : strtok str = some (next, rest)) :
    Words.nextWord (· = space) str.val = some (next.val, rest.val) := by
  unfold strtok at h
  split at h
  · cases h
  · rename_i hw
    cases h
    exact hw

theorem strtok_lt {str next rest : CStr} (h : strtok str = some (next, rest)) :
    rest.val.length < str.val.length := Words.nextWord_rest_lt (strtok_some h)

/- The loop of `parse_token`. -/
def parseLoop (m : Memory) (i : ℕ) (rest : CStr) : Except Fault Memory :=
  match _h : strtok rest with
  | none => .ok m
  | some (next, rest) =>
    match copyToken m i next with
    | .error f => .error f
    | .ok m => parseLoop m (i + 1) rest
  termination_by rest.val.length
  decreasing_by exact strtok_lt _h

def parseToken (m : Memory) (str : CStr) : Except Fault Memory :=
  match strtok str with
  | none => .ok m
  | some (next, rest) =>
    match copyToken m 0 next with
    | .error f => .error f
    | .ok m => parseLoop m 1 rest

/- The loop at the head of `main`'s loop. -/
def resetTokens (m : Memory) : Memory :=
  (List.range TOKEN_NR).foldl (fun m i => write m (TOKEN_MAX * i) [0#8]) m

/-- From the reset to the call of `process_cmd`. -/
def readLine (m : Memory) (userInput : CStr) : Except Fault Memory :=
  let m := resetTokens m
  if userInput.val ≠ [] then parseToken m userInput else .ok m

/-- The words of a line, separated by spaces. -/
def lineWords (line : CStr) : List (List ByteMemory.Byte) := Words.words (· = space) line.val

/-! ### Slots -/

variable {m m' : Memory} {i j : ℕ} {s : CStr}

theorem blank_iff : Blank m i ↔ (token m i).val = [] := by
  have hread : read m (TOKEN_MAX * i) TOKEN_MAX =
      m (TOKEN_MAX * i) :: read m (TOKEN_MAX * i + 1) 79 :=
    ByteMemory.read_add m (TOKEN_MAX * i) 1 79
  rw [Blank, token, hread]
  simp only [CStr.ofBytes, List.takeWhile_cons]
  by_cases hzero : m (TOKEN_MAX * i) = 0#8
  · simp [hzero]
  · simp [hzero]

theorem token_congr (h : ∀ x, TOKEN_MAX * i ≤ x → x < TOKEN_MAX * i + TOKEN_MAX → m' x = m x) :
    token m' i = token m i := by
  rw [token, token, ByteMemory.read_congr]
  exact fun k hk => h _ (Nat.le_add_right _ _) (Nat.add_lt_add_left hk _)

theorem token_strcpy_self (hs : s.bytes.length ≤ TOKEN_MAX) :
    token (strcpy m (TOKEN_MAX * i) s) i = s :=
  (ByteMemory.holds_write m _ _).reads hs

theorem token_write_other (hij : i ≠ j) {bs : List ByteMemory.Byte}
    (hs : bs.length ≤ TOKEN_MAX) : token (write m (TOKEN_MAX * i) bs) j = token m j := by
  apply token_congr
  intro x hle hlt
  apply ByteMemory.write_outside
  simp only [TOKEN_MAX] at *
  omega

theorem token_reset_self : (token (write m (TOKEN_MAX * i) [0#8]) i).val = [] := by
  apply blank_iff.mp
  exact ByteMemory.write_inside m _ [0#8] Nat.one_pos

theorem token_resetTokens (hi : i < TOKEN_NR) : (token (resetTokens m) i).val = [] := by
  have hloop : ∀ n, i < n → (token ((List.range n).foldl
      (fun m i => write m (TOKEN_MAX * i) [0#8]) m) i).val = [] := by
    intro n hn
    induction n with
    | zero => omega
    | succ n ih =>
      rw [List.range_succ, List.foldl_append, List.foldl_cons, List.foldl_nil]
      by_cases hlast : i = n
      · rw [hlast]
        exact token_reset_self
      · rw [token_write_other (Ne.symm hlast) (by decide)]
        exact ih (by omega)
  exact hloop TOKEN_NR hi

/-! ### The tokenizer -/

theorem copyToken_ok (hi : i < TOKEN_NR) (hs : s.val.length < TOKEN_MAX) :
    copyToken m i s = .ok (strcpy m (TOKEN_MAX * i) s) := by
  rw [copyToken, if_neg (Nat.not_le.mpr hi), if_neg]
  rw [CStr.bytes_length]
  omega

theorem copyToken_overrun : copyToken m TOKEN_NR s = .error (.tokenIndex TOKEN_NR) :=
  if_pos (Nat.le_refl _)

theorem parseToken_eq (m : Memory) (str : CStr) : parseToken m str = parseLoop m 0 str := by
  rw [parseToken, parseLoop]
  cases h : strtok str with
  | none => rfl
  | some p => rfl

theorem parseLoop_none {rest : CStr} (h : strtok rest = none) : parseLoop m i rest = .ok m := by
  rw [parseLoop]
  split
  · rfl
  · rename_i hsome
    rw [h] at hsome
    cases hsome

theorem parseLoop_some {rest next rest' : CStr} (h : strtok rest = some (next, rest')) :
    parseLoop m i rest = (copyToken m i next).bind fun m => parseLoop m (i + 1) rest' := by
  rw [parseLoop]
  split
  · rename_i hnone
    rw [h] at hnone
    cases hnone
  · rename_i hsome
    rw [h] at hsome
    cases hsome
    cases copyToken m i next <;> rfl

/-- The words go to the slots from `i` on, and the other slots keep their strings. -/
structure Parsed (m : Memory) (i : ℕ) (words : List (List ByteMemory.Byte)) (m' : Memory) :
    Prop where
  copied : ∀ j (h : j < words.length), (token m' (i + j)).val = words[j]
  kept : ∀ j, j < i ∨ i + words.length ≤ j → token m' j = token m j

theorem parseLoop_parsed {rest : CStr} (hlen : rest.val.length < TOKEN_MAX)
    (hwords : i + (lineWords rest).length ≤ TOKEN_NR) :
    ∃ m', parseLoop m i rest = .ok m' ∧ Parsed m i (lineWords rest) m' := by
  -- on the rest of the line; each round takes one word off it
  induction hn : rest.val.length using Nat.strongRecOn generalizing rest i m with
  | ind n ih =>
    cases hstrtok : strtok rest with
    | none =>
      refine ⟨m, parseLoop_none hstrtok, ?_⟩
      rw [lineWords, Words.nextWord_none (strtok_none hstrtok)]
      exact ⟨fun j hj => absurd hj (Nat.not_lt_zero j), fun j _ => rfl⟩
    | some p =>
      obtain ⟨next, rest'⟩ := p
      have hnext := strtok_some hstrtok
      have hline : lineWords rest = next.val :: lineWords rest' := Words.nextWord_some hnext
      have hle := Words.nextWord_length hnext
      rw [hline, List.length_cons] at hwords
      have hfits : next.bytes.length ≤ TOKEN_MAX := by
        rw [CStr.bytes_length]
        omega
      obtain ⟨m', hloop, hparsed⟩ := @ih rest'.val.length (hn ▸ strtok_lt hstrtok)
        (strcpy m (TOKEN_MAX * i) next) (i + 1) rest' (by omega) (by omega) rfl
      refine ⟨m', ?_, ?_, ?_⟩
      · rw [parseLoop_some hstrtok, copyToken_ok (by omega) (by omega)]
        exact hloop
      · intro j hj
        rw [hline] at hj
        simp only [hline]
        cases j with
        | zero =>
          have hkept := hparsed.kept i (.inl (Nat.lt_succ_self i))
          rw [Nat.add_zero, hkept, token_strcpy_self hfits]
          rfl
        | succ j =>
          have hcopied := hparsed.copied j (Nat.lt_of_succ_lt_succ hj)
          rw [Nat.add_assoc, Nat.add_comm 1 j] at hcopied
          exact hcopied
      · intro j hj
        rw [hline, List.length_cons] at hj
        rw [hparsed.kept j (by omega)]
        exact token_write_other (by omega) hfits

/-- With more words than slots, the first word too many is copied behind the array. -/
theorem parseLoop_overrun {rest : CStr} (hlen : rest.val.length < TOKEN_MAX)
    (hi : i ≤ TOKEN_NR) (hwords : TOKEN_NR < i + (lineWords rest).length) :
    parseLoop m i rest = .error (.tokenIndex TOKEN_NR) := by
  induction hn : rest.val.length using Nat.strongRecOn generalizing rest i m with
  | ind n ih =>
    cases hstrtok : strtok rest with
    | none =>
      rw [lineWords, Words.nextWord_none (strtok_none hstrtok), List.length_nil] at hwords
      omega
    | some p =>
      obtain ⟨next, rest'⟩ := p
      have hnext := strtok_some hstrtok
      have hline : lineWords rest = next.val :: lineWords rest' := Words.nextWord_some hnext
      have hle := Words.nextWord_length hnext
      rw [hline, List.length_cons] at hwords
      rw [parseLoop_some hstrtok]
      rcases Nat.lt_or_eq_of_le hi with hlt | rfl
      · rw [copyToken_ok hlt (by omega)]
        exact ih _ (hn ▸ strtok_lt hstrtok) (by omega) hlt (by omega) rfl
      · rw [copyToken_overrun]
        rfl

/-! ### Line after line -/

/-- The first slots hold the words in order, and the rest of the slots are empty. -/
def Holding (m : Memory) (words : List (List ByteMemory.Byte)) : Prop :=
  ∀ i < TOKEN_NR, (token m i).val = words.getD i []

variable {line : CStr}

theorem readLine_eq (m : Memory) (line : CStr) :
    readLine m line = parseLoop (resetTokens m) 0 line := by
  simp only [readLine]
  split_ifs with h
  · exact parseToken_eq _ _
  · have hnone : strtok line = none := by
      cases hstrtok : strtok line with
      | none => rfl
      | some p =>
        have hlt := strtok_lt hstrtok
        rw [not_not.mp h, List.length_nil] at hlt
        omega
    exact (parseLoop_none hnone).symm

theorem readLine_holding (m : Memory) (hlen : line.val.length < TOKEN_MAX)
    (hwords : (lineWords line).length ≤ TOKEN_NR) :
    ∃ m', readLine m line = .ok m' ∧ Holding m' (lineWords line) := by
  obtain ⟨m', hparse, hparsed⟩ :=
    parseLoop_parsed (m := resetTokens m) hlen (Nat.le_trans (Nat.le_of_eq (Nat.zero_add _)) hwords)
  refine ⟨m', (readLine_eq m line).trans hparse, fun i hi => ?_⟩
  by_cases hword : i < (lineWords line).length
  · have hcopied := hparsed.copied i hword
    rw [Nat.zero_add] at hcopied
    rw [hcopied, List.getD_eq_getElem _ _ hword]
  · rw [hparsed.kept i (by omega), token_resetTokens hi,
      List.getD_eq_default _ _ (Nat.le_of_not_lt hword)]

theorem exists_holding {words : List (List ByteMemory.Byte)} (h : lineWords line = words)
    (hlen : line.val.length < TOKEN_MAX) (hwords : words.length ≤ TOKEN_NR) :
    ∃ m, Holding m words := by
  obtain ⟨m, _, hm⟩ := readLine_holding (fun _ => 0#8) hlen (by rw [h]; exact hwords)
  exact ⟨m, h ▸ hm⟩

theorem readLine_overrun (m : Memory) (hlen : line.val.length < TOKEN_MAX)
    (hwords : TOKEN_NR < (lineWords line).length) :
    readLine m line = .error (.tokenIndex TOKEN_NR) := by
  rw [readLine_eq]
  exact parseLoop_overrun hlen (Nat.zero_le _) (by omega)

theorem Holding.blank_iff {words : List (List ByteMemory.Byte)} {i : ℕ} (h : Holding m words)
    (hi : i < TOKEN_NR) : Blank m i ↔ words.getD i [] = [] := by
  rw [Shell.blank_iff, h i hi]

theorem lineWords_ne_nil {w : List ByteMemory.Byte} (h : w ∈ lineWords line) : w ≠ [] :=
  Words.word_ne_nil h

theorem Holding.called_iff (h : Holding m (lineWords line)) :
    ¬ Blank m 0 ↔ lineWords line ≠ [] := by
  rw [h.blank_iff (by decide)]
  cases hwords : lineWords line with
  | nil => simp
  | cons w ws =>
    have hw : w ≠ [] := lineWords_ne_nil (hwords ▸ List.mem_cons_self)
    simpa using hw

/-- A round of `main`'s loop: the slots after `parse_token`, and whether `process_cmd` is
called, which writes to none of them. -/
structure Round where
  tokens : Memory
  called : Bool

def rounds (m : Memory) : List CStr → Except Fault (List Round)
  | [] => .ok []
  | line :: lines =>
    match readLine m line with
    | .error f => .error f
    | .ok m =>
      match rounds m lines with
      | .error f => .error f
      | .ok rs => .ok (⟨m, !decide (Blank m 0)⟩ :: rs)

/-- Line after line, the slots hold exactly the words of the line, and `process_cmd` is
called when there are any. -/
theorem tokens_exact (m : Memory) {lines : List CStr}
    (hlines : ∀ line ∈ lines, line.val.length < TOKEN_MAX ∧
      (lineWords line).length ≤ TOKEN_NR) :
    ∃ rs, rounds m lines = .ok rs ∧ List.Forall₂ (fun line r =>
      Holding r.tokens (lineWords line) ∧ (r.called ↔ lineWords line ≠ [])) lines rs := by
  induction lines generalizing m with
  | nil => exact ⟨[], rfl, .nil⟩
  | cons line lines ih =>
    obtain ⟨hlen, hwords⟩ := hlines line List.mem_cons_self
    obtain ⟨m', hread, hholding⟩ := readLine_holding m hlen hwords
    obtain ⟨rs, hrounds, hall⟩ := ih m' fun l hl => hlines l (List.mem_cons_of_mem line hl)
    refine ⟨⟨m', !decide (Blank m' 0)⟩ :: rs, ?_, .cons ⟨hholding, ?_⟩ hall⟩
    · simp only [rounds, hread, hrounds]
    · rw [← hholding.called_iff]
      simp

/- The lines ` ls -l` and `ps`. -/
theorem tokens_of_two_lines :
    ∃ rs, rounds (fun _ => 7#8)
        [⟨[32#8, 108#8, 115#8, 32#8, 45#8, 108#8], by decide⟩, ⟨[112#8, 115#8], by decide⟩] =
          .ok rs ∧
      List.Forall₂ (fun line r =>
        Holding r.tokens (lineWords line) ∧ (r.called ↔ lineWords line ≠ []))
        [⟨[32#8, 108#8, 115#8, 32#8, 45#8, 108#8], by decide⟩, ⟨[112#8, 115#8], by decide⟩] rs :=
  tokens_exact (fun _ => 7#8) (by decide)

end SyeLabs.Shell
