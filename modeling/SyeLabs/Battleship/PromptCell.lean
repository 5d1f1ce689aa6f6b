import SyeLabs.Battleship.Player
import SyeLabs.Library.Run

/-!
# The lines `promptCell` reads

The standard input is the list of the characters that are left of it. A forfeit is
not part of this module: the flag stays clear.
-/

namespace SyeLabs.Battleship

def newlineChar : Byte := 10#8

/-- At the end of the input the next call returns `EOF` again. -/
def getchar : List Byte → ℤ × List Byte
  | [] => (EOF, [])
  | b :: rest => (b.toNat, rest)

/- The loop ends with the input at the latest, since `EOF` ends it. -/
def clearInputBuffer : List Byte → List Byte
  | [] => []
  | b :: rest =>
    let c : ℤ := b.toNat
    if c ≠ newline ∧ c ≠ EOF then clearInputBuffer rest else rest

structure Prompt where
  value : ℤ
  out : List Printed
  input : List Byte

theorem clearInputBuffer_length_le (input : List Byte) :
    (clearInputBuffer input).length ≤ input.length := by
  induction input with
  | nil => exact Nat.le_refl _
  | cons b rest ih =>
    simp only [clearInputBuffer, List.length_cons]
    split_ifs <;> omega

/-- `none` is the loop that never ends. -/
def promptCell : List Byte → Option Prompt
  -- `EOF` is no digit: the loop prints its message and calls `getchar` again
  | [] => none
  | b :: rest =>
    let hexValue := charToHex b.toNat
    if hexValue ≠ -1 then some ⟨hexValue, [], clearInputBuffer rest⟩
    else (promptCell (clearInputBuffer rest)).map fun p =>
      {p with out := .text .invCellVal :: p.out}
  termination_by input => input.length
  decreasing_by exact Nat.lt_succ_of_le (clearInputBuffer_length_le rest)

structure Prompts where
  values : List ℤ
  out : List Printed
  input : List Byte

/-- One call of `promptCell` after the other. -/
def promptCells : ℕ → List Byte → Option Prompts
  | 0, input => some ⟨[], [], input⟩
  | n + 1, input =>
    (promptCell input).bind fun p => (promptCells n p.input).map fun ps =>
      ⟨p.value :: ps.values, p.out ++ ps.out, ps.input⟩

/-! ### Lines -/

/-- The characters `0` to `9`, `a` to `f` and `A` to `F` with their values. -/
inductive HexDigit : Byte → ℕ → Prop where
  | decimal (v : ℕ) : v < 10 → HexDigit (BitVec.ofNat 8 (48 + v)) v
  | lower (v : ℕ) : v < 6 → HexDigit (BitVec.ofNat 8 (97 + v)) (10 + v)
  | upper (v : ℕ) : v < 6 → HexDigit (BitVec.ofNat 8 (65 + v)) (10 + v)

/-- The lines before the first one that starts with a digit, the value of that digit
and what follows its line, which may be ended by the end of the input. -/
inductive FirstValid : List Byte → List (List Byte) → ℕ → List Byte → Prop where
  | here (d v line rest) : HexDigit d v → newlineChar ∉ line →
      FirstValid (d :: (line ++ newlineChar :: rest)) [] v rest
  | last (d v line) : HexDigit d v → newlineChar ∉ line → FirstValid (d :: line) [] v []
  | rejected (line rest lines v after) : newlineChar ∉ line →
      (∀ d v, HexDigit d v → line.head? ≠ some d) → FirstValid rest lines v after →
      FirstValid (line ++ newlineChar :: rest) (line :: lines) v after

/-- The same for as many valid lines as there are values. -/
inductive ValidLines : List Byte → List (List Byte) → List ℕ → List Byte → Prop where
  | nil (input) : ValidLines input [] [] input
  | cons (input lines v mid lines' vs rest) : FirstValid input lines v mid →
      ValidLines mid lines' vs rest → ValidLines input (lines ++ lines') (v :: vs) rest

theorem charToHex_of_hexDigit {d : Byte} {v : ℕ} (h : HexDigit d v) :
    charToHex d.toNat = v := by
  cases h with
  | decimal v hv =>
    have hd : (BitVec.ofNat 8 (48 + v)).toNat = 48 + v := by
      rw [BitVec.toNat_ofNat]
      omega
    rw [hd]
    simp only [charToHex, tolower]
    split_ifs <;> omega
  | lower v hv =>
    have hd : (BitVec.ofNat 8 (97 + v)).toNat = 97 + v := by
      rw [BitVec.toNat_ofNat]
      omega
    rw [hd]
    simp only [charToHex, tolower]
    split_ifs <;> omega
  | upper v hv =>
    have hd : (BitVec.ofNat 8 (65 + v)).toNat = 65 + v := by
      rw [BitVec.toNat_ofNat]
      omega
    rw [hd]
    simp only [charToHex, tolower]
    split_ifs <;> omega

theorem hexDigit_of_charToHex {d : Byte} (h : charToHex d.toNat ≠ -1) : ∃ v, HexDigit d v := by
  have hranges : (48 ≤ d.toNat ∧ d.toNat < 58) ∨ (97 ≤ d.toNat ∧ d.toNat < 103) ∨
      (65 ≤ d.toNat ∧ d.toNat < 71) := by
    simp only [charToHex, tolower] at h
    split_ifs at h <;> omega
  have hd : d = BitVec.ofNat 8 d.toNat := (BitVec.ofNat_toNat 8 d).symm
  rcases hranges with hdigit | hlower | hupper
  · have hv := HexDigit.decimal (d.toNat - 48) (by omega)
    rw [Nat.add_sub_cancel' hdigit.1, ← hd] at hv
    exact ⟨_, hv⟩
  · have hv := HexDigit.lower (d.toNat - 97) (by omega)
    rw [Nat.add_sub_cancel' hlower.1, ← hd] at hv
    exact ⟨_, hv⟩
  · have hv := HexDigit.upper (d.toNat - 65) (by omega)
    rw [Nat.add_sub_cancel' hupper.1, ← hd] at hv
    exact ⟨_, hv⟩

theorem hexDigit_ne_newline {d : Byte} {v : ℕ} (h : HexDigit d v) : d ≠ newlineChar := by
  intro hd
  have hv := charToHex_of_hexDigit h
  rw [hd] at hv
  have hnot : charToHex newlineChar.toNat = -1 := by decide
  omega

/-! ### `CLEAR_INPUT_BUFFER` -/

theorem clear_cons_newline (rest : List Byte) :
    clearInputBuffer (newlineChar :: rest) = rest := rfl

theorem clear_cons {b : Byte} (hb : b ≠ newlineChar) (rest : List Byte) :
    clearInputBuffer (b :: rest) = clearInputBuffer rest := by
  have hne : (b.toNat : ℤ) ≠ newline := by
    intro h
    apply hb
    apply BitVec.eq_of_toNat_eq
    have hten : newlineChar.toNat = 10 := by decide
    simp only [newline] at h
    omega
  have heof : (b.toNat : ℤ) ≠ EOF := by
    simp only [EOF]
    omega
  simp only [clearInputBuffer]
  rw [if_pos ⟨hne, heof⟩]

theorem clear_line {line : List Byte} (h : newlineChar ∉ line) (rest : List Byte) :
    clearInputBuffer (line ++ newlineChar :: rest) = rest := by
  induction line with
  | nil => exact clear_cons_newline rest
  | cons b line ih =>
    rw [List.mem_cons, not_or] at h
    rw [List.cons_append, clear_cons (Ne.symm h.1)]
    exact ih h.2

theorem clear_last {line : List Byte} (h : newlineChar ∉ line) : clearInputBuffer line = [] := by
  induction line with
  | nil => rfl
  | cons b line ih =>
    rw [List.mem_cons, not_or] at h
    rw [clear_cons (Ne.symm h.1)]
    exact ih h.2

/-- How many lines are left, an unfinished one included. -/
def lineCount : List Byte → ℕ
  | [] => 0
  | b :: rest =>
    if b = newlineChar then lineCount rest + 1 else lineCount (clearInputBuffer rest) + 1
  termination_by input => input.length
  decreasing_by
    · exact Nat.lt_succ_self _
    · exact Nat.lt_succ_of_le (clearInputBuffer_length_le rest)

theorem lineCount_nil : lineCount [] = 0 := by rw [lineCount]

theorem lineCount_cons (b : Byte) (rest : List Byte) :
    lineCount (b :: rest) = lineCount (clearInputBuffer (b :: rest)) + 1 := by
  rw [lineCount]
  split_ifs with hb
  · rw [hb, clear_cons_newline]
  · rw [clear_cons hb]

theorem lineCount_line {line : List Byte} (h : newlineChar ∉ line) (rest : List Byte) :
    lineCount (line ++ newlineChar :: rest) = lineCount rest + 1 := by
  cases line with
  | nil => rw [List.nil_append, lineCount_cons, clear_cons_newline]
  | cons b line => rw [List.cons_append, lineCount_cons, ← List.cons_append, clear_line h]

theorem lineCount_clear_le (input : List Byte) :
    lineCount (clearInputBuffer input) ≤ lineCount input := by
  cases input with
  | nil => exact Nat.le_refl _
  | cons b rest =>
    rw [lineCount_cons]
    omega

/-! ### What a call takes from the input -/

theorem promptCell_digit {d : Byte} {v : ℕ} (h : HexDigit d v) (rest : List Byte) :
    promptCell (d :: rest) = some ⟨v, [], clearInputBuffer rest⟩ := by
  have hv := charToHex_of_hexDigit h
  rw [promptCell]
  simp only [hv]
  rw [if_pos (by omega)]

theorem promptCell_other {d : Byte} (h : ∀ v, ¬ HexDigit d v) (rest : List Byte) :
    promptCell (d :: rest) = (promptCell (clearInputBuffer rest)).map fun p =>
      {p with out := .text .invCellVal :: p.out} := by
  have hv : charToHex d.toNat = -1 := by
    by_contra hne
    obtain ⟨v, hdigit⟩ := hexDigit_of_charToHex hne
    exact h v hdigit
  rw [promptCell]
  simp only [hv]
  rw [if_neg (by omega)]

theorem firstValid_lines {input lines after v} (h : FirstValid input lines v after) :
    lineCount input = lines.length + 1 + lineCount after := by
  induction h with
  | here d v line rest hd hline =>
    rw [lineCount_cons, clear_cons (hexDigit_ne_newline hd), clear_line hline]
    simp only [List.length_nil]
    omega
  | last d v line hd hline =>
    rw [lineCount_cons, clear_cons (hexDigit_ne_newline hd), clear_last hline]
    simp only [List.length_nil]
    omega
  | rejected line rest lines v after hline _ _ ih =>
    rw [lineCount_line hline, ih, List.length_cons]
    omega

/-- Every message and every value costs a line. -/
theorem promptCell_lines {input : List Byte} {p : Prompt} (h : promptCell input = some p) :
    p.out.length + 1 + lineCount p.input ≤ lineCount input := by
  induction input using promptCell.induct generalizing p with
  | case1 =>
    rw [promptCell] at h
    cases h
  | case2 b rest hexValue =>
    rename_i hne
    obtain ⟨v, hv⟩ := hexDigit_of_charToHex hne
    rw [promptCell_digit hv] at h
    obtain rfl := Option.some.inj h
    rw [lineCount_cons, clear_cons (hexDigit_ne_newline hv)]
    simp only [List.length_nil]
    omega
  | case3 b rest hexValue =>
    rename_i hne ih
    rw [promptCell, if_neg hne] at h
    obtain ⟨q, hq, rfl⟩ := Option.map_eq_some_iff.mp h
    have hrest := ih hq
    have hclear : lineCount (clearInputBuffer rest) + 1 ≤ lineCount (b :: rest) := by
      rw [lineCount]
      have hle := lineCount_clear_le rest
      split_ifs <;> omega
    simp only [List.length_cons]
    omega

/-- After non-empty lines the call ends exactly where the first valid line does. -/
theorem promptCell_exact {input lines after v} (h : FirstValid input lines v after)
    (hne : [] ∉ lines) :
    promptCell input = some ⟨v, List.replicate lines.length (.text .invCellVal), after⟩ := by
  induction h with
  | here d v line rest hd hline => rw [promptCell_digit hd, clear_line hline]; rfl
  | last d v line hd hline => rw [promptCell_digit hd, clear_last hline]; rfl
  | rejected line rest lines v after hline hhead _ ih =>
    rw [List.mem_cons, not_or] at hne
    cases line with
    | nil => exact absurd rfl hne.1
    | cons b line =>
      have hother : ∀ v, ¬ HexDigit b v := fun v hb => hhead b v hb rfl
      rw [List.mem_cons, not_or] at hline
      rw [List.cons_append, promptCell_other hother, clear_line hline.2, ih hne.2]
      rfl

/-- An empty line takes the next one with it. -/
theorem promptCell_swallows {input lines after v} (h : FirstValid input lines v after)
    (hmem : [] ∈ lines) {p : Prompt} (hp : promptCell input = some p) :
    p.out.length + 1 + lineCount p.input < lineCount input := by
  induction h generalizing p with
  | here d v line rest _ _ => cases hmem
  | last d v line _ _ => cases hmem
  | rejected line rest lines v after hline hhead hrest ih =>
    cases line with
    | nil =>
      have hnewline : ∀ v, ¬ HexDigit newlineChar v := fun v hv => hexDigit_ne_newline hv rfl
      rw [List.nil_append, promptCell_other hnewline] at hp
      obtain ⟨q, hq, rfl⟩ := Option.map_eq_some_iff.mp hp
      have hlines := promptCell_lines hq
      have hcount := firstValid_lines hrest
      cases rest with
      | nil =>
        rw [lineCount_nil] at hcount
        omega
      | cons b rest =>
        rw [lineCount_line hline, lineCount_cons]
        simp only [List.length_cons]
        omega
    | cons b line =>
      have hother : ∀ v, ¬ HexDigit b v := fun v hb => hhead b v hb rfl
      have hmem' : [] ∈ lines := by
        rcases List.mem_cons.mp hmem with hnil | hmem
        · cases hnil
        · exact hmem
      have hline' := hline
      rw [List.mem_cons, not_or] at hline'
      rw [List.cons_append, promptCell_other hother, clear_line hline'.2] at hp
      obtain ⟨q, hq, rfl⟩ := Option.map_eq_some_iff.mp hp
      have hlt := ih hmem' hq
      rw [lineCount_line hline]
      simp only [List.length_cons]
      omega

theorem exists_firstValid {before : List Byte} {d : Byte} {v : ℕ} (rest : List Byte)
    (hd : HexDigit d v) (hbefore : before = [] ∨ before.getLast? = some newlineChar) :
    ∃ lines value after, FirstValid (before ++ d :: rest) lines value after := by
  -- the induction takes one line off what stands before the digit
  induction hlen : before.length using Nat.strong_induction_on generalizing before with
  | _ n ih =>
    rcases hbefore with rfl | hlast
    · rw [List.nil_append]
      by_cases hmem : newlineChar ∈ rest
      · obtain ⟨line, after, rfl, hline⟩ := List.eq_append_cons_of_mem hmem
        exact ⟨[], v, after, .here d v line after hd hline⟩
      · exact ⟨[], v, [], .last d v rest hd hmem⟩
    · obtain ⟨line, before', rfl, hline⟩ :=
        List.eq_append_cons_of_mem (List.mem_of_getLast? hlast)
      rw [List.append_assoc, List.cons_append]
      by_cases hvalid : ∃ b w, HexDigit b w ∧ line.head? = some b
      · obtain ⟨b, w, hb, hhead⟩ := hvalid
        cases line with
        | nil => cases hhead
        | cons c line =>
          obtain rfl := Option.some.inj hhead
          rw [List.mem_cons, not_or] at hline
          exact ⟨[], w, before' ++ d :: rest, .here c w line _ hb hline.2⟩
      · have hbefore' : before' = [] ∨ before'.getLast? = some newlineChar := by
          cases before' with
          | nil => exact .inl rfl
          | cons b before' =>
            right
            rw [List.getLast?_append, List.getLast?_cons_cons] at hlast
            rw [← hlast]
            simp [List.getLast?_cons]
        have hlt : before'.length < n := by
          rw [← hlen, List.length_append, List.length_cons]
          omega
        obtain ⟨lines, value, after, hvalid'⟩ := ih _ hlt hbefore' rfl
        refine ⟨line :: lines, value, after, .rejected line _ lines value after hline ?_ hvalid'⟩
        exact fun b w hb hhead => hvalid ⟨b, w, hb, hhead⟩

theorem validLines_lines {input lines vs after} (h : ValidLines input lines vs after) :
    lineCount input = lines.length + vs.length + lineCount after := by
  induction h with
  | nil input =>
    simp only [List.length_nil]
    omega
  | cons input lines v mid lines' vs rest hfirst _ ih =>
    rw [firstValid_lines hfirst, ih, List.length_append, List.length_cons]
    omega

theorem promptCells_lines {n : ℕ} {input : List Byte} {ps : Prompts}
    (h : promptCells n input = some ps) :
    ps.out.length + n + lineCount ps.input ≤ lineCount input := by
  induction n generalizing input ps with
  | zero =>
    cases h
    simp only [List.length_nil]
    omega
  | succ n ih =>
    obtain ⟨p, hp, hmap⟩ := Option.bind_eq_some_iff.mp h
    obtain ⟨qs, hqs, rfl⟩ := Option.map_eq_some_iff.mp hmap
    have hfirst := promptCell_lines hp
    have hrest := ih hqs
    simp only [List.length_append]
    omega

/-- Successive calls read successive valid lines, one message for each line in between,
exactly when no line before the last one they read is empty. -/
theorem prompt_line_by_line {input lines values after}
    (h : ValidLines input lines values after) :
    promptCells values.length input =
        some ⟨values.map Int.ofNat, List.replicate lines.length (.text .invCellVal), after⟩ ↔
      [] ∉ lines := by
  induction h with
  | nil input => exact ⟨fun _ => List.not_mem_nil, fun _ => rfl⟩
  | cons input lines v mid lines' vs rest hfirst hvalid ih =>
    have hcount := validLines_lines (.cons input lines v mid lines' vs rest hfirst hvalid)
    rw [List.mem_append, not_or]
    constructor
    · intro hcalls
      obtain ⟨p, hp, hmap⟩ := Option.bind_eq_some_iff.mp hcalls
      obtain ⟨qs, hqs, heq⟩ := Option.map_eq_some_iff.mp hmap
      have hout := congrArg (·.out) heq
      have hinput := congrArg (·.input) heq
      have hvalues := congrArg (·.values) heq
      simp only [List.map_cons] at hout hinput hvalues
      have hrest := promptCells_lines hqs
      have hlen := congrArg List.length hout
      rw [List.length_append, List.length_replicate] at hlen
      rw [List.length_cons] at hcount
      have hfirstLines : [] ∉ lines := by
        -- otherwise the calls would have used up fewer lines than they did
        intro hmem
        have hlt := promptCell_swallows hfirst hmem hp
        rw [hinput] at hrest
        omega
      refine ⟨hfirstLines, ih.mp ?_⟩
      rw [promptCell_exact hfirst hfirstLines] at hp
      obtain rfl := Option.some.inj hp
      rw [hqs]
      rw [List.length_append, List.replicate_add] at hout
      have hout' := List.append_cancel_left hout
      rw [← hout', ← (List.cons.inj hvalues).2, ← hinput]
    · rintro ⟨hlines, hlines'⟩
      rw [List.length_cons, promptCells, promptCell_exact hfirst hlines, Option.bind_some,
        ih.mpr hlines', Option.map_some, List.length_append, List.replicate_add]
      rfl

theorem prompt_one_rejected_line :
    promptCells 1 [120#8, 10#8, 53#8, 10#8] = some ⟨[5], [.text .invCellVal], []⟩ ↔
      [] ∉ [[120#8]] :=
  prompt_line_by_line (.cons [120#8, 10#8, 53#8, 10#8] [[120#8]] 5 [] [] [] []
    (.rejected [120#8] [53#8, 10#8] [] 5 [] (by decide)
      (fun d v hd hhead => by
        obtain rfl := Option.some.inj hhead
        have hv := charToHex_of_hexDigit hd
        have hnot : charToHex (120#8).toNat = -1 := by decide
        omega)
      (.here 53#8 5 [] [] (.decimal 5 (by decide)) (by decide)))
    (.nil []))

/- The first valid line is `5`; the call reads it as the rest of the empty line. -/
theorem empty_line_swallows_valid_line :
    ValidLines [10#8, 53#8, 10#8, 55#8, 10#8] [[]] [5] [55#8, 10#8] ∧
      promptCells 1 [10#8, 53#8, 10#8, 55#8, 10#8] = some ⟨[7], [.text .invCellVal], []⟩ := by
  constructor
  · refine .cons _ [[]] 5 [55#8, 10#8] [] [] _ ?_ (.nil _)
    refine .rejected [] [53#8, 10#8, 55#8, 10#8] [] 5 _ (by decide) (fun d v _ h => by cases h) ?_
    exact .here 53#8 5 [] [55#8, 10#8] (.decimal 5 (by decide)) (by decide)
  · have hnewline : ∀ v, ¬ HexDigit 10#8 v := fun v hv => hexDigit_ne_newline hv rfl
    have hseven : HexDigit 55#8 7 := .decimal 7 (by decide)
    rw [promptCells, promptCell_other hnewline]
    have hclear : clearInputBuffer [53#8, 10#8, 55#8, 10#8] = [55#8, 10#8] := by decide
    rw [hclear, promptCell_digit hseven]
    rfl

/-! ### The call as steps of a player -/

namespace Player

variable {p : Player} {input : List Byte}

/-- A step inside `promptCell`: `getchar` takes its character from the input. -/
def promptStep (s : Player × List Byte) (_ : Unit) : Option (Player × List Byte) :=
  match s.1.pc with
  | .flagTest _ => (s.1.step .tau).map (·, s.2)
  | .getchar | .clearBuffer _ =>
    (s.1.step (.input (getchar s.2).1)).map (·, (getchar s.2).2)
  | _ => none

theorem promptStep_getchar (input : List Byte) (hpc : p.pc = .getchar) :
    promptStep (p, input) () =
      some ({p with pc := .flagTest (charToHex (getchar input).1)}, (getchar input).2) := by
  simp only [promptStep, hpc, step]
  rfl

theorem promptStep_flagTest {v : ℤ} (input : List Byte) (hpc : p.pc = .flagTest v) :
    promptStep (p, input) () = some (p.testFlag v, input) := by
  simp only [promptStep, hpc, step]
  rfl

theorem promptStep_clearBuffer {v : ℤ} (hpc : p.pc = .clearBuffer v) :
    promptStep (p, input) () =
      some (p.clearBuffer v (getchar input).1, (getchar input).2) := by
  simp only [promptStep, hpc, step]
  rfl

theorem clear_run {v : ℤ} (input : List Byte) (hpc : p.pc = .clearBuffer v) :
    ∃ es, Run.exec promptStep (p, input) es =
      some (p.bufferCleared v, clearInputBuffer input) := by
  induction input with
  | nil =>
    refine ⟨[()], ?_⟩
    rw [Run.exec_cons, promptStep_clearBuffer hpc]
    rfl
  | cons b rest ih =>
    have hstep : promptStep (p, b :: rest) () = some (p.clearBuffer v b.toNat, rest) :=
      promptStep_clearBuffer hpc
    by_cases hb : (b.toNat : ℤ) ≠ newline ∧ (b.toNat : ℤ) ≠ EOF
    · obtain ⟨es, hes⟩ := ih
      refine ⟨() :: es, ?_⟩
      rw [Run.exec_cons, hstep, clearBuffer, if_pos hb, Option.bind_some, hes]
      simp only [clearInputBuffer]
      rw [if_pos hb]
    · refine ⟨[()], ?_⟩
      rw [Run.exec_cons, hstep, clearBuffer, if_neg hb]
      simp only [clearInputBuffer]
      rw [if_neg hb]
      rfl

theorem afterPrompt_pc (pc : Pc) (value : Byte) :
    ({p with pc := pc} : Player).afterPrompt value = p.afterPrompt value := by
  unfold afterPrompt
  rfl

theorem bufferCleared_rejected (hpc : p.pc = .getchar) {v : ℤ} (hv : v = -1) (pc pc' : Pc) :
    ({({p with pc := pc} : Player).print [.text .invCellVal] with pc := pc'} :
      Player).bufferCleared v = p.print [.text .invCellVal] := by
  rw [bufferCleared, if_neg (not_not_intro hv)]
  simp only [print, ← hpc]

/-- One round of the loop. -/
theorem prompt_round {v : ℤ} (hv : v = charToHex (getchar input).1) (hpc : p.pc = .getchar)
    (hflag : p.forfeitFlag = false) :
    ∃ es, es ≠ [] ∧ Run.exec promptStep (p, input) es =
      some (if v ≠ -1 then p.afterPrompt (BitVec.ofInt 8 v) else p.print [.text .invCellVal],
        clearInputBuffer (getchar input).2) := by
  have hread := promptStep_getchar input hpc
  rw [← hv] at hread
  have hflagTest : ({p with pc := .flagTest v} : Player).pc = .flagTest v := rfl
  have htest := promptStep_flagTest (getchar input).2 hflagTest
  by_cases hdigit : v ≠ -1
  · have hnext : ({p with pc := .flagTest v} : Player).testFlag v =
        {p with pc := .clearBuffer v} := by
      simp [testFlag, hflag, hdigit]
    rw [hnext] at htest
    have hclear : ({p with pc := .clearBuffer v} : Player).pc = .clearBuffer v := rfl
    obtain ⟨es, hes⟩ := clear_run (getchar input).2 hclear
    refine ⟨() :: () :: es, List.cons_ne_nil _ _, ?_⟩
    rw [Run.exec_cons, hread, Option.bind_some, Run.exec_cons, htest, Option.bind_some, hes,
      bufferCleared, if_pos hdigit, if_pos hdigit, afterPrompt_pc]
  · have hnext : ({p with pc := .flagTest v} : Player).testFlag v =
        {({p with pc := .flagTest v} : Player).print [.text .invCellVal] with
          pc := .clearBuffer v} := by
      simp [testFlag, hflag, hdigit]
    rw [hnext] at htest
    have hclear : ({({p with pc := .flagTest v} : Player).print [.text .invCellVal] with
        pc := .clearBuffer v} : Player).pc = .clearBuffer v := rfl
    obtain ⟨es, hes⟩ := clear_run (getchar input).2 hclear
    refine ⟨() :: () :: es, List.cons_ne_nil _ _, ?_⟩
    rw [Run.exec_cons, hread, Option.bind_some, Run.exec_cons, htest, Option.bind_some, hes,
      bufferCleared_rejected hpc (not_not.mp hdigit), if_neg hdigit]

/-- At the end of the input the loop comes round for ever. -/
theorem prompt_at_eof (hpc : p.pc = .getchar) (hflag : p.forfeitFlag = false) :
    ∃ es, es ≠ [] ∧
      Run.exec promptStep (p, []) es = some (p.print [.text .invCellVal], []) := by
  obtain ⟨es, hne, hes⟩ := prompt_round rfl hpc hflag
  exact ⟨es, hne, hes⟩

/-- The player goes on with the value of the call, and the input where the call left it. -/
theorem promptCell_run {q : Prompt} (hpc : p.pc = .getchar) (hflag : p.forfeitFlag = false)
    (h : promptCell input = some q) :
    ∃ es, Run.exec promptStep (p, input) es =
      some ((p.print q.out).afterPrompt (BitVec.ofInt 8 q.value), q.input) := by
  induction input using promptCell.induct generalizing p q with
  | case1 =>
    rw [promptCell] at h
    cases h
  | case2 b rest hexValue =>
    rename_i hne
    rw [promptCell, if_pos hne] at h
    obtain rfl := Option.some.inj h
    have hread : hexValue = charToHex (getchar (b :: rest)).1 := rfl
    obtain ⟨es, _, hes⟩ := prompt_round hread hpc hflag
    refine ⟨es, hes.trans ?_⟩
    rw [if_pos hne]
    simp only [print, List.append_nil]
    rfl
  | case3 b rest hexValue =>
    rename_i hne ih
    rw [promptCell, if_neg hne] at h
    obtain ⟨q, hq, rfl⟩ := Option.map_eq_some_iff.mp h
    have hread : hexValue = charToHex (getchar (b :: rest)).1 := rfl
    obtain ⟨es, _, hes⟩ := prompt_round hread hpc hflag
    rw [if_neg hne] at hes
    have hprinted : (p.print [.text .invCellVal]).pc = .getchar := hpc
    obtain ⟨fs, hfs⟩ := ih hprinted hflag hq
    refine ⟨es ++ fs, ?_⟩
    rw [Run.exec_append, hes, Option.bind_some]
    refine hfs.trans ?_
    simp only [print, List.append_assoc, List.singleton_append]

end Player

end SyeLabs.Battleship
