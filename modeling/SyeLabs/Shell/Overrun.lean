import SyeLabs.Shell.Arguments

/-!
# Which lines overrun the arrays of the shell (`lab5/sh.c` and `lab7/sh.c`)

An empty slot ends the loops over the tokens, so a line of ten words leaves them
without an end. The commands of the shell itself do not get that far.
-/

namespace SyeLabs.Shell

open ByteMemory (CStr Memory)
open Interaction (Prog)
open Interaction.Prog (ends_done ends_call ends_act ends_attempt)

/-- The faults of an access or a copy that leaves its array. -/
def Outcome.overruns : Outcome → Bool
  | .fault (.tokenIndex _) | .fault .tokenOverflow | .fault (.argIndex _) => true
  | _ => false

def InBounds (p : Cmd) : Prop := p.Ends fun o => o.overruns = false

def builtinNames : List (List ByteMemory.Byte) :=
  [literal ['d', 'u', 'm', 'p', 's', 'c', 'h', 'e', 'd'],
    literal ['d', 'u', 'm', 'p', 'p', 'r', 'o', 'c'], literal ['e', 'x', 'i', 't'],
    literal ['s', 'e', 't', 'e', 'n', 'v'], literal ['e', 'n', 'v'],
    literal ['k', 'i', 'l', 'l']]

variable {m : Memory} {stack : Stack} {self pid : ℤ} {line : CStr}
  {ws : List (List ByteMemory.Byte)}

theorem inBounds_returned : InBounds returned := ends_done rfl

theorem inBounds_exit (status : ℤ) : InBounds (exit status) := ends_done rfl

/-! ### The commands of the shell -/

theorem builtins_launch (h : (token m 0).val ∉ builtinNames) (launch : Cmd) :
    builtins m self pid launch = launch := by
  simp only [builtinNames, List.mem_cons, List.not_mem_nil, or_false, not_or] at h
  obtain ⟨hsched, hproc, hexit, hsetenv, henv, hkill⟩ := h
  simp only [builtins]
  rw [if_neg hsched, if_neg hproc, if_neg hexit, if_neg hsetenv, if_neg henv, if_neg hkill]

theorem builtins_inBounds (h : (token m 0).val ∈ builtinNames) (launch : Cmd) :
    InBounds (builtins m self pid launch) := by
  simp only [builtins]
  split_ifs with hsched hproc hexit hself hsetenv hname hvalue henv hkill
  · exact ends_act inBounds_returned
  · exact ends_act inBounds_returned
  · exact ends_act inBounds_returned
  · exact inBounds_exit 0
  · exact inBounds_returned
  · exact ends_act inBounds_returned
  · exact ends_act inBounds_returned
  · exact ends_act inBounds_returned
  · exact ends_act inBounds_returned
  · simp [builtinNames, hsched, hproc, hexit, hsetenv, henv, hkill] at h

/-! ### Names and vectors -/

theorem strcat_error {filename : Memory} {reach : ℕ} {suffix : List ByteMemory.Byte} {f : Fault}
    (h : strcat filename reach suffix = .error f) : f = .unterminated := by
  unfold strcat at h
  split at h
  · exact (Except.error.inj h).symm
  · cases h

theorem argsFrom_error {argv : ℕ → Option CStr} {i n : ℕ} {f : Fault}
    (h : argsFrom argv i n = .error f) : f = .unterminated := by
  induction n generalizing i with
  | zero => exact (Except.error.inj h).symm
  | succ n ih =>
    simp only [argsFrom] at h
    split at h
    · cases h
    · split at h
      · rename_i hrest
        cases h
        exact ih hrest
      · cases h

theorem argList_error {argv : ℕ → Option CStr} {f : Fault} (h : argList argv = .error f) :
    f = .unterminated := argsFrom_error h

/-- Of a round of `main`'s loop on a line with no more words than slots. -/
theorem mainRound_eq (cmd : Memory → Stack → ℤ → Cmd) (m : Memory) (stack : Stack) (self : ℤ)
    (hlen : line.val.length < TOKEN_MAX) (hwords : (lineWords line).length ≤ TOKEN_NR) :
    ∃ m', Holding m' (lineWords line) ∧
      mainRound cmd m stack self line =
        if lineWords line ≠ [] then cmd m' stack self else returned := by
  obtain ⟨m', hread, hm⟩ := readLine_holding m hlen hwords
  refine ⟨m', hm, ?_⟩
  simp only [mainRound, hread, Prog.attempt_ok, hm.called_iff]

theorem mainRound_overrun {cmd : Memory → Stack → ℤ → Cmd} (m : Memory) (stack : Stack)
    (self : ℤ) (hlen : line.val.length < TOKEN_MAX)
    (hwords : TOKEN_NR < (lineWords line).length) :
    ¬ InBounds (mainRound cmd m stack self line) := by
  intro h
  have hend := h fun _ => ⟨0, (0, 0)⟩
  simp only [mainRound, readLine_overrun m hlen hwords, Prog.attempt_error] at hend
  cases hend

theorem Holding.name (hm : Holding m ws) : (token m 0).val = ws.getD 0 [] :=
  hm 0 (by decide)

namespace Lab7

theorem buildName_error {name : Option CStr} {f : Fault} (h : buildName stack name = .error f) :
    (Outcome.fault f).overruns = false := by
  cases name with
  | none =>
    cases h
    rfl
  | some name =>
    rw [strcat_error h]
    rfl

theorem execute_inBounds (argv : ℕ → Option CStr) {onFailure : CStr → Cmd}
    (h : ∀ name, InBounds (onFailure name)) : InBounds (execute stack argv onFailure) := by
  apply ends_attempt
  · exact fun f hf => buildName_error hf
  intro filename _
  apply ends_attempt
  · intro f hf
    rw [argList_error hf]
    rfl
  intro args _
  apply ends_call
  intro a
  split_ifs
  · cases argv 0 with
    | none => exact ends_done rfl
    | some name => exact h name
  · exact ends_done rfl

variable (s : Scan) (pipeFd : ℤ × ℤ)

theorem child1_inBounds : InBounds (child1 stack s pipeFd) := by
  unfold child1
  split_ifs
  · exact ends_act (ends_act (execute_inBounds _ fun _ => ends_act (inBounds_exit _)))
  · exact execute_inBounds _ fun _ => ends_act (inBounds_exit _)

theorem child2_inBounds : InBounds (child2 stack s pipeFd) :=
  ends_act (ends_act (execute_inBounds _ fun _ => ends_act (ends_act (inBounds_exit _))))

theorem rightHand_inBounds : InBounds (rightHand stack s pipeFd) := by
  apply ends_call
  intro a
  split_ifs
  · exact ends_act (inBounds_exit _)
  · exact child2_inBounds s pipeFd
  · exact ends_act (ends_act (ends_act inBounds_returned))

theorem forkChildren_inBounds : InBounds (forkChildren stack s pipeFd) := by
  apply ends_call
  intro a
  split_ifs
  · exact ends_act (ends_act (ends_act (inBounds_exit _)))
  · exact ends_act (inBounds_exit _)
  · exact child1_inBounds s pipeFd
  · exact ends_act (rightHand_inBounds s pipeFd)
  · exact ends_act inBounds_returned

theorem launch_inBounds (hm : Holding m ws) (hne : [] ∉ ws) (hlen : ws.length < TOKEN_NR) :
    InBounds (launch m stack) := by
  obtain ⟨s, s', hscan, hend, _⟩ := scan_vectors stack hm hne hlen
  simp only [launch, hscan, hend, Prog.attempt_ok]
  split_ifs
  · apply ends_call
    intro a
    split_ifs
    · exact ends_act (inBounds_exit _)
    · exact forkChildren_inBounds s' a.fds
  · exact forkChildren_inBounds s' stack.pipeFd

theorem launch_overruns (hm : Holding m ws) (hne : [] ∉ ws) (hlen : ws.length = TOKEN_NR) :
    ¬ InBounds (launch m stack) := by
  have hspec := scanTokens_spec hm hne (Nat.le_of_eq hlen) (Nat.zero_le _)
    (scanned_nil stack.argv stack.argv2)
  rw [if_neg (by omega)] at hspec
  intro h
  have hend := h fun _ => ⟨0, (0, 0)⟩
  simp only [launch, hspec, Prog.attempt_error] at hend
  cases hend

end Lab7

namespace Lab5

theorem buildName_error {name : CStr} {f : Fault} (h : buildName stack name = .error f) :
    f = .unterminated := strcat_error h

theorem child_inBounds (argv : ℕ → Option CStr) : InBounds (child m stack argv) := by
  apply ends_attempt
  · intro f hf
    rw [buildName_error hf]
    rfl
  intro filename _
  apply ends_attempt
  · intro f hf
    rw [argList_error hf]
    rfl
  intro args _
  apply ends_call
  intro a
  split_ifs
  · exact ends_act (inBounds_exit _)
  · exact ends_done rfl

/-- What ends the loop at a slot. -/
def Stops (m : Memory) (i : ℕ) : Prop := Blank m i ∨ (token m i).val = ampersand

theorem scanTokens_stops {s : Scan} (h : ∃ i, s.argPos ≤ i ∧ i < TOKEN_NR ∧ Stops m i) :
    ∃ s', scanTokens m s = .ok s' ∧ s'.argPos < TOKEN_NR := by
  obtain ⟨i, hle, hlt, hstop⟩ := h
  induction hn : TOKEN_NR - s.argPos generalizing s with
  | zero => omega
  | succ n ih =>
    rw [scanTokens, if_neg (by omega)]
    split_ifs with hblank hand
    · exact ⟨s, rfl, by omega⟩
    · exact ⟨_, rfl, by simp only; omega⟩
    · have hnext : s.argPos + 1 ≤ i := by
        rcases Nat.lt_or_eq_of_le hle with hlt | heq
        · exact hlt
        · rw [← heq] at hstop
          rcases hstop with h | h <;> contradiction
      rw [setArg_ok _ (Nat.lt_of_lt_of_le (by omega) (show TOKEN_NR ≤ ARGS_MAX by decide))]
      exact ih hnext (by simp only; omega)

theorem scanTokens_overrun {s : Scan} (hle : s.argPos ≤ TOKEN_NR)
    (h : ∀ i, s.argPos ≤ i → i < TOKEN_NR → ¬ Stops m i) :
    scanTokens m s = .error (.tokenIndex TOKEN_NR) := by
  induction hn : TOKEN_NR - s.argPos generalizing s with
  | zero =>
    have heq : s.argPos = TOKEN_NR := by omega
    rw [scanTokens, if_pos (by omega), heq]
  | succ n ih =>
    have hnot := h s.argPos (Nat.le_refl _) (by omega)
    rw [Stops, not_or] at hnot
    rw [scanTokens, if_neg (by omega), if_neg hnot.1, if_neg hnot.2,
      setArg_ok _ (Nat.lt_of_lt_of_le (by omega) (show TOKEN_NR ≤ ARGS_MAX by decide))]
    exact ih (by simp only; omega) (fun i hi hlt => h i (by simp only at hi; omega) hlt)
      (by simp only; omega)

/- With a word in every slot, only `&` stops the loop. -/
theorem stops_iff (hm : Holding m ws) (hne : [] ∉ ws) (hlen : ws.length ≤ TOKEN_NR) :
    (∃ i, 0 ≤ i ∧ i < TOKEN_NR ∧ Stops m i) ↔ ws.length < TOKEN_NR ∨ ampersand ∈ ws := by
  constructor
  · rintro ⟨i, _, hlt, hstop⟩
    by_cases hi : i < ws.length
    · right
      rw [Stops, hm.blank_iff hlt, hm i hlt, List.getD_eq_getElem _ _ hi] at hstop
      rcases hstop with hnil | hand
      · exact absurd (hnil ▸ List.getElem_mem hi) hne
      · exact hand ▸ List.getElem_mem hi
    · exact .inl (by omega)
  · rintro (hlt | hmem)
    · refine ⟨ws.length, Nat.zero_le _, hlt, .inl ?_⟩
      rw [hm.blank_iff hlt, List.getD_eq_default _ _ (Nat.le_refl _)]
    · obtain ⟨i, hi, heq⟩ := List.getElem_of_mem hmem
      refine ⟨i, Nat.zero_le _, by omega, .inr ?_⟩
      rw [hm i (by omega), List.getD_eq_getElem _ _ hi, heq]

theorem launch_inBounds_iff (hm : Holding m ws) (hne : [] ∉ ws) (hlen : ws.length ≤ TOKEN_NR) :
    InBounds (launch m stack) ↔ ws.length < TOKEN_NR ∨ ampersand ∈ ws := by
  rw [← stops_iff hm hne hlen]
  constructor
  · intro hbounds
    by_contra hnot
    have hscan : scanTokens m ⟨stack.argv, false, 0⟩ = .error (.tokenIndex TOKEN_NR) :=
      scanTokens_overrun (Nat.zero_le _) fun i hi hlt hstop => hnot ⟨i, hi, hlt, hstop⟩
    have hend := hbounds fun _ => ⟨0, (0, 0)⟩
    simp only [launch, hscan, Prog.attempt_error] at hend
    cases hend
  · intro hstop
    obtain ⟨s', hscan, hpos⟩ := @scanTokens_stops m ⟨stack.argv, false, 0⟩ hstop
    simp only [launch, hscan, Prog.attempt_ok,
      setArg_ok none (Nat.lt_trans hpos (show TOKEN_NR < ARGS_MAX by decide))]
    apply ends_call
    intro a
    split_ifs
    · exact child_inBounds _
    · exact inBounds_returned
    · exact ends_act inBounds_returned

end Lab5

/-! ### Both shells -/

/-- When `launch` stays in its bounds on the words in `P`, so does the round on the line. -/
theorem mainRound_inBounds_iff {launch : Memory → Stack → Cmd}
    {P : List (List ByteMemory.Byte) → Prop}
    (hlaunch : ∀ m ws, Holding m ws → [] ∉ ws → ws.length ≤ TOKEN_NR →
      (InBounds (launch m stack) ↔ P ws))
    (hlen : line.val.length < TOKEN_MAX) (hempty : P []) :
    InBounds (mainRound (fun m stack self => builtins m self stack.pid (launch m stack))
        m stack self line) ↔
      (lineWords line).length ≤ TOKEN_NR ∧
        ((lineWords line).getD 0 [] ∈ builtinNames ∨ P (lineWords line)) := by
  by_cases hwords : (lineWords line).length ≤ TOKEN_NR
  · obtain ⟨m', hm, hround⟩ := mainRound_eq
      (fun m stack self => builtins m self stack.pid (launch m stack)) m stack self hlen hwords
    rw [hround]
    have hne : [] ∉ lineWords line := fun h => lineWords_ne_nil h rfl
    split_ifs with hcalled
    · by_cases hname : (lineWords line).getD 0 [] ∈ builtinNames
      · have hbuiltin : InBounds (builtins m' self stack.pid (launch m' stack)) :=
          builtins_inBounds (hm.name ▸ hname) _
        exact ⟨fun _ => ⟨hwords, .inl hname⟩, fun _ => hbuiltin⟩
      · rw [builtins_launch (hm.name ▸ hname), hlaunch m' _ hm hne hwords]
        exact ⟨fun h => ⟨hwords, .inr h⟩, fun h => h.2.resolve_left hname⟩
    · rw [not_not.mp hcalled]
      exact ⟨fun _ => ⟨Nat.zero_le _, .inr hempty⟩, fun _ => inBounds_returned⟩
  · have hnot := @mainRound_overrun line
      (fun m stack self => builtins m self stack.pid (launch m stack)) m stack self hlen
      (Nat.lt_of_not_le hwords)
    exact ⟨fun h => absurd h hnot, fun h => absurd h.1 hwords⟩

/-- A line keeps to the arrays of the shells exactly when it has at most nine words, or ten
of which the first is a command of the shell itself; in the first shell a `&` will do. -/
theorem tokens_inBounds_iff (m : Memory) (stack : Stack) (self : ℤ)
    (hlen : line.val.length < TOKEN_MAX) :
    (InBounds (mainRound Lab7.processCmd m stack self line) ↔
      (lineWords line).length ≤ TOKEN_NR ∧
        ((lineWords line).getD 0 [] ∈ builtinNames ∨ (lineWords line).length < TOKEN_NR)) ∧
    (InBounds (mainRound Lab5.processCmd m stack self line) ↔
      (lineWords line).length ≤ TOKEN_NR ∧
        ((lineWords line).getD 0 [] ∈ builtinNames ∨ (lineWords line).length < TOKEN_NR ∨
          ampersand ∈ lineWords line)) := by
  constructor
  · apply mainRound_inBounds_iff (P := fun ws => ws.length < TOKEN_NR)
    · intro m ws hm hne hle
      constructor
      · intro hbounds
        by_contra hnot
        exact Lab7.launch_overruns hm hne (by omega) hbounds
      · exact Lab7.launch_inBounds hm hne
    · exact hlen
    · decide
  · apply mainRound_inBounds_iff (P := fun ws => ws.length < TOKEN_NR ∨ ampersand ∈ ws)
    · exact fun m ws hm hne hle => Lab5.launch_inBounds_iff hm hne hle
    · exact hlen
    · decide

/- `kill a b` -/
def threeWords : CStr := ⟨[107#8, 105#8, 108#8, 108#8, 32#8, 97#8, 32#8, 98#8], by decide⟩

theorem three_words_inBounds :
    (InBounds (mainRound Lab7.processCmd (fun _ => 0#8) zeroStack 1 threeWords) ↔
      (lineWords threeWords).length ≤ TOKEN_NR ∧
        ((lineWords threeWords).getD 0 [] ∈ builtinNames ∨
          (lineWords threeWords).length < TOKEN_NR)) ∧
    (InBounds (mainRound Lab5.processCmd (fun _ => 0#8) zeroStack 1 threeWords) ↔
      (lineWords threeWords).length ≤ TOKEN_NR ∧
        ((lineWords threeWords).getD 0 [] ∈ builtinNames ∨
          (lineWords threeWords).length < TOKEN_NR ∨ ampersand ∈ lineWords threeWords)) :=
  tokens_inBounds_iff (fun _ => 0#8) zeroStack 1 (by decide)

/- Eleven times the word `a`. -/
def elevenWords : CStr := ⟨(List.replicate 11 [97#8, 32#8]).flatten, by decide⟩

theorem eleven_words_overrun : elevenWords.val.length < TOKEN_MAX ∧
    ¬ InBounds (mainRound Lab7.processCmd (fun _ => 0#8) zeroStack 1 elevenWords) ∧
    ¬ InBounds (mainRound Lab5.processCmd (fun _ => 0#8) zeroStack 1 elevenWords) :=
  ⟨by decide, mainRound_overrun _ _ _ (by decide) (by decide),
    mainRound_overrun _ _ _ (by decide) (by decide)⟩

end SyeLabs.Shell
