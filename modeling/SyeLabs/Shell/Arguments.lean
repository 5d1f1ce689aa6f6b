import SyeLabs.Shell.Command

/-!
# The two argument vectors of a pipeline (`lab7/sh.c`)

The loop over the tokens fills `argv` up to the first `|` and `argv2` from there on.
-/

namespace SyeLabs.Shell

open ByteMemory (CStr Memory)
open Words (before behind)

theorem argsFrom_ok {argv : ℕ → Option CStr} {ws : List (List ByteMemory.Byte)} {i n : ℕ}
    (hargs : ∀ j < ws.length, (argv (i + j)).map chars = ws[j]?)
    (hnull : argv (i + ws.length) = none) (hlen : ws.length < n) :
    ∃ args, argsFrom argv i n = .ok args ∧ args.map chars = ws := by
  induction ws generalizing i n with
  | nil =>
    obtain ⟨n, rfl⟩ := Nat.exists_eq_succ_of_ne_zero (Nat.ne_of_gt hlen)
    rw [List.length_nil, Nat.add_zero] at hnull
    exact ⟨[], by simp only [argsFrom, hnull], rfl⟩
  | cons w ws ih =>
    rw [List.length_cons] at hlen hnull
    obtain ⟨n, rfl⟩ := Nat.exists_eq_succ_of_ne_zero (Nat.ne_of_gt (Nat.zero_lt_of_lt hlen))
    have hfirst := hargs 0 (Nat.succ_pos _)
    rw [Nat.add_zero, List.getElem?_cons_zero] at hfirst
    obtain ⟨s, hs, rfl⟩ := Option.map_eq_some_iff.mp hfirst
    obtain ⟨args, hrest, hvals⟩ := @ih (i + 1) n
      (fun j hj => by
        have harg := hargs (j + 1) (Nat.succ_lt_succ hj)
        rw [List.getElem?_cons_succ] at harg
        rw [Nat.add_assoc, Nat.add_comm 1 j]
        exact harg)
      (by rw [Nat.add_assoc, Nat.add_comm 1]; exact hnull) (by omega)
    exact ⟨s :: args, by simp only [argsFrom, hs, hrest], by rw [List.map_cons, hvals]⟩

/-- A vector whose entries are the words `ws`, ended by NULL. -/
structure Vector (argv : ℕ → Option CStr) (ws : List (List ByteMemory.Byte)) : Prop where
  args : ∃ args, argList argv = .ok args ∧ args.map chars = ws
  name : (argv 0).map chars = ws.head?

theorem vector_of_entries {argv : ℕ → Option CStr} {ws : List (List ByteMemory.Byte)}
    (hargs : ∀ i < ws.length, (argv i).map chars = ws[i]?) (hnull : argv ws.length = none)
    (hlen : ws.length < ARGS_MAX) : Vector argv ws := by
  constructor
  · apply argsFrom_ok
    · intro j hj
      rw [Nat.zero_add]
      exact hargs j hj
    · rw [Nat.zero_add]
      exact hnull
    · exact hlen
  · cases ws with
    | nil =>
      rw [List.length_nil] at hnull
      rw [hnull]
      rfl
    | cons w ws => exact hargs 0 (Nat.succ_pos _)

/- The NULL behind the last entry. -/
theorem vector_update {argv : ℕ → Option CStr} {ws : List (List ByteMemory.Byte)}
    (hargs : ∀ i < ws.length, (argv i).map chars = ws[i]?) (hlen : ws.length < ARGS_MAX) :
    Vector (Function.update argv ws.length none) ws := by
  apply vector_of_entries
  · intro i hi
    rw [Function.update_of_ne (Nat.ne_of_lt hi)]
    exact hargs i hi
  · exact Function.update_self ..
  · exact hlen

namespace Lab7

variable {m : Memory} {stack : Stack} {s s' : Scan} {ws : List (List ByteMemory.Byte)}

/-- What the loop has built from the tokens it has seen. -/
structure Scanned (ws : List (List ByteMemory.Byte)) (s : Scan) : Prop where
  piped : s.isPipe = true ↔ bar ∈ ws
  arg1 : s.arg1 = ws.length
  arg2 : s.arg2 = (behind bar ws).length
  argv : ∀ i < (before bar ws).length, (s.argv i).map chars = (before bar ws)[i]?
  null : bar ∈ ws → s.argv (before bar ws).length = none
  argv2 : ∀ i < (behind bar ws).length, (s.argv2 i).map chars = (behind bar ws)[i]?

theorem scanned_nil (argv argv2 : ℕ → Option CStr) : Scanned [] ⟨argv, argv2, false, 0, 0⟩ where
  piped := by simp
  arg1 := rfl
  arg2 := rfl
  argv i hi := absurd hi (Nat.not_lt_zero i)
  null h := by cases h
  argv2 i hi := absurd hi (Nat.not_lt_zero i)

/- An entry more behind the ones there are. -/
theorem update_snoc {argv : ℕ → Option CStr} {t : CStr}
    (h : ∀ i < ws.length, (argv i).map chars = ws[i]?) :
    ∀ i < (ws ++ [t.val]).length,
      ((Function.update argv ws.length (some t)) i).map chars = (ws ++ [t.val])[i]? := by
  intro i hi
  rw [List.length_append, List.length_singleton] at hi
  by_cases hlast : i = ws.length
  · rw [hlast, Function.update_self, List.getElem?_concat_length]
    rfl
  · rw [Function.update_of_ne hlast, List.getElem?_append_left (by omega)]
    exact h i (by omega)

theorem Scanned.take_bar (hs : Scanned ws s) {t : CStr} (ht : t.val = bar)
    (hlen : ws.length < ARGS_MAX) :
    ∃ s', s.take t = .ok s' ∧ Scanned (ws ++ [bar]) s' := by
  have harg1 : s.arg1 < ARGS_MAX := by rw [hs.arg1]; exact hlen
  refine ⟨{s with
    argv := Function.update s.argv s.arg1 none
    isPipe := true
    arg1 := s.arg1 + 1}, ?_, ?_⟩
  · rw [Scan.take, if_pos ht, setArg_ok none harg1]
    rfl
  -- the first bar ends `argv`; a later one is written behind its end
  have hbefore : before bar (ws ++ [bar]) = before bar ws := by
    by_cases hmem : bar ∈ ws
    · exact Words.before_append hmem [bar]
    · rw [Words.before_snoc_mark hmem, Words.before_of_not_mem hmem]
  have hle : (before bar ws).length ≤ ws.length := (List.takeWhile_sublist _).length_le
  constructor
  · simp
  · rw [List.length_append, List.length_singleton, ← hs.arg1]
  · rw [Words.behind_snoc_mark]
    exact hs.arg2
  · rw [hbefore]
    intro i hi
    have hne : i ≠ s.arg1 := by rw [hs.arg1]; omega
    simp only [Function.update_of_ne hne]
    exact hs.argv i hi
  · intro _
    rw [hbefore]
    by_cases hmem : bar ∈ ws
    · have hlt := Words.before_length_lt hmem
      have hne : (before bar ws).length ≠ s.arg1 := by rw [hs.arg1]; omega
      simp only [Function.update_of_ne hne]
      exact hs.null hmem
    · simp only [Words.before_of_not_mem hmem, ← hs.arg1, Function.update_self]
  · rw [Words.behind_snoc_mark]
    exact hs.argv2

theorem Scanned.take_right (hs : Scanned ws s) {t : CStr} (ht : t.val ≠ bar) (hmem : bar ∈ ws)
    (hlen : ws.length < ARGS_MAX) :
    ∃ s', s.take t = .ok s' ∧ Scanned (ws ++ [t.val]) s' := by
  have harg2 : s.arg2 < ARGS_MAX := by
    rw [hs.arg2]
    exact Nat.lt_of_le_of_lt (Words.behind_length_le ws) hlen
  refine ⟨{s with
    argv2 := Function.update s.argv2 s.arg2 (some t)
    arg2 := s.arg2 + 1
    arg1 := s.arg1 + 1}, ?_, ?_⟩
  · rw [Scan.take, if_neg ht, if_pos (hs.piped.mpr hmem), setArg_ok (some t) harg2]
    rfl
  have hbehind : behind bar (ws ++ [t.val]) = behind bar ws ++ [t.val] := by
    rw [Words.behind_append hmem, List.filter_cons_of_pos (by simpa using ht), List.filter_nil]
  constructor
  · simp [hs.piped, hmem]
  · rw [List.length_append, List.length_singleton, ← hs.arg1]
  · rw [hbehind, List.length_append, List.length_singleton, ← hs.arg2]
  · rw [Words.before_append hmem]
    exact hs.argv
  · intro _
    rw [Words.before_append hmem]
    exact hs.null hmem
  · rw [hbehind, hs.arg2]
    exact update_snoc hs.argv2

theorem Scanned.take_left (hs : Scanned ws s) {t : CStr} (ht : t.val ≠ bar) (hmem : bar ∉ ws)
    (hlen : ws.length < ARGS_MAX) :
    ∃ s', s.take t = .ok s' ∧ Scanned (ws ++ [t.val]) s' := by
  have harg1 : s.arg1 < ARGS_MAX := by rw [hs.arg1]; exact hlen
  have hpipe : ¬ s.isPipe = true := fun h => hmem (hs.piped.mp h)
  refine ⟨{s with argv := Function.update s.argv s.arg1 (some t), arg1 := s.arg1 + 1}, ?_, ?_⟩
  · rw [Scan.take, if_neg ht, if_neg hpipe, setArg_ok (some t) harg1]
    rfl
  have hmem' : bar ∉ ws ++ [t.val] := by
    simpa using ⟨hmem, Ne.symm ht⟩
  have hleft := hs.argv
  have hright := hs.arg2
  rw [Words.before_of_not_mem hmem] at hleft
  rw [Words.behind_of_not_mem hmem] at hright
  constructor
  · exact ⟨fun h => absurd h hpipe, fun h => absurd h hmem'⟩
  · rw [List.length_append, List.length_singleton, ← hs.arg1]
  · rw [Words.behind_of_not_mem hmem']
    exact hright
  · rw [Words.before_of_not_mem hmem', hs.arg1]
    exact update_snoc hleft
  · exact fun h => absurd h hmem'
  · rw [Words.behind_of_not_mem hmem']
    exact fun i hi => absurd hi (Nat.not_lt_zero i)

theorem Scanned.take (hs : Scanned ws s) (t : CStr) (hlen : ws.length < ARGS_MAX) :
    ∃ s', s.take t = .ok s' ∧ Scanned (ws ++ [t.val]) s' := by
  by_cases ht : t.val = bar
  · rw [ht]
    exact hs.take_bar ht hlen
  · by_cases hmem : bar ∈ ws
    · exact hs.take_right ht hmem hlen
    · exact hs.take_left ht hmem hlen

/-! ### The whole loop -/

theorem scanTokens_overrun (h : s.arg1 = TOKEN_NR) :
    scanTokens m s = .error (.tokenIndex TOKEN_NR) := by
  rw [scanTokens, if_pos (Nat.le_of_eq h.symm), h]

theorem scanTokens_blank (hlt : s.arg1 < TOKEN_NR) (h : Blank m s.arg1) :
    scanTokens m s = .ok s := by
  rw [scanTokens, if_neg (Nat.not_le.mpr hlt), if_pos h]

theorem scanTokens_next (hlt : s.arg1 < TOKEN_NR) (h : ¬ Blank m s.arg1)
    (htake : s.take (token m s.arg1) = .ok s') : scanTokens m s = scanTokens m s' := by
  rw [scanTokens, if_neg (Nat.not_le.mpr hlt), if_neg h]
  split
  · rename_i herror
    rw [htake] at herror
    cases herror
  · rename_i hok
    rw [htake] at hok
    cases hok
    rfl

/-- The loop reads all tokens; with a word in every slot it reads on behind the array. -/
theorem scanTokens_spec {i : ℕ} (hm : Holding m ws) (hne : [] ∉ ws) (hlen : ws.length ≤ TOKEN_NR)
    (hi : i ≤ ws.length) (hs : Scanned (ws.take i) s) :
    if ws.length < TOKEN_NR then ∃ s', scanTokens m s = .ok s' ∧ Scanned ws s'
    else scanTokens m s = .error (.tokenIndex TOKEN_NR) := by
  -- on the tokens that are left
  induction hn : ws.length - i generalizing i s with
  | zero =>
    have hall : ws.take i = ws := List.take_of_length_le (by omega)
    rw [hall] at hs
    split_ifs with hlt
    · refine ⟨s, scanTokens_blank (by rw [hs.arg1]; exact hlt) ?_, hs⟩
      rw [hs.arg1, hm.blank_iff hlt, List.getD_eq_default _ _ (Nat.le_refl _)]
    · exact scanTokens_overrun (by rw [hs.arg1]; omega)
  | succ n ih =>
    have hlt : i < ws.length := by omega
    have harg1 : s.arg1 = i := by rw [hs.arg1, List.length_take, Nat.min_eq_left hi]
    have htoken : (token m i).val = ws[i] := by
      rw [hm i (by omega), List.getD_eq_getElem _ _ hlt]
    have hword : ¬ Blank m i := by
      rw [blank_iff, htoken]
      exact fun h => hne (h ▸ List.getElem_mem hlt)
    obtain ⟨s', htake, hs'⟩ := hs.take (token m i) (by
      rw [List.length_take, Nat.min_eq_left hi]
      exact Nat.lt_of_lt_of_le hlt (Nat.le_trans hlen (by decide)))
    rw [htoken, List.take_append_getElem hlt] at hs'
    rw [scanTokens_next (by omega) (by rw [harg1]; exact hword) (by rw [harg1]; exact htake)]
    exact ih hlt hs' (by omega)

end Lab7

namespace Lab7

variable {m : Memory} {stack : Stack} {s : Scan} {ws : List (List ByteMemory.Byte)}

/-- The vectors that `execv` is called with. -/
structure Vectors (ws : List (List ByteMemory.Byte)) (s : Scan) : Prop where
  piped : s.isPipe = true ↔ bar ∈ ws
  left : Vector s.argv (before bar ws)
  right : bar ∈ ws → Vector s.argv2 (behind bar ws)

theorem Scanned.terminate (hs : Scanned ws s) (hlen : ws.length < ARGS_MAX) :
    ∃ s', s.terminate = .ok s' ∧ Vectors ws s' := by
  have hbehind : (behind bar ws).length < ARGS_MAX :=
    Nat.lt_of_le_of_lt (Words.behind_length_le ws) hlen
  by_cases hmem : bar ∈ ws
  · refine ⟨{s with argv2 := Function.update s.argv2 s.arg2 none}, ?_, hs.piped, ?_, fun _ => ?_⟩
    · rw [Scan.terminate, if_pos (hs.piped.mpr hmem),
        setArg_ok none (by rw [hs.arg2]; exact hbehind)]
      rfl
    · have hlt := Words.before_length_lt hmem
      exact vector_of_entries hs.argv (hs.null hmem) (by omega)
    · rw [hs.arg2]
      exact vector_update hs.argv2 hbehind
  · refine ⟨{s with argv := Function.update s.argv s.arg1 none}, ?_, hs.piped, ?_,
      fun h => absurd h hmem⟩
    · rw [Scan.terminate, if_neg fun h => hmem (hs.piped.mp h),
        setArg_ok none (by rw [hs.arg1]; exact hlen)]
      rfl
    · have hargs := hs.argv
      rw [Words.before_of_not_mem hmem] at hargs ⊢
      rw [hs.arg1]
      exact vector_update hargs hlen

theorem scan_vectors (stack : Stack) (hm : Holding m ws) (hne : [] ∉ ws)
    (hlen : ws.length < TOKEN_NR) :
    ∃ s s', scanTokens m ⟨stack.argv, stack.argv2, false, 0, 0⟩ = .ok s ∧
      s.terminate = .ok s' ∧ Vectors ws s' := by
  have hspec := scanTokens_spec hm hne (Nat.le_of_lt hlen) (Nat.zero_le _)
    (scanned_nil stack.argv stack.argv2)
  rw [if_pos hlen] at hspec
  obtain ⟨s, hscan, hs⟩ := hspec
  obtain ⟨s', hend, hs'⟩ := hs.terminate (Nat.lt_trans hlen (by decide))
  exact ⟨s, s', hscan, hend, hs'⟩

/-- The vectors for the two `execv`; the second one is for a pipe only. -/
def vectors (m : Memory) (stack : Stack) :
    Except Fault (List CStr × Option (List CStr)) := do
  let s ← scanTokens m ⟨stack.argv, stack.argv2, false, 0, 0⟩
  let s ← s.terminate
  let args ← argList s.argv
  if s.isPipe then
    let args2 ← argList s.argv2
    return (args, some args2)
  else return (args, none)

/-- The command line that two vectors stand for. -/
def joined (args : List CStr) : Option (List CStr) → List (List ByteMemory.Byte)
  | none => args.map chars
  | some args2 => args.map chars ++ bar :: args2.map chars

theorem vectors_eq (stack : Stack) (hm : Holding m ws) (hne : [] ∉ ws)
    (hlen : ws.length < TOKEN_NR) :
    ∃ args args2, vectors m stack = .ok (args, args2) ∧
      joined args args2 = before bar ws ++ if bar ∈ ws then bar :: behind bar ws else [] := by
  obtain ⟨s, s', hscan, hend, hs'⟩ := scan_vectors stack hm hne hlen
  obtain ⟨args, hargs, hleft⟩ := hs'.left.args
  by_cases hmem : bar ∈ ws
  · obtain ⟨args2, hargs2, hright⟩ := (hs'.right hmem).args
    refine ⟨args, some args2, ?_, ?_⟩
    · simp only [vectors, hscan, ok_bind, hend, hargs, hs'.piped.mpr hmem, if_true, hargs2]
      rfl
    · rw [if_pos hmem, joined, hleft, hright]
  · have hpipe : s'.isPipe = false := by
      have hnot : ¬ s'.isPipe = true := fun h => hmem (hs'.piped.mp h)
      simpa using hnot
    refine ⟨args, none, ?_, ?_⟩
    · simp only [vectors, hscan, ok_bind, hend, hargs, hpipe]
      rfl
    · rw [if_neg hmem, joined, hleft, List.append_nil]

/-- The vectors give the tokens back exactly when there is at most one `|`. -/
theorem pipeline_split_iff (stack : Stack) (hm : Holding m ws) (hne : [] ∉ ws)
    (hlen : ws.length < TOKEN_NR) :
    (∃ args args2, vectors m stack = .ok (args, args2) ∧ joined args args2 = ws) ↔
      ws.count bar ≤ 1 := by
  obtain ⟨args, args2, hvectors, hjoined⟩ := vectors_eq stack hm hne hlen
  rw [← Words.sides_eq_iff, ← hjoined]
  constructor
  · rintro ⟨args', args2', h, heq⟩
    rw [hvectors] at h
    cases h
    exact heq
  · exact fun heq => ⟨args, args2, hvectors, heq⟩

/- `a | b` -/
def onePipe : CStr := ⟨[97#8, 32#8, 124#8, 32#8, 98#8], by decide⟩

theorem one_pipe_split : ∃ m, Holding m (lineWords onePipe) ∧
    ((∃ args args2, vectors m zeroStack = .ok (args, args2) ∧
      joined args args2 = lineWords onePipe) ↔ (lineWords onePipe).count bar ≤ 1) := by
  obtain ⟨m, hm⟩ := exists_holding rfl (show onePipe.val.length < TOKEN_MAX by decide) (by decide)
  exact ⟨m, hm, pipeline_split_iff zeroStack hm (by decide) (by decide)⟩

/- Of `a | b | c` the second program gets `b` and `c`, as after `a | b c`. -/
def twoPipes : CStr := ⟨[97#8, 32#8, 124#8, 32#8, 98#8, 32#8, 124#8, 32#8, 99#8], by decide⟩

theorem second_bar_lost : ∃ m, Holding m (lineWords twoPipes) ∧
    lineWords twoPipes = [[97#8], bar, [98#8], bar, [99#8]] ∧
    ∃ args args2, vectors m zeroStack = .ok (args, args2) ∧
      joined args args2 = [[97#8], bar, [98#8], [99#8]] := by
  obtain ⟨m, hm⟩ := exists_holding rfl (show twoPipes.val.length < TOKEN_MAX by decide) (by decide)
  obtain ⟨args, args2, hvectors, hjoined⟩ := vectors_eq zeroStack hm (by decide) (by decide)
  exact ⟨m, hm, by decide, args, args2, hvectors, hjoined.trans (by decide)⟩

end Lab7

end SyeLabs.Shell
