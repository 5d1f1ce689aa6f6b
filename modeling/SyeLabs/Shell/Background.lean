import SyeLabs.Shell.Overrun
import SyeLabs.Shell.ProgramName

/-!
# Programs in the background (`lab5/sh.c`)

A `&` ends the loop over the tokens. The parent ends the vector there and forks; the
child writes the first entry once more.
-/

namespace SyeLabs.Shell.Lab5

open ByteMemory (CStr Memory)
open Interaction (Prog)
open Words (before)

variable {m : Memory} {stack : Stack} {s : Scan} {self : ℤ} {ws : List (List ByteMemory.Byte)}
  {answers : ℕ → Answer}

/-- The array that the child gives to `execv`. -/
def execArray (m : Memory) (stack : Stack) : Except Fault (ℕ → Option CStr) := do
  let s ← scanTokens m ⟨stack.argv, false, 0⟩
  let argv ← setArg s.argv s.argPos none
  return Function.update argv 0 (some (token m 0))

/-- What the loop has built. -/
structure Scanned (ws : List (List ByteMemory.Byte)) (s : Scan) : Prop where
  background : s.background = true ↔ ampersand ∈ ws
  argPos : s.argPos = (before ampersand ws).length
  argv : ∀ i < (before ampersand ws).length,
    (s.argv i).map chars = (before ampersand ws)[i]?

/- The token that ends the loop. -/
theorem getD_before (h : ampersand ∈ ws) :
    ws.getD (before ampersand ws).length [] = ampersand := by
  obtain ⟨rest, hsplit, _⟩ := Words.split_at_mark h
  have hget : (before ampersand ws ++ ampersand :: rest).getD (before ampersand ws).length [] =
      ampersand := by simp [List.getD_eq_getElem?_getD]
  rw [← hsplit] at hget
  exact hget

theorem before_length_le (ws : List (List ByteMemory.Byte)) :
    (before ampersand ws).length ≤ ws.length := (List.takeWhile_sublist _).length_le

theorem getD_of_before {i : ℕ} (hi : i < (before ampersand ws).length) :
    ws.getD i [] = (before ampersand ws)[i] := by
  have htake : before ampersand ws <+: ws := List.takeWhile_prefix _
  rw [List.getD_eq_getElem _ _ (Nat.lt_of_lt_of_le hi (before_length_le ws))]
  exact (htake.getElem hi).symm

variable {argv : ℕ → Option CStr} {i : ℕ}

theorem scanTokens_blank (hi : i < TOKEN_NR) (h : Blank m i) :
    scanTokens m ⟨argv, false, i⟩ = .ok ⟨argv, false, i⟩ := by
  rw [scanTokens, if_neg (Nat.not_le.mpr hi), if_pos h]

theorem scanTokens_ampersand (hi : i < TOKEN_NR) (h : (token m i).val = ampersand) :
    scanTokens m ⟨argv, false, i⟩ = .ok ⟨argv, true, i⟩ := by
  have hword : ¬ Blank m i := by
    rw [blank_iff, h]
    decide
  rw [scanTokens, if_neg (Nat.not_le.mpr hi), if_neg hword, if_pos h]

theorem scanTokens_next (hi : i < TOKEN_NR) (hword : ¬ Blank m i)
    (h : (token m i).val ≠ ampersand) :
    scanTokens m ⟨argv, false, i⟩ =
      scanTokens m ⟨Function.update argv i (some (token m i)), false, i + 1⟩ := by
  rw [scanTokens, if_neg (Nat.not_le.mpr hi), if_neg hword, if_neg h,
    setArg_ok _ (Nat.lt_trans hi (by decide))]

theorem scanTokens_spec (hm : Holding m ws) (hne : [] ∉ ws) (hlen : ws.length < TOKEN_NR)
    (hi : i ≤ (before ampersand ws).length)
    (hargs : ∀ j < i, (argv j).map chars = (before ampersand ws)[j]?) :
    ∃ s, scanTokens m ⟨argv, false, i⟩ = .ok s ∧ Scanned ws s := by
  have hle := before_length_le ws
  -- on the arguments that are left
  induction hn : (before ampersand ws).length - i generalizing i argv with
  | zero =>
    have hend : i = (before ampersand ws).length := by omega
    subst hend
    by_cases hmem : ampersand ∈ ws
    · refine ⟨_, scanTokens_ampersand (by omega) ?_, iff_of_true rfl hmem, rfl, hargs⟩
      rw [hm _ (by omega), getD_before hmem]
    · refine ⟨_, scanTokens_blank (by omega) ?_, iff_of_false Bool.false_ne_true hmem, rfl, hargs⟩
      rw [hm.blank_iff (by omega), Words.before_of_not_mem hmem,
        List.getD_eq_default _ _ (Nat.le_refl _)]
  | succ n ih =>
    have hlt : i < (before ampersand ws).length := by omega
    have htoken : (token m i).val = (before ampersand ws)[i] := by
      rw [hm i (by omega), getD_of_before hlt]
    have hin : (before ampersand ws)[i] ∈ before ampersand ws := List.getElem_mem hlt
    have hword : ¬ Blank m i := by
      rw [blank_iff, htoken]
      exact fun h => hne (h ▸ (List.takeWhile_sublist _).subset hin)
    have hpass : (token m i).val ≠ ampersand := by
      rw [htoken]
      exact of_decide_eq_true (List.mem_takeWhile_imp (p := (· ≠ ampersand)) hin)
    rw [scanTokens_next (by omega) hword hpass]
    apply ih (by omega)
    · intro j hj
      by_cases hlast : j = i
      · rw [hlast, Function.update_self, List.getElem?_eq_getElem hlt, ← htoken]
        rfl
      · rw [Function.update_of_ne hlast]
        exact hargs j (by omega)
    · omega

/-! ### The array -/

theorem execArray_eq (stack : Stack) (hm : Holding m ws) (hne : [] ∉ ws)
    (hlen : ws.length < TOKEN_NR) :
    ∃ s argv, scanTokens m ⟨stack.argv, false, 0⟩ = .ok s ∧ Scanned ws s ∧
      setArg s.argv s.argPos none = .ok argv ∧
      argv = Function.update s.argv (before ampersand ws).length none ∧
      execArray m stack = .ok (Function.update argv 0 (some (token m 0))) := by
  obtain ⟨s, hscan, hs⟩ := @scanTokens_spec m ws stack.argv 0 hm hne hlen (Nat.zero_le _)
    fun j hj => absurd hj (Nat.not_lt_zero j)
  have hle := before_length_le ws
  have hpos : s.argPos < ARGS_MAX := by
    rw [hs.argPos]
    exact Nat.lt_of_le_of_lt hle (Nat.lt_trans hlen (by decide))
  refine ⟨s, _, hscan, hs, setArg_ok none hpos, by rw [hs.argPos], ?_⟩
  rw [execArray, hscan, ok_bind, setArg_ok none hpos]
  rfl

/-- The array holds the words, and NULL behind the last one. -/
structure Terminated (argv : ℕ → Option CStr) (ws : List (List ByteMemory.Byte)) : Prop where
  args : ∀ i < ws.length, (argv i).map chars = ws[i]?
  null : argv ws.length = none

/-- What the words of a line say about the array, the child and the parent. -/
structure Launched (m : Memory) (stack : Stack) (getpid : ℤ)
    (ws : List (List ByteMemory.Byte)) : Prop where
  array : ∃ argv, execArray m stack = .ok argv ∧ Terminated argv (before ampersand ws)
  child : ∀ answers : ℕ → Answer, (answers 0).ret = 0 → ∀ path args,
    .execv path args ∈ (processCmd m stack getpid).trace answers →
      args.map chars = before ampersand ws
  called : ∀ answers : ℕ → Answer, (answers 0).ret = 0 →
    (token m 0).val.length + elf.length < FILE_MAX →
      ∃ path args, .execv path args ∈ (processCmd m stack getpid).trace answers
  parent : ∀ answers : ℕ → Answer, (answers 0).ret ≠ 0 →
    (.waitpid (answers 0).ret ∈ (processCmd m stack getpid).trace answers ↔ ampersand ∉ ws)

theorem terminated_update (hs : Scanned ws s) (hm : Holding m ws)
    (hfirst : before ampersand ws ≠ []) :
    Terminated (Function.update (Function.update s.argv (before ampersand ws).length none) 0
      (some (token m 0))) (before ampersand ws) := by
  have hpos : 0 < (before ampersand ws).length := List.length_pos_iff.mpr hfirst
  constructor
  · intro i hi
    by_cases hzero : i = 0
    · subst hzero
      rw [Function.update_self, List.getElem?_eq_getElem hi, ← getD_of_before hi,
        ← hm 0 (by decide)]
      rfl
    · rw [Function.update_of_ne hzero, Function.update_of_ne (Nat.ne_of_lt hi)]
      exact hs.argv i hi
  · rw [Function.update_of_ne (Nat.ne_of_gt hpos), Function.update_self]

/- The `&` in front: the terminator is at 0, where the child writes the name. -/
theorem not_terminated (argv : ℕ → Option CStr) (p : CStr) :
    ¬ Terminated (Function.update argv 0 (some p)) [] := by
  intro h
  have hnull := h.null
  rw [List.length_nil, Function.update_self] at hnull
  cases hnull

theorem Terminated.argList {argv : ℕ → Option CStr} (h : Terminated argv ws)
    (hlen : ws.length < ARGS_MAX) : ∃ args, Shell.argList argv = .ok args ∧ args.map chars = ws :=
  (vector_of_entries h.args h.null hlen).args

theorem before_ne_nil_iff (hws : ws ≠ []) :
    before ampersand ws ≠ [] ↔ ws.head? ≠ some ampersand := by
  cases ws with
  | nil => exact absurd rfl hws
  | cons w rest =>
    rw [before, List.takeWhile_cons, List.head?_cons]
    by_cases hw : w = ampersand
    · simp [hw]
    · simp [hw]

/-! ### The calls -/

theorem processCmd_eq {argv : ℕ → Option CStr} (hname : (token m 0).val ∉ builtinNames)
    (hscan : scanTokens m ⟨stack.argv, false, 0⟩ = .ok s)
    (hset : setArg s.argv s.argPos none = .ok argv) :
    processCmd m stack self = .call .fork fun a =>
      if a.ret = 0 then child m stack argv
      else if ¬ s.background then .act (.waitpid a.ret) returned
      else returned := by
  rw [processCmd, builtins_launch hname]
  simp only [launch, hscan, hset, Prog.attempt_ok]

theorem mem_trace_child {argv : ℕ → Option CStr} {args : List CStr} {c : Call}
    (hargs : argList (Function.update argv 0 (some (token m 0))) = .ok args)
    (hmem : c ∈ (child m stack argv).trace answers) :
    (∃ path, c = .execv path args) ∨ c = .printf (.execFailed (token m 0)) := by
  rw [child] at hmem
  cases hbuild : buildName stack (token m 0) with
  | error f =>
    rw [hbuild] at hmem
    cases hmem
  | ok filename =>
    simp only [hbuild, hargs, Prog.attempt_ok, Prog.trace_call, List.mem_cons] at hmem
    rcases hmem with hexec | hrest
    · exact .inl ⟨_, hexec⟩
    · split_ifs at hrest
      · exact .inr (List.mem_singleton.mp hrest)
      · cases hrest

theorem child_execv {argv : ℕ → Option CStr} {args : List CStr}
    (hargs : argList (Function.update argv 0 (some (token m 0))) = .ok args)
    (hshort : (token m 0).val.length + elf.length < FILE_MAX) :
    ∃ path, .execv path args ∈ (child m stack argv).trace answers := by
  obtain ⟨name, filename, hname, hbuild, hpath⟩ := buildName_short stack hshort
  refine ⟨pathOf filename stack.reach, ?_⟩
  simp only [child, hbuild, hargs, Prog.attempt_ok, Prog.trace_call, List.mem_cons, true_or]

theorem launched (hm : Holding m ws) (hne : [] ∉ ws) (hlen : ws.length < TOKEN_NR)
    (hname : (token m 0).val ∉ builtinNames) (hfirst : before ampersand ws ≠ []) :
    Launched m stack self ws := by
  obtain ⟨s, argv, hscan, hs, hset, hargv, harray⟩ := execArray_eq stack hm hne hlen
  have hend : Terminated (Function.update argv 0 (some (token m 0))) (before ampersand ws) := by
    rw [hargv]
    exact terminated_update hs hm hfirst
  have hle := before_length_le ws
  obtain ⟨args, hargs, hwords⟩ := hend.argList
    (Nat.lt_of_le_of_lt hle (Nat.lt_trans hlen (by decide)))
  have hcmd := @processCmd_eq m stack s self argv hname hscan hset
  constructor
  · exact ⟨_, harray, hend⟩
  · intro answers hfork path args' hmem
    rw [hcmd, Prog.trace_call, if_pos hfork, List.mem_cons] at hmem
    rcases hmem with hcall | hchild
    · cases hcall
    · rcases mem_trace_child hargs hchild with ⟨path', hexec⟩ | hprint
      · cases hexec
        exact hwords
      · cases hprint
  · intro answers hfork hshort
    obtain ⟨path, hmem⟩ := @child_execv m stack (fun n => answers (n + 1)) argv args hargs hshort
    refine ⟨path, args, ?_⟩
    rw [hcmd, Prog.trace_call, if_pos hfork]
    exact List.mem_cons_of_mem _ hmem
  · intro answers hfork
    rw [hcmd, Prog.trace_call, if_neg hfork]
    by_cases hmem : ampersand ∈ ws
    · have hback : s.background = true := hs.background.mpr hmem
      simp [hback, hmem, returned]
    · have hback : ¬ s.background = true := fun h => hmem (hs.background.mp h)
      simp [hback, hmem, Prog.act, Prog.trace_call]

/-- The launch of a program goes as the line says, `&` or not, exactly when the `&` is not
the first word. -/
theorem launched_iff (stack : Stack) (self : ℤ) (hm : Holding m ws) (hne : [] ∉ ws)
    (hws : ws ≠ []) (hlen : ws.length < TOKEN_NR) (hname : ws.getD 0 [] ∉ builtinNames) :
    Launched m stack self ws ↔ ws.head? ≠ some ampersand := by
  rw [← before_ne_nil_iff hws]
  constructor
  · intro h hnil
    obtain ⟨argv, harray, hend⟩ := h.array
    obtain ⟨s, argv', _, _, _, _, harray'⟩ := execArray_eq stack hm hne hlen
    rw [harray'] at harray
    cases harray
    rw [hnil] at hend
    exact not_terminated argv' (token m 0) hend
  · exact launched hm hne hlen (hm.name ▸ hname)

/- `ls &` -/
def lsBackground : CStr := ⟨[108#8, 115#8, 32#8, 38#8], by decide⟩

theorem launched_ls : ∃ m, Holding m (lineWords lsBackground) ∧
    (Launched m zeroStack 1 (lineWords lsBackground) ↔
      (lineWords lsBackground).head? ≠ some ampersand) := by
  obtain ⟨m, hm⟩ := exists_holding rfl (show lsBackground.val.length < TOKEN_MAX by decide)
    (by decide)
  exact ⟨m, hm, launched_iff zeroStack 1 hm (by decide) (by decide) (by decide) (by decide)⟩

/- `& ls` -/
def ampersandFirst : CStr := ⟨[38#8, 32#8, 108#8, 115#8], by decide⟩

/- What the child finds at `argv[1]` was never written. -/
def staleStack : Stack := {zeroStack with argv := fun _ => some ampersandFirst}

theorem ampersand_first_fails : ∃ m, Holding m (lineWords ampersandFirst) ∧
    lineWords ampersandFirst = [ampersand, [108#8, 115#8]] ∧
    ¬ Launched m staleStack 1 (lineWords ampersandFirst) ∧
    ∃ argv, execArray m staleStack = .ok argv ∧ argv 1 = some ampersandFirst := by
  have hsplit : lineWords ampersandFirst = [ampersand, [108#8, 115#8]] := by decide
  have hbefore : before ampersand (lineWords ampersandFirst) = [] := by decide
  obtain ⟨m, hm⟩ := exists_holding rfl (show ampersandFirst.val.length < TOKEN_MAX by decide)
    (by decide)
  have htoken : (token m 0).val = ampersand := by
    rw [hm 0 (by decide), hsplit]
    rfl
  have harray : execArray m staleStack = .ok (Function.update
      (Function.update staleStack.argv 0 none) 0 (some (token m 0))) := by
    rw [execArray, scanTokens_ampersand (by decide) htoken]
    rfl
  refine ⟨m, hm, hsplit, fun h => ?_, _, harray, rfl⟩
  obtain ⟨argv, hok, hend⟩ := h.array
  rw [harray] at hok
  cases hok
  rw [hbefore] at hend
  exact not_terminated _ (token m 0) hend

end SyeLabs.Shell.Lab5
