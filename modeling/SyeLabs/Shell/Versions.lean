import SyeLabs.Shell.Reaction
import SyeLabs.Shell.Sessions

/-!
# The two shells side by side (`lab5/sh.c` and `lab7/sh.c`)

`lab7/sh.c` has pipes where `lab5/sh.c` has the background, and it builds the name of the
program in another way. On which lines this makes a difference.
-/

namespace SyeLabs.Shell

open ByteMemory (CStr Memory Holds strcpy)
open Interaction (Prog)
open Words (before behind)

variable {m : Memory} {stack : Stack} {self pid : ℤ} {line : CStr}
  {ws : List (List ByteMemory.Byte)} {answers : ℕ → Answer}

/-- Started alike, and as long as no call fails, the two shells make the same calls on the line
and come to the same end. -/
def Agree (line : CStr) : Prop :=
  ∀ (m : Memory) (stack : Stack) (self : ℤ) (answers : ℕ → Answer), (∀ n, (answers n).ret ≠ -1) →
    (mainRound Lab5.processCmd m stack self line).trace answers =
        (mainRound Lab7.processCmd m stack self line).trace answers ∧
      (mainRound Lab5.processCmd m stack self line).result answers =
        (mainRound Lab7.processCmd m stack self line).result answers

/-- Neither a pipe nor `&`, and the name fits into the buffer. -/
structure Plain (ws : List (List ByteMemory.Byte)) : Prop where
  bar : bar ∉ ws
  ampersand : ampersand ∉ ws
  name : ∀ w, ws.head? = some w → w.length < FILE_MAX

theorem builtins_congr (h : (token m 0).val ∈ builtinNames) (launch launch' : Cmd) :
    builtins m self pid launch = builtins m self pid launch' := by
  simp only [builtins]
  split_ifs with hsched hproc hexit hself hsetenv hname hvalue henv hkill
  · rfl
  · rfl
  · rfl
  · rfl
  · rfl
  · rfl
  · rfl
  · rfl
  · rfl
  · simp [builtinNames, hsched, hproc, hexit, hsetenv, henv, hkill] at h

/-! ### The child of a plain line -/

theorem strcat_unreached {b : Memory} {s : CStr} {reach : ℕ} (h : Holds b 0 s.bytes)
    (hreach : reach ≤ s.val.length) (suffix : List ByteMemory.Byte) :
    strcat b reach suffix = .error .unterminated := by
  have hfind : (List.range reach).find? (fun n => b n = 0#8) = none := by
    rw [List.find?_eq_none]
    intro j hj
    have hlt : j < s.val.length := Nat.lt_of_lt_of_le (List.mem_range.mp hj) hreach
    have hbyte : j < s.bytes.length := by
      rw [CStr.bytes_length]
      exact Nat.lt_succ_of_lt hlt
    have hget : s.bytes[j] = s.val[j] := by
      simp [CStr.bytes, List.getElem_append_left hlt]
    rw [holds_zero h hbyte, hget, decide_eq_true_eq]
    exact fun hzero => s.property (List.mem_of_getElem hzero)
  simp only [strcat, hfind]

/-- What `execv` is called with in the child of `lab5/sh.c`. -/
theorem Lab5.child_path {argv : ℕ → Option CStr} {path : CStr} {args : List CStr}
    (h : .execv path args ∈ (Lab5.child m stack argv).trace answers) :
    path.val = (token m 0).val ++ elf := by
  have hbuffer : Holds (strcpy stack.filename 0 (token m 0)) 0 (token m 0).bytes :=
    ByteMemory.holds_write _ _ _
  by_cases hreach : (token m 0).val.length < stack.reach
  · obtain ⟨filename, hstrcat, _, hpath⟩ := strcat_path hbuffer hreach
    have hbuild : Lab5.buildName stack (token m 0) = .ok filename := hstrcat
    cases hargs : argList (Function.update argv 0 (some (token m 0))) with
    | error f =>
      simp only [Lab5.child, hbuild, hargs, Prog.attempt_ok, Prog.attempt_error,
        Prog.trace_done] at h
      cases h
    | ok list =>
      simp only [Lab5.child, hbuild, hargs, Prog.attempt_ok, Prog.trace_call, List.mem_cons] at h
      rcases h with hexec | hrest
      · rw [(Call.execv.inj hexec).1, hpath]
      · split_ifs at hrest
        · cases List.mem_singleton.mp hrest
        · cases hrest
  · have hbuild : Lab5.buildName stack (token m 0) = .error .unterminated :=
      strcat_unreached hbuffer (Nat.le_of_not_lt hreach) elf
    simp only [Lab5.child, hbuild, Prog.attempt_error, Prog.trace_done] at h
    cases h

/-- The child of `lab5/sh.c`, when there is no `&`. -/
theorem Lab5.child_call (stack : Stack) (hm : Holding m ws) (hne : [] ∉ ws)
    (hlen : ws.length < TOKEN_NR) (hname : ws.getD 0 [] ∉ builtinNames) (hws : ws ≠ [])
    (h : Plain ws) : ∃ argv path args, path.val = ws.getD 0 [] ++ elf ∧ args.map chars = ws ∧
      (∀ self, Lab5.processCmd m stack self = .call .fork fun a =>
        if a.ret = 0 then Lab5.child m stack argv else .act (.waitpid a.ret) returned) ∧
      Lab5.child m stack argv = .call (.execv path args) fun a =>
        if a.ret = -1 then .act (.printf (.execFailed (token m 0))) (exit (-1))
        else .done .replaced := by
  obtain ⟨s, argv, hscan, hs, hset, hargv, _⟩ := Lab5.execArray_eq stack hm hne hlen
  have hbefore : before ampersand ws = ws := Words.before_of_not_mem h.ampersand
  have hend := Lab5.terminated_update hs hm (hbefore.symm ▸ hws)
  rw [hbefore] at hend
  obtain ⟨args, hargs, hwords⟩ := hend.argList (Nat.lt_trans hlen (by decide))
  have htoken : (token m 0).val = ws.getD 0 [] := hm 0 (by decide)
  have hshort : (token m 0).val.length < FILE_MAX := by
    cases ws with
    | nil => exact absurd rfl hws
    | cons w ws =>
      rw [htoken]
      exact h.name w rfl
  have hreach := stack.reach_le
  obtain ⟨filename, hstrcat, _, hpath⟩ := strcat_path
    (ByteMemory.holds_write stack.filename 0 (token m 0).bytes)
    (show (token m 0).val.length < stack.reach by omega)
  have hbuild : Lab5.buildName stack (token m 0) = .ok filename := hstrcat
  have hforeground : s.background = false := by
    rw [← Bool.not_eq_true, hs.background]
    exact h.ampersand
  rw [hbefore] at hargv
  refine ⟨argv, pathOf filename stack.reach, args, hpath.trans (by rw [htoken]), hwords,
    fun self => ?_, ?_⟩
  · rw [Lab5.processCmd_eq (htoken.symm ▸ hname) hscan hset]
    simp only [hforeground, Bool.false_eq_true, not_false_iff, if_true]
  · simp only [Lab5.child, hbuild, hargv, hargs, Prog.attempt_ok]

/-- The child of `lab7/sh.c`, when there is no `|`. -/
theorem Lab7.child_call (stack : Stack) (hm : Holding m ws) (hne : [] ∉ ws)
    (hlen : ws.length < TOKEN_NR) (hname : ws.getD 0 [] ∉ builtinNames) (hws : ws ≠ [])
    (h : Plain ws) : ∃ path args name, path.val = ws.getD 0 [] ++ elf ∧ args.map chars = ws ∧
      ∀ self, Lab7.processCmd m stack self = .call .fork fun a =>
        if a.ret = -1 then .act (.printf .fork1Failed) (exit EXIT_FAILURE)
        else if a.ret = 0 then .call (.execv path args) fun a =>
          if a.ret = -1 then .act (.printf (.execFailed name)) (exit EXIT_FAILURE)
          else .done .replaced
        else .act (.waitpid a.ret) returned := by
  obtain ⟨s, t, hscan, hend, ht⟩ := Lab7.scan_vectors stack hm hne hlen
  have hbefore : before bar ws = ws := Words.before_of_not_mem h.bar
  have hv : Vector t.argv ws := hbefore ▸ ht.left
  have hpipe : t.isPipe = false := by
    rw [← Bool.not_eq_true, ht.piped]
    exact h.bar
  obtain ⟨w, hw⟩ : ∃ w, ws.head? = some w := by
    cases ws with
    | nil => exact absurd rfl hws
    | cons w ws => exact ⟨w, rfl⟩
  have hfirst : ws.getD 0 [] = w := by
    cases ws with
    | nil => cases hw
    | cons x ws => exact Option.some.inj hw
  obtain ⟨name, hargv, hchars⟩ := Option.map_eq_some_iff.mp (hv.name.trans hw)
  have hshort : name.val.length < FILE_MAX := by
    have hlenw := h.name w hw
    rwa [← hchars] at hlenw
  have hreach := stack.reach_le
  obtain ⟨path, args, hpath, hwords, hcall⟩ := Lab7.execute_call hv hargv
    (strncpy_holds stack.filename hshort) (by omega)
  have hval : name.val = w := hchars
  refine ⟨path, args, name, by rw [hpath, hfirst, hval], hwords, fun self => ?_⟩
  rw [Lab7.processCmd, builtins_launch (hm.name ▸ hname)]
  simp only [Lab7.launch, hscan, hend, Prog.attempt_ok, Lab7.forkChildren, Lab7.child1, hpipe,
    Bool.false_eq_true, if_false, not_false_iff, if_true, hcall]

/-! ### The lines on which they agree -/

/-- The two rounds of a line start from the same tokens. -/
theorem rounds_eq (m : Memory) (stack : Stack) (self : ℤ) (hfits : Lab5.Fits line) :
    ∃ m', Holding m' (lineWords line) ∧ ∀ cmd : Memory → Stack → ℤ → Cmd,
      mainRound cmd m stack self line =
        if lineWords line ≠ [] then cmd m' stack self else returned := by
  obtain ⟨m', hread, hm⟩ := readLine_holding m hfits.1 (Nat.le_of_lt hfits.2)
  refine ⟨m', hm, fun cmd => ?_⟩
  simp only [mainRound, hread, Prog.attempt_ok, hm.called_iff]

theorem agree_of_plain (hfits : Lab5.Fits line)
    (h : Lab5.Launches line → Plain (lineWords line)) : Agree line := by
  intro m stack self answers hsucceed
  obtain ⟨m', hm, hround⟩ := rounds_eq m stack self hfits
  have hne : [] ∉ lineWords line := fun h => lineWords_ne_nil h rfl
  rw [hround, hround]
  by_cases hws : lineWords line = []
  · rw [if_neg (not_not.mpr hws), if_neg (not_not.mpr hws)]
    exact ⟨rfl, rfl⟩
  · rw [if_pos hws, if_pos hws]
    by_cases hname : (lineWords line).getD 0 [] ∈ builtinNames
    · have hsame : Lab5.processCmd m' stack self = Lab7.processCmd m' stack self :=
        builtins_congr (hm.name ▸ hname) _ _
      rw [hsame]
      exact ⟨rfl, rfl⟩
    · have hplain := h ⟨hws, hname⟩
      obtain ⟨argv, path, args, hpath, hargs, hcmd, hchild⟩ :=
        Lab5.child_call stack hm hne hfits.2 hname hws hplain
      obtain ⟨path', args', name, hpath', hargs', hcmd'⟩ :=
        Lab7.child_call stack hm hne hfits.2 hname hws hplain
      have hsame : path = path' := Subtype.ext (hpath.trans hpath'.symm)
      have hsameArgs : args = args' :=
        List.map_injective_iff.mpr chars_injective (hargs.trans hargs'.symm)
      rw [hcmd self, hcmd' self, hchild, hsame, hsameArgs]
      by_cases hparent : (answers 0).ret = 0
      · constructor
        · simp only [Prog.trace_call, if_neg (hsucceed 0), if_pos hparent, Nat.zero_add,
            if_neg (hsucceed 1)]
        · simp only [Prog.result, if_neg (hsucceed 0), if_pos hparent, Nat.zero_add,
            if_neg (hsucceed 1)]
      · constructor
        · simp only [Prog.trace_call, if_neg (hsucceed 0), if_neg hparent]
        · simp only [Prog.result, if_neg (hsucceed 0), if_neg hparent]

/-- Every call is answered with 1: the parent goes on. -/
def parentAnswers (_ : ℕ) : Answer := ⟨1, (0, 0)⟩

theorem Agree.round (h : Agree line) (hfits : Lab5.Fits line) (hlaunch : Lab5.Launches line)
    (stack : Stack) : ∃ m, Holding m (lineWords line) ∧
      ∀ answers : ℕ → Answer, (∀ n, (answers n).ret ≠ -1) →
        (Lab5.processCmd m stack 1).trace answers = (Lab7.launch m stack).trace answers := by
  obtain ⟨m, hm, hround⟩ := rounds_eq (fun _ => 0#8) stack 1 hfits
  refine ⟨m, hm, fun answers hsucceed => ?_⟩
  have hagree := (h (fun _ => 0#8) stack 1 answers hsucceed).1
  rw [hround, hround, if_pos hlaunch.1, if_pos hlaunch.1] at hagree
  rw [hagree, Lab7.processCmd, builtins_launch (hm.name ▸ hlaunch.2)]

/-- With a pipe `lab7/sh.c` does not begin with the fork. -/
theorem Agree.no_bar (h : Agree line) (hfits : Lab5.Fits line) (hlaunch : Lab5.Launches line) :
    bar ∉ lineWords line := by
  intro hmem
  obtain ⟨m, hm, hagree⟩ := h.round hfits hlaunch zeroStack
  have hne : [] ∉ lineWords line := fun h => lineWords_ne_nil h rfl
  obtain ⟨argv, hcmd⟩ := Lab5.processCmd_launch zeroStack 1 hm hne hfits.2 hlaunch.2
  obtain ⟨s, t, hscan, hend, ht⟩ := Lab7.scan_vectors zeroStack hm hne hfits.2
  have hsame := hagree parentAnswers fun _ => (by decide : (1 : ℤ) ≠ -1)
  simp only [hcmd, Lab7.launch, hscan, hend, Prog.attempt_ok, ht.piped.mpr hmem, if_true,
    Prog.trace_call] at hsame
  cases (List.cons.inj hsame).1

/-- With `&` the parent in `lab5/sh.c` does not wait. -/
theorem Agree.no_ampersand (h : Agree line) (hfits : Lab5.Fits line)
    (hlaunch : Lab5.Launches line) : ampersand ∉ lineWords line := by
  intro hmem
  obtain ⟨m, hm, hagree⟩ := h.round hfits hlaunch zeroStack
  have hne : [] ∉ lineWords line := fun h => lineWords_ne_nil h rfl
  obtain ⟨argv, hcmd⟩ := Lab5.processCmd_launch zeroStack 1 hm hne hfits.2 hlaunch.2
  obtain ⟨s, t, hscan, hend, ht⟩ := Lab7.scan_vectors zeroStack hm hne hfits.2
  have hpipe : t.isPipe = false := by
    rw [← Bool.not_eq_true, ht.piped]
    exact h.no_bar hfits hlaunch
  have hsame := hagree parentAnswers fun _ => (by decide : (1 : ℤ) ≠ -1)
  have hone : (parentAnswers 0).ret ≠ 0 := by decide
  have hsucceed : (parentAnswers 0).ret ≠ -1 := by decide
  simp only [hcmd, Lab7.launch, hscan, hend, Prog.attempt_ok, hpipe, Bool.false_eq_true, if_false,
    Lab7.forkChildren, Prog.trace_call, if_neg hone, if_neg hsucceed, if_pos hmem] at hsame
  cases (List.cons.inj hsame).2

/-- A longer name is cut by `strncpy`, and goes on with whatever stands behind the buffer. -/
theorem Agree.short_name (h : Agree line) (hfits : Lab5.Fits line)
    (hlaunch : Lab5.Launches line) {w : List ByteMemory.Byte}
    (hw : (lineWords line).head? = some w) : w.length < FILE_MAX := by
  by_contra hlong
  have hne : [] ∉ lineWords line := fun h => lineWords_ne_nil h rfl
  have hbar := h.no_bar hfits hlaunch
  have hbefore : before bar (lineWords line) = lineWords line := Words.before_of_not_mem hbar
  have hpath : ∀ rest : CStr, w = w.take FILE_MAX ++ rest.val := by
    intro rest
    obtain ⟨m, hm, hagree⟩ := h.round hfits hlaunch (stackBehind rest)
    obtain ⟨argv, hcmd⟩ := Lab5.processCmd_launch (stackBehind rest) 1 hm hne hfits.2 hlaunch.2
    obtain ⟨path, args, hval, hcalls⟩ := Lab7.calls_first hm hne hfits.2 (hbefore.symm ▸ hw)
      (Nat.le_of_not_lt hlong) rest
    have hmem : .execv path args ∈ (Lab7.launch m (stackBehind rest)).trace Lab7.firstChild := by
      have hin : .execv path args ∈ calls (Lab7.launch m (stackBehind rest)) Lab7.firstChild := by
        rw [hcalls]
        exact List.mem_append_right _ (List.mem_singleton.mpr rfl)
      exact (List.mem_filter.mp hin).1
    rw [← hagree Lab7.firstChild fun _ => (by decide : (0 : ℤ) ≠ -1), hcmd, Prog.trace_call,
      if_pos (by decide), List.mem_cons] at hmem
    have hchild := Lab5.child_path (hmem.resolve_left fun hcall => nomatch hcall)
    have hfirst : (token m 0).val = w := by
      rw [hm.name]
      cases hwords : lineWords line with
      | nil => exact absurd hwords hlaunch.1
      | cons x ws =>
        rw [hwords] at hw
        exact Option.some.inj hw
    rw [hval, hfirst] at hchild
    exact (List.append_cancel_right hchild).symm
  have hnothing := congrArg List.length (hpath ⟨[], by decide⟩)
  have hone := congrArg List.length (hpath ⟨[120#8], by decide⟩)
  rw [hnothing] at hone
  simp at hone

end SyeLabs.Shell
