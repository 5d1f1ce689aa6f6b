import SyeLabs.Shell.Overrun
import SyeLabs.Shell.ProgramName

/-!
# What the reaction to a line depends on (`lab7/sh.c`)

Two rounds of `main`'s loop on one line, from any two states. The slots of the line are
all that the rounds share; what the other bytes of the array and the uninitialised
variables hold may differ.
-/

namespace SyeLabs.Shell

open ByteMemory (CStr Memory Holds read write strcpy)
open Interaction (Prog)
open Words (before behind)

variable {m m' : Memory} {stack stack' : Stack} {self self' pid pid' : ℤ} {line : CStr}
  {ws : List (List ByteMemory.Byte)} {answers : ℕ → Answer}

/-- The calls that are compared. -/
def Call.listed : Call → Bool
  | .setenv _ _ _ | .unsetenv _ | .kill _ _ | .pipe | .fork | .execv _ _ => true
  | _ => false

def calls (p : Cmd) (answers : ℕ → Answer) : List Call := (p.trace answers).filter Call.listed

/-- The shell makes the same calls from any two states when they are answered alike. -/
def SameReaction (line : CStr) : Prop :=
  ∀ m stack self m' stack' self' answers,
    calls (mainRound Lab7.processCmd m stack self line) answers =
      calls (mainRound Lab7.processCmd m' stack' self' line) answers

/-- No word of the line makes the shell read what it has not written. -/
structure Settled (ws : List (List ByteMemory.Byte)) : Prop where
  signal : ws.getD 0 [] = literal ['k', 'i', 'l', 'l'] → ws.getD 2 [] ≠ [] →
    ws.getD 1 [] = literal ['-', 'U', 'S', 'R', '1'] ∨ ws.getD 1 [] = literal ['-', '9']
  first : ws.getD 0 [] ∉ builtinNames →
    ∀ w, (before bar ws).head? = some w → w.length < FILE_MAX
  second : ws.getD 0 [] ∉ builtinNames →
    ∀ w, (behind bar ws).head? = some w → w.length < FILE_MAX

theorem calls_listed {c : Call} (h : c.listed = true) (next : Answer → Cmd) :
    calls (.call c next) answers = c :: calls (next (answers 0)) fun n => answers (n + 1) := by
  rw [calls, Prog.trace_call, List.filter_cons_of_pos h]
  rfl

theorem calls_unlisted {c : Call} (h : c.listed = false) (next : Answer → Cmd) :
    calls (.call c next) answers = calls (next (answers 0)) fun n => answers (n + 1) := by
  rw [calls, Prog.trace_call, List.filter_cons_of_neg (by rw [h]; decide)]
  rfl

/-! ### The tokens are the same -/

theorem Holding.token_eq (hm : Holding m ws) (hm' : Holding m' ws) {i : ℕ} (hi : i < TOKEN_NR) :
    token m i = token m' i := Subtype.ext ((hm i hi).trans (hm' i hi).symm)

theorem Holding.blank_eq (hm : Holding m ws) (hm' : Holding m' ws) {i : ℕ} (hi : i < TOKEN_NR) :
    Blank m i ↔ Blank m' i := (hm.blank_iff hi).trans (hm'.blank_iff hi).symm

theorem Settled.killArgs_eq (hw : Settled ws) (hm : Holding m ws) (hm' : Holding m' ws)
    (hkill : (token m 0).val = literal ['k', 'i', 'l', 'l']) :
    killArgs m pid = killArgs m' pid' := by
  have h1 := hm.token_eq hm' (show 1 < TOKEN_NR by decide)
  have h2 := hm.token_eq hm' (show 2 < TOKEN_NR by decide)
  have hblank := hm.blank_eq hm' (show 2 < TOKEN_NR by decide)
  unfold killArgs
  rw [← h1, ← h2]
  simp only [← hblank]
  split_ifs with hlast husr hkill9
  · rfl
  · rfl
  · rfl
  · rw [hm 0 (by decide)] at hkill
    rw [hm.blank_iff (by decide)] at hlast
    rw [hm 1 (by decide)] at husr hkill9
    exact absurd (hw.signal hkill hlast) (not_or.mpr ⟨husr, hkill9⟩)

/-- The commands of the shell itself. Only `exit` looks at who the shell is, and it makes
none of the calls. -/
theorem calls_builtins (hw : Settled ws) (hm : Holding m ws) (hm' : Holding m' ws)
    {launch launch' : Cmd} (hlaunch : (token m 0).val ∉ builtinNames →
      calls launch answers = calls launch' answers) :
    calls (builtins m self pid launch) answers =
      calls (builtins m' self' pid' launch') answers := by
  have h0 := hm.token_eq hm' (show 0 < TOKEN_NR by decide)
  have h1 := hm.token_eq hm' (show 1 < TOKEN_NR by decide)
  have h2 := hm.token_eq hm' (show 2 < TOKEN_NR by decide)
  have hblank1 := hm.blank_eq hm' (show 1 < TOKEN_NR by decide)
  have hblank2 := hm.blank_eq hm' (show 2 < TOKEN_NR by decide)
  by_cases hname : (token m 0).val ∈ builtinNames
  · simp only [builtins, ← h0, ← h1, ← h2, ← hblank1, ← hblank2]
    split_ifs with hsched hproc hexit hself hself' hself' hsetenv hkey hvalue henv hkill <;>
      try rfl
    · rw [hw.killArgs_eq hm hm' hkill]
    · simp [builtinNames, hsched, hproc, hexit, hsetenv, henv, hkill] at hname
  · rw [builtins_launch hname, builtins_launch (h0 ▸ hname)]
    exact hlaunch hname

theorem chars_injective : Function.Injective chars := fun _ _ h => Subtype.ext h

namespace Lab7

variable {argv argv' : ℕ → Option CStr} {k : CStr → Cmd} {s s' : Scan} {pipeFd pipeFd' : ℤ × ℤ}

/-- The call of `execv`, when `strncpy` has left the string `t` in the buffer. -/
theorem execute_call (hv : Vector argv ws) {name t : CStr} (hname : argv 0 = some name)
    (ht : Holds (strncpy stack.filename name FILE_MAX) 0 t.bytes)
    (hreach : t.val.length < stack.reach) :
    ∃ path args, path.val = t.val ++ elf ∧ args.map chars = ws ∧
      ∀ k, execute stack argv k = .call (.execv path args) fun a =>
        if a.ret = -1 then k name else .done .replaced := by
  obtain ⟨args, hargs, hwords⟩ := hv.args
  obtain ⟨filename, hstrcat, _, hpath⟩ := strcat_path ht hreach
  refine ⟨pathOf filename stack.reach, args, hpath, hwords, fun k => ?_⟩
  simp only [execute, buildName, hname, hstrcat, Prog.attempt_ok, hargs]

theorem execute_eq (hv : Vector argv ws) (hv' : Vector argv' ws)
    (hshort : ∀ w, ws.head? = some w → w.length < FILE_MAX) :
    execute stack argv k = execute stack' argv' k := by
  have hfirst : argv 0 = argv' 0 :=
    Option.map_injective chars_injective (hv.name.trans hv'.name.symm)
  cases hname : argv 0 with
  | none =>
    rw [hname] at hfirst
    simp only [execute, buildName, hname, ← hfirst, Prog.attempt_error]
  | some name =>
    have hlen : name.val.length < FILE_MAX := by
      apply hshort
      rw [← hv.name, hname]
      rfl
    have hreach := stack.reach_le
    have hreach' := stack'.reach_le
    obtain ⟨path, args, hpath, hargs, hcall⟩ := execute_call hv hname
      (strncpy_holds stack.filename hlen) (by omega)
    obtain ⟨path', args', hpath', hargs', hcall'⟩ := execute_call hv'
      (hfirst ▸ hname) (strncpy_holds stack'.filename hlen) (by omega)
    have hsame : path = path' := Subtype.ext (hpath.trans hpath'.symm)
    have hsameArgs : args = args' :=
      List.map_injective_iff.mpr chars_injective (hargs.trans hargs'.symm)
    rw [hcall k, hcall' k, hsame, hsameArgs]

theorem child1_eq (hs : Vectors ws s) (hs' : Vectors ws s')
    (hfd : s.isPipe = true → pipeFd = pipeFd')
    (hshort : ∀ w, (before bar ws).head? = some w → w.length < FILE_MAX) :
    child1 stack s pipeFd = child1 stack' s' pipeFd' := by
  have hpipe : s.isPipe = s'.isPipe := Bool.eq_iff_iff.mpr (hs.piped.trans hs'.piped.symm)
  unfold child1
  rw [← hpipe]
  cases hp : s.isPipe with
  | false => exact execute_eq hs.left hs'.left hshort
  | true =>
    rw [hfd hp]
    simp only [if_true, not_true, if_false]
    rw [execute_eq hs.left hs'.left hshort]

theorem rightHand_eq (hs : Vectors ws s) (hs' : Vectors ws s') (hmem : bar ∈ ws)
    (hshort : ∀ w, (behind bar ws).head? = some w → w.length < FILE_MAX) :
    rightHand stack s pipeFd = rightHand stack' s' pipeFd := by
  unfold rightHand child2
  rw [execute_eq (hs.right hmem) (hs'.right hmem) hshort]

theorem forkChildren_eq (hs : Vectors ws s) (hs' : Vectors ws s')
    (hfd : s.isPipe = true → pipeFd = pipeFd')
    (hfirst : ∀ w, (before bar ws).head? = some w → w.length < FILE_MAX)
    (hsecond : ∀ w, (behind bar ws).head? = some w → w.length < FILE_MAX) :
    forkChildren stack s pipeFd = forkChildren stack' s' pipeFd' := by
  have hpipe : s.isPipe = s'.isPipe := Bool.eq_iff_iff.mpr (hs.piped.trans hs'.piped.symm)
  have hchild : child1 stack s pipeFd = child1 stack' s' pipeFd' := child1_eq hs hs' hfd hfirst
  unfold forkChildren
  rw [hchild, ← hpipe]
  cases hp : s.isPipe with
  | false => simp only [Bool.false_eq_true, if_false]
  | true => rw [← hfd hp, rightHand_eq hs hs' (hs.piped.mp hp) hsecond]

theorem launch_eq (hm : Holding m ws) (hm' : Holding m' ws) (hne : [] ∉ ws)
    (hlen : ws.length < TOKEN_NR)
    (hfirst : ∀ w, (before bar ws).head? = some w → w.length < FILE_MAX)
    (hsecond : ∀ w, (behind bar ws).head? = some w → w.length < FILE_MAX) :
    launch m stack = launch m' stack' := by
  obtain ⟨s, t, hscan, hend, ht⟩ := scan_vectors stack hm hne hlen
  obtain ⟨s', t', hscan', hend', ht'⟩ := scan_vectors stack' hm' hne hlen
  have hpipe : t.isPipe = t'.isPipe := Bool.eq_iff_iff.mpr (ht.piped.trans ht'.piped.symm)
  simp only [launch, hscan, hend, hscan', hend', Prog.attempt_ok, ← hpipe]
  cases hp : t.isPipe with
  | false =>
    simp only [Bool.false_eq_true, if_false]
    exact forkChildren_eq ht ht' (fun h => by rw [hp] at h; cases h) hfirst hsecond
  | true =>
    simp only [if_true]
    congr 1
    funext a
    rw [forkChildren_eq ht ht' (fun _ => rfl) hfirst hsecond]

end Lab7

theorem sameReaction_of_settled (hlen : line.val.length < TOKEN_MAX)
    (hwords : (lineWords line).length < TOKEN_NR) (hw : Settled (lineWords line)) :
    SameReaction line := by
  intro m stack self m' stack' self' answers
  have hne : [] ∉ lineWords line := fun h => lineWords_ne_nil h rfl
  obtain ⟨n, hn, hround⟩ := mainRound_eq Lab7.processCmd m stack self hlen
    (Nat.le_of_lt hwords)
  obtain ⟨n', hn', hround'⟩ := mainRound_eq Lab7.processCmd m' stack' self' hlen
    (Nat.le_of_lt hwords)
  rw [hround, hround']
  split_ifs with hcalled
  · apply calls_builtins hw hn hn'
    intro hname
    rw [hn 0 (by decide)] at hname
    rw [Lab7.launch_eq hn hn' hne hwords (hw.first hname) (hw.second hname)]
  · rfl

/-! ### What makes a difference -/

theorem builtins_kill (h : (token m 0).val = literal ['k', 'i', 'l', 'l']) (launch : Cmd) :
    builtins m self pid launch =
      .act (.kill (killArgs m pid).1 (killArgs m pid).2) returned := by
  simp only [builtins, h]
  rw [if_neg (by decide), if_neg (by decide), if_neg (by decide), if_neg (by decide),
    if_neg (by decide), if_true]

def pidStack (pid : ℤ) : Stack := {zeroStack with pid := pid}

/- With three words and no signal that it knows, `kill` leaves `pid` as it is. -/
theorem killArgs_stale (hm : Holding m ws) (hlast : ws.getD 2 [] ≠ [])
    (hsignal : ¬ (ws.getD 1 [] = literal ['-', 'U', 'S', 'R', '1'] ∨
      ws.getD 1 [] = literal ['-', '9'])) : killArgs m pid = (pid, .none) := by
  have hblank : ¬ Blank m 2 := by
    rw [hm.blank_iff (by decide)]
    exact hlast
  rw [not_or, ← hm 1 (by decide)] at hsignal
  rw [killArgs, if_neg hblank, if_neg hsignal.1, if_neg hsignal.2]

theorem calls_kill (hlen : line.val.length < TOKEN_MAX)
    (hwords : (lineWords line).length < TOKEN_NR)
    (hkill : (lineWords line).getD 0 [] = literal ['k', 'i', 'l', 'l'])
    (hargs : ∀ m, Holding m (lineWords line) → killArgs m stack.pid = (stack.pid, .none)) :
    calls (mainRound Lab7.processCmd m stack self line) answers = [.kill stack.pid .none] := by
  obtain ⟨m', hm, hround⟩ := mainRound_eq Lab7.processCmd m stack self hlen
    (Nat.le_of_lt hwords)
  have hcalled : lineWords line ≠ [] := by
    intro hnil
    rw [hnil] at hkill
    cases hkill
  have hname : (token m' 0).val = literal ['k', 'i', 'l', 'l'] := by
    rw [hm 0 (by decide), hkill]
  rw [hround, if_pos hcalled, Lab7.processCmd, builtins_kill hname, hargs m' hm]
  rfl

theorem differs_of_signal (hlen : line.val.length < TOKEN_MAX)
    (hwords : (lineWords line).length < TOKEN_NR)
    (hkill : (lineWords line).getD 0 [] = literal ['k', 'i', 'l', 'l'])
    (hlast : (lineWords line).getD 2 [] ≠ [])
    (hsignal : ¬ ((lineWords line).getD 1 [] = literal ['-', 'U', 'S', 'R', '1'] ∨
      (lineWords line).getD 1 [] = literal ['-', '9'])) : ¬ SameReaction line := by
  intro h
  have hsame := h (fun _ => 0#8) (pidStack 1) 1 (fun _ => 0#8) (pidStack 2) 1
    fun _ => ⟨0, (0, 0)⟩
  rw [calls_kill hlen hwords hkill fun m hm => killArgs_stale hm hlast hsignal,
    calls_kill hlen hwords hkill fun m hm => killArgs_stale hm hlast hsignal] at hsame
  cases hsame

/-- A stack with the string `rest` behind the buffer. -/
def stackBehind (rest : CStr) : Stack where
  pid := 0
  argv := fun _ => none
  argv2 := fun _ => none
  pipeFd := (0, 0)
  filename := strcpy (fun _ => 0#8) FILE_MAX rest
  reach := FILE_MAX + rest.val.length + 1
  reach_le := by omega

/- A name as long as the buffer runs into what stands behind it. -/
theorem strncpy_long {name : CStr} (hlong : FILE_MAX ≤ name.val.length) (rest : CStr) :
    Holds (strncpy (stackBehind rest).filename name FILE_MAX) 0
      (name.val.take FILE_MAX ++ rest.val ++ [0#8]) := by
  have hpad : FILE_MAX - name.val.length = 0 := Nat.sub_eq_zero_of_le hlong
  have hlen : (name.val.take FILE_MAX).length = FILE_MAX := by
    rw [List.length_take, Nat.min_eq_left hlong]
  rw [strncpy, hpad, List.replicate_zero, List.append_nil, List.append_assoc,
    ByteMemory.holds_append, hlen, Nat.zero_add]
  refine ⟨ByteMemory.holds_write _ _ _, ?_⟩
  have hrest := ByteMemory.holds_write (fun _ => 0#8) FILE_MAX rest.bytes
  exact hrest.write _ (.inr (by rw [hlen, Nat.zero_add]))

/-- What `strcat` finds in the buffer then. -/
def overlong (name rest : CStr) : CStr :=
  ⟨name.val.take FILE_MAX ++ rest.val, fun h => (List.mem_append.mp h).elim
    (fun h => name.property (List.mem_of_mem_take h)) rest.property⟩

namespace Lab7

theorem calls_execute {argv : ℕ → Option CStr} {name : CStr} (hv : Vector argv ws)
    (hname : argv 0 = some name) (hlong : FILE_MAX ≤ name.val.length) (rest : CStr)
    {answers : ℕ → Answer} (hret : (answers 0).ret ≠ -1) :
    ∃ path args, path.val = name.val.take FILE_MAX ++ rest.val ++ elf ∧
      ∀ k, calls (execute (stackBehind rest) argv k) answers = [.execv path args] := by
  have hlen : (overlong name rest).val.length < (stackBehind rest).reach := by
    have htake : (name.val.take FILE_MAX).length = FILE_MAX := by
      rw [List.length_take, Nat.min_eq_left hlong]
    simp only [overlong, stackBehind, List.length_append, htake]
    omega
  have hbuffer : Holds (strncpy (stackBehind rest).filename name FILE_MAX) 0
      (overlong name rest).bytes := strncpy_long hlong rest
  obtain ⟨path, args, hpath, _, hcall⟩ := execute_call hv hname hbuffer hlen
  refine ⟨path, args, hpath, fun k => ?_⟩
  rw [hcall k, calls_listed rfl, if_neg hret]
  rfl

/-- Every call is answered with 0: the first child is the one that goes on. -/
def firstChild (_ : ℕ) : Answer := ⟨0, (0, 0)⟩

theorem calls_first (hm : Holding m ws) (hne : [] ∉ ws) (hlen : ws.length < TOKEN_NR)
    {w : List ByteMemory.Byte} (hw : (before bar ws).head? = some w)
    (hlong : FILE_MAX ≤ w.length) (rest : CStr) :
    ∃ path args, path.val = w.take FILE_MAX ++ rest.val ++ elf ∧
      calls (launch m (stackBehind rest)) firstChild =
        (if bar ∈ ws then [.pipe, .fork] else [.fork]) ++ [.execv path args] := by
  obtain ⟨s, t, hscan, hend, ht⟩ := scan_vectors (stackBehind rest) hm hne hlen
  obtain ⟨name, hname, rfl⟩ := Option.map_eq_some_iff.mp (ht.left.name.trans hw)
  have hret : (firstChild 0).ret ≠ -1 := by decide
  obtain ⟨path, args, hpath, hcalls⟩ := calls_execute ht.left hname hlong rest hret
  refine ⟨path, args, hpath, ?_⟩
  simp only [launch, hscan, hend, Prog.attempt_ok]
  by_cases hmem : bar ∈ ws
  · have hpipe : t.isPipe = true := ht.piped.mpr hmem
    rw [if_pos hpipe, if_pos hmem, calls_listed rfl, if_neg (by decide)]
    simp only [forkChildren]
    rw [calls_listed rfl, if_neg (by decide), if_pos (by decide)]
    simp only [child1, hpipe, if_true, not_true, if_false]
    rw [Prog.act, calls_unlisted rfl, Prog.act, calls_unlisted rfl]
    exact congrArg (fun l => Call.pipe :: Call.fork :: l) (hcalls _)
  · have hpipe : ¬ t.isPipe = true := fun h => hmem (ht.piped.mp h)
    rw [if_neg hpipe, if_neg hmem]
    simp only [forkChildren]
    rw [calls_listed rfl, if_neg (by decide), if_pos (by decide)]
    simp only [child1]
    rw [if_neg hpipe]
    exact congrArg (fun l => Call.fork :: l) (hcalls _)

/-- The first `fork` is answered with 1, every other call with 0: the second child goes on. -/
def secondChild (n : ℕ) : Answer := if n = 1 then ⟨1, (0, 0)⟩ else ⟨0, (0, 0)⟩

theorem calls_second (hm : Holding m ws) (hne : [] ∉ ws) (hlen : ws.length < TOKEN_NR)
    (hmem : bar ∈ ws) {w : List ByteMemory.Byte} (hw : (behind bar ws).head? = some w)
    (hlong : FILE_MAX ≤ w.length) (rest : CStr) :
    ∃ path args, path.val = w.take FILE_MAX ++ rest.val ++ elf ∧
      calls (launch m (stackBehind rest)) secondChild =
        [.pipe, .fork, .fork] ++ [.execv path args] := by
  obtain ⟨s, t, hscan, hend, ht⟩ := scan_vectors (stackBehind rest) hm hne hlen
  have hright := ht.right hmem
  obtain ⟨name, hname, rfl⟩ := Option.map_eq_some_iff.mp (hright.name.trans hw)
  have hpipe : t.isPipe = true := ht.piped.mpr hmem
  -- the calls before it: `pipe`, `fork`, `waitpid`, `fork`, `close` and `dup2`
  let later : ℕ → Answer := fun n => secondChild (n + 1 + 1 + 1 + 1 + 1 + 1)
  have hret : (later 0).ret ≠ -1 := by decide
  obtain ⟨path, args, hpath, hcalls⟩ := calls_execute hright hname hlong rest hret
  refine ⟨path, args, hpath, ?_⟩
  simp only [launch, hscan, hend, Prog.attempt_ok]
  rw [if_pos hpipe, calls_listed rfl, if_neg (by decide)]
  simp only [forkChildren]
  rw [calls_listed rfl, if_neg (by decide), if_neg (by decide), Prog.act, calls_unlisted rfl,
    if_pos hpipe]
  simp only [rightHand]
  rw [calls_listed rfl, if_neg (by decide), if_pos (by decide)]
  simp only [child2]
  rw [Prog.act, calls_unlisted rfl, Prog.act, calls_unlisted rfl]
  exact congrArg (fun l => Call.pipe :: Call.fork :: Call.fork :: l) (hcalls _)

end Lab7

/- The path that `execv` is given depends on what stands behind the buffer. -/
theorem differs_of_path {w : List ByteMemory.Byte} {pre : List Call}
    (hlen : line.val.length < TOKEN_MAX) (hwords : (lineWords line).length < TOKEN_NR)
    (hcalled : lineWords line ≠ []) (hname : (lineWords line).getD 0 [] ∉ builtinNames)
    (hcalls : ∀ m rest, Holding m (lineWords line) →
      ∃ path args, path.val = w.take FILE_MAX ++ rest.val ++ elf ∧
        calls (Lab7.launch m (stackBehind rest)) answers = pre ++ [.execv path args]) :
    ¬ SameReaction line := by
  have hround : ∀ rest, ∃ path args, path.val = w.take FILE_MAX ++ rest.val ++ elf ∧
      calls (mainRound Lab7.processCmd (fun _ => 0#8) (stackBehind rest) 1 line) answers =
        pre ++ [.execv path args] := by
    intro rest
    obtain ⟨m, hm, heq⟩ := mainRound_eq Lab7.processCmd (fun _ => 0#8) (stackBehind rest) 1 hlen
      (Nat.le_of_lt hwords)
    rw [heq, if_pos hcalled, Lab7.processCmd, builtins_launch (hm.name ▸ hname)]
    exact hcalls m rest hm
  intro h
  obtain ⟨path, args, hpath, hleft⟩ := hround ⟨[], by decide⟩
  obtain ⟨path', args', hpath', hright⟩ := hround ⟨[120#8], by decide⟩
  have hsame := h (fun _ => 0#8) (stackBehind ⟨[], by decide⟩) 1 (fun _ => 0#8)
    (stackBehind ⟨[120#8], by decide⟩) 1 answers
  rw [hleft, hright] at hsame
  have hlast := (List.cons.inj (List.append_cancel_left hsame)).1
  have hvals : path.val = path'.val := congrArg Subtype.val (Call.execv.inj hlast).1
  have hlens := congrArg List.length hvals
  rw [hpath, hpath'] at hlens
  simp only [List.length_append, List.length_nil, List.length_singleton] at hlens
  omega

/-- Any two states react alike to the line exactly when `kill` with two arguments has one of
the two signals it knows, and the names of the programs are shorter than the buffer. -/
theorem sameReaction_iff (hlen : line.val.length < TOKEN_MAX)
    (hwords : (lineWords line).length < TOKEN_NR) :
    SameReaction line ↔ Settled (lineWords line) := by
  have hne : [] ∉ lineWords line := fun h => lineWords_ne_nil h rfl
  constructor
  · intro hsame
    constructor
    · intro hkill hlast
      by_contra hsignal
      exact differs_of_signal hlen hwords hkill hlast hsignal hsame
    · intro hname w hw
      by_contra hlong
      have hcalled : lineWords line ≠ [] := by
        intro hnil
        rw [hnil] at hw
        cases hw
      exact differs_of_path hlen hwords hcalled hname
        (fun m rest hm => Lab7.calls_first hm hne hwords hw (by omega) rest) hsame
    · intro hname w hw
      by_contra hlong
      have hcalled : lineWords line ≠ [] := by
        intro hnil
        rw [hnil] at hw
        cases hw
      have hmem : bar ∈ lineWords line := by
        by_contra hnot
        rw [Words.behind_of_not_mem hnot] at hw
        cases hw
      exact differs_of_path hlen hwords hcalled hname
        (fun m rest hm => Lab7.calls_second hm hne hwords hmem hw (by omega) rest) hsame
  · exact sameReaction_of_settled hlen hwords

theorem sameReaction_of_pipe :
    SameReaction Lab7.onePipe ↔ Settled (lineWords Lab7.onePipe) :=
  sameReaction_iff (by decide) (by decide)

/- `kill a b` sends signal 0 to whatever `pid` holds. -/
theorem kill_reads_stale_pid :
    threeWords.val.length < TOKEN_MAX ∧ (lineWords threeWords).length < TOKEN_NR ∧
      ¬ SameReaction threeWords :=
  ⟨by decide, by decide, differs_of_signal (by decide) (by decide) (by decide) (by decide)
    (by decide)⟩

end SyeLabs.Shell
