import SyeLabs.Memreplace.Conservation

/-!
# The command loop of the simulator (`lab13/memreplace.c`, lines 134-148 and 150-211)

Standard input is the list of the characters that are left of it. `fgets` takes
three of them at most, and its result is not looked at; what the array holds when
nothing is read is whatever was there before.
-/

namespace SyeLabs.Memreplace

def newlineChar : Byte := 10#8

def exitMemrplc : ℤ := -2

/-- `sizeof(input)` -/
abbrev inputSize : ℕ := 4

/-- The contents of the array `input`. -/
abbrev Buffer := {cs : List Byte // cs.length = inputSize}

/- What `fgets` takes: at most `n` characters, and none after a newline. -/
def takeLine : ℕ → List Byte → List Byte × List Byte
  | 0, input => ([], input)
  | _ + 1, [] => ([], [])
  | n + 1, c :: input =>
    if c = newlineChar then ([c], input)
    else ((c :: (takeLine n input).1), (takeLine n input).2)

/-- At the end of the input the buffer stays as it is. -/
def fgets (buffer : List Byte) (size : ℕ) (stdin : List Byte) : List Byte × List Byte :=
  let (cs, rest) := takeLine (size - 1) stdin
  if cs = [] then (buffer, rest) else (cs ++ 0#8 :: buffer.drop (cs.length + 1), rest)

def isdigit (c : Byte) : Bool := 48#8 ≤ c ∧ c ≤ 57#8

def isspace (c : Byte) : Bool := c = 32#8 ∨ (9#8 ≤ c ∧ c ≤ 13#8)

/-- The decimal number that the digits at the start of `cs` write. -/
def leading (cs : List Byte) : ℕ :=
  (cs.takeWhile isdigit).foldl (fun n c => 10 * n + (c.toNat - 48)) 0

def atoi (cs : List Byte) : ℤ :=
  match cs.dropWhile isspace with
  | [] => 0
  | c :: cs => if c = 45#8 then -leading cs else if c = 43#8 then leading cs else leading (c :: cs)

/-- The first character asks for the end: `E` or `e`. -/
def asksEnd (cs : List Byte) : Prop := cs.head? = some 69#8 ∨ cs.head? = some 101#8

instance (cs : List Byte) : Decidable (asksEnd cs) :=
  inferInstanceAs (Decidable (cs.head? = some 69#8 ∨ cs.head? = some 101#8))

def startsDigit (cs : List Byte) : Bool := cs.head?.any isdigit

def askUserPageNo (buffer : Buffer) (stdin : List Byte) : ℤ × List Byte :=
  let (input, rest) := fgets buffer.val inputSize stdin
  if asksEnd input then (exitMemrplc, rest)
  else if ¬ startsDigit input then (-1, rest)
  else (atoi input, rest)

inductive Command where
  | access (page : Page)
  | invalid
  deriving DecidableEq

/- Line 180: the range test of `main`. -/
def command (pageNo : ℤ) : Command :=
  if h : 0 ≤ pageNo ∧ pageNo < (nbPages : ℕ) then .access ⟨pageNo.toNat, by omega⟩ else .invalid

def perform (lruRun : Bool) (m : Mem) : Command → Except Exit Mem
  | .access page => access lruRun m page
  | .invalid => .ok m

/-- What a session did before it returned, and what it had not read when the call of
`fgets` that ended it was made. -/
structure Session where
  commands : List Command
  unread : List Byte
  mem : Mem

def Session.after (c : Command) (s : Session) : Session := {s with commands := c :: s.commands}

/-- The loop of `main`. The array is an automatic one: `stale k` is what it holds at
the start of call `k`. -/
def mainLoop (lruRun : Bool) (stale : ℕ → Buffer) :
    ℕ → ℕ → List Byte → Mem → Option (Except Exit Session)
  | 0, _, _, _ => none
  | fuel + 1, k, stdin, m =>
    let (pageNo, rest) := askUserPageNo (stale k) stdin
    if pageNo = exitMemrplc then some (.ok ⟨[], stdin, m⟩)
    else match perform lruRun m (command pageNo) with
      | .error e => some (.error e)
      | .ok m' =>
        (mainLoop lruRun stale fuel (k + 1) rest m').map fun r =>
          r.map (Session.after (command pageNo))

/-- `LRU_run`, when the arguments are valid. -/
def lruMode (argv : List String) : Option Bool :=
  if argv.length ≠ 2 then none
  else if "LRU" = argv.getD 1 "" then some true
  else if "WSC" = argv.getD 1 "" then some false
  else none

def main (stale : ℕ → Buffer) (fuel : ℕ) (argv : List String) (stdin : List Byte) :
    Option (Except Exit Session) :=
  match lruMode argv with
  | none => some (.error ⟨1, []⟩)
  | some lruRun => mainLoop lruRun stale fuel 0 stdin (initPageTable zeroed)

/-! ### One command per line -/

def lineCommand (line : List Byte) : Command :=
  if h : startsDigit line ∧ leading line < nbPages then .access ⟨leading line, h.2⟩ else .invalid

/-- The commands of an input, line by line, and what is left of it where they end. -/
inductive Executes : List Byte → List Command → List Byte → Prop where
  | endOfInput : Executes [] [] []
  | exit (input) : asksEnd input → Executes input [] input
  | line (line rest cs unread) : newlineChar ∉ line → ¬ asksEnd line → Executes rest cs unread →
      Executes (line ++ newlineChar :: rest) (lineCommand line :: cs) unread
  | lastLine (line) : line ≠ [] → newlineChar ∉ line → ¬ asksEnd line →
      Executes line [lineCommand line] []

def Command.page? : Command → Option Page
  | .access page => some page
  | .invalid => none

/-- Every session on this input returns, having executed its lines. -/
def ExecutesLines (input : List Byte) : Prop :=
  ∀ stale argv lruRun, lruMode argv = some lruRun →
    ∃ fuel s, main stale fuel argv input = some (.ok s) ∧
      Executes input s.commands s.unread ∧
      run lruRun (s.commands.filterMap Command.page?) = .ok s.mem

/-- Lines of two characters at most, up to one that asks for the end. -/
inductive ShortLines : List Byte → Prop where
  | exit (input) : asksEnd input → ShortLines input
  | line (line rest) : newlineChar ∉ line → ¬ asksEnd line → line.length ≤ 2 → ShortLines rest →
      ShortLines (line ++ newlineChar :: rest)

/-! ### What one call reads -/

theorem takeLine_line {line : List Byte} (hline : newlineChar ∉ line) (rest : List Byte) {n : ℕ}
    (hn : line.length < n) :
    takeLine n (line ++ newlineChar :: rest) = (line ++ [newlineChar], rest) := by
  induction line generalizing n with
  | nil =>
    obtain ⟨n, rfl⟩ : ∃ k, n = k + 1 := ⟨n - 1, by omega⟩
    rfl
  | cons c line ih =>
    obtain ⟨n, rfl⟩ : ∃ k, n = k + 1 := ⟨n - 1, by omega⟩
    have hc : c ≠ newlineChar := fun h => hline (h ▸ List.mem_cons_self ..)
    have htail := ih (fun h => hline (List.mem_cons_of_mem _ h)) (Nat.lt_of_succ_lt_succ hn)
    simp only [List.cons_append, takeLine, hc, ite_false, htail]

/- A fragment that ends inside its line. -/
theorem takeLine_rest {line : List Byte} (hline : newlineChar ∉ line) (rest : List Byte) {n : ℕ}
    (hn : n ≤ line.length) :
    (takeLine n (line ++ newlineChar :: rest)).2 = line.drop n ++ newlineChar :: rest := by
  induction n generalizing line with
  | zero => rfl
  | succ n ih =>
    cases line with
    | nil => exact absurd hn (Nat.not_succ_le_zero n)
    | cons c line =>
      have hc : c ≠ newlineChar := fun h => hline (h ▸ List.mem_cons_self ..)
      simp only [List.cons_append, takeLine, hc, ite_false, List.drop_succ_cons]
      exact ih (fun h => hline (List.mem_cons_of_mem _ h)) (Nat.le_of_succ_le_succ hn)

theorem takeLine_head (n : ℕ) (c : Byte) (stdin : List Byte) :
    ∃ cs, (takeLine (n + 1) (c :: stdin)).1 = c :: cs := by
  simp only [takeLine]
  split_ifs
  · exact ⟨[], rfl⟩
  · exact ⟨_, rfl⟩

theorem fgets_of_read {buffer stdin cs rest : List Byte} {size : ℕ}
    (htake : takeLine (size - 1) stdin = (cs, rest)) (hcs : cs ≠ []) :
    fgets buffer size stdin = (cs ++ 0#8 :: buffer.drop (cs.length + 1), rest) := by
  simp only [fgets, htake, hcs, ite_false]

theorem fgets_cons (buffer : List Byte) (c : Byte) (stdin : List Byte) :
    ∃ cs, fgets buffer inputSize (c :: stdin) = (c :: cs, (takeLine 3 (c :: stdin)).2) := by
  obtain ⟨cs, hcs⟩ := takeLine_head 2 c stdin
  have htake : takeLine (inputSize - 1) (c :: stdin) = (c :: cs, (takeLine 3 (c :: stdin)).2) :=
    Prod.ext hcs rfl
  exact ⟨_, fgets_of_read htake (List.cons_ne_nil c cs)⟩

/-! ### The number of a line -/

theorem leading_append (line : List Byte) {c : Byte} (hc : isdigit c = false) (cs : List Byte) :
    leading (line ++ c :: cs) = leading line := by
  have htake : (line ++ c :: cs).takeWhile isdigit = line.takeWhile isdigit := by
    induction line with
    | nil => simp [hc]
    | cons d line ih =>
      rw [List.cons_append, List.takeWhile_cons, List.takeWhile_cons, ih]
  rw [leading, htake, ← leading]

/- A digit is neither a blank nor a sign. -/
theorem atoi_of_startsDigit {cs : List Byte} (h : startsDigit cs = true) :
    atoi cs = leading cs := by
  cases cs with
  | nil => exact absurd h Bool.false_ne_true
  | cons c cs =>
    have hc : isdigit c = true := h
    have hrange : 48 ≤ c.toNat ∧ c.toNat ≤ 57 := by
      simpa [isdigit, BitVec.le_def] using hc
    have hspace : isspace c = false := by
      simp only [isspace, BitVec.le_def, decide_eq_false_iff_not]
      rintro (rfl | ⟨-, h13⟩)
      · exact absurd hrange.1 (by decide)
      · exact absurd (Nat.le_trans hrange.1 h13) (by decide)
    have hminus : c ≠ 45#8 := by
      rintro rfl
      exact absurd hrange.1 (by decide)
    have hplus : c ≠ 43#8 := by
      rintro rfl
      exact absurd hrange.1 (by decide)
    simp only [atoi, List.dropWhile_cons, hspace, hminus, hplus, ite_false, Bool.false_eq_true]

theorem askUserPageNo_fst (buffer : Buffer) (stdin : List Byte) :
    (askUserPageNo buffer stdin).1 =
      let input := (fgets buffer.val inputSize stdin).1
      if asksEnd input then exitMemrplc else if startsDigit input then leading input else -1 := by
  simp only [askUserPageNo]
  by_cases hend : asksEnd (fgets buffer.val inputSize stdin).1
  · simp only [hend, ite_true]
  · by_cases hdigit : startsDigit (fgets buffer.val inputSize stdin).1 = true
    · simp only [hend, hdigit, ite_true, ite_false, not_true, atoi_of_startsDigit hdigit]
    · simp only [hend, hdigit, ite_true, ite_false, not_false_iff, Bool.false_eq_true]

theorem askUserPageNo_snd (buffer : Buffer) (stdin : List Byte) :
    (askUserPageNo buffer stdin).2 = (fgets buffer.val inputSize stdin).2 := by
  simp only [askUserPageNo]
  split_ifs <;> rfl

theorem askUserPageNo_exit (buffer : Buffer) (stdin : List Byte) :
    (askUserPageNo buffer stdin).1 = exitMemrplc ↔
      asksEnd (fgets buffer.val inputSize stdin).1 := by
  rw [askUserPageNo_fst]
  by_cases hend : asksEnd (fgets buffer.val inputSize stdin).1
  · simp only [hend, ite_true]
  · simp only [hend, ite_false, iff_false]
    split_ifs
    · exact Int.noConfusion
    · decide

theorem askUserPageNo_cons (buffer : Buffer) (c : Byte) (stdin : List Byte) :
    ((askUserPageNo buffer (c :: stdin)).1 = exitMemrplc ↔ asksEnd (c :: stdin)) ∧
      (askUserPageNo buffer (c :: stdin)).2 = (takeLine 3 (c :: stdin)).2 := by
  obtain ⟨cs, hfgets⟩ := fgets_cons buffer.val c stdin
  rw [askUserPageNo_exit, askUserPageNo_snd, hfgets]
  exact ⟨Iff.rfl, rfl⟩

/- What is behind a line does not change what it asks for. -/
theorem asksEnd_line (line cs : List Byte) :
    asksEnd (line ++ newlineChar :: cs) ↔ asksEnd line := by
  cases line <;> simp [asksEnd, newlineChar]

theorem startsDigit_line (line cs : List Byte) :
    startsDigit (line ++ newlineChar :: cs) = startsDigit line := by
  cases line <;> rfl

theorem command_number (line : List Byte) :
    command (if startsDigit line then leading line else -1) = lineCommand line := by
  by_cases hdigit : startsDigit line = true
  · rw [if_pos hdigit]
    by_cases hn : leading line < nbPages
    · have hrange : (0 : ℤ) ≤ leading line ∧ (leading line : ℤ) < (nbPages : ℕ) := by omega
      rw [command, dif_pos hrange, lineCommand, dif_pos ⟨hdigit, hn⟩]
      rfl
    · have hrange : ¬ ((0 : ℤ) ≤ leading line ∧ (leading line : ℤ) < (nbPages : ℕ)) := by omega
      rw [command, dif_neg hrange, lineCommand, dif_neg fun h => hn h.2]
  · rw [if_neg hdigit, lineCommand, dif_neg fun h => hdigit h.1]
    rfl

/- A line that fits in the array with its newline. -/
theorem askUserPageNo_line (buffer : Buffer) {line : List Byte} (hline : newlineChar ∉ line)
    (hend : ¬ asksEnd line) (hshort : line.length ≤ 2) (rest : List Byte) :
    ∃ n, askUserPageNo buffer (line ++ newlineChar :: rest) = (n, rest) ∧ n ≠ exitMemrplc ∧
      command n = lineCommand line := by
  have htake : takeLine (inputSize - 1) (line ++ newlineChar :: rest) =
      (line ++ [newlineChar], rest) := takeLine_line hline rest (Nat.lt_succ_of_le hshort)
  have hfgets := @fgets_of_read buffer.val _ _ _ _ htake (by simp)
  rw [List.append_assoc, List.singleton_append] at hfgets
  refine ⟨(askUserPageNo buffer (line ++ newlineChar :: rest)).1, Prod.ext rfl ?_, ?_, ?_⟩
  · rw [askUserPageNo_snd, hfgets]
  · rw [Ne, askUserPageNo_exit, hfgets]
    exact fun h => hend ((asksEnd_line line _).mp h)
  · have hnewline : isdigit newlineChar = false := by decide
    rw [askUserPageNo_fst, hfgets]
    simp only [asksEnd_line, hend, ite_false, startsDigit_line, leading_append line hnewline]
    exact command_number line

/-! ### Short lines -/

theorem mainLoop_exit (lruRun : Bool) (stale : ℕ → Buffer) (fuel k : ℕ) (m : Mem)
    {stdin : List Byte} (hend : asksEnd stdin) :
    mainLoop lruRun stale (fuel + 1) k stdin m = some (.ok ⟨[], stdin, m⟩) := by
  cases stdin with
  | nil => simp [asksEnd] at hend
  | cons c stdin =>
    have hexit := (askUserPageNo_cons (stale k) c stdin).1.mpr hend
    simp only [mainLoop, hexit, ite_true]

theorem mainLoop_next {lruRun : Bool} {stale : ℕ → Buffer} {fuel k : ℕ} {stdin : List Byte}
    {m m' : Mem} {s : Session} (hne : (askUserPageNo (stale k) stdin).1 ≠ exitMemrplc)
    (hperform : perform lruRun m (command (askUserPageNo (stale k) stdin).1) = .ok m')
    (hrest : mainLoop lruRun stale fuel (k + 1) (askUserPageNo (stale k) stdin).2 m' =
      some (.ok s)) :
    mainLoop lruRun stale (fuel + 1) k stdin m =
      some (.ok (s.after (command (askUserPageNo (stale k) stdin).1))) := by
  simp only [mainLoop, hne, ite_false, hperform, hrest, Option.map_some]
  rfl

theorem filterMap_pages (c : Command) (cs : List Command) :
    (c :: cs).filterMap Command.page? = c.page?.toList ++ cs.filterMap Command.page? := by
  cases c <;> rfl

/- No access fails in a session: there is always a page in RAM. -/
theorem perform_of_run {lruRun : Bool} {accessed : List Page} {m : Mem}
    (hrun : run lruRun accessed = .ok m) (c : Command) :
    ∃ m', perform lruRun m c = .ok m' ∧ run lruRun (accessed ++ c.page?.toList) = .ok m' := by
  cases c with
  | invalid => exact ⟨m, rfl, by simpa [Command.page?] using hrun⟩
  | access page =>
    obtain ⟨m', hrun', -, -⟩ := run_conserved lruRun (accessed ++ [page])
    refine ⟨m', ?_, hrun'⟩
    rw [run_snoc, hrun] at hrun'
    exact hrun'

theorem ShortLines.session {input : List Byte} (h : ShortLines input) (lruRun : Bool)
    (stale : ℕ → Buffer) {accessed : List Page} {m : Mem} (hrun : run lruRun accessed = .ok m)
    (k : ℕ) :
    ∃ fuel s, mainLoop lruRun stale fuel k input m = some (.ok s) ∧
      Executes input s.commands s.unread ∧
      run lruRun (accessed ++ s.commands.filterMap Command.page?) = .ok s.mem := by
  -- the accesses before a line are any, and the calls before it any number
  induction h generalizing accessed m k with
  | exit input hend =>
    refine ⟨1, _, mainLoop_exit lruRun stale 0 k m hend, Executes.exit input hend, ?_⟩
    simpa using hrun
  | line line rest hline hend hshort _ ih =>
    obtain ⟨n, hask, hne, hcommand⟩ := askUserPageNo_line (stale k) hline hend hshort rest
    obtain ⟨m', hperform, hrun'⟩ := perform_of_run hrun (lineCommand line)
    obtain ⟨fuel, s, hloop, hexec, hmem⟩ := ih hrun' (k + 1)
    refine ⟨fuel + 1, s.after (lineCommand line), ?_, ?_, ?_⟩
    · have hnext := @mainLoop_next lruRun stale fuel k (line ++ newlineChar :: rest) m m' s
      rw [hask] at hnext
      rw [← hcommand]
      exact hnext hne (hcommand ▸ hperform) hloop
    · exact Executes.line line rest s.commands s.unread hline hend hexec
    · change run lruRun (accessed ++ (lineCommand line :: s.commands).filterMap Command.page?) = _
      rw [filterMap_pages, ← List.append_assoc]
      exact hmem

/-! ### Fragments -/

/-- What the loop takes from an input when the array never asks for the end by itself. -/
inductive Fragments : List Byte → List Command → List Byte → Prop where
  | exit (input) : asksEnd input → Fragments input [] input
  | fragment (input c cs unread) : input ≠ [] → Fragments (takeLine 3 input).2 cs unread →
      Fragments input (c :: cs) unread

theorem Fragments.asksEnd_unread {input unread : List Byte} {cs : List Command}
    (h : Fragments input cs unread) : asksEnd unread := by
  induction h with
  | exit _ hend => exact hend
  | fragment _ _ _ _ _ _ ih => exact ih

theorem not_fragments_nil {cs : List Command} {unread : List Byte} : ¬ Fragments [] cs unread := by
  intro h
  cases h with
  | exit _ hend => simp [asksEnd] at hend
  | fragment _ _ _ _ hne _ => exact hne rfl

theorem mainLoop_some {lruRun : Bool} {stale : ℕ → Buffer} {fuel k : ℕ} {stdin : List Byte}
    {m : Mem} {s : Session} (h : mainLoop lruRun stale (fuel + 1) k stdin m = some (.ok s)) :
    ((askUserPageNo (stale k) stdin).1 = exitMemrplc ∧ s = ⟨[], stdin, m⟩) ∨
      ∃ m' s' c, mainLoop lruRun stale fuel (k + 1) (askUserPageNo (stale k) stdin).2 m' =
          some (.ok s') ∧ s = s'.after c := by
  simp only [mainLoop] at h
  by_cases hexit : (askUserPageNo (stale k) stdin).1 = exitMemrplc
  · simp only [hexit, ite_true, Option.some.injEq, Except.ok.injEq] at h
    exact Or.inl ⟨hexit, h.symm⟩
  · simp only [hexit, ite_false] at h
    cases hperform : perform lruRun m (command (askUserPageNo (stale k) stdin).1) with
    | error e => simp [hperform] at h
    | ok m' =>
      simp only [hperform, Option.map_eq_some_iff] at h
      obtain ⟨r, hr, hs⟩ := h
      cases r with
      | error e => simp [Except.map] at hs
      | ok s' => exact Or.inr ⟨m', s', _, hr, (Except.ok.inj hs).symm⟩

theorem mainLoop_fragments {lruRun : Bool} {stale : ℕ → Buffer}
    (hstale : ∀ k, ¬ asksEnd (stale k).val) {fuel k : ℕ} {stdin : List Byte} {m : Mem} {s : Session}
    (h : mainLoop lruRun stale fuel k stdin m = some (.ok s)) :
    Fragments stdin s.commands s.unread := by
  induction fuel generalizing k stdin m s with
  | zero => simp [mainLoop] at h
  | succ fuel ih =>
    cases stdin with
    | nil =>
      -- the buffer stays as it is, and nothing is left for the next call either
      rcases mainLoop_some h with ⟨hexit, -⟩ | ⟨m', s', c, hloop, -⟩
      · exact absurd ((askUserPageNo_exit (stale k) []).mp hexit) (hstale k)
      · rw [askUserPageNo_snd] at hloop
        exact absurd (ih hloop) not_fragments_nil
    | cons b stdin =>
      obtain ⟨hend, hrest⟩ := askUserPageNo_cons (stale k) b stdin
      rcases mainLoop_some h with ⟨hexit, rfl⟩ | ⟨m', s', c, hloop, rfl⟩
      · exact Fragments.exit _ (hend.mp hexit)
      · rw [hrest] at hloop
        exact Fragments.fragment _ _ _ _ (List.cons_ne_nil b stdin) (ih hloop)

/- A session that does not end inside a line took one command from it at least. -/
theorem Fragments.line {line rest unread : List Byte} {cs : List Command}
    (hline : newlineChar ∉ line) (h : Fragments (line ++ newlineChar :: rest) cs unread) :
    rest.length < unread.length ∨
      ∃ cs', cs'.length < cs.length ∧ Fragments rest cs' unread := by
  generalize hinput : line ++ newlineChar :: rest = input at h
  induction h generalizing line with
  | exit input hend =>
    refine Or.inl ?_
    rw [← hinput, List.length_append, List.length_cons]
    omega
  | fragment input c cs unread _ hrest ih =>
    subst hinput
    by_cases hshort : line.length ≤ 2
    · rw [takeLine_line hline rest (Nat.lt_succ_of_le hshort)] at hrest
      exact Or.inr ⟨cs, Nat.lt_succ_self cs.length, hrest⟩
    · have hdrop : newlineChar ∉ line.drop 3 := fun hmem => hline (List.mem_of_mem_drop hmem)
      rcases ih hdrop (takeLine_rest hline rest (by omega)).symm with hlong | ⟨cs', hlt, hfrag⟩
      · exact Or.inl hlong
      · exact Or.inr ⟨cs', Nat.lt_succ_of_lt hlt, hfrag⟩

theorem Executes.unread_length_le {input unread : List Byte} {cs : List Command}
    (h : Executes input cs unread) : unread.length ≤ input.length := by
  induction h with
  | endOfInput => exact Nat.le_refl _
  | exit input _ => exact Nat.le_refl _
  | line line rest _ _ _ _ _ ih =>
    rw [List.length_append, List.length_cons]
    omega
  | lastLine line _ _ _ => exact Nat.zero_le _

/- The loop never takes fewer commands than there are lines. -/
theorem Executes.length_le {input unread : List Byte} {cs cs' : List Command}
    (h : Executes input cs unread) (hfrag : Fragments input cs' unread) :
    cs.length ≤ cs'.length := by
  induction h generalizing cs' with
  | endOfInput => exact Nat.zero_le _
  | exit _ _ => exact Nat.zero_le _
  | line line rest cs unread hline _ hexec ih =>
    rcases hfrag.line hline with hlong | ⟨cs'', hlt, hrest⟩
    · exact absurd hexec.unread_length_le (Nat.not_le_of_lt hlong)
    · have hle := ih hrest
      rw [List.length_cons]
      omega
  | lastLine _ _ _ _ => simpa [asksEnd] using hfrag.asksEnd_unread

theorem Executes.shortLines {input unread : List Byte} {cs : List Command}
    (h : Executes input cs unread) (hfrag : Fragments input cs unread) : ShortLines input := by
  induction h with
  | endOfInput => exact absurd hfrag not_fragments_nil
  | exit input hend => exact ShortLines.exit input hend
  | lastLine _ _ _ _ => simpa [asksEnd] using hfrag.asksEnd_unread
  | line line rest cs unread hline hend hexec ih =>
    obtain _ | ⟨_, _, _, _, _, hrest⟩ := hfrag
    by_cases hshort : line.length ≤ 2
    · rw [takeLine_line hline rest (Nat.lt_succ_of_le hshort)] at hrest
      exact ShortLines.line line rest hline hend hshort (ih hrest)
    · -- a longer line is at least two fragments, one command too many
      rw [takeLine_rest hline rest (by omega)] at hrest
      have hdrop : newlineChar ∉ line.drop 3 := fun hmem => hline (List.mem_of_mem_drop hmem)
      rcases hrest.line hdrop with hlong | ⟨cs', hlt, hfrag'⟩
      · exact absurd hexec.unread_length_le (Nat.not_le_of_lt hlong)
      · exact absurd (hexec.length_le hfrag') (Nat.not_le_of_lt hlt)

/-! ### The law -/

def blankBuffer : Buffer := ⟨[0#8, 0#8, 0#8, 0#8], rfl⟩

theorem ExecutesLines.shortLines {input : List Byte} (h : ExecutesLines input) :
    ShortLines input := by
  have hblank : ¬ asksEnd blankBuffer.val := by decide
  obtain ⟨fuel, s, hmain, hexec, -⟩ := h (fun _ => blankBuffer) ["memreplace", "LRU"] true rfl
  exact hexec.shortLines (mainLoop_fragments (fun _ => hblank) hmain)

theorem executesLines_iff (input : List Byte) : ExecutesLines input ↔ ShortLines input := by
  constructor
  · exact ExecutesLines.shortLines
  · intro h stale argv lruRun hmode
    have hrun : run lruRun [] = .ok (initPageTable zeroed) := rfl
    obtain ⟨fuel, s, hloop, hexec, hmem⟩ := h.session lruRun stale hrun 0
    refine ⟨fuel, s, ?_, hexec, by simpa using hmem⟩
    rw [main, hmode]
    exact hloop

theorem not_shortLines_nil : ¬ ShortLines [] := by
  intro h
  generalize hinput : ([] : List Byte) = input at h
  cases h with
  | exit _ hend =>
    subst hinput
    simp [asksEnd] at hend
  | line line rest _ _ _ _ => simp at hinput

/- The line `123`, then `E`: its newline is a second command. On an input without a line
that asks for the end the loop does not end. -/
theorem long_line_twice :
    (∀ stale argv lruRun, lruMode argv = some lruRun →
      main stale 3 argv [49#8, 50#8, 51#8, newlineChar, 69#8, newlineChar] =
        some (.ok ⟨[.invalid, .invalid], [69#8, newlineChar], initPageTable zeroed⟩)) ∧
    ¬ ExecutesLines [49#8, 50#8, 51#8, newlineChar, 69#8, newlineChar] ∧ ¬ ExecutesLines [] := by
  refine ⟨fun stale argv lruRun hmode => ?_, fun h => ?_, fun h => not_shortLines_nil h.shortLines⟩
  · rw [main, hmode]
    rfl
  · have hshort := h.shortLines
    generalize hinput : [49#8, 50#8, 51#8, newlineChar, 69#8, newlineChar] = input at hshort
    cases hshort with
    | exit _ hend =>
      subst hinput
      exact absurd hend (by decide)
    | line line rest _ _ hlen _ =>
      -- no newline among the first three characters
      have hget : (line ++ newlineChar :: rest)[line.length]? = some newlineChar := by simp
      rw [← hinput] at hget
      interval_cases line.length <;> exact absurd hget (by decide)

end SyeLabs.Memreplace
