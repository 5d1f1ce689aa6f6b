import SyeLabs.Shell.Pipeline

/-!
# What a pipeline delivers (`lab7/sh.c`, lines 163-256)

A left output that fits in the pipe goes through it unchanged, whatever the order of the
steps: the right program reads it to its end, and then the end of the stream.
-/

namespace SyeLabs.Shell

/-- What the left program writes in a run: its output, unless `execv` failed. -/
def sent (line : Line) (es : List (Proc × Act)) : List Byte :=
  if (.left, .fail) ∈ es then [] else line.output

/- The rounds that are left to a process. -/
def ShellPc.rank : ShellPc → ℕ
  | .pipe => 7
  | .fork1 => 6
  | .waitpid1 => 5
  | .fork2 => 4
  | .closeRead => 3
  | .closeWrite => 2
  | .waitpid2 => 1
  | .returned | .exited => 0

def ChildPc.rank : ChildPc → ℕ
  | .unborn => 6
  | .closeUnused => 5
  | .dup2 => 4
  | .execv => 3
  | .program | .closeUsed => 2
  | .exit => 1
  | .terminated => 0

namespace State

/-- A byte is moved twice: into the pipe and out of it. -/
def rank (line : Line) (s : State) : ℕ :=
  s.shell.rank + s.left.rank + s.right.rank + s.pipe.buffer.length +
    2 * if s.left ∈ [.unborn, .closeUnused, .dup2, .execv] then line.output.length
      else s.pending.length

/-- Where the bytes of the left program are. -/
structure Flow (line : Line) (es : List (Proc × Act)) (s : State) : Prop where
  before : s.left ∈ [.unborn, .closeUnused, .dup2, .execv] →
    (.left, .fail) ∉ es ∧ s.received = []
  during : s.left = .program →
    (.left, .fail) ∉ es ∧ s.received ++ s.pipe.buffer ++ s.pending = line.output
  failed : s.left = .closeUsed →
    (.left, .fail) ∈ es ∧ s.received ++ s.pipe.buffer = []
  after : s.left ∈ [.exit, .terminated] → s.received ++ s.pipe.buffer = sent line es
  refused : s.right = .closeUsed → (.right, .fail) ∈ es
  drained : s.right ∈ [.exit, .terminated] → (.right, .fail) ∉ es → s.pipe.buffer = []
  gone : s.shell = .returned → s.right = .terminated

variable {line : Line} {s s' : State} {es : List (Proc × Act)}

theorem flow_start (line : Line) : Flow line [] start := by
  constructor <;> simp [start]

attribute [local simp] Pipe.create Pipe.fork Pipe.closeRead Pipe.closeWrite Pipe.dupRead
  Pipe.dupWrite Pipe.exit

/-- The shell touches no data, and it forks the children. -/
theorem shellStep_frame {a : Act} (hs : s.shellStep a = some s') :
    s'.received = s.received ∧ s'.pipe.buffer = s.pipe.buffer ∧ s'.pending = s.pending ∧
      (s'.left = s.left ∨ s.shell = .fork1 ∧ s'.left = .closeUnused) ∧
      (s'.right = s.right ∨ s'.right = .closeUnused) ∧
      (s'.shell = .returned → s'.right = .terminated) := by
  cases a with
  | ok =>
    cases hpc : s.shell <;> simp [shellStep, hpc] at hs
    case waitpid1 | waitpid2 =>
      obtain ⟨hdone, rfl⟩ := hs
      simp [hdone]
    all_goals
      subst hs
      simp
  | fail =>
    cases hpc : s.shell <;> simp [shellStep, hpc] at hs
    all_goals
      subst hs
      simp
  | write n | broken | read n => simp [shellStep] at hs

theorem flow_shell (hinv : s.Inv line) (h : Flow line es s) {a : Act}
    (hs : s.shellStep a = some s') : Flow line (es ++ [(.shell, a)]) s' := by
  obtain ⟨hreceived, hbuffer, hpending, hleft, hright, hgone⟩ := shellStep_frame hs
  have hmem : ∀ p, p ≠ .shell →
      ((p, Act.fail) ∈ es ++ [(Proc.shell, a)] ↔ (p, Act.fail) ∈ es) := by
    intro p hp
    simp [hp]
  have hsent : sent line (es ++ [(Proc.shell, a)]) = sent line es := by
    simp only [sent, hmem .left (by decide)]
  -- only the call of `fork` changes what a child is at
  have hleftKept : s'.left ≠ .closeUnused → s'.left = s.left := fun hne =>
    hleft.resolve_right fun hfork => hne hfork.2
  have hrightKept : s'.right ≠ .closeUnused → s'.right = s.right := hright.resolve_right
  constructor
  · intro hl
    rw [hmem _ (by decide), hreceived]
    apply h.before
    rcases hleft with hsame | ⟨hpc, -⟩
    · exact hsame ▸ hl
    · have hfamily := hinv.family
      rw [hpc] at hfamily
      simp [hfamily.1]
  · intro hl
    rw [hmem _ (by decide), hreceived, hbuffer, hpending]
    exact h.during (hleftKept (by simp [hl]) ▸ hl)
  · intro hl
    rw [hmem _ (by decide), hreceived, hbuffer]
    exact h.failed (hleftKept (by simp [hl]) ▸ hl)
  · intro hl
    have hne : s'.left ≠ .closeUnused := fun hpc => by simp [hpc] at hl
    rw [hsent, hreceived, hbuffer]
    exact h.after (hleftKept hne ▸ hl)
  · intro hr
    rw [hmem _ (by decide)]
    exact h.refused (hrightKept (by simp [hr]) ▸ hr)
  · intro hr
    have hne : s'.right ≠ .closeUnused := fun hpc => by simp [hpc] at hr
    rw [hmem _ (by decide), hbuffer]
    exact h.drained (hrightKept hne ▸ hr)
  · exact hgone

/- While the left program runs the shell still has the read end. -/
theorem Inv.hasReader (h : s.Inv line) (hleft : s.left = .program) : s.pipe.HasReader := by
  refine ⟨.shell, ?_⟩
  have hfamily := h.family
  rw [h.shellEnds]
  cases hpc : s.shell <;> simp_all [ShellPc.Family, ShellPc.ends]

/- There is no right program as long as there is a left one. -/
theorem Inv.right_of_left (h : s.Inv line) (hborn : s.left ≠ .unborn)
    (hlive : s.left ≠ .terminated) : s.right = .unborn := by
  have hfamily := h.family
  cases hpc : s.shell <;> simp_all [ShellPc.Family]

theorem Inv.left_of_right (h : s.Inv line) (hborn : s.right ≠ .unborn) :
    s.left = .terminated := by
  have hfamily := h.family
  cases hpc : s.shell <;> simp_all [ShellPc.Family]

/- While the left child is there, the right one is not born and the shell waits. -/
theorem Flow.of_left (hright : s.right = .unborn) (hshell : s.shell ≠ .returned)
    (hbefore : s.left ∈ [.unborn, .closeUnused, .dup2, .execv] →
      (.left, .fail) ∉ es ∧ s.received = [])
    (hduring : s.left = .program →
      (.left, .fail) ∉ es ∧ s.received ++ s.pipe.buffer ++ s.pending = line.output)
    (hfailed : s.left = .closeUsed → (.left, .fail) ∈ es ∧ s.received ++ s.pipe.buffer = [])
    (hafter : s.left ∈ [.exit, .terminated] → s.received ++ s.pipe.buffer = sent line es) :
    Flow line es s := by
  refine ⟨hbefore, hduring, hfailed, hafter, fun hr => ?_, fun hr => ?_, fun hpc => ?_⟩
  · simp [hright] at hr
  · simp [hright] at hr
  · exact absurd hpc hshell

theorem flow_left (hinv : s.Inv line) (h : Flow line es s) {a : Act}
    (hs : s.leftStep line a = some s') : Flow line (es ++ [(.left, a)]) s' := by
  obtain ⟨hborn, hlive⟩ := leftStep_live hs
  have hright := hinv.right_of_left hborn hlive
  have hshell : s.shell ≠ .returned := by
    intro hpc
    have hgone := h.gone hpc
    rw [hright] at hgone
    cases hgone
  have hmem : a ≠ .fail → ((Proc.left, Act.fail) ∈ es ++ [(.left, a)] ↔ (.left, .fail) ∈ es) := by
    intro ha
    simp [Ne.symm ha]
  cases a with
  | ok =>
    have hkept := hmem (by decide)
    have hsent : sent line (es ++ [(.left, .ok)]) = sent line es := by simp only [sent, hkept]
    cases hpc : s.left <;> simp [leftStep, hpc] at hs
    case closeUnused | dup2 =>
      subst hs
      refine .of_left hright hshell (fun _ => ?_) (by simp) (by simp) (by simp)
      rw [hkept]
      exact h.before (by simp [hpc])
    case execv =>
      subst hs
      obtain ⟨hfail, hreceived⟩ := h.before (by simp [hpc])
      have hempty := hinv.unused (by simp [hpc])
      refine .of_left hright hshell (by simp) (fun _ => ⟨hkept.not.mpr hfail, ?_⟩) (by simp)
        (by simp)
      rw [hreceived, hempty, List.append_nil, List.nil_append]
    case program =>
      obtain ⟨hdone, rfl⟩ := hs
      obtain ⟨hfail, houtput⟩ := h.during hpc
      refine .of_left hright hshell (by simp) (by simp) (by simp) fun _ => ?_
      rw [hsent, sent, if_neg hfail, ← houtput, hdone, List.append_nil]
    case closeUsed =>
      subst hs
      obtain ⟨hfail, hempty⟩ := h.failed hpc
      refine .of_left hright hshell (by simp) (by simp) (by simp) fun _ => ?_
      rw [hsent, sent, if_pos hfail]
      exact hempty
    case exit =>
      subst hs
      refine .of_left hright hshell (by simp) (by simp) (by simp) fun _ => ?_
      rw [hsent]
      exact h.after (by simp [hpc])
  | fail =>
    obtain ⟨hpc, rfl⟩ := by simpa [leftStep] using hs
    have hempty := hinv.unused (by simp [hpc])
    refine .of_left hright hshell (by simp) (by simp) (fun _ => ⟨by simp, ?_⟩) (by simp)
    rw [(h.before (by simp [hpc])).2, hempty, List.append_nil]
  | write n =>
    obtain ⟨⟨hpc, _, _, _, _⟩, rfl⟩ := by simpa [leftStep] using hs
    obtain ⟨hfail, houtput⟩ := h.during hpc
    have hkept := hmem (by simp)
    refine .of_left hright hshell (by simp [hpc]) (fun _ => ⟨hkept.not.mpr hfail, ?_⟩)
      (by simp [hpc]) (by simp [hpc])
    -- the bytes written go from the front of the rest to the end of the pipe
    rw [← houtput]
    simp
  | broken =>
    obtain ⟨⟨hpc, _, hbroken⟩, rfl⟩ := by simpa [leftStep] using hs
    exact absurd (hinv.hasReader hpc) hbroken
  | read n => simp [leftStep] at hs

/- Once the left child has terminated, the bytes are in the pipe or received. -/
theorem Flow.of_right (hleft : s.left = .terminated) (hshell : s.shell ≠ .returned)
    (hafter : s.received ++ s.pipe.buffer = sent line es)
    (hrefused : s.right = .closeUsed → (.right, .fail) ∈ es)
    (hdrained : s.right ∈ [.exit, .terminated] → (.right, .fail) ∉ es → s.pipe.buffer = []) :
    Flow line es s := by
  refine ⟨fun hl => ?_, fun hl => ?_, fun hl => ?_, fun _ => hafter, hrefused, hdrained,
    fun hpc => absurd hpc hshell⟩
  · simp [hleft] at hl
  · simp [hleft] at hl
  · simp [hleft] at hl

theorem flow_right (hinv : s.Inv line) (h : Flow line es s) {a : Act}
    (hs : s.rightStep a = some s') : Flow line (es ++ [(.right, a)]) s' := by
  obtain ⟨hborn, hlive⟩ := rightStep_live hs
  have hleft := hinv.left_of_right hborn
  have hshell : s.shell ≠ .returned := fun hpc => hlive (h.gone hpc)
  have hsent : sent line (es ++ [(.right, a)]) = sent line es := by simp [sent]
  have hafter := hsent.symm ▸ h.after (by simp [hleft])
  cases a with
  | ok =>
    have hkept : (Proc.right, Act.fail) ∈ es ++ [(.right, .ok)] ↔ (.right, .fail) ∈ es := by simp
    cases hpc : s.right <;> simp [rightStep, hpc] at hs
    case program =>
      obtain ⟨⟨hempty, _⟩, rfl⟩ := hs
      exact .of_right hleft hshell hafter (by simp) fun _ _ => hempty
    case closeUsed =>
      subst hs
      refine .of_right hleft hshell hafter (by simp) fun _ hfail => ?_
      exact absurd (hkept.mpr (h.refused hpc)) hfail
    case exit =>
      subst hs
      refine .of_right hleft hshell hafter (by simp) fun _ hfail => ?_
      exact h.drained (by simp [hpc]) (hkept.not.mp hfail)
    all_goals
      subst hs
      exact .of_right hleft hshell hafter (by simp) (by simp)
  | fail =>
    obtain ⟨hpc, rfl⟩ := by simpa [rightStep] using hs
    exact .of_right hleft hshell hafter (by simp) (by simp)
  | read n =>
    obtain ⟨⟨hpc, _, _⟩, rfl⟩ := by simpa [rightStep] using hs
    refine .of_right hleft hshell ?_ (by simp [hpc]) (by simp [hpc])
    rw [← hafter]
    simp
  | write n | broken => simp [rightStep] at hs

theorem flow_run (h : Run.exec (step line) start es = some s) : s.Inv line ∧ Flow line es s := by
  refine Run.exec_history (J := fun s es => s.Inv line ∧ Flow line es s)
    ⟨inv_start line, flow_start line⟩ ?_ h
  rintro u ⟨p, a⟩ u' es ⟨hinv, hflow⟩ hs
  refine ⟨inv_step hinv hs, ?_⟩
  cases p with
  | shell => exact flow_shell hinv hflow hs
  | left => exact flow_left hinv hflow hs
  | right => exact flow_right hinv hflow hs

/-! ### The run goes on and ends -/

theorem shellStep_rank (hinv : s.Inv line) {a : Act} (hs : s.shellStep a = some s') :
    s'.rank line < s.rank line := by
  have hfamily := hinv.family
  cases a with
  | ok =>
    cases hpc : s.shell <;> simp [shellStep, hpc] at hs
    case waitpid1 | waitpid2 =>
      obtain ⟨_, rfl⟩ := hs
      simp [rank, ShellPc.rank, hpc]
    case fork1 =>
      rw [hpc] at hfamily
      subst hs
      simp [rank, ShellPc.rank, ChildPc.rank, hpc, hfamily.1]
    case fork2 =>
      rw [hpc] at hfamily
      subst hs
      have hshell : s.shell.rank = ShellPc.rank .closeRead + 1 := by rw [hpc]; rfl
      have hright : s.right.rank = ChildPc.rank .closeUnused + 1 := by rw [hfamily.2]; rfl
      simp only [rank, hshell, hright, Pipe.setEnds_buffer]
      omega
    all_goals
      subst hs
      simp [rank, ShellPc.rank, hpc]
  | fail =>
    cases hpc : s.shell <;> simp [shellStep, hpc] at hs
    all_goals
      subst hs
      simp [rank, ShellPc.rank, hpc]
  | write n | broken | read n => simp [shellStep] at hs

theorem leftStep_rank (hinv : s.Inv line) {a : Act} (hs : s.leftStep line a = some s') :
    s'.rank line < s.rank line := by
  have hroom := hinv.room
  cases a with
  | ok =>
    cases hpc : s.left <;> simp [leftStep, hpc] at hs
    case program =>
      obtain ⟨_, rfl⟩ := hs
      simp [rank, ChildPc.rank, hpc]
    all_goals
      subst hs
      simp [rank, ChildPc.rank, hpc]
  | fail =>
    obtain ⟨hpc, rfl⟩ := by simpa [leftStep] using hs
    simp [rank, ChildPc.rank, hpc]
    omega
  | write n =>
    obtain ⟨⟨hpc, hpos, hle, _, _⟩, rfl⟩ := by simpa [leftStep] using hs
    simp [rank, hpc]
    omega
  | broken =>
    obtain ⟨⟨hpc, hne, _⟩, rfl⟩ := by simpa [leftStep] using hs
    have hpos := List.length_pos_iff.mpr hne
    simp [rank, hpc]
    omega
  | read n => simp [leftStep] at hs

theorem rightStep_rank {a : Act} (hs : s.rightStep a = some s') :
    s'.rank line < s.rank line := by
  cases a with
  | ok =>
    cases hpc : s.right <;> simp [rightStep, hpc] at hs
    case program =>
      obtain ⟨_, rfl⟩ := hs
      simp [rank, ChildPc.rank, hpc]
    all_goals
      subst hs
      simp [rank, ChildPc.rank, hpc]
  | fail =>
    obtain ⟨hpc, rfl⟩ := by simpa [rightStep] using hs
    simp [rank, ChildPc.rank, hpc]
  | read n =>
    obtain ⟨⟨_, hpos, hle⟩, rfl⟩ := by simpa [rightStep] using hs
    simp [rank]
    omega
  | write n | broken => simp [rightStep] at hs

theorem step_rank (hinv : s.Inv line) {e : Proc × Act} (hs : s.step line e = some s') :
    s'.rank line < s.rank line := by
  obtain ⟨p, a⟩ := e
  cases p with
  | shell => exact shellStep_rank hinv hs
  | left => exact leftStep_rank hinv hs
  | right => exact rightStep_rank hs

theorem run_length (h : Run.exec (step line) start es = some s) :
    es.length ≤ start.rank line := by
  have hbound : es.length + s.rank line ≤ start.rank line :=
    Run.exec_length_add_rank (fun _ _ _ hI hs => ⟨inv_step hI hs, step_rank hI hs⟩)
      (inv_start line) h
  omega

theorem exists_ok {p : Proc} (h : ∃ s', s.step line (p, .ok) = some s') :
    ∃ a s', a ≠ .fail ∧ s.step line (p, a) = some s' := by
  obtain ⟨s', hs⟩ := h
  exact ⟨.ok, s', by simp, hs⟩

/-- A process that is not blocked has a step, without any failing call. -/
theorem step_of_not_blocked {p : Proc} (hlive : s.Live p) (hreturned : s.shell ≠ .returned)
    (hblocked : ¬ s.Blocked line p) : ∃ a s', a ≠ .fail ∧ s.step line (p, a) = some s' := by
  cases p with
  | shell =>
    refine exists_ok ?_
    rw [Blocked, not_or, not_and_not_right, not_and_not_right] at hblocked
    cases hpc : s.shell <;> simp_all [Live, step, shellStep]
  | left =>
    by_cases hpc : s.left = .program
    · by_cases hdone : s.pending = []
      · have hok : s.step line (.left, .ok) = some {s with left := .exit} := by
          simp only [step, leftStep, hpc]
          exact if_pos hdone
        exact exists_ok ⟨_, hok⟩
      · by_cases hreader : s.pipe.HasReader
        · have hroom : s.pipe.buffer.length < line.capacity := by
            by_contra hfull
            exact hblocked ⟨hpc, hdone, by omega, hreader⟩
          refine ⟨.write 1, _, by simp, if_pos ⟨hpc, Nat.one_pos, ?_, hreader, hroom⟩⟩
          exact List.length_pos_iff.mpr hdone
        · exact ⟨.broken, _, by simp, if_pos ⟨hpc, hdone, hreader⟩⟩
    · refine exists_ok ?_
      cases hpc : s.left <;> simp_all [Live, step, leftStep]
  | right =>
    by_cases hpc : s.right = .program
    · by_cases hempty : s.pipe.buffer = []
      · have hwriter : ¬ s.pipe.HasWriter := fun hw => hblocked ⟨hpc, hempty, hw⟩
        have hok : s.step line (.right, .ok) = some {s with right := .exit} := by
          simp only [step, rightStep, hpc]
          exact if_pos ⟨hempty, hwriter⟩
        exact exists_ok ⟨_, hok⟩
      · exact ⟨.read 1, _, by simp, if_pos ⟨hpc, Nat.one_pos, List.length_pos_iff.mpr hempty⟩⟩
    · refine exists_ok ?_
      cases hpc : s.right <;> simp_all [Live, step, rightStep]

theorem Inv.goes_on (h : s.Inv line) (hfits : line.output.length ≤ line.capacity)
    (hreturned : s.shell ≠ .returned) (hexited : s.shell ≠ .exited) :
    ∃ e s', e.2 ≠ .fail ∧ s.step line e = some s' := by
  by_contra hstuck
  apply h.not_deadlocked hfits
  refine ⟨hreturned, ⟨.shell, hexited⟩, fun p hlive => ?_⟩
  by_contra hblocked
  obtain ⟨a, s', ha, hs⟩ := step_of_not_blocked hlive hreturned hblocked
  exact hstuck ⟨(p, a), s', ha, hs⟩

/- The shell exits in the middle of a line where one of its calls fails, and only there. -/
theorem step_ne_exited {e : Proc × Act} (he : e ≠ (.shell, .fail)) (hs : s.step line e = some s')
    (hexited : s.shell ≠ .exited) : s'.shell ≠ .exited := by
  obtain ⟨p, a⟩ := e
  cases p with
  | left => rwa [(leftStep_move hs).2.1]
  | right => rwa [(rightStep_move hs).2.1]
  | shell =>
    cases a with
    | ok =>
      cases hpc : s.shell <;> simp [step, shellStep, hpc] at hs
      case waitpid1 | waitpid2 =>
        obtain ⟨-, rfl⟩ := hs
        simp
      all_goals
        subst hs
        simp
    | fail => exact absurd rfl he
    | write n | broken | read n => simp [step, shellStep] at hs

theorem run_ne_exited (hes : (.shell, .fail) ∉ es) (h : Run.exec (step line) start es = some s) :
    s.shell ≠ .exited := by
  have hstart : (start).shell ≠ .exited := by simp [start]
  exact Run.exec_invariant_of_notMem (I := fun u => u.shell ≠ .exited)
    (fun u e u' hu he hs => step_ne_exited he hs hu) hstart hes h

end State

/-- What a run of the pipeline has delivered, and that it goes on to its end unless a call of
the shell fails. -/
structure Delivered (line : Line) (es : List (Proc × Act)) (s : State) : Prop where
  order : s.received <+: sent line es
  endOfFile : s.right = .program → s.step line (.right, .ok) ≠ none → s.received = sent line es
  returned : s.shell = .returned → (.right, .fail) ∉ es → s.received = sent line es
  started : (.shell, .fail) ∉ es → s.shell ≠ .exited
  goesOn : s.shell ≠ .returned → s.shell ≠ .exited → ∃ e s', e.2 ≠ .fail ∧ s.step line e = some s'
  bounded : es.length ≤ State.start.rank line

def Delivers (line : Line) : Prop :=
  ∀ es s, Run.exec (State.step line) State.start es = some s → Delivered line es s

variable {line : Line} {s : State} {es : List (Proc × Act)}

theorem State.Flow.prefix_sent (h : State.Flow line es s) : s.received <+: sent line es := by
  cases hpc : s.left with
  | unborn | closeUnused | dup2 | execv =>
    rw [(h.before (by simp [hpc])).2]
    exact List.nil_prefix
  | program =>
    obtain ⟨hfail, houtput⟩ := h.during hpc
    rw [sent, if_neg hfail, ← houtput, List.append_assoc]
    exact List.prefix_append ..
  | closeUsed =>
    rw [(List.append_eq_nil_iff.mp (h.failed hpc).2).1]
    exact List.nil_prefix
  | exit | terminated =>
    rw [← h.after (by simp [hpc])]
    exact List.prefix_append ..

/- Once the left program is gone, what is not in the pipe has been read. -/
theorem State.Flow.all_received (h : State.Flow line es s) (hleft : s.left = .terminated)
    (hempty : s.pipe.buffer = []) : s.received = sent line es := by
  rw [← h.after (by simp [hleft]), hempty, List.append_nil]

theorem delivers (hfits : line.output.length ≤ line.capacity) : Delivers line := by
  intro es s hrun
  obtain ⟨hinv, hflow⟩ := State.flow_run hrun
  constructor
  · exact hflow.prefix_sent
  · intro hpc hread
    apply hflow.all_received (hinv.left_of_right (by simp [hpc]))
    by_contra hfull
    exact hread (by simp [State.step, State.rightStep, hpc, hfull])
  · intro hpc hfail
    have hright := hflow.gone hpc
    exact hflow.all_received (hinv.left_of_right (by simp [hright]))
      (hflow.drained (by simp [hright]) hfail)
  · exact fun hes => State.run_ne_exited hes hrun
  · exact hinv.goes_on hfits
  · exact State.run_length hrun

end SyeLabs.Shell
