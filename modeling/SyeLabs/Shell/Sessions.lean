import SyeLabs.Library.Run
import SyeLabs.Shell.Background

/-!
# The children of a session (`lab5/sh.c` and `lab7/sh.c`)

The shell from its start on, one line after the other, as long as it comes back to its
prompt. The log holds every call with its answer: a fork that was answered with 0 is a
process that goes on as a child.
-/

namespace SyeLabs.Shell

open ByteMemory (CStr Memory)
open Interaction (Prog)
open Interaction.Prog (Ends Records ends_done ends_call ends_act ends_attempt records_done
  records_call records_attempt)

/-- The shell at its prompt: the array of tokens, and its calls so far. -/
structure Prompt where
  tokens : Memory
  log : List (Call × Answer)

/-- A line, what the uninitialised variables hold in its round, and the answers to its calls. -/
structure Turn where
  input : CStr
  stack : Stack
  self : ℤ
  answers : ℕ → Answer

/-- A round of `main`'s loop that ends at the prompt. -/
def Prompt.step (processCmd : Memory → Stack → ℤ → Cmd) (s : Prompt) (l : Turn) : Option Prompt :=
  let round := mainRound processCmd s.tokens l.stack l.self l.input
  match readLine s.tokens l.input with
  | .error _ => none
  | .ok m =>
    if round.result l.answers = .returned then some ⟨m, s.log ++ round.log l.answers⟩ else none

def Prompt.start (m : Memory) : Prompt := ⟨m, []⟩

/-- What happens to the children, as the shell sees it. -/
inductive ChildEvent where
  | started (pid : ℤ)
  | waited (pid : ℤ)
  deriving DecidableEq

def childEvent : Call × Answer → Option ChildEvent
  | (.fork, a) => some (.started a.ret)
  | (.waitpid pid, _) => some (.waited pid)
  | _ => none

def children (log : List (Call × Answer)) : List ChildEvent := log.filterMap childEvent

/-- A child that the shell waits for before it does anything with another one. -/
def attended (pid : ℤ) : List ChildEvent := [.started pid, .waited pid]

variable {m : Memory} {stack : Stack} {self pid : ℤ} {line : CStr} {s s' : Prompt} {l : Turn}
  {cmd : Memory → Stack → ℤ → Cmd} {log : List (Call × Answer)} {p : Cmd}

theorem children_append (log log' : List (Call × Answer)) :
    children (log ++ log') = children log ++ children log' := List.filterMap_append

/- Whatever has started came out of a call of `fork`. -/
theorem fork_of_started (h : .started pid ∈ children log) :
    ∃ a : Answer, (.fork, a) ∈ log ∧ a.ret = pid := by
  obtain ⟨⟨c, a⟩, hc, hevent⟩ := List.mem_filterMap.mp h
  cases c with
  | fork => exact ⟨a, hc, ChildEvent.started.inj (Option.some.inj hevent)⟩
  | _ => cases hevent

theorem step_some (h : s.step cmd l = some s') :
    ∃ m, readLine s.tokens l.input = .ok m ∧
      (mainRound cmd s.tokens l.stack l.self l.input).result l.answers = .returned ∧
      s' = ⟨m, s.log ++ (mainRound cmd s.tokens l.stack l.self l.input).log l.answers⟩ := by
  cases hread : readLine s.tokens l.input with
  | error f =>
    simp only [Prompt.step, hread] at h
    cases h
  | ok m =>
    simp only [Prompt.step, hread] at h
    split_ifs at h with hret
    exact ⟨m, rfl, hret, (Option.some.inj h).symm⟩

/-- A process that never comes to the prompt. -/
def Leaves (p : Cmd) : Prop := p.Ends (· ≠ .returned)

theorem leaves_exit (status : ℤ) : Leaves (exit status) := ends_done fun h => nomatch h

theorem leaves_fault (f : Fault) : Leaves (.done (.fault f)) := ends_done fun h => nomatch h

/-! ### The commands of the shell itself -/

/-- The calls of a round that comes back to the prompt. -/
def Returns (Q : List (Call × Answer) → Prop) (p : Cmd) : Prop :=
  p.Records fun log o => o = .returned → Q log

theorem Leaves.returns (h : Leaves p) (Q : List (Call × Answer) → Prop) : Returns Q p :=
  h.records fun _ _ hne hret => absurd hret hne

theorem returns_returned {Q : List (Call × Answer) → Prop} (h : Q []) : Returns Q returned :=
  records_done fun _ => h

theorem returns_act {Q : List (Call × Answer) → Prop} {c : Call}
    (h : ∀ a, Returns (fun log => Q ((c, a) :: log)) p) : Returns Q (.act c p) :=
  records_call h

theorem returns_attempt {α : Type} {Q : List (Call × Answer) → Prop} {e : Except Fault α}
    {next : α → Cmd} (h : ∀ a, e = .ok a → Returns Q (next a)) :
    Returns Q (.attempt .fault e next) :=
  records_attempt (fun _ _ hret => nomatch hret) h

/-- No child is started or waited for. -/
def Childless (log : List (Call × Answer)) : Prop := children log = []

theorem builtins_childless (h : (token m 0).val ∈ builtinNames) (launch : Cmd) :
    Returns Childless (builtins m self pid launch) := by
  simp only [builtins]
  split_ifs with hsched hproc hexit hself hsetenv hname hvalue henv hkill
  · exact returns_act fun a => returns_returned rfl
  · exact returns_act fun a => returns_returned rfl
  · exact returns_act fun a => returns_returned rfl
  · exact (leaves_exit 0).returns _
  · exact returns_returned rfl
  · exact returns_act fun a => returns_returned rfl
  · exact returns_act fun a => returns_returned rfl
  · exact returns_act fun a => returns_returned rfl
  · exact returns_act fun a => returns_returned rfl
  · simp [builtinNames, hsched, hproc, hexit, hsetenv, henv, hkill] at h

namespace Lab7

/-- Every child is waited for before the next one is started, and no fork has failed or was
the start of this process. -/
def Attended (log : List (Call × Answer)) : Prop :=
  ∃ pids : List ℤ, (∀ pid ∈ pids, pid ≠ 0 ∧ pid ≠ -1) ∧ children log = pids.flatMap attended

theorem Attended.append {log log' : List (Call × Answer)} (h : Attended log)
    (h' : Attended log') : Attended (log ++ log') := by
  obtain ⟨pids, hpids, heq⟩ := h
  obtain ⟨pids', hpids', heq'⟩ := h'
  refine ⟨pids ++ pids', fun pid hpid => ?_, ?_⟩
  · exact (List.mem_append.mp hpid).elim (hpids pid) (hpids' pid)
  · rw [children_append, heq, heq', List.flatMap_append]

theorem attended_of_childless (h : Childless log) : Attended log :=
  ⟨[], fun _ hpid => absurd hpid List.not_mem_nil, h⟩

theorem attended_nil : Attended [] := attended_of_childless rfl

theorem attended_cons {a : Answer} (h0 : a.ret ≠ 0) (hfailed : a.ret ≠ -1)
    {log rest : List (Call × Answer)} (hlog : children log = attended a.ret ++ children rest)
    (h : Attended rest) : Attended log := by
  obtain ⟨pids, hpids, heq⟩ := h
  refine ⟨a.ret :: pids, List.forall_mem_cons.mpr ⟨⟨h0, hfailed⟩, hpids⟩, ?_⟩
  rw [hlog, heq, List.flatMap_cons]

variable (s : Scan) (pipeFd : ℤ × ℤ)

theorem execute_leaves (argv : ℕ → Option CStr) {onFailure : CStr → Cmd}
    (h : ∀ name, Leaves (onFailure name)) : Leaves (execute stack argv onFailure) := by
  refine ends_attempt (fun f _ => (nomatch ·)) fun filename _ => ?_
  refine ends_attempt (fun f _ => (nomatch ·)) fun args _ => ends_call fun a => ?_
  split_ifs
  · cases argv 0 with
    | none => exact leaves_fault _
    | some name => exact h name
  · exact ends_done fun h => nomatch h

theorem child1_leaves : Leaves (child1 stack s pipeFd) := by
  unfold child1
  split_ifs
  · exact ends_act <| ends_act <| execute_leaves s.argv fun _ => ends_act <| leaves_exit _
  · exact execute_leaves s.argv fun _ => ends_act <| leaves_exit _

theorem child2_leaves : Leaves (child2 stack s pipeFd) :=
  ends_act <| ends_act <| execute_leaves s.argv2 fun _ => ends_act <| ends_act <| leaves_exit _

theorem rightHand_attended : Returns Attended (rightHand stack s pipeFd) := by
  refine records_call fun a => ?_
  split_ifs with hfailed h0
  · exact Leaves.returns (ends_act (leaves_exit _)) _
  · exact (child2_leaves s pipeFd).returns _
  · refine returns_act fun _ => returns_act fun _ => returns_act fun _ => returns_returned ?_
    exact attended_cons h0 hfailed rfl attended_nil

theorem forkChildren_attended : Returns Attended (forkChildren stack s pipeFd) := by
  refine records_call fun a => ?_
  split_ifs with hfailed hpipe h0
  · exact Leaves.returns (ends_act (ends_act (ends_act (leaves_exit _)))) _
  · exact Leaves.returns (ends_act (leaves_exit _)) _
  · exact (child1_leaves s pipeFd).returns _
  · refine returns_act fun b => (rightHand_attended s pipeFd).imp fun log o h hret => ?_
    exact attended_cons h0 hfailed rfl (h hret)
  · refine returns_act fun b => returns_returned ?_
    exact attended_cons h0 hfailed rfl attended_nil

theorem launch_attended (m : Memory) (stack : Stack) : Returns Attended (launch m stack) := by
  refine returns_attempt fun s _ => returns_attempt fun s _ => ?_
  split_ifs
  · refine records_call fun a => ?_
    split_ifs
    · exact Leaves.returns (ends_act (leaves_exit _)) _
    · exact (forkChildren_attended s a.fds).imp fun log o h hret => h hret
  · exact forkChildren_attended s stack.pipeFd

theorem mainRound_attended (m : Memory) (stack : Stack) (self : ℤ) (line : CStr) :
    Returns Attended (mainRound processCmd m stack self line) := by
  refine returns_attempt fun m _ => ?_
  split_ifs
  · exact returns_returned attended_nil
  · by_cases hname : (token m 0).val ∈ builtinNames
    · exact (builtins_childless hname _).imp fun log o h hret => attended_of_childless (h hret)
    · rw [processCmd, builtins_launch hname]
      exact launch_attended m stack

/-- Whenever the shell is at its prompt, it has waited for every child it has started, for
each of them before it started the next. A line that overruns the arrays ends the session. -/
theorem session_attended (m : Memory) (lines : List Turn) :
    Run.Along (Prompt.step processCmd) (fun s => Attended s.log) (Prompt.start m) lines := by
  apply Run.along_of_step
  · intro s l s' hs hstep
    obtain ⟨m', _, hret, rfl⟩ := step_some hstep
    exact hs.append (mainRound_attended s.tokens l.stack l.self l.input l.answers hret)
  · exact attended_nil

end Lab7

namespace Lab5

/-- The line fits into the arrays. -/
def Fits (line : CStr) : Prop :=
  line.val.length < TOKEN_MAX ∧ (lineWords line).length < TOKEN_NR

instance (line : CStr) : Decidable (Fits line) := inferInstanceAs (Decidable (_ ∧ _))

/-- The line names a program. -/
def Launches (line : CStr) : Prop :=
  lineWords line ≠ [] ∧ (lineWords line).getD 0 [] ∉ builtinNames

instance (line : CStr) : Decidable (Launches line) := inferInstanceAs (Decidable (_ ∧ _))

/-- The child of a line: it is waited for unless there is a `&`. -/
def childOf (l : Turn) : List ChildEvent :=
  if Launches l.input then
    if ampersand ∈ lineWords l.input then [.started (l.answers 0).ret]
    else attended (l.answers 0).ret
  else []

variable {ws : List (List ByteMemory.Byte)} {answers : ℕ → Answer}

theorem child_leaves (m : Memory) (stack : Stack) (argv : ℕ → Option CStr) :
    Leaves (child m stack argv) := by
  refine ends_attempt (fun f _ => (nomatch ·)) fun filename _ => ?_
  refine ends_attempt (fun f _ => (nomatch ·)) fun args _ => ends_call fun a => ?_
  split_ifs
  · exact ends_act (leaves_exit _)
  · exact ends_done fun h => nomatch h

theorem processCmd_launch (stack : Stack) (self : ℤ) (hm : Holding m ws) (hne : [] ∉ ws)
    (hlen : ws.length < TOKEN_NR) (hname : ws.getD 0 [] ∉ builtinNames) :
    ∃ argv, processCmd m stack self = .call .fork fun a =>
      if a.ret = 0 then child m stack argv
      else if ampersand ∈ ws then returned else .act (.waitpid a.ret) returned := by
  obtain ⟨s, argv, hscan, hs, hset, _, _⟩ := execArray_eq stack hm hne hlen
  refine ⟨argv, ?_⟩
  rw [@processCmd_eq m stack s self argv (hm.name ▸ hname) hscan hset]
  simp only [hs.background, ite_not]

theorem processCmd_children (hm : Holding m ws) (hne : [] ∉ ws) (hlen : ws.length < TOKEN_NR)
    (hname : ws.getD 0 [] ∉ builtinNames)
    (hret : (processCmd m stack self).result answers = .returned) :
    (answers 0).ret ≠ 0 ∧ children ((processCmd m stack self).log answers) =
      if ampersand ∈ ws then [.started (answers 0).ret] else attended (answers 0).ret := by
  obtain ⟨argv, hcmd⟩ := processCmd_launch stack self hm hne hlen hname
  rw [hcmd] at hret ⊢
  by_cases h0 : (answers 0).ret = 0
  · rw [Prog.result, if_pos h0] at hret
    exact absurd hret (child_leaves m stack argv _)
  · refine ⟨h0, ?_⟩
    rw [Prog.log, if_neg h0]
    split_ifs
    · rfl
    · rfl

theorem processCmd_returns (hm : Holding m ws) (hne : [] ∉ ws) (hlen : ws.length < TOKEN_NR)
    (hname : ws.getD 0 [] ∉ builtinNames) (h0 : (answers 0).ret ≠ 0) :
    (processCmd m stack self).result answers = .returned := by
  obtain ⟨argv, hcmd⟩ := processCmd_launch stack self hm hne hlen hname
  rw [hcmd, Prog.result, if_neg h0]
  split_ifs
  · rfl
  · rfl

theorem mainRound_children (hfits : Fits l.input)
    (hret : (mainRound processCmd m l.stack l.self l.input).result l.answers = .returned) :
    (Launches l.input → (l.answers 0).ret ≠ 0) ∧
      children ((mainRound processCmd m l.stack l.self l.input).log l.answers) = childOf l := by
  obtain ⟨m', hm, heq⟩ := mainRound_eq processCmd m l.stack l.self hfits.1 (Nat.le_of_lt hfits.2)
  rw [heq] at hret ⊢
  by_cases hws : lineWords l.input = []
  · have hnot : ¬ Launches l.input := fun h => h.1 hws
    rw [if_neg (not_not.mpr hws), childOf, if_neg hnot]
    exact ⟨fun h => absurd h hnot, rfl⟩
  · rw [if_pos hws] at hret ⊢
    by_cases hname : (lineWords l.input).getD 0 [] ∈ builtinNames
    · have hnot : ¬ Launches l.input := fun h => h.2 hname
      rw [childOf, if_neg hnot]
      exact ⟨fun h => absurd h hnot, builtins_childless (hm.name ▸ hname) _ l.answers hret⟩
    · have hlaunch : Launches l.input := ⟨hws, hname⟩
      have hne : [] ∉ lineWords l.input := fun h => lineWords_ne_nil h rfl
      obtain ⟨h0, hchildren⟩ := processCmd_children hm hne hfits.2 hname hret
      rw [childOf, if_pos hlaunch]
      exact ⟨fun _ => h0, hchildren⟩

theorem started_of_launches (hlaunch : Launches l.input) :
    .started (l.answers 0).ret ∈ childOf l := by
  rw [childOf, if_pos hlaunch]
  split_ifs
  · exact List.mem_singleton.mpr rfl
  · exact List.mem_cons_self ..

theorem children_run {lines : List Turn} (hfits : ∀ l ∈ lines, Fits l.input)
    (hrun : Run.exec (Prompt.step processCmd) (Prompt.start m) lines = some s) :
    children s.log = lines.flatMap childOf ∧
      ∀ l ∈ lines, Launches l.input → (l.answers 0).ret ≠ 0 := by
  induction lines using List.reverseRecOn generalizing s with
  | nil =>
    cases hrun
    exact ⟨rfl, fun l hl => absurd hl List.not_mem_nil⟩
  | append_singleton lines l ih =>
    rw [Run.exec_append] at hrun
    obtain ⟨u, hu, hlast⟩ := Option.bind_eq_some_iff.mp hrun
    obtain ⟨t, hstep, hnil⟩ := Run.exec_cons_some hlast
    cases hnil
    obtain ⟨m', _, hret, rfl⟩ := step_some hstep
    obtain ⟨hchildren, hpids⟩ := ih (fun l hl => hfits l (List.mem_append_left _ hl)) hu
    obtain ⟨h0, hlog⟩ := mainRound_children
      (hfits l (List.mem_append_right _ (List.mem_singleton.mpr rfl))) hret
    constructor
    · rw [children_append, hchildren, hlog, List.flatMap_append, List.flatMap_singleton]
    · intro l' hl'
      rcases List.mem_append.mp hl' with hbefore | hnow
      · exact hpids l' hbefore
      · rw [List.mem_singleton.mp hnow]
        exact h0

/-- Back at the prompt, and if no fork has failed, the shell has started one child for each
line that names a program, and waited for exactly those whose line has no `&`, each of them
at once. After a fork that fails, `waitpid` would wait for any child. -/
theorem session_children {lines : List Turn} (hfits : ∀ l ∈ lines, Fits l.input)
    (hrun : Run.exec (Prompt.step processCmd) (Prompt.start m) lines = some s)
    (hforks : ∀ a, (.fork, a) ∈ s.log → a.ret ≠ -1) :
    children s.log = lines.flatMap childOf ∧
      ∀ l ∈ lines, Launches l.input → (l.answers 0).ret ≠ 0 ∧ (l.answers 0).ret ≠ -1 := by
  obtain ⟨hchildren, hpids⟩ := children_run hfits hrun
  refine ⟨hchildren, fun l hl hlaunch => ⟨hpids l hl hlaunch, ?_⟩⟩
  have hstarted : .started (l.answers 0).ret ∈ children s.log := by
    rw [hchildren]
    exact List.mem_flatMap.mpr ⟨l, hl, started_of_launches hlaunch⟩
  obtain ⟨a, ha, hret⟩ := fork_of_started hstarted
  rw [← hret]
  exact hforks a ha

/- The shell comes back from a line that names a program. -/
theorem step_of_launches (s : Prompt) (hfits : Fits l.input) (hlaunch : Launches l.input)
    (h0 : (l.answers 0).ret ≠ 0) : ∃ s', s.step processCmd l = some s' := by
  obtain ⟨m, hread, hm⟩ := readLine_holding s.tokens hfits.1 (Nat.le_of_lt hfits.2)
  have hne : [] ∉ lineWords l.input := fun h => lineWords_ne_nil h rfl
  have hround : mainRound processCmd s.tokens l.stack l.self l.input =
      processCmd m l.stack l.self := by
    rw [mainRound, hread, Prog.attempt_ok, if_pos (hm.called_iff.mpr hlaunch.1)]
  have hret := @processCmd_returns m l.stack l.self (lineWords l.input) l.answers hm hne hfits.2
    hlaunch.2 h0
  refine ⟨⟨m, s.log ++ (processCmd m l.stack l.self).log l.answers⟩, ?_⟩
  simp only [Prompt.step, hread, hround, hret, if_true]

/- `ls &`, the child is process 7. -/
def lsLine : Turn := ⟨lsBackground, zeroStack, 1, fun _ => ⟨7, (0, 0)⟩⟩

theorem session_children_ls : ∃ s : Prompt,
    Run.exec (Prompt.step processCmd) (Prompt.start fun _ => 0#8) [lsLine] = some s ∧
      children s.log = [.started 7] ∧
        ∀ l ∈ [lsLine], Launches l.input → (l.answers 0).ret ≠ 0 ∧ (l.answers 0).ret ≠ -1 := by
  have hfits : Fits lsLine.input := by decide
  have hlaunch : Launches lsLine.input := by decide
  obtain ⟨s, hstep⟩ := step_of_launches (Prompt.start fun _ => 0#8) hfits hlaunch
    (show (lsLine.answers 0).ret ≠ 0 by decide)
  have hrun : Run.exec (Prompt.step processCmd) (Prompt.start fun _ => 0#8) [lsLine] = some s := by
    rw [Run.exec_cons, hstep]
    rfl
  have hall : ∀ l ∈ [lsLine], Fits l.input := fun l hl => List.mem_singleton.mp hl ▸ hfits
  have hforks : ∀ a : Answer, (.fork, a) ∈ s.log → a.ret ≠ -1 := by
    intro a ha
    obtain ⟨m, _, _, rfl⟩ := step_some hstep
    obtain ⟨n, rfl⟩ := Prog.answer_of_mem_log ha
    change (7 : ℤ) ≠ -1
    decide
  obtain ⟨hchildren, hpids⟩ := session_children hall hrun hforks
  exact ⟨s, hrun, hchildren, hpids⟩

end Lab5

end SyeLabs.Shell
