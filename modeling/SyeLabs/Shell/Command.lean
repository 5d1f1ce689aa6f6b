import SyeLabs.Library.Interaction
import SyeLabs.Shell.Tokens
import Mathlib.Logic.Function.Basic

/-!
# `process_cmd` (`lab5/sh.c` and `lab7/sh.c`)

The function as the tree of the calls it makes, in the shell and in the processes it
forks: a `fork` that is answered with 0 goes on in the child. What the uninitialised
variables hold at the start is part of the input, so is what `getpid` returns.
-/

namespace SyeLabs.Shell

open ByteMemory (CStr Memory read write strcpy)
open Interaction (Prog)

inductive Signal where
  | none
  | sigterm
  | sigusr1
  | sigkill
  deriving DecidableEq

inductive Message where
  | rootProcess
  | pipeFailed
  | fork1Failed
  | fork2Failed
  | execFailed (name : CStr)

inductive Call where
  | sysInfo (kind arg : ℤ)
  | printEnviron
  | printf (text : Message)
  | setenv (name value : CStr) (overwrite : ℤ)
  | unsetenv (name : CStr)
  | kill (pid : ℤ) (sig : Signal)
  | pipe
  | fork
  | close (fd : ℤ)
  | dup2 (oldfd newfd : ℤ)
  | execv (path : CStr) (argv : List CStr)
  | waitpid (pid : ℤ)

/-- What a call returns, and what `pipe` stores in its array. -/
structure Answer where
  ret : ℤ
  fds : ℤ × ℤ

inductive Outcome where
  | returned
  | exited (status : ℤ)
  /-- by the program that `execv` has loaded -/
  | replaced
  | fault (f : Fault)
  deriving DecidableEq

abbrev Cmd := Prog Call Answer Outcome

/-- The uninitialised variables. `filename` is the stack from the first byte of the buffer
on, of which `reach` bytes can be read. -/
structure Stack where
  pid : ℤ
  argv : ℕ → Option CStr
  argv2 : ℕ → Option CStr
  pipeFd : ℤ × ℤ
  filename : Memory
  reach : ℕ
  reach_le : FILE_MAX ≤ reach

def zeroStack : Stack := ⟨0, fun _ => none, fun _ => none, (0, 0), fun _ => 0#8, FILE_MAX,
  Nat.le_refl _⟩

def EXIT_FAILURE : ℤ := 1
def STDIN_FILENO : ℤ := 0
def STDOUT_FILENO : ℤ := 1

def returned : Cmd := .done .returned
def exit (status : ℤ) : Cmd := .done (.exited status)

/-- The bytes of a string, up to its zero. -/
def chars (s : CStr) : List ByteMemory.Byte := s.val

/-- The bytes of a string literal. -/
def literal (cs : List Char) : List ByteMemory.Byte := cs.map fun c => BitVec.ofNat 8 c.toNat

def bar : List ByteMemory.Byte := literal ['|']
def ampersand : List ByteMemory.Byte := literal ['&']
def elf : List ByteMemory.Byte := literal ['.', 'e', 'l', 'f']

def isspace (c : ByteMemory.Byte) : Bool := c = 32#8 ∨ (9#8 ≤ c ∧ c ≤ 13#8)

def digits (s : List ByteMemory.Byte) : ℤ :=
  (s.takeWhile fun c => 48#8 ≤ c ∧ c ≤ 57#8).foldl (fun n c => 10 * n + (c.toNat - 48)) 0

/- A value that is no `int` is undefined in C. -/
def atoi (s : CStr) : ℤ :=
  match s.val.dropWhile isspace with
  | [] => 0
  | c :: cs => if c = 45#8 then -digits cs else if c = 43#8 then digits cs else digits (c :: cs)

/-! ### The commands of the shell -/

/- `pid` is assigned on three of the four branches only. -/
def killArgs (m : Memory) (pid : ℤ) : ℤ × Signal :=
  if Blank m 2 then (atoi (token m 1), .sigterm)
  else if (token m 1).val = literal ['-', 'U', 'S', 'R', '1'] then (atoi (token m 2), .sigusr1)
  else if (token m 1).val = literal ['-', '9'] then (atoi (token m 2), .sigkill)
  else (pid, .none)

/-- The commands of the shell itself, the same in both programs. -/
def builtins (m : Memory) (self pid : ℤ) (launch : Cmd) : Cmd :=
  let name := (token m 0).val
  if name = literal ['d', 'u', 'm', 'p', 's', 'c', 'h', 'e', 'd'] then
    .act (.sysInfo 1 0) returned
  else if name = literal ['d', 'u', 'm', 'p', 'p', 'r', 'o', 'c'] then
    .act (.sysInfo 4 0) returned
  else if name = literal ['e', 'x', 'i', 't'] then
    if self = 1 then .act (.printf .rootProcess) returned else exit 0
  else if name = literal ['s', 'e', 't', 'e', 'n', 'v'] then
    if ¬ Blank m 1 then
      if ¬ Blank m 2 then .act (.setenv (token m 1) (token m 2) 1) returned
      else .act (.unsetenv (token m 1)) returned
    else returned
  else if name = literal ['e', 'n', 'v'] then .act .printEnviron returned
  else if name = literal ['k', 'i', 'l', 'l'] then
    let (pid, sig) := killArgs m pid
    .act (.kill pid sig) returned
  else launch

/-! ### Arguments and names -/

theorem ok_bind {α β : Type} (a : α) (f : α → Except Fault β) : (Except.ok a >>= f) = f a := rfl

theorem map_eq_ok {α β : Type} {e : Except Fault α} {f : α → β} {b : β}
    (h : e.map f = .ok b) : ∃ a, e = .ok a ∧ b = f a := by
  cases e with
  | error f => cases h
  | ok a => exact ⟨a, rfl, (Except.ok.inj h).symm⟩

/-- `argv[i] = p` -/
def setArg (argv : ℕ → Option CStr) (i : ℕ) (p : Option CStr) :
    Except Fault (ℕ → Option CStr) :=
  if i < ARGS_MAX then .ok (Function.update argv i p) else .error (.argIndex i)

theorem setArg_ok {argv : ℕ → Option CStr} {i : ℕ} (p : Option CStr) (hi : i < ARGS_MAX) :
    setArg argv i p = .ok (Function.update argv i p) := if_pos hi

/- The vector up to its NULL, as `execv` reads it. -/
def argsFrom (argv : ℕ → Option CStr) (i : ℕ) : ℕ → Except Fault (List CStr)
  | 0 => .error .unterminated
  | n + 1 =>
    match argv i with
    | none => .ok []
    | some s =>
      match argsFrom argv (i + 1) n with
      | .error f => .error f
      | .ok args => .ok (s :: args)

def argList (argv : ℕ → Option CStr) : Except Fault (List CStr) := argsFrom argv 0 ARGS_MAX

/-- `strncpy(filename, s, n)` -/
def strncpy (m : Memory) (s : CStr) (n : ℕ) : Memory :=
  write m 0 (s.val.take n ++ List.replicate (n - s.val.length) 0#8)

/-- `strcat(filename, suffix)`, which looks for the end of the string first. -/
def strcat (m : Memory) (reach : ℕ) (suffix : List ByteMemory.Byte) : Except Fault Memory :=
  match (List.range reach).find? fun n => m n = 0#8 with
  | none => .error .unterminated
  | some n => .ok (write m n (suffix ++ [0#8]))

/-- The string `execv` reads from the buffer. -/
def pathOf (m : Memory) (reach : ℕ) : CStr := CStr.ofBytes (read m 0 (reach + elf.length + 1))

namespace Lab7

variable (m : Memory) (stack : Stack)

/-- The variables of the loop over the tokens. -/
structure Scan where
  argv : ℕ → Option CStr
  argv2 : ℕ → Option CStr
  isPipe : Bool
  arg1 : ℕ
  arg2 : ℕ

/-- A round of the loop. -/
def Scan.take (s : Scan) (t : CStr) : Except Fault Scan :=
  if t.val = bar then
    (setArg s.argv s.arg1 none).map fun argv =>
      {s with argv := argv, isPipe := true, arg1 := s.arg1 + 1}
  else if s.isPipe then
    (setArg s.argv2 s.arg2 (some t)).map fun argv2 =>
      {s with argv2 := argv2, arg2 := s.arg2 + 1, arg1 := s.arg1 + 1}
  else
    (setArg s.argv s.arg1 (some t)).map fun argv =>
      {s with argv := argv, arg1 := s.arg1 + 1}

theorem Scan.take_arg1 {s s' : Scan} {t : CStr} (h : s.take t = .ok s') :
    s'.arg1 = s.arg1 + 1 := by
  unfold Scan.take at h
  split_ifs at h
  · obtain ⟨argv, _, rfl⟩ := map_eq_ok h
    rfl
  · obtain ⟨argv2, _, rfl⟩ := map_eq_ok h
    rfl
  · obtain ⟨argv, _, rfl⟩ := map_eq_ok h
    rfl

def scanTokens (s : Scan) : Except Fault Scan :=
  if TOKEN_NR ≤ s.arg1 then .error (.tokenIndex s.arg1)
  else if Blank m s.arg1 then .ok s
  else
    match _h : s.take (token m s.arg1) with
    | .error f => .error f
    | .ok s' => scanTokens s'
  termination_by TOKEN_NR - s.arg1
  decreasing_by
    have harg := Scan.take_arg1 _h
    omega

def Scan.terminate (s : Scan) : Except Fault Scan :=
  if s.isPipe then (setArg s.argv2 s.arg2 none).map fun argv2 => {s with argv2 := argv2}
  else (setArg s.argv s.arg1 none).map fun argv => {s with argv := argv}

/-- The buffer after `strncpy` and `strcat`. -/
def buildName : Option CStr → Except Fault Memory
  | none => .error .nullString
  | some name => strcat (strncpy stack.filename name FILE_MAX) stack.reach elf

/-- `execv` on the name at the head of a vector; `onFailure` is the code behind it. -/
def execute (argv : ℕ → Option CStr) (onFailure : CStr → Cmd) : Cmd :=
  .attempt .fault (buildName stack (argv 0)) fun filename =>
    .attempt .fault (argList argv) fun args =>
      .call (.execv (pathOf filename stack.reach) args) fun a =>
        if a.ret = -1 then
          match argv 0 with
          | none => .done (.fault .nullString)
          | some name => onFailure name
        else .done .replaced

variable (s : Scan) (pipeFd : ℤ × ℤ)

def child1 : Cmd :=
  let exec := execute stack s.argv fun name =>
    if ¬ s.isPipe then .act (.printf (.execFailed name)) (exit EXIT_FAILURE)
    else .act (.close pipeFd.2) (exit EXIT_FAILURE)
  if s.isPipe then .act (.close pipeFd.1) (.act (.dup2 pipeFd.2 STDOUT_FILENO) exec) else exec

def child2 : Cmd :=
  .act (.close pipeFd.2) <| .act (.dup2 pipeFd.1 STDIN_FILENO) <|
    execute stack s.argv2 fun name =>
      .act (.printf (.execFailed name)) <| .act (.close pipeFd.1) <| exit EXIT_FAILURE

def rightHand : Cmd :=
  .call .fork fun a =>
    if a.ret = -1 then .act (.printf .fork2Failed) (exit EXIT_FAILURE)
    else if a.ret = 0 then child2 stack s pipeFd
    else .act (.close pipeFd.1) <| .act (.close pipeFd.2) <| .act (.waitpid a.ret) returned

def forkChildren : Cmd :=
  .call .fork fun a =>
    if a.ret = -1 then
      .act (.printf .fork1Failed) <|
        if s.isPipe then
          .act (.close pipeFd.1) <| .act (.close pipeFd.2) <| exit EXIT_FAILURE
        else exit EXIT_FAILURE
    else if a.ret = 0 then child1 stack s pipeFd
    else .act (.waitpid a.ret) <| if s.isPipe then rightHand stack s pipeFd else returned

/-- The general case of `process_cmd`. -/
def launch : Cmd :=
  .attempt .fault (scanTokens m ⟨stack.argv, stack.argv2, false, 0, 0⟩) fun s =>
    .attempt .fault s.terminate fun s =>
      if s.isPipe then
        .call .pipe fun a =>
          if a.ret = -1 then .act (.printf .pipeFailed) (exit EXIT_FAILURE)
          else forkChildren stack s a.fds
      else forkChildren stack s stack.pipeFd

def processCmd (self : ℤ) : Cmd := builtins m self stack.pid (launch m stack)

end Lab7

namespace Lab5

variable (m : Memory) (stack : Stack)

structure Scan where
  argv : ℕ → Option CStr
  background : Bool
  argPos : ℕ

/- `tokens[arg_pos][0]` is read before `arg_pos` is compared with `TOKEN_NR`. -/
def scanTokens (s : Scan) : Except Fault Scan :=
  if TOKEN_NR ≤ s.argPos then .error (.tokenIndex s.argPos)
  else if Blank m s.argPos then .ok s
  else if (token m s.argPos).val = ampersand then .ok {s with background := true}
  else
    match setArg s.argv s.argPos (some (token m s.argPos)) with
    | .error f => .error f
    | .ok argv => scanTokens {s with argv := argv, argPos := s.argPos + 1}
  termination_by TOKEN_NR - s.argPos

/-- The buffer after `strcpy` and `strcat`. -/
def buildName (name : CStr) : Except Fault Memory :=
  strcat (strcpy stack.filename 0 name) stack.reach elf

def child (argv : ℕ → Option CStr) : Cmd :=
  let name := token m 0
  .attempt .fault (buildName stack name) fun filename =>
    .attempt .fault (argList (Function.update argv 0 (some name))) fun args =>
      .call (.execv (pathOf filename stack.reach) args) fun a =>
        if a.ret = -1 then .act (.printf (.execFailed name)) (exit (-1)) else .done .replaced

def launch : Cmd :=
  .attempt .fault (scanTokens m ⟨stack.argv, false, 0⟩) fun s =>
    .attempt .fault (setArg s.argv s.argPos none) fun argv =>
      .call .fork fun a =>
        if a.ret = 0 then child m stack argv
        else if ¬ s.background then .act (.waitpid a.ret) returned
        else returned

def processCmd (self : ℤ) : Cmd := builtins m self stack.pid (launch m stack)

end Lab5

/-- One round of `main`'s loop, on a line that `gets` has read. -/
def mainRound (processCmd : Memory → Stack → ℤ → Cmd) (m : Memory) (stack : Stack) (self : ℤ)
    (userInput : CStr) : Cmd :=
  .attempt .fault (readLine m userInput) fun m =>
    if ¬ Blank m 0 then processCmd m stack self else returned

end SyeLabs.Shell
