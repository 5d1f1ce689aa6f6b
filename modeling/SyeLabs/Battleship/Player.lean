import SyeLabs.Battleship.Board

/-!
# One instance of the game loop

A step of a player is the code between two points where it may block, read the
forfeit flag or read `errno`. What the outside does at such a point (a character
typed, a signal, the outcome of `send` or `recv`) is the action of the step.
-/

namespace SyeLabs.Battleship

def EINTR : ℕ := 4
def SEND_RETRY_LIMIT : ℕ := 3
def EOF : ℤ := -1
def newline : ℤ := 10

inductive StringsIdx where
  | opponentWait
  | attackCell
  | userAttack
  | opponentAttack
  | miss
  | hit
  | userGrid
  | opponentGrid
  | userWon
  | userLost
  | invCellAttacked
  | invCellVal
  | userForfeit
  | opponentForfeit
  | recvFail
  | recvConnClosed
  | sendFail
  deriving DecidableEq

inductive Printed where
  | text (s : StringsIdx)
  | cell (b : Byte)
  | board (g : Grid)
  deriving DecidableEq

inductive Exit where
  | success
  | failure
  | killed
  deriving DecidableEq

inductive Sending where
  | shot
  | result
  | forfeit
  deriving DecidableEq

/-- Where the loop stands. A negative `hexValue` is the -1 of `charToHex`. -/
inductive Pc where
  | head
  | getchar
  | flagTest (hexValue : ℤ)
  | clearBuffer (hexValue : ℤ)
  | send (what : Sending) (retryCount : ℕ)
  | recvResult
  | recvShot
  | recvShotFailed
  | ended (status : Exit)
  | outOfBounds
  deriving DecidableEq

structure Player where
  userGrid : Grid
  advGrid : Grid
  userBoats : ℤ
  advBoats : ℤ
  firstIter : ℕ
  usrInput : Byte
  data : Byte
  forfeitFlag : Bool
  errno : ℕ
  pc : Pc
  out : List Printed

inductive Recv where
  | byte (b : Byte)
  | closed
  | error (e : ℕ)
  deriving DecidableEq

/-- `interrupt` is a SIGTSTP that makes a blocked call fail with `EINTR`, `sigtstp`
one that arrives while nothing blocks; `sigpipe` is the signal of a `send` on a
connection the peer has closed. -/
inductive Act where
  | tau
  | input (c : ℤ)
  | sigtstp
  | interrupt
  | sendOk
  | sendErr (e : ℕ)
  | sigpipe
  | recv (r : Recv)
  deriving DecidableEq

/- In the C locale. -/
def tolower (c : ℤ) : ℤ := if 65 ≤ c ∧ c ≤ 90 then c + 32 else c

def charToHex (digit : ℤ) : ℤ :=
  if 48 ≤ digit ∧ digit ≤ 57 then digit - 48
  else
    let lowerDigit := tolower digit
    if 97 ≤ lowerDigit ∧ lowerDigit ≤ 102 then 10 + (lowerDigit - 97)
    else -1

theorem charToHex_range (digit : ℤ) : -1 ≤ charToHex digit ∧ charToHex digit < 16 := by
  simp only [charToHex]
  split_ifs <;> omega

namespace Player

variable (p : Player)

def print (items : List Printed) : Player := {p with out := p.out ++ items}

def exit (status : Exit) : Player := {p with pc := .ended status}

def quitGame : Player := {p with forfeitFlag := true}

/-- `firstIter++` and back to the loop condition. -/
def nextTurn : Player := {p with firstIter := p.firstIter + 1, pc := .head}

variable (items : List Printed)

@[simp] theorem print_userGrid : (p.print items).userGrid = p.userGrid := rfl
@[simp] theorem print_advGrid : (p.print items).advGrid = p.advGrid := rfl
@[simp] theorem print_userBoats : (p.print items).userBoats = p.userBoats := rfl
@[simp] theorem print_advBoats : (p.print items).advBoats = p.advBoats := rfl
@[simp] theorem print_firstIter : (p.print items).firstIter = p.firstIter := rfl
@[simp] theorem print_usrInput : (p.print items).usrInput = p.usrInput := rfl
@[simp] theorem print_data : (p.print items).data = p.data := rfl
@[simp] theorem print_forfeitFlag : (p.print items).forfeitFlag = p.forfeitFlag := rfl
@[simp] theorem print_errno : (p.print items).errno = p.errno := rfl
@[simp] theorem print_pc : (p.print items).pc = p.pc := rfl
@[simp] theorem print_out : (p.print items).out = p.out ++ items := rfl

/-- One call of `recv` in `socketRecv`, for one byte; false for -1. -/
def socketRecv : Recv → Player × Bool
  -- `errno` is tested before what `recv` returned, so an old `EINTR` fails the call
  | .byte b =>
    let p := {p with data := b}
    if p.errno = EINTR then (p, false) else (p, true)
  | .closed =>
    if p.errno = EINTR then (p, false) else (p.print [.text .recvConnClosed], false)
  | .error e =>
    let p := {p with errno := e}
    if p.errno = EINTR then (p, false) else (p.print [.text .recvFail], false)

/-! ### The attacker -/

/-- From the value of `promptCell` to the call that sends the shot. -/
def afterPrompt (value : Byte) : Player :=
  let p := {p with usrInput := value}
  if p.usrInput = FORFEIT then {p with pc := .send .forfeit 0}
  else match cell? p.usrInput with
    -- an index outside the array is undefined behaviour in C
    | none => {p with pc := .outOfBounds}
    | some c =>
      if p.advGrid c ≠ .default then {p.print [.text .invCellAttacked] with pc := .head}
      else {p with data := p.usrInput, pc := .send .shot 0}

/-- `promptCell` after `getchar`. -/
def testFlag (hexValue : ℤ) : Player :=
  if p.forfeitFlag then p.afterPrompt FORFEIT
  else if hexValue ≠ -1 then {p with pc := .clearBuffer hexValue}
  else {p.print [.text .invCellVal] with pc := .clearBuffer hexValue}

/-- `promptCell` once `CLEAR_INPUT_BUFFER` is over. -/
def bufferCleared (hexValue : ℤ) : Player :=
  if hexValue ≠ -1 then p.afterPrompt (BitVec.ofInt 8 hexValue) else {p with pc := .getchar}

def clearBuffer (hexValue c : ℤ) : Player :=
  if c ≠ newline ∧ c ≠ EOF then p else p.bufferCleared hexValue

/- The attacker's `data` is the opponent's answer. -/
def afterResult : Player :=
  if p.data = FORFEIT then
    (p.print [.text .opponentForfeit, .text .userWon]).exit .success
  else match cell? p.usrInput with
    | none => {p with pc := .outOfBounds}
    | some c =>
      let p : Player :=
        if p.data = GridState.boat.toByte then
          {p.print [.text .userAttack, .cell p.usrInput, .text .hit] with
            advGrid := Function.update p.advGrid c .sunkenBoat
            advBoats := p.advBoats - 1}
        else
          {p.print [.text .userAttack, .cell p.usrInput, .text .miss] with
            advGrid := Function.update p.advGrid c .missedShot}
      let p := p.print [.text .opponentGrid, .board p.advGrid]
      if p.advBoats = 0 then (p.print [.text .userWon]).exit .success else p.nextTurn

/-! ### The defender -/

/- The defender's `data` is the opponent's choice. -/
def afterShot : Player :=
  if p.data = FORFEIT then
    (p.print [.text .opponentForfeit, .text .userWon]).exit .success
  else match cell? p.data with
    | none => {p with pc := .outOfBounds}
    | some c =>
      let p : Player :=
        if p.userGrid c = .boat then
          {p.print [.text .opponentAttack, .cell p.data, .text .hit] with
            userGrid := Function.update p.userGrid c .sunkenBoat
            userBoats := p.userBoats - 1
            data := GridState.boat.toByte}
        else
          {p.print [.text .opponentAttack, .cell p.data, .text .miss] with
            userGrid := Function.update p.userGrid c .missedShot
            data := GridState.missedShot.toByte}
      {p with pc := .send .result 0}

/-- After the answer; the result of its `socketSend` is not looked at. -/
def afterReply : Player :=
  let p := p.print [.text .userGrid, .board p.userGrid]
  if p.userBoats = 0 then (p.print [.text .userLost]).exit .success else p.nextTurn

/-! ### Steps -/

def loopHead : Player :=
  if p.forfeitFlag then p.exit .success
  else if p.firstIter % 2 = 1 then {p.print [.text .attackCell] with pc := .getchar}
  else {p.print [.text .opponentWait] with pc := .recvShot}

def afterForfeit : Player := (p.print [.text .userForfeit, .text .userLost]).exit .success

/- What follows a `socketSend` that returned 0. -/
def sent : Sending → Player
  | .shot => {p with pc := .recvResult}
  | .result => p.afterReply
  | .forfeit => p.afterForfeit

def sendFailed : Sending → Player
  | .shot => p.exit .failure
  | .result => p.afterReply
  | .forfeit => p.afterForfeit

/-- A call of `send` in `socketSend` that returned -1. -/
def retry (what : Sending) (retryCount : ℕ) : Player :=
  -- `++retryCount` comes before the comparison
  if retryCount + 1 > SEND_RETRY_LIMIT then (p.print [.text .sendFail]).sendFailed what
  else {p with pc := .send what (retryCount + 1)}

/-- The attacker's and the defender's code after `socketRecv`. -/
def resultReceived (r : Player × Bool) : Player :=
  if r.2 = false then r.1.exit .failure else r.1.afterResult

def shotReceived (r : Player × Bool) : Player :=
  if r.2 = false then {r.1 with pc := .recvShotFailed} else r.1.afterShot

def shotFailed : Player :=
  if p.forfeitFlag then {p with pc := .send .forfeit 0} else p.exit .failure

def running : Prop := match p.pc with
  | .ended _ | .outOfBounds => False
  | _ => True

instance : Decidable p.running := by
  unfold running
  split <;> infer_instance

def step : Act → Option Player
  | .tau => match p.pc with
    | .head => some p.loopHead
    | .flagTest hexValue => some (p.testFlag hexValue)
    | .recvShotFailed => some p.shotFailed
    | _ => none
  | .input c => match p.pc with
    | .getchar => some {p with pc := .flagTest (charToHex c)}
    | .clearBuffer hexValue => some (p.clearBuffer hexValue c)
    | _ => none
  | .sigtstp => if p.running then some p.quitGame else none
  | .interrupt =>
    let p := {p.quitGame with errno := EINTR}
    match p.pc with
    | .getchar => some {p with pc := .flagTest (charToHex EOF)}
    | .clearBuffer hexValue => some (p.clearBuffer hexValue EOF)
    | .recvResult => some (resultReceived (p.socketRecv (.error EINTR)))
    | .recvShot => some (shotReceived (p.socketRecv (.error EINTR)))
    | _ => none
  | .sendOk => match p.pc with
    | .send what _ => some (p.sent what)
    | _ => none
  | .sendErr e => match p.pc with
    | .send what retryCount => some ({p with errno := e}.retry what retryCount)
    | _ => none
  | .sigpipe => match p.pc with
    | .send _ _ => some (p.exit .killed)
    | _ => none
  | .recv r => match p.pc with
    | .recvResult => some (resultReceived (p.socketRecv r))
    | .recvShot => some (shotReceived (p.socketRecv r))
    | _ => none

def sendByte : Sending → Byte
  | .shot => p.data
  | .result => p.data
  | .forfeit => FORFEIT

def start (userGrid : Grid) (server : Bool) (errno : ℕ) : Player where
  userGrid := userGrid
  advGrid := fun _ => .default
  userBoats := BOAT_NUM
  advBoats := BOAT_NUM
  firstIter := if server then 1 else 0
  usrInput := 0
  data := 0
  forfeitFlag := false
  errno := errno
  pc := .head
  out := []

end Player

end SyeLabs.Battleship
