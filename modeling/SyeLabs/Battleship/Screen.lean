import SyeLabs.Library.Run
import SyeLabs.Battleship.Steps

/-!
# What a player can read on the screen

Somebody who reads the lines of a game, and has seen the boats being placed, keeps both
boards and the boats that are left from the announced shots alone, and can check every
board that is drawn.
-/

namespace SyeLabs.Battleship

/-- What the lines so far say. `mine` is the last attack being the user's, `cell` its cell, `own`
the last heading being that of the user's grid, and `right` that all boards drawn were so. -/
structure Screen where
  userGrid : Grid
  advGrid : Grid
  userBoats : ℤ
  advBoats : ℤ
  mine : Bool
  cell : Option Cell
  own : Bool
  right : Bool

namespace Screen

def start (userGrid : Grid) : Screen where
  userGrid := userGrid
  advGrid := fun _ => .default
  userBoats := BOAT_NUM
  advBoats := BOAT_NUM
  mine := false
  cell := none
  own := false
  right := true

variable (s : Screen)

/-- The attack announced last has hit, or not. -/
def result (hit : Bool) : Screen :=
  let mark := if hit then GridState.sunkenBoat else GridState.missedShot
  let sunk := if hit then 1 else 0
  match s.cell with
  | none => s
  | some c =>
    if s.mine then
      {s with advGrid := Function.update s.advGrid c mark, advBoats := s.advBoats - sunk}
    else {s with userGrid := Function.update s.userGrid c mark, userBoats := s.userBoats - sunk}

def read : Printed → Screen
  | .text .userAttack => {s with mine := true}
  | .text .opponentAttack => {s with mine := false}
  | .cell b => {s with cell := cell? b}
  | .text .hit => s.result true
  | .text .miss => s.result false
  | .text .userGrid => {s with own := true}
  | .text .opponentGrid => {s with own := false}
  | .text _ => s
  | .board g => {s with right := s.right && decide (g = if s.own then s.userGrid else s.advGrid)}

end Screen

/-- The screen of a game that was started with this board. -/
def screen (userGrid : Grid) (out : List Printed) : Screen :=
  out.foldl Screen.read (Screen.start userGrid)

/-- A line that says nothing about the boards. -/
def Printed.quiet : Printed → Bool
  | .text .hit | .text .miss | .cell _ | .board _ => false
  | .text _ => true

namespace Player

def boards (p : Player) : Grid × Grid × ℤ × ℤ := (p.userGrid, p.advGrid, p.userBoats, p.advBoats)

end Player

namespace Screen

def boards (s : Screen) : Grid × Grid × ℤ × ℤ := (s.userGrid, s.advGrid, s.userBoats, s.advBoats)

/-- The screen tells the state of the game, and all boards drawn were right. -/
structure Shows (userGrid : Grid) (p : Player) : Prop where
  boards : (screen userGrid p.out).boards = p.boards
  right : (screen userGrid p.out).right = true
  cells : ∀ b, .cell b ∈ p.out → ∃ c, b = cellByte c

variable {g : Grid} {p p' q : Player} {out items : List Printed} {c : Cell} {b : Byte}

theorem screen_append : screen g (out ++ items) = items.foldl read (screen g out) :=
  List.foldl_append

theorem read_quiet {item : Printed} (h : item.quiet = true) (s : Screen) :
    (s.read item).boards = s.boards ∧ (s.read item).right = s.right := by
  cases item with
  | cell b => cases h
  | board g => cases h
  | text t =>
    cases t with
    | hit => cases h
    | miss => cases h
    | _ => exact ⟨rfl, rfl⟩

theorem reads_quiet (h : ∀ item ∈ items, item.quiet = true) (s : Screen) :
    (items.foldl read s).boards = s.boards ∧ (items.foldl read s).right = s.right := by
  induction items generalizing s with
  | nil => exact ⟨rfl, rfl⟩
  | cons item items ih =>
    obtain ⟨hboards, hright⟩ := read_quiet (h item (List.mem_cons_self ..)) s
    obtain ⟨hboards', hright'⟩ := ih (fun i hi => h i (List.mem_cons_of_mem _ hi)) (s.read item)
    exact ⟨hboards'.trans hboards, hright'.trans hright⟩

theorem Shows.say (h : Shows g p) (items : List Printed) (hitems : ∀ i ∈ items, i.quiet = true)
    (hout : p'.out = p.out ++ items) (hboards : p'.boards = p.boards) : Shows g p' := by
  obtain ⟨hsame, hright⟩ := reads_quiet hitems (screen g p.out)
  refine ⟨?_, ?_, fun b hb => ?_⟩
  · rw [hout, screen_append, hsame, h.boards, hboards]
  · rw [hout, screen_append, hright, h.right]
  · rw [hout] at hb
    rcases List.mem_append.mp hb with hold | hnew
    · exact h.cells b hold
    · exact absurd (hitems _ hnew) (by simp [Printed.quiet])

theorem Shows.same (h : Shows g p) (hout : p'.out = p.out) (hboards : p'.boards = p.boards) :
    Shows g p' := h.say [] (by simp) (by rw [hout, List.append_nil]) hboards

/-! ### The announcements of a shot -/

theorem Shows.announced (h : Shows g p) (c : Cell) (mine hit : Bool)
    (hout : p'.out = p.out ++ [.text (if mine then .userAttack else .opponentAttack),
      .cell (cellByte c), .text (if hit then .hit else .miss)])
    (hboards : p'.boards =
      let mark := if hit then GridState.sunkenBoat else GridState.missedShot
      let sunk := if hit then 1 else 0
      if mine then
        (p.userGrid, Function.update p.advGrid c mark, p.userBoats, p.advBoats - sunk)
      else (Function.update p.userGrid c mark, p.advGrid, p.userBoats - sunk, p.advBoats)) :
    Shows g p' := by
  obtain ⟨huser, hadv, huserBoats, hadvBoats⟩ : (screen g p.out).userGrid = p.userGrid ∧
      (screen g p.out).advGrid = p.advGrid ∧ (screen g p.out).userBoats = p.userBoats ∧
      (screen g p.out).advBoats = p.advBoats := by
    simpa only [Screen.boards, Player.boards, Prod.mk.injEq] using h.boards
  refine ⟨?_, ?_, fun b hb => ?_⟩
  · rw [hout, screen_append, hboards]
    cases mine <;> cases hit <;>
      simp [read, result, Screen.boards, huser, hadv, huserBoats, hadvBoats]
  · rw [hout, screen_append]
    cases mine <;> cases hit <;> simp [read, result, h.right]
  · rw [hout] at hb
    rcases List.mem_append.mp hb with hold | hnew
    · exact h.cells b hold
    · have hcell : b = cellByte c := by
        simpa using hnew
      exact ⟨c, hcell⟩

theorem Shows.drawn (h : Shows g p) (own : Bool)
    (hout : p'.out = p.out ++ [.text (if own then .userGrid else .opponentGrid),
      .board (if own then p.userGrid else p.advGrid)])
    (hboards : p'.boards = p.boards) : Shows g p' := by
  obtain ⟨huser, hadv, _, _⟩ : (screen g p.out).userGrid = p.userGrid ∧
      (screen g p.out).advGrid = p.advGrid ∧ (screen g p.out).userBoats = p.userBoats ∧
      (screen g p.out).advBoats = p.advBoats := by
    simpa only [Screen.boards, Player.boards, Prod.mk.injEq] using h.boards
  refine ⟨?_, ?_, fun b hb => ?_⟩
  · rw [hout, screen_append, hboards, ← h.boards]
    cases own <;> rfl
  · rw [hout, screen_append]
    cases own <;> simp [read, h.right, huser, hadv]
  · rw [hout] at hb
    rcases List.mem_append.mp hb with hold | hnew
    · exact h.cells b hold
    · exact absurd hnew (by simp)

/-! ### The steps -/

theorem Shows.exit (h : Shows g p) (status : Exit) : Shows g (p.exit status) := h.same rfl rfl

theorem Shows.print (h : Shows g p) (items : List Printed) (hitems : ∀ i ∈ items, i.quiet = true) :
    Shows g (p.print items) := h.say items hitems rfl rfl

theorem Shows.afterPrompt (h : Shows g p) (value : Byte) : Shows g (p.afterPrompt value) := by
  simp only [Player.afterPrompt]
  split_ifs
  · exact h.same rfl rfl
  · cases cell? value with
    | none => exact h.same rfl rfl
    | some c =>
      simp only
      split_ifs
      · exact h.say [.text .invCellAttacked] (by decide) rfl rfl
      · exact h.same rfl rfl

theorem Shows.bufferCleared (h : Shows g p) (hexValue : ℤ) : Shows g (p.bufferCleared hexValue) := by
  unfold Player.bufferCleared
  split_ifs
  · exact h.afterPrompt _
  · exact h.same rfl rfl

theorem Shows.clearBuffer (h : Shows g p) (hexValue c : ℤ) :
    Shows g (p.clearBuffer hexValue c) := by
  unfold Player.clearBuffer
  split_ifs
  · exact h
  · exact h.bufferCleared hexValue

theorem Shows.testFlag (h : Shows g p) (hexValue : ℤ) : Shows g (p.testFlag hexValue) := by
  unfold Player.testFlag
  split_ifs
  · exact h.afterPrompt FORFEIT
  · exact h.same rfl rfl
  · exact h.say [.text .invCellVal] (by decide) rfl rfl

theorem Shows.loopHead (h : Shows g p) : Shows g p.loopHead := by
  unfold Player.loopHead
  split_ifs
  · exact h.exit .success
  · exact h.say [.text .attackCell] (by decide) rfl rfl
  · exact h.say [.text .opponentWait] (by decide) rfl rfl

/- The end of the attacker's turn. -/
theorem Shows.resultDrawn (h : Shows g q) :
    Shows g (let p := q.print [.text .opponentGrid, .board q.advGrid]
      if p.advBoats = 0 then (p.print [.text .userWon]).exit .success else p.nextTurn) := by
  have hdrawn : Shows g (q.print [.text .opponentGrid, .board q.advGrid]) := h.drawn false rfl rfl
  simp only
  split_ifs
  · exact (hdrawn.print [.text .userWon] (by decide)).exit .success
  · exact hdrawn.same rfl rfl

theorem Shows.afterResult (h : Shows g p) : Shows g p.afterResult := by
  unfold Player.afterResult
  by_cases hforfeit : p.data = FORFEIT
  · rw [if_pos hforfeit]
    exact (h.print [.text .opponentForfeit, .text .userWon] (by decide)).exit .success
  · rw [if_neg hforfeit]
    cases hcell : cell? p.usrInput with
    | none => exact h.same rfl rfl
    | some c =>
      have hc := cell?_eq_some hcell
      by_cases hhit : p.data = GridState.boat.toByte
      · simp only [if_pos hhit]
        exact (h.announced c true true (by rw [hc]; rfl) rfl).resultDrawn
      · simp only [if_neg hhit]
        refine (h.announced c true false (by rw [hc]; rfl) ?_).resultDrawn
        simp [Player.boards]

theorem Shows.afterShot (h : Shows g p) : Shows g p.afterShot := by
  unfold Player.afterShot
  by_cases hforfeit : p.data = FORFEIT
  · rw [if_pos hforfeit]
    exact (h.print [.text .opponentForfeit, .text .userWon] (by decide)).exit .success
  · rw [if_neg hforfeit]
    cases hcell : cell? p.data with
    | none => exact h.same rfl rfl
    | some c =>
      have hc := cell?_eq_some hcell
      by_cases hhit : p.userGrid c = .boat
      · simp only [if_pos hhit]
        exact h.announced c false true (by rw [hc]; rfl) rfl
      · simp only [if_neg hhit]
        refine h.announced c false false (by rw [hc]; rfl) ?_
        simp [Player.boards]

theorem Shows.afterReply (h : Shows g p) : Shows g p.afterReply := by
  have hdrawn : Shows g (p.print [.text .userGrid, .board p.userGrid]) := h.drawn true rfl rfl
  simp only [Player.afterReply]
  split_ifs
  · exact (hdrawn.print [.text .userLost] (by decide)).exit .success
  · exact hdrawn.same rfl rfl

theorem Shows.afterForfeit (h : Shows g p) : Shows g p.afterForfeit :=
  (h.print [.text .userForfeit, .text .userLost] (by decide)).exit .success

theorem Shows.sent (h : Shows g p) (what : Sending) : Shows g (p.sent what) := by
  cases what with
  | shot => exact h.same rfl rfl
  | result => exact h.afterReply
  | forfeit => exact h.afterForfeit

theorem Shows.sendFailed (h : Shows g p) (what : Sending) : Shows g (p.sendFailed what) := by
  cases what with
  | shot => exact h.exit .failure
  | result => exact h.afterReply
  | forfeit => exact h.afterForfeit

theorem Shows.retry (h : Shows g p) (what : Sending) (retryCount : ℕ) :
    Shows g (p.retry what retryCount) := by
  unfold Player.retry
  split_ifs
  · exact (h.print [.text .sendFail] (by decide)).sendFailed what
  · exact h.same rfl rfl

theorem Shows.socketRecv (h : Shows g p) (r : Recv) : Shows g (p.socketRecv r).1 := by
  cases r with
  | byte b =>
    rw [Player.socketRecv_byte]
    exact h.same rfl rfl
  | closed =>
    simp only [Player.socketRecv]
    split_ifs
    · exact h
    · exact h.print [.text .recvConnClosed] (by decide)
  | error e =>
    simp only [Player.socketRecv]
    split_ifs
    · exact h.same rfl rfl
    · exact h.say [.text .recvFail] (by decide) rfl rfl

theorem Shows.resultReceived (h : Shows g p) (r : Recv) :
    Shows g (Player.resultReceived (p.socketRecv r)) := by
  unfold Player.resultReceived
  split_ifs
  · exact (h.socketRecv r).exit .failure
  · exact (h.socketRecv r).afterResult

theorem Shows.shotReceived (h : Shows g p) (r : Recv) :
    Shows g (Player.shotReceived (p.socketRecv r)) := by
  unfold Player.shotReceived
  split_ifs
  · exact (h.socketRecv r).same rfl rfl
  · exact (h.socketRecv r).afterShot

theorem Shows.shotFailed (h : Shows g p) : Shows g p.shotFailed := by
  unfold Player.shotFailed
  split_ifs
  · exact h.same rfl rfl
  · exact h.exit .failure

theorem Shows.interrupted (h : Shows g p) :
    Shows g {p.quitGame with errno := EINTR} := h.same rfl rfl

theorem Shows.step (h : Shows g p) {a : Act} (hstep : p.step a = some p') : Shows g p' := by
  cases a with
  | tau =>
    cases hpc : p.pc <;> simp only [Player.step, hpc, Option.some.injEq, reduceCtorEq] at hstep <;>
      subst hstep
    case head => exact h.loopHead
    case flagTest hexValue => exact h.testFlag hexValue
    case recvShotFailed => exact h.shotFailed
  | input c =>
    cases hpc : p.pc <;> simp only [Player.step, hpc, Option.some.injEq, reduceCtorEq] at hstep <;>
      subst hstep
    case getchar => exact h.same rfl rfl
    case clearBuffer hexValue => exact h.clearBuffer hexValue c
  | sigtstp =>
    unfold Player.step at hstep
    split_ifs at hstep
    cases hstep
    exact h.same rfl rfl
  | interrupt =>
    obtain ⟨q, hq⟩ : ∃ q : Player, q = {p.quitGame with errno := EINTR} := ⟨_, rfl⟩
    have hshows : Shows g q := hq ▸ h.interrupted
    have hqpc : q.pc = p.pc := by rw [hq]; rfl
    rw [Player.step, ← hq] at hstep
    cases hpc : p.pc <;> simp only [hqpc, hpc, Option.some.injEq, reduceCtorEq] at hstep <;>
      subst hstep
    case getchar => exact hshows.same rfl rfl
    case clearBuffer hexValue => exact hshows.clearBuffer hexValue EOF
    case recvResult => exact hshows.resultReceived (.error EINTR)
    case recvShot => exact hshows.shotReceived (.error EINTR)
  | sendOk =>
    cases hpc : p.pc <;> simp only [Player.step, hpc, Option.some.injEq, reduceCtorEq] at hstep
    subst hstep
    case send what retryCount => exact h.sent what
  | sendErr e =>
    cases hpc : p.pc <;> simp only [Player.step, hpc, Option.some.injEq, reduceCtorEq] at hstep
    subst hstep
    case send what retryCount =>
      have herrno : Shows g {p with errno := e} := h.same rfl rfl
      exact herrno.retry what retryCount
  | sigpipe =>
    cases hpc : p.pc <;> simp only [Player.step, hpc, Option.some.injEq, reduceCtorEq] at hstep
    subst hstep
    case send what retryCount => exact h.exit .killed
  | recv r =>
    cases hpc : p.pc <;> simp only [Player.step, hpc, Option.some.injEq, reduceCtorEq] at hstep <;>
      subst hstep
    case recvResult => exact h.resultReceived r
    case recvShot => exact h.shotReceived r

theorem shows_start (g : Grid) (server : Bool) (errno : ℕ) : Shows g (Player.start g server errno) :=
  ⟨rfl, rfl, fun _ hb => absurd hb List.not_mem_nil⟩

theorem shows_run {server : Bool} {errno : ℕ} {es : List Act}
    (hrun : Run.exec Player.step (Player.start g server errno) es = some p) : Shows g p :=
  Run.exec_invariant_of_step (fun _ _ _ hp hstep => hp.step hstep) (shows_start g server errno) hrun

/-! ### Outside of the grids -/

/-- A byte that is no cell of the board is taken for a shot. -/
def Overruns (p : Player) (a : Act) : Prop :=
  ∃ b, a = .recv (.byte b) ∧ p.pc = .recvShot ∧ p.errno ≠ EINTR ∧ b ≠ FORFEIT ∧ cell? b = none

theorem Overruns.step_eq {a : Act} (h : Overruns p a) :
    ∃ b, p.step a = some {p with data := b, pc := .outOfBounds} := by
  obtain ⟨b, rfl, hpc, herrno, hforfeit, hcell⟩ := h
  exact ⟨b, by simp [Player.step, hpc, Player.socketRecv_byte, Player.shotReceived, herrno,
    Player.afterShot, hforfeit, hcell]⟩

theorem outOfBounds_iff (haimed : p.Aimed) {a : Act} (hstep : p.step a = some p') :
    p'.pc = .outOfBounds ↔ Overruns p a := by
  constructor
  · intro hbounds
    have hended : p'.phase = .ended := by simp [Player.phase, hbounds]
    cases (Player.step_move haimed hstep).1 with
    | idle _ _ phase running => exact absurd (phase.symm.trans hended) running
    | leave _ _ _ _ dst => cases dst.symm.trans hended
    | abort _ _ _ _ _ dst => cases dst.symm.trans hbounds
    | shoot => cases hbounds
    | answered b c _ _ _ _ _ done =>
      by_cases hover : p'.advBoats = 0
      · cases (done.ends hover).1.symm.trans hbounds
      · cases (done.goes hover).1.symm.trans hbounds
    | attacked c _ _ done => cases done.pc.symm.trans hbounds
    | overrun b src errno noForfeit wild =>
      refine ⟨b, rfl, ?_, errno, noForfeit, wild⟩
      cases hpc : p.pc <;> simp [Player.step, hpc] at hstep
      · simp [Player.phase, hpc] at src
      · rfl
    | triumph _ _ _ dst => cases dst.symm.trans hbounds
    | reply _ _ done | replyFailed _ _ _ _ done =>
      by_cases hover : p.userBoats = 0
      · cases (done.ends hover).1.symm.trans hbounds
      · cases (done.goes hover).1.symm.trans hbounds
    | resign _ _ _ _ dst => cases dst.symm.trans hbounds
  · intro hoverruns
    obtain ⟨b, heq⟩ := hoverruns.step_eq
    cases hstep.symm.trans heq
    rfl

/-- A step leaves the grids exactly if it takes such a byte for a shot; nothing of the byte is
announced, and there is no step after it. -/
def StopsOutside (p : Player) (a : Act) : Prop :=
  ∀ p', p.step a = some p' → (p'.pc = .outOfBounds ↔ Overruns p a) ∧
    (p'.pc = .outOfBounds → p'.out = p.out ∧ ∀ a', p'.step a' = none)

theorem stopsOutside (haimed : p.Aimed) (a : Act) : StopsOutside p a := by
  intro p' hstep
  refine ⟨outOfBounds_iff haimed hstep, fun hbounds => ?_⟩
  obtain ⟨b, heq⟩ := ((outOfBounds_iff haimed hstep).mp hbounds).step_eq
  cases hstep.symm.trans heq
  refine ⟨rfl, fun a' => ?_⟩
  cases a' <;> simp [Player.step, Player.running, Player.quitGame]

/-- In every run, against any peer and with any failures, the screen shows the game up to the
first access outside of the grids. -/
theorem screen_shows (g : Grid) (server : Bool) (errno : ℕ) (es : List Act) :
    Run.Along Player.step (Shows g) (Player.start g server errno) es ∧
      Run.Meets Player.step StopsOutside (Player.start g server errno) es := by
  constructor
  · exact Run.along_of_step (fun _ _ _ hp hstep => hp.step hstep) (shows_start g server errno) es
  · refine Run.meets_of_invariant (I := Player.Aimed) (G := fun _ _ => True)
      (fun _ _ _ haimed _ hstep => (Player.step_move haimed hstep).2)
      (fun _ a haimed _ => stopsOutside haimed a) (Player.aimed_start g server errno) ?_
    exact Run.meets_of_forall (K := fun _ => True) (fun _ _ _ => trivial) fun _ _ => trivial

end Screen

end SyeLabs.Battleship
