import SyeLabs.Battleship.Player

/-!
# The moves of a player

Every step of a player is one of nine moves. The proofs about games use this
case analysis and do not unfold the steps again.
-/

namespace SyeLabs.Battleship

inductive Phase where
  | attack
  | await
  | defend
  | reply
  | leaving
  | ended
  deriving DecidableEq

namespace Player

def phase (p : Player) : Phase := match p.pc with
  | .head => if p.firstIter % 2 = 1 then .attack else .defend
  | .getchar | .flagTest _ | .clearBuffer _ | .send .shot _ => .attack
  | .recvResult => .await
  | .recvShot => .defend
  | .send .result _ => .reply
  | .recvShotFailed | .send .forfeit _ => .leaving
  | .ended _ | .outOfBounds => .ended

def Won (p : Player) : Prop := .text .userWon ∈ p.out
def Lost (p : Player) : Prop := .text .userLost ∈ p.out

def Told (p : Player) : Prop := .text .opponentForfeit ∈ p.out

/-- The turn a phase belongs to, the hex digits being below 16, and the shot in
hand being aimed at a cell not attacked yet. -/
structure Aimed (p : Player) : Prop where
  odd : p.phase = .attack ∨ p.phase = .await → p.firstIter % 2 = 1
  even : p.phase = .defend ∨ p.phase = .reply → p.firstIter % 2 = 0
  digit : ∀ h, p.pc = .flagTest h ∨ p.pc = .clearBuffer h → -1 ≤ h ∧ h < 16
  shot : ∀ k, p.pc = .send .shot k →
    p.data = p.usrInput ∧ ∃ c, p.usrInput = cellByte c ∧ p.advGrid c = .default
  result : p.pc = .recvResult → ∃ c, p.usrInput = cellByte c ∧ p.advGrid c = .default

/- Boards, counters and turn are the same. -/
structure SameBoards (p p' : Player) : Prop where
  userGrid : p'.userGrid = p.userGrid
  advGrid : p'.advGrid = p.advGrid
  userBoats : p'.userBoats = p.userBoats
  advBoats : p'.advBoats = p.advBoats
  firstIter : p'.firstIter = p.firstIter

structure SameGame (p p' : Player) : Prop extends p.SameBoards p' where
  won : p'.Won ↔ p.Won
  lost : p'.Lost ↔ p.Lost

end Player

def Act.Silent (a : Act) : Prop := a ≠ .sendOk ∧ ∀ b, a ≠ .recv (.byte b)

def Act.Calm : Act → Prop
  | .tau | .input _ | .sendOk | .recv (.byte _) => True
  | _ => False

/-- What can make a player give up. -/
def Player.Disturbed (p : Player) (a : Act) : Prop :=
  p.forfeitFlag = true ∨ p.errno = EINTR ∨ p.phase = .leaving ∨ ¬ a.Calm

/- The attacker has read the answer `b` to its shot at `c`. -/
structure Answered (p : Player) (b : Byte) (c : Cell) (p' : Player) : Prop where
  userGrid : p'.userGrid = p.userGrid
  userBoats : p'.userBoats = p.userBoats
  advGrid : p'.advGrid = Function.update p.advGrid c
    (if b = GridState.boat.toByte then .sunkenBoat else .missedShot)
  advBoats : p'.advBoats = p.advBoats - if b = GridState.boat.toByte then 1 else 0
  ends : p'.advBoats = 0 → p'.pc = .ended .success ∧ p'.Won ∧ p'.firstIter = p.firstIter
  goes : p'.advBoats ≠ 0 →
    p'.pc = .head ∧ (p'.Won ↔ p.Won) ∧ p'.firstIter = p.firstIter + 1
  lost : p'.Lost ↔ p.Lost

structure Attacked (p : Player) (c : Cell) (p' : Player) : Prop where
  userGrid : p'.userGrid = Function.update p.userGrid c
    (if p.userGrid c = .boat then .sunkenBoat else .missedShot)
  userBoats : p'.userBoats = p.userBoats - if p.userGrid c = .boat then 1 else 0
  advGrid : p'.advGrid = p.advGrid
  advBoats : p'.advBoats = p.advBoats
  data : p'.data =
    if p.userGrid c = .boat then GridState.boat.toByte else GridState.missedShot.toByte
  pc : p'.pc = .send .result 0
  firstIter : p'.firstIter = p.firstIter
  won : p'.Won ↔ p.Won
  lost : p'.Lost ↔ p.Lost

structure Replied (p p' : Player) : Prop where
  userGrid : p'.userGrid = p.userGrid
  userBoats : p'.userBoats = p.userBoats
  advGrid : p'.advGrid = p.advGrid
  advBoats : p'.advBoats = p.advBoats
  ends : p.userBoats = 0 → p'.pc = .ended .success ∧ p'.Lost ∧ p'.firstIter = p.firstIter
  goes : p.userBoats ≠ 0 →
    p'.pc = .head ∧ (p'.Lost ↔ p.Lost) ∧ p'.firstIter = p.firstIter + 1
  won : p'.Won ↔ p.Won

inductive Move (p : Player) : Act → Player → Prop where
  | idle {a p'} (silent : a.Silent) (same : p.SameGame p') (phase : p'.phase = p.phase)
      (running : p.phase ≠ .ended)
      (usrInput : p.phase = .await → p'.usrInput = p.usrInput)
      (data : p.phase = .reply → p'.data = p.data) : Move p a p'
  | leave {a p'} (quiet : a ≠ .sendOk) (same : p.SameGame p') (cause : p.Disturbed a)
      (src : p.phase = .attack ∨ p.phase = .defend) (dst : p'.phase = .leaving) : Move p a p'
  | abort {a p'} (status : Exit) (quiet : a ≠ .sendOk) (same : p.SameGame p')
      (cause : p.Disturbed a) (src : p.phase ≠ .ended) (dst : p'.pc = .ended status) : Move p a p'
  | shoot (c : Cell) (k : ℕ) (src : p.phase = .attack) (pc : p.pc = .send .shot k)
      (data : p.data = cellByte c) (usrInput : p.usrInput = cellByte c)
      (free : p.advGrid c = .default) : Move p .sendOk {p with pc := .recvResult}
  | answered {p'} (b : Byte) (c : Cell) (src : p.phase = .await)
      (usrInput : p.usrInput = cellByte c) (free : p.advGrid c = .default)
      (errno : p.errno ≠ EINTR) (noForfeit : b ≠ FORFEIT) (done : Answered p b c p') :
      Move p (.recv (.byte b)) p'
  | attacked {p'} (c : Cell) (src : p.phase = .defend) (errno : p.errno ≠ EINTR)
      (done : Attacked p c p') : Move p (.recv (.byte (cellByte c))) p'
  | overrun {p'} (b : Byte) (src : p.phase = .defend) (errno : p.errno ≠ EINTR)
      (noForfeit : b ≠ FORFEIT) (wild : cell? b = none) (same : p.SameGame p')
      (dst : p'.pc = .outOfBounds) : Move p (.recv (.byte b)) p'
  | triumph {p'} (src : p.phase = .await ∨ p.phase = .defend) (errno : p.errno ≠ EINTR)
      (same : p.SameBoards p') (dst : p'.pc = .ended .success) (won : p'.Won) (told : p'.Told)
      (lost : p'.Lost ↔ p.Lost) : Move p (.recv (.byte FORFEIT)) p'
  | reply {p'} (k : ℕ) (pc : p.pc = .send .result k) (done : Replied p p') : Move p .sendOk p'
  | replyFailed {p'} (e k : ℕ) (pc : p.pc = .send .result k) (last : SEND_RETRY_LIMIT < k + 1)
      (done : Replied p p') : Move p (.sendErr e) p'
  | resign {a p'} (k : ℕ) (how : a = .sendOk ∨ ∃ e, a = .sendErr e)
      (pc : p.pc = .send .forfeit k) (same : p.SameBoards p') (dst : p'.pc = .ended .success)
      (won : p'.Won ↔ p.Won) (lost : p'.Lost) : Move p a p'

namespace Player

variable {p : Player}

/- The fields that hold the game itself. -/
def frame (p : Player) : Grid × Grid × ℤ × ℤ × ℕ :=
  (p.userGrid, p.advGrid, p.userBoats, p.advBoats, p.firstIter)

theorem SameBoards.of_frame {p' : Player} (h : p'.frame = p.frame) : p.SameBoards p' := by
  simp only [frame, Prod.mk.injEq] at h
  obtain ⟨huser, hadv, huserBoats, hadvBoats, hiter⟩ := h
  exact ⟨huser, hadv, huserBoats, hadvBoats, hiter⟩

theorem SameGame.refl (p : Player) : p.SameGame p := ⟨.of_frame rfl, Iff.rfl, Iff.rfl⟩

theorem SameGame.of_print {p' : Player} (items : List Printed)
    (hwon : .text .userWon ∉ items) (hlost : .text .userLost ∉ items)
    (hout : p'.out = p.out ++ items) (hboards : p.SameBoards p') : p.SameGame p' := by
  refine ⟨hboards, ?_, ?_⟩
  · simp [Won, hout, hwon]
  · simp [Lost, hout, hlost]

theorem sameGame_of_out {p' : Player} (hout : p'.out = p.out) (hboards : p.SameBoards p') :
    p.SameGame p' :=
  SameGame.of_print [] (by simp) (by simp) (by simp [hout]) hboards

theorem SameBoards.trans {p' p'' : Player} (h : p.SameBoards p') (h' : p'.SameBoards p'') :
    p.SameBoards p'' :=
  ⟨h'.userGrid.trans h.userGrid, h'.advGrid.trans h.advGrid, h'.userBoats.trans h.userBoats,
    h'.advBoats.trans h.advBoats, h'.firstIter.trans h.firstIter⟩

theorem SameGame.trans {p' p'' : Player} (h : p.SameGame p') (h' : p'.SameGame p'') :
    p.SameGame p'' :=
  ⟨h.toSameBoards.trans h'.toSameBoards, h'.won.trans h.won, h'.lost.trans h.lost⟩

/-! ### Being aimed -/

theorem aimed_of_leaving (h : p.phase = .leaving) : p.Aimed := by
  constructor
  · simp [h]
  · simp [h]
  · rintro x (hpc | hpc) <;> simp [phase, hpc] at h
  · intro k hpc
    simp [phase, hpc] at h
  · intro hpc
    simp [phase, hpc] at h

theorem phase_of_head (h : p.pc = .head) : p.phase = .attack ∨ p.phase = .defend := by
  rcases Nat.mod_two_eq_zero_or_one p.firstIter with hf | hf <;> simp [phase, h, hf]

theorem phase_of_ended {status : Exit} (h : p.pc = .ended status) : p.phase = .ended := by
  simp [phase, h]

theorem aimed_of_ended {status : Exit} (h : p.pc = .ended status) : p.Aimed := by
  constructor <;> simp [phase, h]

theorem aimed_of_outOfBounds (h : p.pc = .outOfBounds) : p.Aimed := by
  constructor <;> simp [phase, h]

theorem aimed_of_head (h : p.pc = .head) : p.Aimed := by
  rcases Nat.mod_two_eq_zero_or_one p.firstIter with hf | hf <;>
    constructor <;> simp [phase, h, hf]

theorem aimed_of_reply {k : ℕ} (h : p.pc = .send .result k) (heven : p.firstIter % 2 = 0) :
    p.Aimed := by
  constructor <;> simp [phase, h, heven]

theorem aimed_start (g : Grid) (server : Bool) (errno : ℕ) : (start g server errno).Aimed :=
  aimed_of_head rfl

theorem exit_spec (status : Exit) : p.SameGame (p.exit status) ∧ (p.exit status).pc = .ended status :=
  ⟨sameGame_of_out rfl (.of_frame rfl), rfl⟩

/-! ### The three results of a turn -/

theorem afterResult_forfeit (p : Player) : ∃ q, q = Player.afterResult {p with data := FORFEIT} ∧
    p.SameBoards q ∧ q.pc = .ended .success ∧ q.Won ∧ q.Told ∧ (q.Lost ↔ p.Lost) := by
  refine ⟨_, rfl, ?_⟩
  rw [afterResult, if_pos rfl]
  refine ⟨.of_frame rfl, rfl, ?_, ?_, ?_⟩ <;> simp [exit, Won, Told, Lost]

theorem afterShot_forfeit (p : Player) : ∃ q, q = Player.afterShot {p with data := FORFEIT} ∧
    p.SameBoards q ∧ q.pc = .ended .success ∧ q.Won ∧ q.Told ∧ (q.Lost ↔ p.Lost) := by
  refine ⟨_, rfl, ?_⟩
  rw [afterShot, if_pos rfl]
  refine ⟨.of_frame rfl, rfl, ?_, ?_, ?_⟩ <;> simp [exit, Won, Told, Lost]

theorem afterResult_answered {c : Cell} (hc : p.usrInput = cellByte c) (h : p.data ≠ FORFEIT) :
    Answered p p.data c p.afterResult := by
  simp only [afterResult, if_neg h, hc, cell?_cellByte]
  by_cases hhit : p.data = GridState.boat.toByte
  · simp only [hhit, ite_true]
    by_cases hover : p.advBoats - 1 = 0
    · simp only [print_advBoats, hover, ite_true]
      constructor <;> simp [exit, Won, Lost, hover]
    · simp only [print_advBoats, hover, ite_false]
      constructor <;> simp [nextTurn, Won, Lost, hover]
  · simp only [hhit, ite_false]
    by_cases hover : p.advBoats = 0
    · simp only [print_advBoats, hover, ite_true]
      constructor <;> simp [exit, Won, Lost, hover, hhit]
    · simp only [print_advBoats, hover, ite_false]
      constructor <;> simp [nextTurn, Won, Lost, hover, hhit]

theorem afterShot_attacked {c : Cell} (hc : p.data = cellByte c) :
    Attacked p c p.afterShot := by
  simp only [afterShot, hc, if_neg (cellByte_ne_forfeit c), cell?_cellByte]
  by_cases hhit : p.userGrid c = .boat
  · constructor <;> simp [hhit, Won, Lost]
  · constructor <;> simp [hhit, Won, Lost]

theorem afterShot_received (p : Player) (c : Cell) :
    Attacked p c (Player.afterShot {p with data := cellByte c}) := by
  have hdone := afterShot_attacked (p := {p with data := cellByte c}) rfl
  exact ⟨hdone.userGrid, hdone.userBoats, hdone.advGrid, hdone.advBoats, hdone.data, hdone.pc,
    hdone.firstIter, hdone.won, hdone.lost⟩

theorem afterReply_replied : Replied p p.afterReply := by
  simp only [afterReply, print_userBoats]
  by_cases hover : p.userBoats = 0
  · simp only [hover, ite_true]
    constructor <;> simp [exit, Won, Lost, hover]
  · simp only [hover, ite_false]
    constructor <;> simp [nextTurn, Won, Lost, hover]

end Player

/-! ### After a turn -/

section

variable {p p' : Player}

theorem Answered.phases {b : Byte} {c : Cell} (done : Answered p b c p') :
    p'.phase = .ended ∨ p'.phase = .attack ∨ p'.phase = .defend := by
  by_cases hover : p'.advBoats = 0
  · exact Or.inl (Player.phase_of_ended (done.ends hover).1)
  · exact Or.inr (Player.phase_of_head (done.goes hover).1)

theorem Replied.phases (done : Replied p p') :
    p'.phase = .ended ∨ p'.phase = .attack ∨ p'.phase = .defend := by
  by_cases hover : p.userBoats = 0
  · exact Or.inl (Player.phase_of_ended (done.ends hover).1)
  · exact Or.inr (Player.phase_of_head (done.goes hover).1)

theorem Answered.defends {b : Byte} {c : Cell} (done : Answered p b c p')
    (hodd : p.firstIter % 2 = 1) (h : p'.advBoats ≠ 0) : p'.phase = .defend := by
  obtain ⟨hpc, -, hiter⟩ := done.goes h
  have hturn : ¬ (p.firstIter + 1) % 2 = 1 := by omega
  simp [Player.phase, hpc, hiter, hturn]

theorem Replied.attacks (done : Replied p p') (heven : p.firstIter % 2 = 0)
    (h : p.userBoats ≠ 0) : p'.phase = .attack := by
  obtain ⟨hpc, -, hiter⟩ := done.goes h
  have hturn : (p.firstIter + 1) % 2 = 1 := by omega
  simp [Player.phase, hpc, hiter, hturn]

end

end SyeLabs.Battleship
