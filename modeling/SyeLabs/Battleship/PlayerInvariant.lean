import SyeLabs.Battleship.Steps
import SyeLabs.Library.Run

/-!
# One player against an arbitrary peer

The peer's bytes are any bytes. The attacker's side stands up to all of them; the
defender's does as long as each shot addresses a cell of the grid that is not
sunken already.
-/

namespace SyeLabs.Battleship

namespace Player

/-- No access has left the grids, and the counters agree with them. -/
structure Intact (p : Player) : Prop where
  inBounds : p.pc ≠ .outOfBounds
  userBoats : p.userBoats = Grid.count p.userGrid .boat
  boats : Grid.count p.userGrid .boat + Grid.count p.userGrid .sunkenBoat = BOAT_NUM
  advBoats : p.advBoats = (BOAT_NUM : ℤ) - Grid.count p.advGrid .sunkenBoat
  nonneg : 0 ≤ p.advBoats

def KeepsSunken (p : Player) (a : Act) : Prop :=
  ∀ p', p.step a = some p' → ∀ c, p.userGrid c = .sunkenBoat → p'.userGrid c = .sunkenBoat

/-- A byte read as a shot is `FORFEIT`, or the number of a cell that is not sunken. -/
def FairShot (p : Player) (a : Act) : Prop :=
  ∀ b, a = .recv (.byte b) → p.pc = .recvShot → p.errno ≠ EINTR →
    b = FORFEIT ∨ ∃ c, cell? b = some c ∧ p.userGrid c ≠ .sunkenBoat

structure Inv (p : Player) : Prop where
  aimed : p.Aimed
  intact : p.Intact
  afloat : p.phase ≠ .ended → p.advBoats ≠ 0

variable {p p' : Player}

theorem inv_start (b : Board) (server : Bool) (errno : ℕ) : (start b.grid server errno).Inv := by
  have hplaced := b.grid_placed
  refine ⟨aimed_start _ _ _, ⟨by simp [start], ?_, ?_, ?_, by simp [start, BOAT_NUM]⟩,
    by simp [start, BOAT_NUM]⟩
  · simp [start, hplaced.boats]
  · simp [start, hplaced.boats, hplaced.count_sunken]
  · simp [start, Grid.count_const]

theorem Intact.of_sameBoards (h : p.Intact) (hsame : p.SameBoards p') (hpc : p'.pc ≠ .outOfBounds) :
    p'.Intact := by
  refine ⟨hpc, ?_, ?_, ?_, ?_⟩
  · rw [hsame.userBoats, hsame.userGrid, h.userBoats]
  · rw [hsame.userGrid, h.boats]
  · rw [hsame.advBoats, hsame.advGrid, h.advBoats]
  · rw [hsame.advBoats]
    exact h.nonneg

theorem inBounds_of_phase (h : p.phase ≠ .ended) : p.pc ≠ .outOfBounds := by
  intro hpc
  simp [phase, hpc] at h

theorem Inv.of_ended {status : Exit} (haimed : p.Aimed) (hintact : p.Intact)
    (hpc : p.pc = .ended status) : p.Inv :=
  ⟨haimed, hintact, fun h => absurd (phase_of_ended hpc) h⟩

theorem answered_intact {b : Byte} {c : Cell} (hdone : Answered p b c p') (h : p.Intact)
    (hafloat : p.advBoats ≠ 0) (hfree : p.advGrid c = .default) : p'.Intact := by
  have hnonneg := h.nonneg
  refine ⟨?_, ?_, ?_, ?_, ?_⟩
  · by_cases hover : p'.advBoats = 0
    · simp [(hdone.ends hover).1]
    · simp [(hdone.goes hover).1]
  · rw [hdone.userBoats, hdone.userGrid, h.userBoats]
  · rw [hdone.userGrid, h.boats]
  · rw [hdone.advBoats, hdone.advGrid, h.advBoats]
    by_cases hhit : b = GridState.boat.toByte
    · have hcount := Grid.count_update_new p.advGrid (c := c) (t := .sunkenBoat) (by simp [hfree])
      simp only [if_pos hhit]
      omega
    · have hcount := Grid.count_update_other p.advGrid (c := c) (s := .sunkenBoat)
        (t := .missedShot) (by simp [hfree]) (by decide)
      simp only [if_neg hhit]
      omega
  · rw [hdone.advBoats]
    split_ifs <;> omega

theorem attacked_intact {c : Cell} (hdone : Attacked p c p') (h : p.Intact)
    (hfair : p.userGrid c ≠ .sunkenBoat) : p'.Intact := by
  have hboats := h.boats
  have huser := h.userBoats
  have hcounts : p'.userBoats = Grid.count p'.userGrid .boat ∧
      Grid.count p'.userGrid .boat + Grid.count p'.userGrid .sunkenBoat = BOAT_NUM := by
    rw [hdone.userBoats, hdone.userGrid]
    by_cases hhit : p.userGrid c = .boat
    · have hboat := Grid.count_update_same p.userGrid hhit (t := .sunkenBoat) (by decide)
      have hsunk := Grid.count_update_new p.userGrid (c := c) (t := .sunkenBoat) hfair
      simp only [if_pos hhit]
      omega
    · have hboat := Grid.count_update_other p.userGrid (t := .missedShot) hhit (by decide)
      have hsunk := Grid.count_update_other p.userGrid (t := .missedShot) hfair (by decide)
      simp only [if_neg hhit]
      omega
  refine ⟨by simp [hdone.pc], hcounts.1, hcounts.2, ?_, ?_⟩
  · rw [hdone.advBoats, hdone.advGrid, h.advBoats]
  · rw [hdone.advBoats]
    exact h.nonneg

theorem replied_intact (hdone : Replied p p') (h : p.Intact) : p'.Intact := by
  refine ⟨?_, ?_, ?_, ?_, ?_⟩
  · by_cases hover : p.userBoats = 0
    · simp [(hdone.ends hover).1]
    · simp [(hdone.goes hover).1]
  · rw [hdone.userBoats, hdone.userGrid, h.userBoats]
  · rw [hdone.userGrid, h.boats]
  · rw [hdone.advBoats, hdone.advGrid, h.advBoats]
  · rw [hdone.advBoats]
    exact h.nonneg

theorem answered_inv {b : Byte} {c : Cell} (hdone : Answered p b c p') (h : p.Inv)
    (hrun : p.phase ≠ .ended) (hfree : p.advGrid c = .default) (haimed : p'.Aimed) : p'.Inv := by
  refine ⟨haimed, answered_intact hdone h.intact (h.afloat hrun) hfree, fun hrun' hover => ?_⟩
  exact hrun' (phase_of_ended (hdone.ends hover).1)

theorem inv_step (h : p.Inv) {a : Act} (hfair : p.FairShot a) (hstep : p.step a = some p') :
    p'.Inv ∧ ∀ c, p.userGrid c = .sunkenBoat → p'.userGrid c = .sunkenBoat := by
  obtain ⟨hmove, haimed⟩ := step_move h.aimed hstep
  have hsunken : p'.userGrid = p.userGrid →
      ∀ c, p.userGrid c = .sunkenBoat → p'.userGrid c = .sunkenBoat := by
    intro heq c hc
    rw [heq, hc]
  cases hmove with
  | idle _ same phase running =>
    have hrun : p'.phase ≠ .ended := phase ▸ running
    refine ⟨⟨haimed, h.intact.of_sameBoards same.toSameBoards (inBounds_of_phase hrun), fun _ => ?_⟩,
      hsunken same.userGrid⟩
    rw [same.advBoats]
    exact h.afloat running
  | leave _ same _ src dst =>
    have hrun : p.phase ≠ .ended := by rcases src with src | src <;> simp [src]
    refine ⟨⟨haimed, h.intact.of_sameBoards same.toSameBoards
      (inBounds_of_phase (by simp [dst])), fun _ => ?_⟩, hsunken same.userGrid⟩
    rw [same.advBoats]
    exact h.afloat hrun
  | abort _ _ same _ _ dst =>
    exact ⟨.of_ended haimed (h.intact.of_sameBoards same.toSameBoards (by simp [dst])) dst,
      hsunken same.userGrid⟩
  | shoot _ _ src =>
    refine ⟨⟨haimed, h.intact.of_sameBoards (.of_frame rfl) (by simp),
      fun _ => h.afloat (by simp [src])⟩, hsunken rfl⟩
  | answered b c src _ free _ _ done =>
    exact ⟨answered_inv done h (by simp [src]) free haimed, hsunken done.userGrid⟩
  | attacked c src errno done =>
    have hpc : p.pc = .recvShot := by
      cases hpc : p.pc <;> simp [step, hpc] at hstep
      · simp [phase, hpc] at src
      · rfl
    obtain hf | ⟨d, hd, hfree⟩ := hfair _ rfl hpc errno
    · exact absurd hf (cellByte_ne_forfeit c)
    · obtain rfl : c = d := by simpa using hd
      refine ⟨⟨haimed, attacked_intact done h.intact hfree, fun _ => ?_⟩, fun d hd => ?_⟩
      · rw [done.advBoats]
        exact h.afloat (by simp [src])
      · have hcd : d ≠ c := fun e => hfree (e ▸ hd)
        rw [done.userGrid, Function.update_of_ne hcd, hd]
  | overrun b src errno noForfeit wild =>
    have hpc : p.pc = .recvShot := by
      cases hpc : p.pc <;> simp [step, hpc] at hstep
      · simp [phase, hpc] at src
      · rfl
    obtain hf | ⟨d, hd, -⟩ := hfair _ rfl hpc errno
    · exact absurd hf noForfeit
    · simp [wild] at hd
  | triumph _ _ same dst =>
    exact ⟨.of_ended haimed (h.intact.of_sameBoards same (by simp [dst])) dst,
      hsunken same.userGrid⟩
  | reply k pc done =>
    refine ⟨⟨haimed, replied_intact done h.intact, fun hrun => ?_⟩, hsunken done.userGrid⟩
    rw [done.advBoats]
    exact h.afloat (by simp [phase, pc])
  | replyFailed e k pc _ done =>
    refine ⟨⟨haimed, replied_intact done h.intact, fun hrun => ?_⟩, hsunken done.userGrid⟩
    rw [done.advBoats]
    exact h.afloat (by simp [phase, pc])
  | resign _ _ _ same dst =>
    exact ⟨.of_ended haimed (h.intact.of_sameBoards same (by simp [dst])) dst,
      hsunken same.userGrid⟩

theorem fairShot_of_next (p : Player) (a : Act)
    (hbounds : ∀ p', p.step a = some p' → p'.pc ≠ .outOfBounds) (hkeeps : p.KeepsSunken a) :
    p.FairShot a := by
  rintro b rfl hpc herrno
  by_cases hb : b = FORFEIT
  · exact Or.inl hb
  right
  have hstep : p.step (.recv (.byte b)) = some (Player.afterShot {p with data := b}) := by
    simp [step, hpc, socketRecv_byte, shotReceived, herrno]
  cases hcell : cell? b with
  | none =>
    refine absurd ?_ (hbounds _ hstep)
    simp [afterShot, hb, hcell]
  | some c =>
    obtain rfl := cell?_eq_some hcell
    refine ⟨c, rfl, fun hsunken => ?_⟩
    have hdone := afterShot_attacked (p := {p with data := cellByte c}) rfl
    have hkept := hkeeps _ hstep c hsunken
    rw [hdone.userGrid] at hkept
    simp [hsunken] at hkept

/-! ### Runs -/

/-- In every state of the run the counters agree with grids that no access has
left, and sunken cells stay sunken. -/
def Robust (b : Board) (server : Bool) (errno : ℕ) (es : List Act) : Prop :=
  Run.Along step Intact (start b.grid server errno) es ∧
    Run.Meets step KeepsSunken (start b.grid server errno) es

theorem fairShots_of_robust {es : List Act} (hintact : Run.Along step Intact p es)
    (hkeeps : Run.Meets step KeepsSunken p es) : Run.Meets step FairShot p es := by
  induction es generalizing p with
  | nil => trivial
  | cons a es ih =>
    refine ⟨fairShot_of_next p a (fun p' hp' => ?_) hkeeps.1, fun p' hp' => ?_⟩
    · exact (Run.along_head (hintact.2 p' hp')).inBounds
    · exact ih (hintact.2 p' hp') (hkeeps.2 p' hp')

theorem robust_iff (b : Board) (server : Bool) (errno : ℕ) (es : List Act) :
    Robust b server errno es ↔ Run.Meets step FairShot (start b.grid server errno) es := by
  have hstep : ∀ p a p', Inv p → FairShot p a → step p a = some p' → Inv p' :=
    fun p a p' hp ha hp' => (inv_step hp ha hp').1
  constructor
  · rintro ⟨hintact, hkeeps⟩
    exact fairShots_of_robust hintact hkeeps
  · intro hfair
    have hinv := inv_start b server errno
    exact ⟨Run.along_of_invariant hstep (fun _ h => h.intact) hinv hfair,
      Run.meets_of_invariant hstep (fun p a hp ha p' hp' => (inv_step hp ha hp').2) hinv hfair⟩

def firstCells : Board := ⟨fun c => if c.val < 3 then .boat else .default, [0, 1, 2], by decide⟩

def wildShot : List Act := [.tau, .recv (.byte 16#8)]

/- A client shot twice in cell 0, with a turn of its own in between. -/
def repeatedShot : List Act :=
  [.tau, .recv (.byte 0#8), .sendOk, .tau, .input 48, .tau, .input 10, .sendOk,
    .recv (.byte 2#8), .tau, .recv (.byte 0#8)]

theorem peer_breaks_grid : ¬ Robust firstCells false 0 wildShot ∧
    ¬ Robust firstCells false 0 repeatedShot := by
  constructor
  · intro h
    have hlast : (Run.exec step (start firstCells.grid false 0) wildShot).map Player.pc =
        some .outOfBounds := by decide
    obtain ⟨t, hrun, hpc⟩ := Option.map_eq_some_iff.mp hlast
    exact (Run.along_last h.1 hrun).inBounds hpc
  · intro h
    have hlast : (Run.exec step (start firstCells.grid false 0) repeatedShot).map (fun t =>
        Grid.count t.userGrid .boat + Grid.count t.userGrid .sunkenBoat) = some 2 := by decide
    obtain ⟨t, hrun, hcount⟩ := Option.map_eq_some_iff.mp hlast
    have hboats := (Run.along_last h.1 hrun).boats
    rw [hcount] at hboats
    simp [BOAT_NUM] at hboats

end Player

end SyeLabs.Battleship
