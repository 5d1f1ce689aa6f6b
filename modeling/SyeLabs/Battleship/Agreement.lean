import SyeLabs.Battleship.Fair

/-!
# Board agreement in undisturbed games
-/

namespace SyeLabs.Battleship
open Duplex

namespace Game

/-- What the players read is what was meant, and between two turns the boards and
counters of the two sides agree. -/
structure Consistent (g : Game) : Prop where
  shot : ∀ s m, g.next s = some m → (g.party s).pc = .recvShot →
    m.kind = .shot ∧ m.byte.toNat < GRID_SIZE
  result : ∀ s m, g.next s = some m → (g.party s).pc = .recvResult →
    m.kind = .result ∧ (m.byte = GridState.boat.toByte ∨ m.byte = GridState.missedShot.toByte)
  attacker : (∀ s, (g.party s).pc = .head) → (∀ s, g.next s = none) →
    ∃ s, (g.party s).firstIter % 2 = 1 ∧ ¬ (g.party s.other).firstIter % 2 = 1
  boards : (∀ s, (g.party s).pc = .head) → (∀ s, g.next s = none) → ∀ s,
    (∀ c, ((g.party s).advGrid c = .sunkenBoat ↔ (g.party s.other).userGrid c = .sunkenBoat) ∧
      ((g.party s).advGrid c = .missedShot ↔ (g.party s.other).userGrid c = .missedShot)) ∧
    (g.party s).advBoats = (g.party s.other).userBoats ∧
    (g.party s.other).userBoats = Grid.count (g.party s.other).userGrid .boat

variable {g : Game}

theorem seen_sunken_iff (x : GridState) : x.seen = .sunkenBoat ↔ x = .sunkenBoat := by
  cases x <;> simp [GridState.seen]

theorem seen_missed_iff (x : GridState) : x.seen = .missedShot ↔ x = .missedShot := by
  cases x <;> simp [GridState.seen]

theorem phase_at_head {p : Player} (h : p.pc = .head) :
    (p.phase = .attack ↔ p.firstIter % 2 = 1) ∧ (p.phase = .defend ↔ ¬ p.firstIter % 2 = 1) := by
  by_cases hodd : p.firstIter % 2 = 1 <;> simp [Player.phase, h, hodd]

theorem Tied.attacker (hg : g.Tied) (hhead : ∀ s, (g.party s).pc = .head) :
    ∃ s, (g.party s).firstIter % 2 = 1 ∧ ¬ (g.party s.other).firstIter % 2 = 1 := by
  obtain ⟨hattack, hdefend⟩ := hg.not_both (s := server)
  rw [(phase_at_head (hhead _)).1, (phase_at_head (hhead _)).1] at hattack
  rw [(phase_at_head (hhead _)).2, (phase_at_head (hhead _)).2] at hdefend
  by_cases hodd : (g.party server).firstIter % 2 = 1
  · exact ⟨server, hodd, fun h => hattack ⟨hodd, h⟩⟩
  · refine ⟨server.other, not_not.mp fun h => hdefend ⟨hodd, h⟩, ?_⟩
    rwa [Side.other_other]

theorem Tied.agree_at_head (hg : g.Tied) {s : Side} (hhead : (g.party s).pc = .head) :
    Agree (g.party s) (g.party s.other) := by
  have hphase := Player.phase_of_head hhead
  cases hg.tracks s with
  | settled _ agree => exact agree
  | flying u phase => rcases hphase with h | h <;> simp [h] at phase
  | landed u r phase => rcases hphase with h | h <;> simp [h] at phase

theorem Tied.consistent (hg : g.Tied) : g.Consistent := by
  refine ⟨fun s m hm hpc => ?_, fun s m hm hpc => ?_, fun hhead _ => hg.attacker hhead,
    fun hhead _ s => ⟨fun c => ?_, ?_, (hg.inv s.other).intact.userBoats⟩⟩
  · obtain ⟨u, rfl, -⟩ := hg.reads_shot (by simp [Player.phase, hpc]) hm
    exact ⟨rfl, (toNat_cellByte u).trans_lt u.isLt⟩
  · obtain ⟨u, r, rfl, -, hpending⟩ := hg.reads_result (by simp [Player.phase, hpc]) hm
    rcases hpending.answer with ⟨-, hr, -⟩ | ⟨-, hr, -⟩
    · exact ⟨rfl, Or.inl hr⟩
    · exact ⟨rfl, Or.inr hr⟩
  · rw [(hg.agree_at_head (hhead s)).cells c]
    exact ⟨seen_sunken_iff _, seen_missed_iff _⟩
  · exact (hg.agree_at_head (hhead s)).boats

theorem boards_agree (board : Side → Board) (errno : Side → ℕ) (herrno : ∀ s, errno s ≠ EINTR)
    (es : List (Side × Act)) (hes : ∀ e ∈ es, e.2.Undisturbed)
    (hrun : Run.exec step (start board errno) es = some g) : g.Consistent :=
  (fair_run board herrno hes hrun).consistent

/- One exchange: the server hits cell 0 and both players are at the loop condition. -/
def firstHit : List (Side × Act) :=
  shootAt server 48 ++ [(server, .sendOk), (client, .tau), (client, .recv (.byte 0#8)),
    (client, .sendOk), (server, .recv (.byte 1#8))]

theorem boards_agree_firstHit : ∃ g, Run.exec step (start (fun _ => Player.firstCells) fun _ => 0)
    firstHit = some g ∧ (∀ s, (g.party s).pc = .head) ∧ g.Consistent := by
  have hlast : (Run.exec step (start (fun _ => Player.firstCells) fun _ => 0) firstHit).map
      (fun g => ((g.party server).pc, (g.party client).pc)) = some (.head, .head) := by
    decide +kernel
  obtain ⟨g, hrun, hpc⟩ := Option.map_eq_some_iff.mp hlast
  obtain ⟨hserver, hclient⟩ := Prod.mk.inj hpc
  refine ⟨g, hrun, Side.forall_of server hserver hclient,
    boards_agree (fun _ => Player.firstCells) (fun _ => 0) (fun _ => by decide) firstHit ?_ hrun⟩
  simp [firstHit, shootAt, Act.Undisturbed, Act.Calm]

end Game

end SyeLabs.Battleship
