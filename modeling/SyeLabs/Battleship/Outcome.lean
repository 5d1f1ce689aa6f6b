import SyeLabs.Battleship.Contest

/-!
# Shots of undisturbed games

Every shot is at a cell not attacked yet, so the shots of a player are counted by
the cells of its opponent's grid that have been shot at, and there are not enough
of them left to go on for ever.
-/

namespace SyeLabs.Battleship
open Duplex

namespace Game

variable {g g' : Game} {s : Side}

def shots (g : Game) (s : Side) : ℕ := (g.sent s).countP fun m => m.kind = .shot

/-- A player has shot as often as it has been shot at, up to the turn it is in. -/
structure Salvo (g : Game) (s : Side) : Prop where
  turns : (g.party s).playing → g.shots s +
    (if (g.party s).phase = .attack ∨ (g.party s).phase = .reply then 1 else 0) =
      Grid.shotAt (g.party s).userGrid + startIter s
  bound : g.shots s < GRID_SIZE + startIter s

theorem salvo_start (board : Side → Board) (errno : Side → ℕ) (s : Side) :
    (start board errno).Salvo s := by
  have hgrid : Grid.shotAt ((start board errno).party s).userGrid = 0 := by
    have hmissed : Grid.count (board s).grid .missedShot = 0 := by
      refine Nat.eq_zero_of_not_pos fun hpos => ?_
      obtain ⟨c, hc⟩ := (Grid.count_pos_iff _ _).mp hpos
      have hwater := (board s).grid_placed.water c (by simp [hc])
      simp [hc] at hwater
    have hsunken := (board s).grid_placed.count_sunken
    simp [start, Player.start, Grid.shotAt, hmissed, hsunken]
  have hshots : (start board errno).shots s = 0 := rfl
  refine ⟨fun _ => ?_, by rw [hshots]; exact Nat.add_pos_left (by decide) _⟩
  rw [hgrid, hshots]
  cases s <;> rfl

theorem Tied.boats_left (hg : g.Tied) (hrun : (g.party s).phase ≠ .ended)
    (hreply : (g.party s).phase ≠ .reply) : 0 < Grid.count (g.party s).userGrid .boat := by
  have hboats := ((hg.verdict s).open_ hrun).2.2 hreply
  have hcount := (hg.inv s).intact.userBoats
  omega

theorem shotAt_attacked {p q q' : Player} {c : Cell} (hagree : Agree p q)
    (hfree : p.advGrid c = .default) (hdone : Attacked q c q') :
    Grid.shotAt q'.userGrid = Grid.shotAt q.userGrid + 1 := by
  have hseen := (hagree.cells c).symm.trans hfree
  have hmissed : q.userGrid c ≠ .missedShot := fun h => by simp [h, GridState.seen] at hseen
  have hsunken : q.userGrid c ≠ .sunkenBoat := fun h => by simp [h, GridState.seen] at hseen
  rw [hdone.userGrid, Grid.shotAt, Grid.shotAt]
  by_cases hhit : q.userGrid c = .boat
  · rw [if_pos hhit, Grid.count_update_new _ hsunken,
      Grid.count_update_other _ hmissed (by decide), Nat.add_assoc]
  · rw [if_neg hhit, Grid.count_update_new _ hmissed,
      Grid.count_update_other _ hsunken (by decide)]
    omega

theorem Salvo.of_stopped (hbound : g.shots s < GRID_SIZE + startIter s)
    (h : ¬ (g.party s).playing) : g.Salvo s :=
  ⟨fun hp => absurd hp h, hbound⟩

theorem Tied.salvo_turn (hg : g.Tied) (hturn : FairTurn g s g') (h : g.Salvo s) : g'.Salvo s := by
  obtain ⟨hturns, hbound⟩ := h
  have haimed := hg.wellFormed.aimed s
  cases hturn with
  | @idle p' same phase running =>
    exact ⟨by simpa [Player.playing, shots, phase, same.userGrid] using hturns, hbound⟩
  | @shoot p' c src usrInput free same dst =>
    have hplaying : (g.party s).playing := by simp [Player.playing, src]
    have hcount := hturns hplaying
    have hfree := Grid.shotAt_lt _ (hg.boats_left (s := s) (by simp [src]) (by simp [src]))
    have hshots : shots (g.send s p' ⟨.shot, cellByte c⟩) s = g.shots s + 1 := by
      simp [shots]
    simp only [src, true_or, ite_true] at hcount
    refine ⟨fun _ => ?_, ?_⟩
    · rw [hshots]
      simpa [dst, same.userGrid] using hcount
    · omega
  | @answered p' c r src next pending done =>
    have hcount := hturns (by simp [Player.playing, src])
    simp only [src, reduceCtorEq, or_self, ite_false] at hcount
    by_cases hover : p'.advBoats = 0
    · exact .of_stopped hbound (by simpa using Player.not_playing_of_ended (done.ends hover).1)
    · have hphase := done.defends (haimed.odd (Or.inr src)) hover
      refine ⟨fun _ => ?_, hbound⟩
      simpa [shots, hphase, done.userGrid] using hcount
  | @attacked p' c src next awaits usrInput free agree done =>
    have hcount := hturns (by simp [Player.playing, src])
    simp only [src, reduceCtorEq, or_self, ite_false] at hcount
    have hphase : p'.phase = .reply := by simp [Player.phase, done.pc]
    refine ⟨fun _ => ?_, hbound⟩
    have hshot : Grid.shotAt p'.userGrid = Grid.shotAt (g.party s).userGrid + 1 :=
      shotAt_attacked agree free done
    have hshots : shots (g.consume s p') s = g.shots s := rfl
    rw [hshots, Net.consume_party, hphase, hshot]
    simp only [or_true, ite_true]
    omega
  | @reply p' src done =>
    have hcount := hturns (by simp [Player.playing, src])
    have hshots : shots (g.send s p' ⟨.result, (g.party s).data⟩) s = g.shots s := by
      simp [shots]
    simp only [src, or_true, ite_true] at hcount
    by_cases hover : (g.party s).userBoats = 0
    · exact .of_stopped (hshots ▸ hbound)
        (by simpa using Player.not_playing_of_ended (done.ends hover).1)
    · have hphase := done.attacks (haimed.even (Or.inr src)) hover
      refine ⟨fun _ => ?_, hshots ▸ hbound⟩
      rw [hshots]
      simpa [hphase, done.userGrid] using hcount

theorem Fair.salvo_run (board : Side → Board) {errno : Side → ℕ} (herrno : ∀ s, errno s ≠ EINTR)
    {es : List (Side × Act)} (hes : ∀ e ∈ es, e.2.Undisturbed)
    (hrun : Run.exec Game.step (start board errno) es = some g) : ∀ s, g.Salvo s := by
  have hstep : ∀ (g : Game) (e : Side × Act) (g' : Game), (g.Fair ∧ ∀ s, g.Salvo s) →
      e.2.Undisturbed → g.step e = some g' → g'.Fair ∧ ∀ s, g'.Salvo s := by
    intro g e g' ⟨hg, hsalvo⟩ he hstep
    obtain ⟨hturn, hfair⟩ := hg.step he hstep
    refine ⟨hfair, Side.forall_of e.1 (hg.salvo_turn hturn (hsalvo e.1)) ?_⟩
    obtain ⟨hparty, hsent, -⟩ := turn_frame (hg.wellFormed.step hstep).1
    have hother := hsalvo e.1.other
    exact ⟨by simpa [hparty, shots, hsent] using hother.turns,
      by simpa [shots, hsent] using hother.bound⟩
  exact (Run.exec_invariant_of_forall hstep ⟨fair_start board herrno, salvo_start board errno⟩ hes
    hrun).2

theorem Tied.free_cell (hg : g.Tied) (hs : (g.party s).phase = .attack) :
    ∃ c, (g.party s).advGrid c = .default := by
  have hrun := hg.other_running (s := s) (by simp [hs]) (by simp [hs])
  have hreply : (g.party s.other).phase ≠ .reply := by
    intro h
    have hawait := (hg.reply_awaited h).1
    rw [Side.other_other, hs] at hawait
    simp at hawait
  obtain ⟨c, hc⟩ := (Grid.count_pos_iff _ _).mp (hg.boats_left hrun hreply)
  refine ⟨c, ?_⟩
  cases hg.tracks s with
  | settled _ agree => rw [agree.cells c, hc]; rfl
  | flying u phase => simp [hs] at phase
  | landed u r phase => simp [hs] at phase

theorem Tied.one_winner (hg : g.Tied) (hend : ∀ s, (g.party s).closed) :
    ∃ s, (g.party s).Won ∧ ¬ (g.party s).Lost ∧ (g.party s.other).Lost ∧
      ¬ (g.party s.other).Won := by
  have hended : ∀ s, (g.party s).phase = .ended := by
    intro s
    obtain ⟨status, hstatus⟩ := Player.closed_iff.mp (hend s)
    exact Player.phase_of_ended hstatus
  have hother : ∀ s, (g.party s).Won → ¬ (g.party s).Lost → (g.party s.other).Lost →
      ¬ (g.party s.other).Won := by
    intro s hwon hlost hlost' hwon'
    rcases (hg.verdict s.other).ended (hended _) with ⟨-, h, -⟩ | ⟨-, h, -⟩
    · exact h hlost'
    · exact h hwon'
  rcases (hg.verdict server).ended (hended server) with ⟨hwon, hlost, -, hlost'⟩ |
    ⟨hlost, hwon, -, hawait | ⟨-, hwon'⟩⟩
  · exact ⟨server, hwon, hlost, hlost', hother server hwon hlost hlost'⟩
  · simp [hended] at hawait
  · rcases (hg.verdict server.other).ended (hended _) with ⟨-, hlost', -⟩ | ⟨-, h, -⟩
    · exact ⟨server.other, hwon', hlost', by rwa [Side.other_other], by rwa [Side.other_other]⟩
    · exact absurd hwon' h

/-- What holds at the end of a run without signals and failures. -/
structure Decided (g : Game) : Prop where
  shots : g.shots server + g.shots client ≤ 31
  free : ∀ s, (g.party s).phase = .attack → ∃ c, (g.party s).advGrid c = .default
  outcome : (∀ s, (g.party s).closed) → ∃ s, (g.party s).Won ∧ ¬ (g.party s).Lost ∧
    (g.party s.other).Lost ∧ ¬ (g.party s.other).Won

theorem battleship_outcome (board : Side → Board) (errno : Side → ℕ) (es : List (Side × Act)) (g : Game)
    (hrun : Run.exec step (start board errno) es = some g) :
    ¬ ((g.party server).Won ∧ (g.party client).Won) ∧
      ((∀ s, errno s ≠ EINTR) → (∀ e ∈ es, e.2.Undisturbed) → g.Decided) := by
  refine ⟨not_both_won hrun, fun herrno hes => ?_⟩
  have hg := fair_run board herrno hes hrun
  have hsalvo := Fair.salvo_run board herrno hes hrun
  refine ⟨?_, fun s => hg.free_cell, hg.one_winner⟩
  -- 16 cells a side, and the server has one shot more than it has been shot at
  have hserver := (hsalvo server).bound
  have hclient := (hsalvo client).bound
  have hstart : startIter server = 1 ∧ startIter client = 0 := ⟨rfl, rfl⟩
  have hsize : GRID_SIZE = 16 := rfl
  omega

def exchange (s : Side) (digit : ℤ) (shot answer : Byte) : List (Side × Act) :=
  shootAt s digit ++ [(s, .sendOk), (s.other, .tau), (s.other, .recv (.byte shot)),
    (s.other, .sendOk), (s, .recv (.byte answer))]

def serverWins : List (Side × Act) :=
  exchange server 48 0 1 ++ exchange client 53 5 2 ++ exchange server 49 1 1 ++
    exchange client 54 6 2 ++ exchange server 50 2 1

theorem battleship_outcome_serverWins : ∃ g,
    Run.exec step (start (fun _ => Player.firstCells) fun _ => 0) serverWins = some g ∧
      (∀ s, (g.party s).closed) ∧ ¬ ((g.party server).Won ∧ (g.party client).Won) ∧ g.Decided := by
  have hlast : (Run.exec step (start (fun _ => Player.firstCells) fun _ => 0) serverWins).map
      (fun g => decide ((g.party server).closed ∧ (g.party client).closed)) = some true := by
    decide +kernel
  obtain ⟨g, hrun, hclosed⟩ := Option.map_eq_some_iff.mp hlast
  obtain ⟨hserver, hclient⟩ := of_decide_eq_true hclosed
  have houtcome := battleship_outcome (fun _ => Player.firstCells) (fun _ => 0) serverWins g hrun
  refine ⟨g, hrun, Side.forall_of server hserver hclient, houtcome.1,
    houtcome.2 (fun _ => by decide) ?_⟩
  simp [serverWins, exchange, shootAt, Act.Undisturbed, Act.Calm]

end Game

end SyeLabs.Battleship
