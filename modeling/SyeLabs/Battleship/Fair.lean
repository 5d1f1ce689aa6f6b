import SyeLabs.Battleship.Tracking

/-!
# Undisturbed games stay tied

Each part of the invariant is kept by the turn of a player no signal has reached,
whatever has reached its opponent.
-/

namespace SyeLabs.Battleship
open Duplex

namespace Game

variable {g g' : Game} {s : Side}

/-! ### What a turn preserves -/

theorem phase_head_counts {p : Player} (h : p.pc = .head) :
    p.phase.sentIn = 0 ∧ p.phase.takenIn = 0 := by
  rcases Player.phase_of_head h with hp | hp <;> simp [hp, Phase.sentIn, Phase.takenIn]

theorem counted_turn (h : g.Counted s) (hturn : FairTurn g s g') : g'.Counted s := by
  obtain ⟨hsent, htaken⟩ := h
  cases hturn with
  | idle same phase => exact ⟨by simpa [phase, same.firstIter], by simpa [phase, same.firstIter]⟩
  | shoot c src usrInput free same dst =>
    simp only [src, Phase.sentIn, Phase.takenIn] at hsent htaken
    constructor
    · simp only [Net.send_sent, Net.send_party, List.length_append, List.length_singleton, dst,
        same.firstIter, Phase.sentIn]
      omega
    · simpa [dst, same.firstIter, Phase.takenIn] using htaken
  | @answered p' c r src next pending done =>
    simp only [src, Phase.sentIn, Phase.takenIn] at hsent htaken
    by_cases hover : p'.advBoats = 0
    · obtain ⟨hpc, -, hiter⟩ := done.ends hover
      have hphase := Player.phase_of_ended hpc
      constructor
      · simpa [hphase, hiter, Phase.sentIn] using hsent
      · simp only [Net.consume_taken, Net.consume_party, hphase, hiter, Phase.takenIn]
        omega
    · obtain ⟨hpc, -, hiter⟩ := done.goes hover
      obtain ⟨hσ, hθ⟩ := phase_head_counts hpc
      constructor
      · simp only [Net.consume_sent, Net.consume_party, hσ, hiter]
        omega
      · simp only [Net.consume_taken, Net.consume_party, hθ, hiter]
        omega
  | @attacked p' c src next awaits usrInput free agree done =>
    simp only [src, Phase.sentIn, Phase.takenIn] at hsent htaken
    have hphase : p'.phase = .reply := by simp [Player.phase, done.pc]
    constructor
    · simpa [hphase, done.firstIter, Phase.sentIn] using hsent
    · simp only [Net.consume_taken, Net.consume_party, hphase, done.firstIter, Phase.takenIn]
      omega
  | @reply p' src done =>
    simp only [src, Phase.sentIn, Phase.takenIn] at hsent htaken
    by_cases hover : (g.party s).userBoats = 0
    · obtain ⟨hpc, -, hiter⟩ := done.ends hover
      have hphase := Player.phase_of_ended hpc
      constructor
      · simp only [Net.send_sent, Net.send_party, List.length_append, List.length_singleton, hphase,
          hiter, Phase.sentIn]
        omega
      · simpa [hphase, hiter, Phase.takenIn] using htaken
    · obtain ⟨hpc, -, hiter⟩ := done.goes hover
      obtain ⟨hσ, hθ⟩ := phase_head_counts hpc
      constructor
      · simp only [Net.send_sent, Net.send_party, List.length_append, List.length_singleton, hσ,
          hiter]
        omega
      · simpa [hθ, hiter] using htaken

theorem agree_of_same {p p' q q' : Player} (h : Agree p q) (hp : p'.advGrid = p.advGrid)
    (hpb : p'.advBoats = p.advBoats) (hq : q'.userGrid = q.userGrid)
    (hqb : q'.userBoats = q.userBoats) : Agree p' q' :=
  ⟨fun c => by rw [hp, hq, h.cells], by rw [hpb, hqb, h.boats]⟩

theorem agree_of_answered {p p' q : Player} {u : Cell} {r : Byte} (h : Pending p q u r)
    (hdone : Answered p r u p') : Agree p' q := by
  constructor
  · intro c
    rw [hdone.advGrid]
    by_cases hc : c = u
    · subst hc
      rw [Function.update_self]
      rcases h.answer with ⟨hq, rfl, -⟩ | ⟨hq, rfl, -⟩ <;> rw [hq] <;> rfl
    · rw [Function.update_of_ne hc, h.cells c hc]
  · rw [hdone.advBoats]
    rcases h.answer with ⟨-, rfl, hb⟩ | ⟨-, rfl, hb⟩
    · rw [if_pos rfl]
      omega
    · rw [if_neg (by decide), hb, sub_zero]

theorem pending_of_attacked {p q q' : Player} {u : Cell} (h : Agree p q)
    (hfree : p.advGrid u = .default) (hdone : Attacked q u q') : Pending p q' u q'.data := by
  refine ⟨fun c hc => ?_, hfree, ?_⟩
  · rw [hdone.userGrid, Function.update_of_ne hc, h.cells c]
  · rw [hdone.userGrid, hdone.data, hdone.userBoats, Function.update_self, h.boats]
    by_cases hhit : q.userGrid u = .boat
    · refine Or.inl ⟨if_pos hhit, if_pos hhit, ?_⟩
      rw [if_pos hhit, sub_add_cancel]
    · refine Or.inr ⟨if_neg hhit, if_neg hhit, ?_⟩
      rw [if_neg hhit, sub_zero]

theorem Tied.tracks_self (hg : g.Tied) (hturn : FairTurn g s g') : g'.Tracks s := by
  have htracks := hg.tracks s
  cases hturn with
  | @idle p' same phase running usrInput data =>
    cases htracks with
    | settled hphase agree =>
      refine .settled (by simpa [phase] using hphase) ?_
      simpa using agree_of_same agree same.advGrid same.advBoats rfl rfl
    | flying u hphase husr free last unread agree =>
      refine .flying u (by simpa [phase] using hphase) (by simpa [usrInput hphase] using husr)
        (by simpa [same.advGrid] using free) last unread ?_
      simpa using agree_of_same agree same.advGrid same.advBoats rfl rfl
    | landed u r hphase husr read pending answer =>
      refine .landed u r (by simpa [phase] using hphase) (by simpa [usrInput hphase] using husr)
        read ?_ (by simpa [Net.next] using answer)
      have hpending : Pending p' (g.party s.other) u r :=
        ⟨fun c hc => by rw [same.advGrid, pending.cells c hc], by rw [same.advGrid, pending.free],
          by rw [same.advBoats]; exact pending.answer⟩
      simpa using hpending
  | @shoot p' c src usrInput free same dst =>
    cases htracks with
    | flying u hphase => simp [src] at hphase
    | landed u r hphase => simp [src] at hphase
    | settled hphase agree =>
      refine .flying c (by simpa using dst) (by simpa using usrInput)
        (by simpa [same.advGrid] using free) (by simp) ?_ ?_
      · have := hg.wellFormed.causal s.other
        rw [Side.other_other] at this
        simp only [Net.send_taken, Net.send_sent, List.length_append, List.length_singleton]
        omega
      · simpa using agree_of_same agree same.advGrid same.advBoats rfl rfl
  | @answered p' c r src next pending done =>
    refine .settled ?_ (by simpa using agree_of_answered pending done)
    rcases done.phases with h | h | h <;> simp [h]
  | @attacked p' c src next awaits usrInput free agree done =>
    cases htracks with
    | flying u hphase => simp [src] at hphase
    | landed u r hphase => simp [src] at hphase
    | settled hphase hagree =>
      refine .settled (by simp [Player.phase, done.pc]) ?_
      simpa using agree_of_same hagree done.advGrid done.advBoats rfl rfl
  | @reply p' src done =>
    cases htracks with
    | flying u hphase => simp [src] at hphase
    | landed u r hphase => simp [src] at hphase
    | settled hphase hagree =>
      refine .settled ?_ (by simpa using agree_of_same hagree done.advGrid done.advBoats rfl rfl)
      rcases done.phases with h | h | h <;> simp [h]

theorem tracks_other_of_same (p' : Player) (ms : List Message) (h : g.Tracks s.other)
    (hreply : (g.party s).phase ≠ .reply ∨ p'.phase = .reply ∧ p'.data = (g.party s).data)
    (hgrid : p'.userGrid = (g.party s).userGrid) (hboats : p'.userBoats = (g.party s).userBoats)
    (hother : g'.party s.other = g.party s.other) (hself : g'.party s = p')
    (hsent : g'.sent s = g.sent s ++ ms) (hsent' : g'.sent s.other = g.sent s.other)
    (htaken : g'.taken = g.taken) : g'.Tracks s.other := by
  have hnext : ∀ m, g.next s.other = some m → g'.next s.other = some m := by
    intro m hm
    rw [Net.next, Side.other_other] at hm ⊢
    rw [hsent, htaken, List.getElem?_append_left (List.getElem?_eq_some_iff.mp hm).1, hm]
  cases h with
  | settled hphase agree =>
    rw [Side.other_other] at agree
    refine .settled (by rwa [hother]) ?_
    rw [Side.other_other, hother, hself]
    exact agree_of_same agree rfl rfl hgrid hboats
  | flying u hphase husr free last unread agree =>
    rw [Side.other_other] at agree unread
    refine .flying u (by rwa [hother]) (by rwa [hother]) (by rwa [hother]) (by rwa [hsent'])
      (by rwa [Side.other_other, htaken, hsent']) ?_
    rw [Side.other_other, hother, hself]
    exact agree_of_same agree rfl rfl hgrid hboats
  | landed u r hphase husr read pending answer =>
    rw [Side.other_other] at pending answer read
    refine .landed u r (by rwa [hother]) (by rwa [hother])
      (by rwa [Side.other_other, htaken, hsent']) ?_ ?_
    · rw [Side.other_other, hother, hself]
      exact ⟨fun c hc => by rw [hgrid, pending.cells c hc], pending.free,
        by rw [hgrid, hboats]; exact pending.answer⟩
    · rw [Side.other_other, hself]
      rcases answer with ⟨hp, hd⟩ | hm
      · rcases hreply with hne | ⟨hp', hd'⟩
        · exact absurd hp hne
        · exact Or.inl ⟨hp', hd'.trans hd⟩
      · exact Or.inr (hnext _ hm)

theorem Tied.tracks_other (hg : g.Tied) (hturn : FairTurn g s g') : g'.Tracks s.other := by
  have htracks := hg.tracks s.other
  cases hturn with
  | @idle p' same phase running usrInput data =>
    refine tracks_other_of_same p' [] htracks ?_ same.userGrid same.userBoats
      (by simp) (by simp) (by simp) (by simp) (by simp)
    by_cases hreply : (g.party s).phase = .reply
    · exact Or.inr ⟨phase.trans hreply, data hreply⟩
    · exact Or.inl hreply
  | @shoot p' c src usrInput free same dst =>
    exact tracks_other_of_same p' [⟨.shot, cellByte c⟩] htracks (Or.inl (by simp [src]))
      same.userGrid same.userBoats (by simp) (by simp) (by simp) (by simp) (by simp)
  | @answered p' c r src next pending done =>
    have hread := (Net.next_eq_some next).1
    cases htracks with
    | settled hphase agree =>
      rw [Side.other_other] at agree
      refine .settled (by simpa using hphase) ?_
      simpa using agree_of_same agree rfl rfl done.userGrid done.userBoats
    | flying u hphase husr free last unread agree =>
      rw [Side.other_other] at agree
      refine .flying u (by simpa using hphase) (by simpa using husr) (by simpa using free) last ?_ ?_
      · simpa using hg.answer_before_shot src hphase hread
      · simpa using agree_of_same agree rfl rfl done.userGrid done.userBoats
    | landed u r hphase husr read =>
      rw [Side.other_other] at read
      omega
  | @attacked p' c src next awaits usrInput free agree done =>
    have hread := (Net.next_eq_some next).1
    refine .landed c p'.data (by simpa using awaits) (by simpa using usrInput) ?_ ?_ (Or.inl ?_)
    · simpa using (hg.shot_next src hread).2
    · simpa using pending_of_attacked agree free done
    · simp [Player.phase, done.pc]
  | @reply p' src done =>
    -- the answer sent is the first message its reader has not read
    obtain ⟨hawait, hempty, hall⟩ := hg.reply_awaited src
    cases htracks with
    | settled hphase => exact absurd hawait hphase
    | flying u hphase husr free last unread =>
      rw [Side.other_other] at unread
      omega
    | landed u r hphase husr read pending answer =>
      rw [Side.other_other] at pending answer
      have hdata : (g.party s).data = r := by
        rcases answer with ⟨-, hdata⟩ | hnext
        · exact hdata
        · have := (Net.next_eq_some hnext).1
          rw [Side.other_other] at this
          omega
      refine .landed u r (by simpa using hawait) (by simpa using husr) (by simpa using hempty) ?_
        (Or.inr ?_)
      · have hpending : Pending (g.party s.other) p' u r :=
          ⟨fun d hd => by rw [done.userGrid, pending.cells d hd], pending.free,
            by rw [done.userGrid, done.userBoats]; exact pending.answer⟩
        simpa using hpending
      · rw [Net.next, Side.other_other, Net.send_sent, Net.send_taken, hall,
          List.getElem?_append_right (Nat.le_refl _), Nat.sub_self, hdata]
        rfl

theorem Tied.fairShot (hg : g.Tied) {a : Act} (hallowed : g.Allowed s a) :
    (g.party s).FairShot a := by
  rintro b rfl hpc -
  have hphase : (g.party s).phase = .defend := by simp [Player.phase, hpc]
  obtain ⟨m, hm, rfl⟩ := Option.map_eq_some_iff.mp hallowed
  obtain ⟨u, rfl, -, -, hfree, hagree⟩ := hg.reads_shot hphase hm
  refine Or.inr ⟨u, cell?_cellByte u, fun hsunken => ?_⟩
  have := hagree.cells u
  rw [hfree, hsunken] at this
  simp [GridState.seen] at this

theorem Tied.not_closed (hg : g.Tied) : g.step (s, .recv .closed) ≠ some g' := by
  intro h
  obtain ⟨⟨hnone, hclosed⟩, p', hp', -⟩ := step_some h
  obtain ⟨status, hstatus⟩ := Player.closed_iff.mp hclosed
  have hended := Player.phase_of_ended hstatus
  have hverdict := (hg.verdict s.other).ended hended
  rw [Side.other_other] at hverdict
  have hphase : (g.party s).phase = .await ∨ (g.party s).phase = .defend := by
    cases hpc : (g.party s).pc <;> simp [Player.step, hpc] at hp' <;> simp [Player.phase, hpc]
  rcases hverdict with ⟨-, -, hs, -⟩ | ⟨-, -, hboats, hs | ⟨hs, -⟩⟩
  · rcases hphase with h | h <;> simp [h] at hs
  · -- the loser's answer is still to be read
    cases hg.tracks s with
    | settled hsettled => exact hsettled hs
    | flying u _ _ _ _ _ agree =>
      have hafloat := (hg.inv s).afloat (by simp [hs])
      exact hafloat (agree.boats.trans hboats)
    | landed u r _ _ _ _ answer =>
      rcases answer with ⟨hreply, -⟩ | hnext
      · simp [hended] at hreply
      · simp [hnone] at hnext
  · rcases hphase with h | h <;> simp [h] at hs

theorem Tied.other_running (hg : g.Tied) (hs : (g.party s).phase ≠ .await)
    (hrun : (g.party s).phase ≠ .ended) : (g.party s.other).phase ≠ .ended := by
  intro hended
  have hverdict := (hg.verdict s.other).ended hended
  rw [Side.other_other] at hverdict
  rcases hverdict with ⟨-, -, h, -⟩ | ⟨-, -, -, h | ⟨h, -⟩⟩
  · exact hrun h
  · exact hs h
  · exact hrun h

theorem Tied.verdict_answered (hg : g.Tied) {p' : Player} {c : Cell} {r : Byte}
    (src : (g.party s).phase = .await) (next : g.next s = some ⟨.result, r⟩)
    (pending : Pending (g.party s) (g.party s.other) c r) (done : Answered (g.party s) r c p') :
    (p'.advBoats = 0 ↔ (g.party s.other).phase = .ended) ∧
      ((g.party s.other).phase = .ended → (g.party s.other).Lost ∧ ¬ (g.party s.other).Won) := by
  have hreply := (hg.answer_next src (Net.next_eq_some next).1).2
  have hboats := (agree_of_answered pending done).boats
  have hverdict := hg.verdict s.other
  refine ⟨⟨fun hover => ?_, fun hended => ?_⟩, fun hended => ?_⟩
  · by_contra hrun
    exact (hverdict.open_ hrun).2.2 hreply (hboats.symm.trans hover)
  · have := hverdict.ended hended
    rw [Side.other_other] at this
    rcases this with ⟨-, -, h, -⟩ | ⟨-, -, h, -⟩
    · simp [src] at h
    · exact hboats.trans h
  · have := hverdict.ended hended
    rw [Side.other_other] at this
    rcases this with ⟨-, -, h, -⟩ | ⟨hlost, hwon, -⟩
    · simp [src] at h
    · exact ⟨hlost, hwon⟩

theorem Verdict.of_running {t : Side} (hrun : (g.party t).phase ≠ .ended)
    (h : ¬ (g.party t).Won ∧ ¬ (g.party t).Lost)
    (hboats : (g.party t).phase ≠ .reply → (g.party t).userBoats ≠ 0) : g.Verdict t :=
  ⟨fun _ => ⟨h.1, h.2, hboats⟩, fun hended => absurd hended hrun⟩

/- A party that has not ended and does not move keeps its verdict. -/
theorem Verdict.of_same {t : Side} (h : g.Verdict t) (hrun : (g.party t).phase ≠ .ended)
    (hparty : g'.party t = g.party t) : g'.Verdict t := by
  obtain ⟨hwon, hlost, hboats⟩ := h.open_ hrun
  exact .of_running (by rwa [hparty]) (by rw [hparty]; exact ⟨hwon, hlost⟩)
    (by rw [hparty]; exact hboats)

theorem Tied.verdict_turn (hg : g.Tied) (hturn : FairTurn g s g') :
    g'.Verdict s ∧ g'.Verdict s.other := by
  have hself := hg.verdict s
  have hother := hg.verdict s.other
  have hopen : (g.party s).phase ≠ .ended → ¬ (g.party s).Won ∧ ¬ (g.party s).Lost :=
    fun h => ⟨(hself.open_ h).1, (hself.open_ h).2.1⟩
  cases hturn with
  | @idle p' same phase running =>
    refine ⟨.of_running (by simpa [phase] using running) ?_ ?_, ?_⟩
    · simpa [same.won, same.lost] using hopen running
    · simpa [phase, same.userBoats] using (hself.open_ running).2.2
    · exact ⟨by simpa using hother.open_, by
        simpa [phase, same.won, same.lost] using hother.ended⟩
  | @shoot p' c src usrInput free same dst =>
    have hrun := hg.other_running (s := s) (by simp [src]) (by simp [src])
    refine ⟨.of_running (by simp [dst]) ?_ ?_, hother.of_same hrun (by simp)⟩
    · simpa [same.won, same.lost] using hopen (by simp [src])
    · simpa [same.userBoats] using fun _ => (hself.open_ (by simp [src])).2.2 (by simp [src])
  | @answered p' c r src next pending done =>
    obtain ⟨hover_iff, hlost_other⟩ := hg.verdict_answered src next pending done
    have hrun : (g.party s).phase ≠ .ended := by simp [src]
    by_cases hover : p'.advBoats = 0
    · obtain ⟨hpc, hwon, -⟩ := done.ends hover
      have hended := hover_iff.mp hover
      have hlost : ¬ p'.Lost := fun h => (hopen hrun).2 (done.lost.mp h)
      obtain ⟨hol, how⟩ := hlost_other hended
      have hphase := Player.phase_of_ended hpc
      have hboats := (agree_of_answered pending done).boats
      refine ⟨⟨fun h => absurd (by simpa using hphase) h, fun _ => Or.inl ?_⟩,
        ⟨fun h => absurd (by simpa using hended) h, fun _ => Or.inr ?_⟩⟩
      · simpa using ⟨hwon, hlost, hended, hol⟩
      · simpa [hphase] using ⟨hol, how, hboats.symm.trans hover, hwon⟩
    · obtain ⟨hpc, hwon, -⟩ := done.goes hover
      have hended : (g.party s.other).phase ≠ .ended := fun h => hover (hover_iff.mpr h)
      have hphase := Player.phase_of_head hpc
      refine ⟨.of_running ?_ ?_ ?_, hother.of_same hended (by simp)⟩
      · rcases hphase with h | h <;> simp [h]
      · simpa [hwon, done.lost] using hopen hrun
      · simpa [done.userBoats] using fun _ => (hself.open_ hrun).2.2 (by simp [src])
  | @attacked p' c src next awaits usrInput free agree done =>
    have hended : (g.party s.other).phase ≠ .ended := by simp [awaits]
    have hphase : p'.phase = .reply := by simp [Player.phase, done.pc]
    refine ⟨.of_running (by simp [hphase]) ?_ (by simp [hphase]), hother.of_same hended (by simp)⟩
    simpa [done.won, done.lost] using hopen (by simp [src])
  | @reply p' src done =>
    have hawait := (hg.reply_awaited src).1
    have hended : (g.party s.other).phase ≠ .ended := by simp [hawait]
    have hopen' := hopen (by simp [src])
    refine ⟨?_, hother.of_same hended (by simp)⟩
    by_cases hover : (g.party s).userBoats = 0
    · obtain ⟨hpc, hlost, -⟩ := done.ends hover
      have hphase := Player.phase_of_ended hpc
      have hwon : ¬ p'.Won := fun h => hopen'.1 (done.won.mp h)
      refine ⟨fun h => absurd (by simpa using hphase) h, fun _ => Or.inr ?_⟩
      simpa [hawait] using ⟨hlost, hwon, done.userBoats.trans hover⟩
    · obtain ⟨hpc, hlost, -⟩ := done.goes hover
      have hphase := Player.phase_of_head hpc
      refine .of_running ?_ ?_ ?_
      · rcases hphase with h | h <;> simp [h]
      · simpa [done.won, hlost] using hopen'
      · simpa [done.userBoats] using fun _ => hover

/-! ### Runs -/

theorem fair_start (board : Side → Board) {errno : Side → ℕ} (herrno : ∀ s, errno s ≠ EINTR) :
    (start board errno).Fair := by
  have hphase : ∀ s, ((start board errno).party s).phase = .attack ∨
      ((start board errno).party s).phase = .defend :=
    fun s => Player.phase_of_head rfl
  have hwater : ∀ s c, GridState.seen ((board s).grid c) = .default := by
    intro s c
    by_cases hboat : (board s).grid c = .boat
    · rw [hboat]
      rfl
    · rw [(board s).grid_placed.water c hboat]
      rfl
  refine ⟨⟨wellFormed_start board errno, fun s => ?_, fun s => ?_,
    fun s => .settled ?_ ⟨fun c => (hwater s.other c).symm, rfl⟩,
    fun s => Player.inv_start _ _ _, fun s => .of_running ?_ ?_ fun _ => ?_⟩,
    fun s => ⟨rfl, herrno s⟩⟩
  · rcases hphase s with h | h <;> simp [h]
  · have hiter : ((start board errno).party s).firstIter = startIter s := by
      simp [start, Player.start, startIter]
    have hsent : (start board errno).sent s = [] := rfl
    have htaken : (start board errno).taken s = 0 := rfl
    constructor
    · rcases hphase s with h | h <;> simp [h, hiter, hsent, Phase.sentIn]
    · rcases hphase s with h | h <;> simp [h, hiter, htaken, Phase.takenIn]
  · rcases hphase s with h | h <;> simp [h]
  · rcases hphase s with h | h <;> simp [h]
  · simp [start, Player.start, Player.Won, Player.Lost]
  · simp [start, Player.start, BOAT_NUM]

theorem Tied.of_fairTurn (hg : g.Tied) {a : Act} (hstep : g.step (s, a) = some g')
    (hfair : FairTurn g s g') : g'.Tied := by
  obtain ⟨hturn, hwell⟩ : Turn g s a g' ∧ g'.WellFormed := hg.wellFormed.step hstep
  obtain ⟨hallowed, p', hp', hpost⟩ := step_some hstep
  obtain ⟨hparty, hsent, htaken⟩ := turn_frame hturn
  have hself : g'.party s = p' := posts_party hpost
  refine ⟨hwell, Side.forall_of s ?_ ?_, Side.forall_of s (counted_turn (hg.counted s) hfair) ?_,
    Side.forall_of s (hg.tracks_self hfair) (hg.tracks_other hfair), Side.forall_of s ?_ ?_,
    Side.forall_of s (hg.verdict_turn hfair).1 (hg.verdict_turn hfair).2⟩
  · cases hfair with
    | idle same phase => simpa [phase] using hg.stays s
    | shoot _ _ _ _ _ dst => simp [dst]
    | @answered q _ _ _ _ _ done =>
      rcases done.phases with h | h | h <;> simp [h]
    | attacked _ _ _ _ _ _ _ done => simp [Player.phase, done.pc]
    | @reply q _ done =>
      rcases done.phases with h | h | h <;> simp [h]
  · rw [hparty]
    exact hg.stays s.other
  · have hother := hg.counted s.other
    exact ⟨by simpa [hparty, hsent] using hother.sent, by simpa [hparty, htaken] using hother.taken⟩
  · rw [hself]
    exact (Player.inv_step (hg.inv s) (hg.fairShot hallowed) hp').1
  · rw [hparty]
    exact hg.inv s.other

theorem Tied.step (hg : g.Tied) {a : Act} (hs : (g.party s).Undisturbed) (ha : a.Undisturbed)
    (hstep : g.step (s, a) = some g') :
    FairTurn g s g' ∧ g'.Tied ∧ (g'.party s).Undisturbed := by
  have hcalm : a.Calm := by
    rcases ha with ha | rfl
    · exact ha
    · exact absurd hstep hg.not_closed
  have hfair := hg.turn hs hcalm (hg.wellFormed.step hstep).1
  obtain ⟨-, p', hp', hpost⟩ := step_some hstep
  have hsignals := Player.calm_signals hcalm hp'
  refine ⟨hfair, hg.of_fairTurn hstep hfair, ?_⟩
  rw [posts_party hpost, Player.Undisturbed, hsignals.1, hsignals.2]
  exact hs

theorem Fair.step (hg : g.Fair) {e : Side × Act} (he : e.2.Undisturbed)
    (hstep : g.step e = some g') : FairTurn g e.1 g' ∧ g'.Fair := by
  obtain ⟨hfair, htied, hsignals⟩ := hg.toTied.step (hg.signals e.1) he hstep
  refine ⟨hfair, htied, Side.forall_of e.1 hsignals ?_⟩
  rw [(turn_frame (hg.wellFormed.step hstep).1).1]
  exact hg.signals e.1.other

theorem fair_run (board : Side → Board) {errno : Side → ℕ} (herrno : ∀ s, errno s ≠ EINTR)
    {es : List (Side × Act)} (hes : ∀ e ∈ es, e.2.Undisturbed)
    (hrun : Run.exec Game.step (start board errno) es = some g) : g.Fair :=
  Run.exec_invariant_of_forall (fun _ _ _ hg he hstep => (hg.step he hstep).2)
    (fair_start board herrno) hes hrun

end Game

end SyeLabs.Battleship
