import SyeLabs.Battleship.Contest

/-!
# What the opponent of a leaving player reads

A player that a signal reaches may leave in the middle of a turn. Its opponent
still reads the answer it may be waiting for, and then whatever the leaving player
has sent last.
-/

namespace SyeLabs.Battleship
open Duplex

namespace Game

/-- Player `t` is going to read `F`, after the answer it may be waiting for. That
answer does not end the game. -/
inductive Expects (g : Game) (t : Side) (F : List Message) : Prop where
  | answer (r : Byte) (phase : (g.party t).phase = .await)
      (unread : g.unread t = ⟨.result, r⟩ :: F) (noForfeit : r ≠ FORFEIT)
      (left : (g.party t).advBoats ≠ if r = GridState.boat.toByte then 1 else 0)
  | shot (phase : (g.party t).phase = .defend) (unread : g.unread t = F)
  | turn (phase : (g.party t).phase = .attack ∨ (g.party t).phase = .await)
      (unread : g.unread t = F) (forfeits : ∀ m ∈ F, m.byte = FORFEIT)

/- The step in which a player reads the message it expects. -/
inductive Reads (g : Game) (t : Side) (m : Message) : Game → Prop where
  | forfeit {p'} (byte : m.byte = FORFEIT) (dst : p'.pc = .ended .success) (won : p'.Won)
      (told : p'.Told) : Reads g t m (g.consume t p')
  | shot {p'} (c : Cell) (byte : m.byte = cellByte c) (done : Attacked (g.party t) c p') :
      Reads g t m (g.consume t p')

variable {g g' : Game} {s t : Side} {F : List Message} {a : Act}

theorem Expects.phase (h : g.Expects t F) : (g.party t).phase = .attack ∨
    (g.party t).phase = .await ∨ (g.party t).phase = .defend := by
  cases h with
  | answer r phase => exact Or.inr (Or.inl phase)
  | shot phase => exact Or.inr (Or.inr phase)
  | turn phase => exact phase.imp_right Or.inl

theorem Expects.not_ended (h : g.Expects t F) {status : Exit} :
    (g.party t).pc ≠ .ended status := by
  intro hend
  have hphase := h.phase
  simp [Player.phase_of_ended hend] at hphase

theorem Expects.append (h : g.Expects t F) (ms : List Message)
    (hms : (∀ m ∈ ms, m.byte = FORFEIT) ∨ ∃ m ∈ F, m.byte ≠ FORFEIT)
    (hphase : (g'.party t).phase = (g.party t).phase)
    (hboats : (g'.party t).advBoats = (g.party t).advBoats)
    (hunread : g'.unread t = g.unread t ++ ms) : g'.Expects t (F ++ ms) := by
  cases h with
  | answer r phase unread noForfeit left =>
    exact .answer r (hphase.trans phase) (by rw [hunread, unread]; rfl) noForfeit
      (by rwa [hboats])
  | shot phase unread => exact .shot (hphase.trans phase) (by rw [hunread, unread])
  | turn phase unread forfeits =>
    refine .turn (by rwa [hphase]) (by rw [hunread, unread]) fun m hm => ?_
    rcases List.mem_append.mp hm with hm | hm
    · exact forfeits m hm
    · rcases hms with hms | ⟨m', hm', hne⟩
      · exact hms m hm
      · exact absurd (forfeits m' hm') hne

theorem Expects.same (h : g.Expects t F) (hphase : (g'.party t).phase = (g.party t).phase)
    (hboats : (g'.party t).advBoats = (g.party t).advBoats) (hunread : g'.unread t = g.unread t) :
    g'.Expects t F := by
  have happend := h.append [] (Or.inl (by simp)) hphase hboats (by simpa using hunread)
  simpa using happend

theorem Expects.calm (h : g.Expects t F) (hopen : F = [] → ¬ (g.party t.other).closed)
    (ha : a.Undisturbed) (hstep : g.step (t, a) = some g') : a.Calm := by
  rcases ha with ha | rfl
  · exact ha
  · obtain ⟨⟨hnone, hclosed⟩, -⟩ := step_some hstep
    rw [Net.next_eq_head?] at hnone
    cases h with
    | answer r phase unread => simp [unread] at hnone
    | shot phase unread =>
      rw [unread, List.head?_eq_none_iff] at hnone
      exact absurd hclosed (hopen hnone)
    | turn phase unread =>
      rw [unread, List.head?_eq_none_iff] at hnone
      exact absurd hclosed (hopen hnone)

theorem Expects.answered {p' : Player} {m : Message} {c : Cell} (h : g.Expects t F)
    (hwell : g.WellFormed) (src : (g.party t).phase = .await) (next : g.next t = some m)
    (noForfeit : m.byte ≠ FORFEIT) (done : Answered (g.party t) m.byte c p') :
    Expects (g.consume t p') t F := by
  rw [Net.next_eq_head?] at next
  cases h with
  | shot phase => simp [src] at phase
  | turn phase unread forfeits =>
    rw [unread] at next
    exact absurd (forfeits m (List.mem_of_mem_head? next)) noForfeit
  | answer r phase unread hr left =>
    rw [unread, List.head?_cons] at next
    cases next
    have hgoes : p'.advBoats ≠ 0 := by
      rw [done.advBoats]
      exact sub_ne_zero.mpr left
    have hdefend : p'.phase = .defend := done.defends ((hwell.aimed t).odd (Or.inr src)) hgoes
    refine .shot (by simpa using hdefend) ?_
    rw [Net.unread_consume, unread]
    rfl

theorem Expects.turn_of (h : g.Expects t F) (hwell : g.WellFormed)
    (hself : (g.party t).Undisturbed) (ha : a.Calm)
    (hF : ∀ m, F.head? = some m → m.byte = FORFEIT ∨ ∃ c, m.byte = cellByte c)
    (hturn : Turn g t a g') :
    g'.Expects t F ∧ (g'.party t).userGrid = (g.party t).userGrid ∧
        (g'.party t).userBoats = (g.party t).userBoats ∨
      ∃ m, F.head? = some m ∧ Reads g t m g' := by
  have hphase := h.phase
  have hcalm : ¬ (g.party t).Disturbed a := by
    rintro (hd | hd | hd | hd)
    · simp [hself.1] at hd
    · exact hself.2 hd
    · simp [hd] at hphase
    · exact hd ha
  have hnext : ∀ m, g.next t = some m → (g.party t).phase = .defend → F.head? = some m := by
    intro m hm hdefend
    rw [Net.next_eq_head?] at hm
    cases h with
    | answer r phase => simp [hdefend] at phase
    | shot phase unread => rwa [unread] at hm
    | turn phase => simp [hdefend] at phase
  -- undisturbed, the player can only read the answer or the first message of `F`
  cases hturn with
  | idle same phase =>
    refine Or.inl ⟨h.same (by simpa using phase) (by simpa using same.advBoats) rfl, ?_, ?_⟩
    · simpa using same.userGrid
    · simpa using same.userBoats
  | leave _ cause => exact absurd cause hcalm
  | abort _ _ cause => exact absurd cause hcalm
  | shoot c src usrInput free same dst =>
    cases h with
    | answer r phase => simp [src] at phase
    | shot phase => simp [src] at phase
    | turn phase unread forfeits =>
      refine Or.inl ⟨.turn (Or.inr (by simpa using dst)) (Net.unread_send.trans unread) forfeits,
        ?_, ?_⟩
      · simpa using same.userGrid
      · simpa using same.userBoats
  | answered m c next src usrInput free noForfeit done =>
    refine Or.inl ⟨h.answered hwell src next noForfeit done, ?_, ?_⟩
    · simpa using done.userGrid
    · simpa using done.userBoats
  | attacked m c next src byte done =>
    exact Or.inr ⟨m, hnext m next src, .shot c byte done⟩
  | overrun m next src noForfeit wild =>
    rcases hF m (hnext m next src) with hm | ⟨c, hm⟩
    · exact absurd hm noForfeit
    · simp [hm] at wild
  | triumph m next src byte same dst won told =>
    refine Or.inr ⟨m, ?_, .forfeit byte dst won told⟩
    rw [Net.next_eq_head?] at next
    cases h with
    | answer r phase unread hr =>
      rw [unread, List.head?_cons] at next
      cases next
      exact absurd byte hr
    | shot phase unread => rwa [unread] at next
    | turn phase unread => rwa [unread] at next
  | reply src => simp [src] at hphase
  | replyFailed e k pc => simp [Player.phase, pc] at hphase
  | resign src => simp [src] at hphase

theorem turn_appends (hg : g.WellFormed) (hturn : Turn g s a g') :
    ∃ ms, g'.unread s.other = g.unread s.other ++ ms := by
  have hwithdraws : ∀ {p'}, Withdraws g s p' g' → g'.unread s.other = g.unread s.other := by
    rintro p' (_ | ⟨m, -⟩)
    · rfl
    · simp [Net.unread]
  cases hturn with
  | idle => exact ⟨[], by simp [Net.unread_move]⟩
  | leave _ _ _ _ withdraws => exact ⟨[], by simpa using hwithdraws withdraws⟩
  | abort _ _ _ _ _ withdraws => exact ⟨[], by simpa using hwithdraws withdraws⟩
  | shoot => exact ⟨_, hg.causal.unread_send_other⟩
  | answered m _ next => exact ⟨[], by simpa using hwithdraws (.drop m next)⟩
  | attacked m _ next => exact ⟨[], by simpa using hwithdraws (.drop m next)⟩
  | overrun m next => exact ⟨[], by simpa using hwithdraws (.drop m next)⟩
  | triumph m next => exact ⟨[], by simpa using hwithdraws (.drop m next)⟩
  | reply => exact ⟨_, hg.causal.unread_send_other⟩
  | replyFailed => exact ⟨[], by simp [Net.unread_move]⟩
  | resign _ _ _ _ _ post =>
    rcases post with rfl | rfl
    · exact ⟨_, hg.causal.unread_send_other⟩
    · exact ⟨[], by simp [Net.unread_move]⟩

/-! ### What is expected in a tied game -/

theorem Tied.outstanding (hg : g.Tied) (hs : (g.party s).phase ≠ .reply)
    (ho : (g.party s.other).phase = .await) (hread : g.taken s = (g.sent s.other).length)
    (hboats : (g.party s).userBoats ≠ 0) : ∃ r, g.next s.other = some ⟨.result, r⟩ ∧
      r ≠ FORFEIT ∧ (g.party s.other).advBoats ≠ if r = GridState.boat.toByte then 1 else 0 := by
  cases hg.tracks s.other with
  | settled phase => exact absurd ho phase
  | flying u phase usrInput free last unread =>
    rw [Side.other_other] at unread
    omega
  | landed u r phase usrInput read pending answer =>
    rw [Side.other_other] at pending answer
    refine ⟨r, answer.resolve_left fun h => hs h.1, pending_ne_forfeit pending, ?_⟩
    rcases pending.answer with ⟨-, rfl, hleft⟩ | ⟨-, rfl, hleft⟩
    · rw [if_pos rfl]
      omega
    · rw [if_neg (by decide)]
      omega

theorem Tied.expects_of_attack (hg : g.Tied) (hs : (g.party s).phase = .attack)
    (hparty : g'.party s.other = g.party s.other) (ms : List Message)
    (hunread : g'.unread s.other = g.unread s.other ++ ms) : g'.Expects s.other ms := by
  obtain ⟨h1, h2, h3, h4, h5, h6, h7, h8, h9⟩ := hg.counts s
  have hboats : (g.party s).userBoats ≠ 0 :=
    ((hg.verdict s).open_ (by simp [hs])).2.2 (by simp [hs])
  cases ho : (g.party s.other).phase with
  | attack => exact absurd ⟨hs, ho⟩ hg.not_both.1
  | await =>
    simp only [hs, ho, Phase.sentIn, Phase.takenIn, Phase.OnTurn] at h1 h2 h3 h4 h5 h6
    obtain ⟨r, hnext, hr, hleft⟩ := hg.outstanding (by simp [hs]) ho (by omega) hboats
    have hlast : g.taken s.other + 1 = (g.sent s.other.other).length := by
      rw [Side.other_other]
      omega
    refine .answer r (by rwa [hparty]) ?_ hr (by rwa [hparty])
    rw [hunread, Net.unread_of_last hlast hnext]
    rfl
  | defend =>
    simp only [hs, ho, Phase.sentIn, Phase.takenIn, Phase.OnTurn] at h1 h2 h3 h4 h5 h6
    have hall : g.taken s.other = (g.sent s.other.other).length := by
      rw [Side.other_other]
      omega
    refine .shot (by rwa [hparty]) ?_
    rw [hunread, Net.unread_of_length hall]
    rfl
  | reply =>
    have hawait := (hg.reply_awaited ho).1
    rw [Side.other_other, hs] at hawait
    simp at hawait
  | leaving => exact absurd ho (hg.stays s.other)
  | ended => exact absurd ho (hg.other_running (by simp [hs]) (by simp [hs]))

theorem Tied.expects_shot (hg : g.Tied) {c : Cell} (hs : (g.party s).phase = .await)
    (husr : (g.party s).usrInput = cellByte c) (hboat : (g.party s.other).userGrid c = .boat)
    (hboats : (g.party s.other).userBoats ≠ 0) :
    g.Expects s.other [⟨.shot, cellByte c⟩] := by
  obtain ⟨h1, h2, h3, h4, h5, h6, h7, h8, h9⟩ := hg.counts s
  cases hg.tracks s with
  | settled phase => exact absurd hs phase
  | landed u r phase usrInput read pending =>
    obtain rfl := cellByte_inj (usrInput.symm.trans husr)
    rcases pending.answer with ⟨h, -⟩ | ⟨h, -⟩ <;> simp [h] at hboat
  | flying u phase usrInput free last unread =>
    obtain rfl := cellByte_inj (usrInput.symm.trans husr)
    have hleft : (g.party s).userBoats ≠ 0 :=
      ((hg.verdict s).open_ (by simp [hs])).2.2 (by simp [hs])
    cases ho : (g.party s.other).phase with
    | attack =>
      simp only [hs, ho, Phase.sentIn, Phase.takenIn, Phase.OnTurn] at h1 h2 h3 h4 h5 h6
      omega
    | await =>
      simp only [hs, ho, Phase.sentIn, Phase.takenIn, Phase.OnTurn] at h1 h2 h3 h4 h5 h6
      -- the answer to the opponent's own shot comes before the shot
      obtain ⟨r, hnext, hr, hadv⟩ := hg.outstanding (by simp [hs]) ho (by omega) hleft
      refine .answer r ho (Net.unread_of_two ?_ hnext ?_) hr hadv
      · rw [Side.other_other]
        omega
      · rwa [Side.other_other]
    | defend =>
      simp only [hs, ho, Phase.sentIn, Phase.takenIn, Phase.OnTurn] at h1 h2 h3 h4 h5 h6
      have hlast : g.taken s.other + 1 = (g.sent s).length := by omega
      rw [← hlast, Nat.add_sub_cancel] at last
      refine .shot ho (Net.unread_of_last (by rwa [Side.other_other]) ?_)
      rw [Net.next, Side.other_other, last]
    | reply =>
      simp only [hs, ho, Phase.sentIn, Phase.takenIn, Phase.OnTurn] at h1 h2 h3 h4 h5 h6
      omega
    | leaving => exact absurd ho (hg.stays s.other)
    | ended =>
      have hverdict := (hg.verdict s.other).ended ho
      rw [Side.other_other, hs] at hverdict
      rcases hverdict with ⟨-, -, h, -⟩ | ⟨-, -, h, -⟩
      · simp at h
      · exact absurd h hboats

theorem Tied.expects_of_blocked (hg : g.Tied) (hs : (g.party s).phase = .defend)
    (hnone : g.next s = none) : g.Expects s.other [] := by
  obtain ⟨h1, h2, h3, h4, h5, h6, h7, h8, h9⟩ := hg.counts s
  have hread : (g.sent s.other).length ≤ g.taken s := List.getElem?_eq_none_iff.mp hnone
  cases ho : (g.party s.other).phase with
  | attack =>
    simp only [hs, ho, Phase.sentIn, Phase.takenIn, Phase.OnTurn] at h1 h2 h3 h4 h5 h6
    refine .turn (Or.inl ho) (Net.unread_of_length ?_) (by simp)
    rw [Side.other_other]
    omega
  | await =>
    simp only [hs, ho, Phase.sentIn, Phase.takenIn, Phase.OnTurn] at h1 h2 h3 h4 h5 h6
    omega
  | defend => exact absurd ⟨hs, ho⟩ hg.not_both.2
  | reply =>
    have hawait := (hg.reply_awaited ho).1
    rw [Side.other_other, hs] at hawait
    simp at hawait
  | leaving => exact absurd ho (hg.stays s.other)
  | ended => exact absurd ho (hg.other_running (by simp [hs]) (by simp [hs]))

end Game

end SyeLabs.Battleship
