import SyeLabs.Battleship.Fair

/-!
# At most one winner

Whatever signals and failures there are, a player that reads a byte while its
opponent still plays leaves nothing of its own for that opponent to read.
-/

namespace SyeLabs.Battleship
open Duplex

/- Unread messages of two players, by their phases. -/
def Flow : Phase → Phase → ℕ → ℕ → Prop
  | .leaving, _, _, _ | .ended, _, _, _ | _, .leaving, _, _ | _, .ended, _, _ => True
  | .attack, .defend, x, y | .defend, .attack, x, y => x = 0 ∧ y = 0
  | .await, .reply, x, y | .reply, .await, x, y => x = 0 ∧ y = 0
  | .await, .defend, x, y | .attack, .await, x, y => x ≤ 1 ∧ y = 0
  | .defend, .await, x, y | .await, .attack, x, y => x = 0 ∧ y ≤ 1
  | .await, .await, x, y => x = 0 ∧ y ≤ 2 ∨ x ≤ 2 ∧ y = 0
  | _, _, _, _ => False

theorem Flow.comm {a b : Phase} {x y : ℕ} (h : Flow a b x y) : Flow b a y x := by
  cases a <;> cases b <;> simp only [Flow] at h ⊢ <;> omega

namespace Game

structure Contest (g : Game) : Prop where
  wellFormed : g.WellFormed
  flow : ∀ s, Flow (g.party s).phase (g.party s.other).phase (g.inFlight s) (g.inFlight s.other)
  data : ∀ s, (g.party s).phase = .reply → (g.party s).data ≠ FORFEIT
  forfeit : ∀ s m, m ∈ g.sent s → m.byte = FORFEIT → ¬ (g.party s).playing ∧ ¬ (g.party s).Won
  won : ∀ s, (g.party s).Won → (g.party s).phase = .ended ∧ ¬ (g.party s.other).Won ∧
    ((g.party s.other).playing → g.inFlight s = 0)

variable {g g' : Game} {s : Side}

theorem contest_start (board : Side → Board) (errno : Side → ℕ) : (start board errno).Contest := by
  refine ⟨wellFormed_start board errno, ?_, fun s hs => ?_, fun s m hm => ?_, fun s hs => ?_⟩
  · refine Side.forall_of server ?_ (Flow.comm ?_) <;> exact ⟨rfl, rfl⟩
  · rcases Player.phase_of_head (p := (start board errno).party s) rfl with h | h <;>
      simp [h] at hs
  · simp [start] at hm
  · simp [start, Player.start, Player.Won] at hs

theorem Contest.flow_turn (hg : g.Contest) {a : Act} (hturn : Turn g s a g') :
    Flow (g'.party s).phase (g'.party s.other).phase (g'.inFlight s) (g'.inFlight s.other) := by
  have hflow := hg.flow s
  have haimed := hg.wellFormed.aimed s
  cases hturn with
  | idle same phase => simpa [phase, Net.inFlight] using hflow
  | leave same cause src dst withdraws =>
    cases withdraws <;> simp [dst, Flow]
  | abort status same cause src dst withdraws =>
    cases withdraws <;> simp [Player.phase_of_ended dst, Flow]
  | shoot c src usrInput free same dst =>
    rw [Net.send_party, Net.send_party_other, hg.wellFormed.causal.inFlight_send,
      Net.inFlight_send_other, dst]
    rw [src] at hflow
    cases ho : (g.party s.other).phase <;> simp only [ho, Flow] at hflow ⊢ <;> omega
  | @answered p' m c next src usrInput free noForfeit done =>
    have hpos := Net.inFlight_other_pos next
    rw [Net.consume_party, Net.consume_party_other, Net.inFlight_consume,
      Net.inFlight_consume_other]
    by_cases hover : p'.advBoats = 0
    · simp [Player.phase_of_ended (done.ends hover).1, Flow]
    · rw [done.defends (haimed.odd (Or.inr src)) hover]
      rw [src] at hflow
      cases ho : (g.party s.other).phase <;> simp only [ho, Flow] at hflow ⊢ <;> omega
  | @attacked p' m c next src byte done =>
    have hpos := Net.inFlight_other_pos next
    have hphase : p'.phase = .reply := by simp [Player.phase, done.pc]
    rw [Net.consume_party, Net.consume_party_other, Net.inFlight_consume,
      Net.inFlight_consume_other, hphase]
    rw [src] at hflow
    cases ho : (g.party s.other).phase <;> simp only [ho, Flow] at hflow ⊢ <;> omega
  | overrun m next src noForfeit wild same dst => simp [Player.phase, dst, Flow]
  | triumph m next src byte same dst => simp [Player.phase_of_ended dst, Flow]
  | @reply p' src done =>
    rw [Net.send_party, Net.send_party_other, hg.wellFormed.causal.inFlight_send,
      Net.inFlight_send_other]
    by_cases hover : (g.party s).userBoats = 0
    · simp [Player.phase_of_ended (done.ends hover).1, Flow]
    · rw [done.attacks (haimed.even (Or.inr src)) hover]
      rw [src] at hflow
      cases ho : (g.party s.other).phase <;> simp only [ho, Flow] at hflow ⊢
      omega
  | @replyFailed p' e k pc last done =>
    have src : (g.party s).phase = .reply := by simp [Player.phase, pc]
    rw [Net.move_party, Net.move_party_other, Net.inFlight_move, Net.inFlight_move]
    by_cases hover : (g.party s).userBoats = 0
    · simp [Player.phase_of_ended (done.ends hover).1, Flow]
    · rw [done.attacks (haimed.even (Or.inr src)) hover]
      rw [src] at hflow
      cases ho : (g.party s.other).phase <;> simp only [ho, Flow] at hflow ⊢
      omega
  | resign src same dst won lost post =>
    rcases post with rfl | rfl <;> simp [Player.phase_of_ended dst, Flow]

theorem won_turn {a : Act} (hturn : Turn g s a g') (hwon : (g'.party s).Won) :
    (g.party s).Won ∨ (g'.party s).phase = .ended ∧ (∃ p', g' = g.consume s p') ∧
      ∃ m, g.next s = some m ∧ (m.byte = FORFEIT ∨ (g.party s).phase = .await) ∧
        (g.party s).playing := by
  cases hturn with
  | idle same => exact Or.inl (same.won.mp (by simpa using hwon))
  | leave same _ _ _ withdraws =>
    cases withdraws <;> exact Or.inl (same.won.mp (by simpa using hwon))
  | abort _ same _ _ _ withdraws =>
    cases withdraws <;> exact Or.inl (same.won.mp (by simpa using hwon))
  | shoot _ _ _ _ same => exact Or.inl (same.won.mp (by simpa using hwon))
  | @answered p' m c next src usrInput free noForfeit done =>
    by_cases hover : p'.advBoats = 0
    · refine Or.inr ⟨?_, ⟨p', rfl⟩, m, next, Or.inr src, by simp [Player.playing, src]⟩
      simpa using Player.phase_of_ended (done.ends hover).1
    · exact Or.inl ((done.goes hover).2.1.mp (by simpa using hwon))
  | attacked _ _ _ _ _ done => exact Or.inl (done.won.mp (by simpa using hwon))
  | overrun _ _ _ _ _ same => exact Or.inl (same.won.mp (by simpa using hwon))
  | @triumph p' m next src byte same dst =>
    refine Or.inr ⟨by simpa using Player.phase_of_ended dst, ⟨p', rfl⟩, m, next, Or.inl byte, ?_⟩
    rcases src with src | src <;> simp [Player.playing, src]
  | reply _ done => exact Or.inl (done.won.mp (by simpa using hwon))
  | replyFailed _ _ _ _ done => exact Or.inl (done.won.mp (by simpa using hwon))
  | resign _ _ _ won _ post =>
    rcases post with rfl | rfl <;> exact Or.inl (won.mp (by simpa using hwon))

theorem running_of_turn {a : Act} (hturn : Turn g s a g') : (g.party s).phase ≠ .ended := by
  cases hturn with
  | idle _ _ running => exact running
  | leave _ _ src => rcases src with src | src <;> simp [src]
  | abort _ _ _ src => exact src
  | shoot _ src => simp [src]
  | answered _ _ _ src => simp [src]
  | attacked _ _ _ src => simp [src]
  | overrun _ _ src => simp [src]
  | triumph _ _ src => rcases src with src | src <;> simp [src]
  | reply src => simp [src]
  | replyFailed _ _ pc => simp [Player.phase, pc]
  | resign src => simp [src]

theorem forfeit_turn {a : Act} (hdata : (g.party s).phase = .reply → (g.party s).data ≠ FORFEIT)
    (hturn : Turn g s a g') {m : Message} (hm : m ∈ g'.sent s) (hbyte : m.byte = FORFEIT) :
    m ∈ g.sent s ∨ ¬ (g'.party s).playing ∧ ((g'.party s).Won ↔ (g.party s).Won) := by
  cases hturn with
  | idle => exact Or.inl hm
  | leave _ _ _ _ withdraws => cases withdraws <;> exact Or.inl hm
  | abort _ _ _ _ _ withdraws => cases withdraws <;> exact Or.inl hm
  | shoot c =>
    rw [Net.send_sent, List.mem_append, List.mem_singleton] at hm
    rcases hm with hm | rfl
    · exact Or.inl hm
    · exact absurd hbyte (cellByte_ne_forfeit c)
  | answered => exact Or.inl hm
  | attacked => exact Or.inl hm
  | overrun => exact Or.inl hm
  | triumph => exact Or.inl hm
  | reply src =>
    rw [Net.send_sent, List.mem_append, List.mem_singleton] at hm
    rcases hm with hm | rfl
    · exact Or.inl hm
    · exact absurd hbyte (hdata src)
  | replyFailed => exact Or.inl hm
  | resign _ _ dst won _ post =>
    have hp' := Player.not_playing_of_ended dst
    rcases post with rfl | rfl
    · exact Or.inr ⟨by simpa using hp', by simpa using won⟩
    · exact Or.inl hm

theorem unread_turn {a : Act} (hturn : Turn g s a g') :
    g'.inFlight s.other ≤ g.inFlight s.other := by
  obtain ⟨-, hsent, -⟩ := turn_frame hturn
  have htaken : g.taken s ≤ g'.taken s := by
    cases hturn with
    | leave _ _ _ _ withdraws => cases withdraws <;> simp
    | abort _ _ _ _ _ withdraws => cases withdraws <;> simp
    | resign _ _ _ _ _ post => rcases post with rfl | rfl <;> simp
    | _ => simp
  rw [Net.inFlight, Net.inFlight, hsent, Side.other_other]
  omega

theorem data_turn {a : Act} (hdata : (g.party s).phase = .reply → (g.party s).data ≠ FORFEIT)
    (hturn : Turn g s a g') (hreply : (g'.party s).phase = .reply) :
    (g'.party s).data ≠ FORFEIT := by
  cases hturn with
  | @idle _ p' same phase running usrInput data =>
    rw [Net.move_party] at hreply ⊢
    have hsrc := phase.symm.trans hreply
    rw [data hsrc]
    exact hdata hsrc
  | leave _ _ _ dst withdraws => cases withdraws <;> simp [dst] at hreply
  | abort _ _ _ _ dst withdraws =>
    cases withdraws <;> simp [Player.phase_of_ended dst] at hreply
  | shoot _ _ _ _ _ dst => simp [dst] at hreply
  | @answered p' m c next src usrInput free noForfeit done =>
    rw [Net.consume_party] at hreply
    rcases done.phases with h | h | h <;> simp [h] at hreply
  | attacked m c next src byte done =>
    rw [Net.consume_party, done.data]
    split_ifs <;> decide
  | overrun _ _ _ _ _ _ dst => simp [Player.phase, dst] at hreply
  | triumph _ _ _ _ _ dst => simp [Player.phase_of_ended dst] at hreply
  | @reply p' src done =>
    rw [Net.send_party] at hreply
    rcases done.phases with h | h | h <;> simp [h] at hreply
  | @replyFailed p' e k pc last done =>
    rw [Net.move_party] at hreply
    rcases done.phases with h | h | h <;> simp [h] at hreply
  | resign _ _ dst _ _ post =>
    rcases post with rfl | rfl <;> simp [Player.phase_of_ended dst] at hreply

theorem Contest.wins (hg : g.Contest) {a : Act} (hturn : Turn g s a g')
    (hnew : ¬ (g.party s).Won) (hwon : (g'.party s).Won) :
    (g'.party s).phase = .ended ∧ ¬ (g.party s.other).Won ∧
      ((g.party s.other).playing → g'.inFlight s = 0) := by
  obtain hold | ⟨hended, ⟨p', rfl⟩, m, hm, hwhy, hplaying⟩ := won_turn hturn hwon
  · exact absurd hold hnew
  have hpos := Net.inFlight_other_pos hm
  refine ⟨hended, fun hother => ?_, fun hother => ?_⟩
  -- had the opponent won, it would have left nothing to read
  · have := (hg.won s.other hother).2.2
    rw [Side.other_other] at this
    have := this hplaying
    omega
  · rw [Net.inFlight_consume]
    rcases hwhy with hbyte | hawait
    · exact absurd hother (hg.forfeit s.other m (Net.next_eq_some hm).2 hbyte).1
    · have hflow := hg.flow s
      rw [hawait] at hflow
      cases ho : (g.party s.other).phase <;> simp only [ho, Flow] at hflow <;>
        first | omega | simp [Player.playing, ho] at hother

theorem stopped_turn {a : Act} (h : ¬ (g.party s).playing) (hturn : Turn g s a g') :
    ¬ (g'.party s).playing := by
  cases hturn with
  | idle same phase => simpa [Player.playing, phase] using h
  | leave same _ src dst withdraws => cases withdraws <;> simp [Player.playing, dst]
  | abort status same _ src dst withdraws =>
    cases withdraws <;> simpa using Player.not_playing_of_ended dst
  | shoot _ src => exact absurd (by simp [Player.playing, src]) h
  | answered _ _ _ src => exact absurd (by simp [Player.playing, src]) h
  | attacked _ _ _ src => exact absurd (by simp [Player.playing, src]) h
  | overrun _ _ src => exact absurd (by simp [Player.playing, src]) h
  | triumph _ _ src _ _ dst => simpa using Player.not_playing_of_ended dst
  | reply src => exact absurd (by simp [Player.playing, src]) h
  | replyFailed _ _ pc => exact absurd (by simp [Player.playing, Player.phase, pc]) h
  | resign _ _ dst _ _ post =>
    rcases post with rfl | rfl <;> simpa using Player.not_playing_of_ended dst

theorem contest_step (hg : g.Contest) {e : Side × Act} (hstep : g.step e = some g') :
    g'.Contest := by
  obtain ⟨s, a⟩ := e
  obtain ⟨hturn, hwell⟩ : Turn g s a g' ∧ g'.WellFormed := hg.wellFormed.step hstep
  obtain ⟨hparty, hsent, htaken⟩ := turn_frame hturn
  have hflow := hg.flow_turn hturn
  have hold : ¬ (g.party s).Won := fun h => running_of_turn hturn (hg.won s h).1
  refine ⟨hwell, Side.forall_of s hflow ?_, Side.forall_of s (data_turn (hg.data s) hturn) ?_,
    Side.forall_of s (fun m hm hbyte => ?_) ?_, Side.forall_of s (fun hwon => ?_) fun hwon => ?_⟩
  · rw [Side.other_other]
    exact hflow.comm
  · rw [hparty]
    exact hg.data s.other
  · rcases forfeit_turn (hg.data s) hturn hm hbyte with hm | ⟨hstop, hwon⟩
    · have hstopped := (hg.forfeit s m hm hbyte).1
      refine ⟨stopped_turn hstopped hturn, fun hwon => ?_⟩
      obtain h | ⟨-, -, m', -, -, hplaying⟩ := won_turn hturn hwon
      · exact hold h
      · exact hstopped hplaying
    · exact ⟨hstop, fun h => hold (hwon.mp h)⟩
  · rw [hparty, hsent]
    exact hg.forfeit s.other
  · rw [hparty]
    exact hg.wins hturn hold hwon
  · rw [hparty] at hwon ⊢
    rw [Side.other_other]
    obtain ⟨hended, -, hread⟩ := hg.won s.other hwon
    rw [Side.other_other] at hread
    refine ⟨hended, fun hself => ?_, fun hplaying => ?_⟩
    · exact (hg.wins hturn hold hself).2.1 hwon
    · have hbefore : (g.party s).playing := by
        by_contra hstopped
        exact stopped_turn hstopped hturn hplaying
      have := unread_turn hturn
      have := hread hbefore
      omega

theorem not_both_won {board : Side → Board} {errno : Side → ℕ} {es : List (Side × Act)}
    (hrun : Run.exec Game.step (start board errno) es = some g) :
    ¬ ((g.party server).Won ∧ (g.party client).Won) := by
  have hg : g.Contest := Run.exec_invariant_of_step
    (fun _ _ _ hg hstep => contest_step hg hstep) (contest_start board errno) hrun
  rintro ⟨hserver, hclient⟩
  exact (hg.won server hserver).2.1 hclient

end Game

end SyeLabs.Battleship
