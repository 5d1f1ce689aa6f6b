import SyeLabs.Battleship.Quitting

/-!
# A forfeit and the shot in progress

Where the loop does not heed the signal the game goes on until the player is back
at the loop condition. It is over by then if the shot in progress sinks the last
boat of its target.
-/

namespace SyeLabs.Battleship
open Duplex

namespace Player

/- The shot at `c` is chosen and not sent. -/
def Aims (p : Player) (c : Cell) : Prop :=
  p.advGrid c = .default ∧ ((∃ h, p.pc = .clearBuffer h ∧ BitVec.ofInt 8 h = cellByte c) ∨
    ∃ k, p.pc = .send .shot k ∧ p.data = cellByte c)

variable {p p' : Player} {a : Act}

theorem Aims.phase {c : Cell} (h : p.Aims c) : p.phase = .attack := by
  rcases h with ⟨-, ⟨x, h, -⟩ | ⟨k, h, -⟩⟩ <;> simp [Player.phase, h]

theorem aims_step {c : Cell} (h : p.Aims c) (ha : a.Undisturbed ∨ a.Signal)
    (hstep : p.step a = some p') : a.Silent ∧ p.SameGame p' ∧ p'.Aims c ∨
      a = .sendOk ∧ ∃ k, p.pc = .send .shot k ∧ p.data = cellByte c := by
  obtain ⟨hfree, hpc⟩ := h
  have hchosen : ∀ x, BitVec.ofInt 8 x = cellByte c → x ≠ -1 := by
    rintro x hx rfl
    have := congrArg BitVec.toNat hx
    have hc : c.val < 16 := c.isLt
    simp [cellByte] at this
    omega
  have hclear : ∀ {q : Player} {x d : ℤ}, p.SameGame q → q.pc = .clearBuffer x →
      BitVec.ofInt 8 x = cellByte c → p.SameGame (q.clearBuffer x d) ∧ (q.clearBuffer x d).Aims c := by
    intro q x d hsame hq hx
    have hqfree : q.advGrid c = .default := by rw [hsame.advGrid, hfree]
    unfold clearBuffer
    split_ifs
    · exact ⟨hsame, hqfree, Or.inl ⟨x, hq, hx⟩⟩
    · rw [bufferCleared, if_pos (hchosen x hx), hx, afterPrompt_free hqfree]
      exact ⟨hsame.trans (sameGame_of_out rfl (.of_frame rfl)), hqfree,
        Or.inr ⟨0, rfl, rfl⟩⟩
  cases a with
  | sigtstp =>
    obtain rfl := step_sigtstp_eq hstep
    exact Or.inl ⟨⟨by simp, by simp⟩, sameGame_of_out rfl (.of_frame rfl), hfree, hpc⟩
  | input d =>
    rcases hpc with ⟨x, hpc, hx⟩ | ⟨k, hpc, hk⟩ <;>
      simp only [step, hpc, Option.some.injEq, reduceCtorEq] at hstep
    subst hstep
    exact Or.inl ⟨⟨by simp, by simp⟩, hclear (SameGame.refl p) hpc hx⟩
  | interrupt =>
    rcases hpc with ⟨x, hpc, hx⟩ | ⟨k, hpc, hk⟩ <;>
      simp only [step, quitGame, hpc, Option.some.injEq, reduceCtorEq] at hstep
    subst hstep
    exact Or.inl ⟨⟨by simp, by simp⟩,
      hclear (sameGame_of_out rfl (.of_frame rfl)) (by simp) hx⟩
  | sendOk =>
    rcases hpc with ⟨x, hpc, hx⟩ | ⟨k, hpc, hk⟩
    · simp [step, hpc] at hstep
    · exact Or.inr ⟨rfl, k, hpc, hk⟩
  | tau => rcases hpc with ⟨x, hpc, -⟩ | ⟨k, hpc, -⟩ <;> simp [step, hpc] at hstep
  | sendErr e => simp [Act.Undisturbed, Act.Calm, Act.Signal] at ha
  | sigpipe => simp [Act.Undisturbed, Act.Calm, Act.Signal] at ha
  | recv r => rcases hpc with ⟨x, hpc, -⟩ | ⟨k, hpc, -⟩ <;> simp [step, hpc] at hstep

end Player

namespace Game

def LastBoat (g : Game) (s : Side) (c : Cell) : Prop :=
  (g.party s).userGrid c = .boat ∧ (g.party s).userBoats = 1

/-- The shot in progress at a signal to `s`, chosen by `s` or being read by it,
sinks the last boat of its target. -/
def ShotDecides (g : Game) (s : Side) : Prop := match (g.party s).pc with
  | .clearBuffer _ | .send .shot _ => ∃ c, (g.party s).Aims c ∧ g.LastBoat s.other c
  | .recvResult => (g.party s.other).userBoats = 0 ∨
      ∃ c, (g.party s).usrInput = cellByte c ∧ g.LastBoat s.other c
  | .recvShot => ∃ c, g.next s = some ⟨.shot, cellByte c⟩ ∧ g.LastBoat s c
  | .send .result _ => (g.party s).userBoats = 0
  | _ => False

/-- The shot ends the game: the opponent of `s` does not fail, and the loser is the
one without boats. -/
structure SettledByShot (g : Game) (s : Side) : Prop where
  ends : ∀ status, (g.party s.other).pc = .ended status → status = .success
  loses : (∀ t, (g.party t).closed) → ∃ t, (g.party t).Lost ∧ (g.party t).userBoats = 0

variable {g g' : Game} {s : Side} {a : Act} {c : Cell}

theorem LastBoat.same (h : g.LastBoat s c)
    (hgrid : (g'.party s).userGrid = (g.party s).userGrid)
    (hboats : (g'.party s).userBoats = (g.party s).userBoats) : g'.LastBoat s c :=
  ⟨by rw [hgrid, h.1], by rw [hboats, h.2]⟩

theorem LastBoat.attacked {p' : Player} (h : g.LastBoat s c) (hdone : Attacked (g.party s) c p') :
    p'.userBoats = 0 := by
  rw [hdone.userBoats, if_pos h.1, h.2, sub_self]

theorem pc_of_reply {p : Player} (h : p.phase = .reply) : ∃ k, p.pc = .send .result k := by
  rw [Player.phase] at h
  split at h
  · split_ifs at h
  all_goals first | exact ⟨_, ‹_›⟩ | simp at h

theorem last_reply {p p' : Player} (haimed : p.Aimed) (hphase : p.phase = .reply)
    (hboats : p.userBoats = 0) (ha : a.Undisturbed) (hstep : p.step a = some p') :
    a = .sendOk ∧ Replied p p' ∧ p'.pc = .ended .success ∧ p'.Lost ∧ p'.userBoats = 0 := by
  obtain ⟨k, hpc⟩ := pc_of_reply hphase
  have hsend : a = .sendOk := by
    rcases ha with ha | rfl
    · cases a with
      | sendOk => rfl
      | tau => simp [Player.step, hpc] at hstep
      | input d => simp [Player.step, hpc] at hstep
      | recv r => simp [Player.step, hpc] at hstep
      | sigtstp => exact absurd ha id
      | interrupt => exact absurd ha id
      | sendErr e => exact absurd ha id
      | sigpipe => exact absurd ha id
    · simp [Player.step, hpc] at hstep
  subst hsend
  have hmove := (Player.step_move haimed hstep).1
  cases hmove with
  | idle silent => exact absurd rfl silent.1
  | leave quiet => exact absurd rfl quiet
  | abort status quiet => exact absurd rfl quiet
  | shoot d j src => simp [hphase] at src
  | reply j pc done =>
    obtain ⟨hend, hlost, -⟩ := done.ends hboats
    exact ⟨rfl, done, hend, hlost, done.userBoats.trans hboats⟩
  | resign j how pc => simp [hpc] at pc

/-! ### The player's own shot -/

inductive SinkStage (g : Game) (s : Side) : Prop where
  | aiming (c : Cell) (tied : g.Tied) (aims : (g.party s).Aims c) (target : g.LastBoat s.other c)
  | coming (c : Cell) (F : List Message) (expects : g.Expects s.other (⟨.shot, cellByte c⟩ :: F))
      (target : g.LastBoat s.other c)
  | sunk (phase : (g.party s.other).phase = .reply) (boats : (g.party s.other).userBoats = 0)
  | lost (ended : (g.party s.other).pc = .ended .success) (lost : (g.party s.other).Lost)
      (boats : (g.party s.other).userBoats = 0)

/-- The shot of `s` is going to sink the last boat of its opponent. -/
structure Sinks (g : Game) (s : Side) : Prop extends g.Watched s where
  stage : g.SinkStage s

theorem Sinks.settled (h : g.Sinks s) : g.SettledByShot s := by
  cases h.stage with
  | aiming c tied aims =>
    refine ⟨fun status hend => ?_, fun hclosed => ?_⟩
    · have hrun := tied.other_running (s := s) (by simp [aims.phase]) (by simp [aims.phase])
      exact absurd (Player.phase_of_ended hend) hrun
    · have hself := hclosed s
      rcases aims.2 with ⟨x, hpc, -⟩ | ⟨k, hpc, -⟩ <;> simp [Player.closed_iff, hpc] at hself
  | coming c F expects =>
    refine ⟨fun status hend => absurd hend expects.not_ended, fun hclosed => ?_⟩
    obtain ⟨status, hend⟩ := Player.closed_iff.mp (hclosed s.other)
    exact absurd hend expects.not_ended
  | sunk phase boats =>
    obtain ⟨k, hpc⟩ := pc_of_reply phase
    refine ⟨fun status hend => by simp [hpc] at hend, fun hclosed => ?_⟩
    have hother := hclosed s.other
    simp [Player.closed_iff, hpc] at hother
  | lost ended lost boats =>
    refine ⟨fun status hend => ?_, fun _ => ⟨s.other, lost, boats⟩⟩
    rw [ended] at hend
    exact (Pc.ended.inj hend).symm

theorem Sinks.own (h : g.Sinks s) (ha : a.Undisturbed ∨ a.Signal)
    (hstep : g.step (s, a) = some g') : g'.Sinks s := by
  obtain ⟨hturn, -⟩ : Turn g s a g' ∧ g'.WellFormed := h.wellFormed.step hstep
  obtain ⟨hparty, -⟩ := turn_frame hturn
  refine ⟨h.toWatched.own hstep, ?_⟩
  cases h.stage with
  | aiming c tied aims target =>
    have htarget : g'.LastBoat s.other c := target.same (by rw [hparty]) (by rw [hparty])
    obtain ⟨-, p', hp', hpost⟩ := step_some hstep
    rcases Player.aims_step aims ha hp' with ⟨hsilent, hsame, haims⟩ | ⟨rfl, k, hpc, hdata⟩
    · obtain ⟨-, q, hq, rfl⟩ := silent_step hsilent hstep
      obtain rfl : p' = q := Option.some.inj (hp'.symm.trans hq)
      exact .aiming c (tied.attacker_step aims.phase hstep hsame haims.phase) (by simpa using haims)
        htarget
    · cases hpost with
      | silent hsilent => exact absurd rfl hsilent.1
      | send what k' hpc' =>
        obtain ⟨rfl, -⟩ : Sending.shot = what ∧ k = k' := by simpa [hpc] using hpc'
        have hbyte : (g.party s).sendByte .shot = cellByte c := hdata
        rw [hbyte] at hparty htarget ⊢
        exact .coming c [] (tied.expects_of_attack aims.phase hparty _
          h.wellFormed.causal.unread_send_other) htarget
  | coming c F expects target =>
    obtain ⟨ms, hms⟩ := turn_appends h.wellFormed hturn
    refine .coming c (F ++ ms) ?_ (target.same (by rw [hparty]) (by rw [hparty]))
    exact expects.append ms (Or.inr ⟨_, List.mem_cons_self, cellByte_ne_forfeit c⟩) (by rw [hparty])
      (by rw [hparty]) hms
  | sunk phase boats => exact .sunk (by rwa [hparty]) (by rwa [hparty])
  | lost ended lost boats => exact .lost (by rwa [hparty]) (by rwa [hparty]) (by rwa [hparty])

theorem Sinks.opponent (h : g.Sinks s) (ha : a.Undisturbed)
    (hstep : g.step (s.other, a) = some g') : g'.Sinks s := by
  obtain ⟨hparty, -⟩ := opponent_frame h.wellFormed hstep
  obtain ⟨hturn, -⟩ : Turn g s.other a g' ∧ g'.WellFormed := h.wellFormed.step hstep
  cases h.stage with
  | aiming c tied aims target =>
    obtain ⟨-, htied, hself⟩ := tied.step h.undisturbed ha hstep
    refine ⟨⟨htied.wellFormed, hself⟩, .aiming c htied (by rwa [hparty]) ?_⟩
    have hexpects : g.Expects s.other [] :=
      tied.expects_of_attack aims.phase rfl [] (by simp)
    have hopen : ¬ (g.party s.other.other).closed := by
      rw [Side.other_other]
      rcases aims.2 with ⟨x, hpc, -⟩ | ⟨k, hpc, -⟩ <;> simp [Player.closed_iff, hpc]
    have hcalm := hexpects.calm (fun _ => hopen) ha hstep
    -- nothing is left to read, so the target cannot have been shot at meanwhile
    rcases hexpects.turn_of h.wellFormed h.undisturbed hcalm (by simp) hturn with
      ⟨-, hgrid, hboats⟩ | ⟨m, hm, -⟩
    · exact target.same hgrid hboats
    · simp at hm
  | coming c F expects target =>
    have hcalm := expects.calm (by simp) ha hstep
    refine ⟨h.toWatched.opponent hcalm hstep, ?_⟩
    rcases expects.turn_of h.wellFormed h.undisturbed hcalm (by simp) hturn with
      ⟨hexpects, hgrid, hboats⟩ | ⟨m, hm, hread⟩
    · exact .coming c F hexpects (target.same hgrid hboats)
    · obtain rfl : (⟨.shot, cellByte c⟩ : Message) = m := by simpa using hm
      cases hread with
      | forfeit byte => exact absurd byte (cellByte_ne_forfeit c)
      | shot d byte done =>
        obtain rfl := cellByte_inj byte
        exact .sunk (by simp [Player.phase, done.pc]) (by simpa using target.attacked done)
  | sunk phase boats =>
    obtain ⟨-, p', hp', hpost⟩ := step_some hstep
    obtain ⟨rfl, -, hend, hlost, hboats⟩ :=
      last_reply (h.wellFormed.aimed s.other) phase boats ha hp'
    have hcalm : Act.Calm .sendOk := trivial
    refine ⟨h.toWatched.opponent hcalm hstep, ?_⟩
    exact .lost (by rwa [posts_party hpost]) (by rwa [posts_party hpost])
      (by rwa [posts_party hpost])
  | lost ended => exact absurd (Player.phase_of_ended ended) (running_of_turn hturn)

theorem Sinks.step (h : g.Sinks s) {e : Side × Act} (he : OnlySignals s e)
    (hstep : g.step e = some g') : g'.Sinks s := by
  obtain ⟨t, a⟩ := e
  rcases s.eq_or_other t with rfl | rfl
  · exact h.own (he.imp id And.right) hstep
  · exact h.opponent (opponent_undisturbed he rfl) hstep

/-! ### The opponent's shot -/

theorem success_of_turn (hturn : FairTurn g s g') {status : Exit}
    (hend : (g'.party s).pc = .ended status) : status = .success := by
  have hphase := Player.phase_of_ended hend
  cases hturn with
  | idle same phase running =>
    rw [Net.move_party, phase] at hphase
    exact absurd hphase running
  | shoot c src usrInput free same dst => simp [dst] at hphase
  | @answered p' c r src next pending done =>
    rw [Net.consume_party] at hend
    by_cases hover : p'.advBoats = 0
    · rw [(done.ends hover).1] at hend
      exact (Pc.ended.inj hend).symm
    · simp [(done.goes hover).1] at hend
  | attacked c src next awaits usrInput free agree done => simp [done.pc] at hend
  | reply src done =>
    rw [Net.send_party] at hend
    by_cases hover : (g.party s).userBoats = 0
    · rw [(done.ends hover).1] at hend
      exact (Pc.ended.inj hend).symm
    · simp [(done.goes hover).1] at hend

inductive YieldStage (g : Game) (s : Side) : Prop where
  | facing (c : Cell) (pc : (g.party s).pc = .recvShot) (errno : (g.party s).errno ≠ EINTR)
      (next : g.next s = some ⟨.shot, cellByte c⟩) (target : g.LastBoat s c)
  | sunk (phase : (g.party s).phase = .reply) (boats : (g.party s).userBoats = 0)
  | lost (lost : (g.party s).Lost) (boats : (g.party s).userBoats = 0)
      (ended : (g.party s).phase = .ended)

/-- The shot that `s` is reading sinks its own last boat. -/
structure Yields (g : Game) (s : Side) : Prop extends g.Watched s where
  tied : g.Tied
  ends : ∀ status, (g.party s.other).pc = .ended status → status = .success
  stage : g.YieldStage s

theorem Yields.settled (h : g.Yields s) : g.SettledByShot s := by
  refine ⟨h.ends, fun hclosed => ?_⟩
  have hself := hclosed s
  cases h.stage with
  | facing c pc => simp [Player.closed_iff, pc] at hself
  | sunk phase boats =>
    obtain ⟨k, hpc⟩ := pc_of_reply phase
    simp [Player.closed_iff, hpc] at hself
  | lost lost boats => exact ⟨s, lost, boats⟩

theorem shot_read {p p' : Player} {b : Byte} (hpc : p.pc = .recvShot) (herrno : p.errno ≠ EINTR)
    (hbyte : b = cellByte c) (hstep : p.step (.recv (.byte b)) = some p') : Attacked p c p' := by
  subst hbyte
  simp only [Player.step, hpc, Option.some.injEq] at hstep
  rw [Player.socketRecv_byte, Player.shotReceived, if_neg (by simpa using herrno)] at hstep
  exact hstep ▸ Player.afterShot_received p c

theorem facing_step (hg : g.Tied) (hpc : (g.party s).pc = .recvShot)
    (herrno : (g.party s).errno ≠ EINTR) (hnext : g.next s = some ⟨.shot, cellByte c⟩)
    (ha : a.Undisturbed ∨ a.Signal) (hstep : g.step (s, a) = some g') :
    a = .sigtstp ∧ g' = g.move s (g.party s).quitGame ∨
      ∃ p', Attacked (g.party s) c p' ∧ g' = g.consume s p' := by
  obtain ⟨hallowed, p', hp', hpost⟩ := step_some hstep
  cases a with
  | sigtstp =>
    obtain ⟨-, q, hq, rfl⟩ := silent_step ⟨by simp, by simp⟩ hstep
    exact Or.inl ⟨rfl, by rw [Player.step_sigtstp_eq hq]⟩
  | interrupt =>
    -- a call of `recv` that has a byte to return does not block
    have hnone := (hallowed (Or.inr hpc)).1
    simp [hnext] at hnone
  | recv r =>
    cases r with
    | byte b =>
      obtain ⟨m, hm, hb⟩ := Option.map_eq_some_iff.mp hallowed
      obtain rfl : (⟨.shot, cellByte c⟩ : Message) = m := Option.some.inj (hnext.symm.trans hm)
      refine Or.inr ⟨p', shot_read hpc herrno hb.symm hp', ?_⟩
      cases hpost with
      | consume => rfl
      | silent hsilent => exact absurd rfl (hsilent.2 b)
    | closed => exact absurd hstep hg.not_closed
    | error e => simp [Act.Undisturbed, Act.Calm, Act.Signal] at ha
  | tau => simp [Player.step, hpc] at hp'
  | input d => simp [Player.step, hpc] at hp'
  | sendOk => simp [Player.step, hpc] at hp'
  | sendErr e => simp [Player.step, hpc] at hp'
  | sigpipe => simp [Player.step, hpc] at hp'

theorem Tied.quitGame (hg : g.Tied) (hrun : (g.party s).phase ≠ .ended)
    (hstep : g.step (s, a) = some (g.move s (g.party s).quitGame)) :
    Tied (g.move s (g.party s).quitGame) :=
  hg.of_fairTurn hstep (.idle (Player.sameGame_of_out rfl (.of_frame rfl)) rfl hrun
    (fun _ => rfl) fun _ => rfl)

theorem Yields.own (h : g.Yields s) (ha : a.Undisturbed ∨ a.Signal)
    (hstep : g.step (s, a) = some g') : g'.Yields s := by
  have hturn := (h.wellFormed.step hstep).1
  have hends : ∀ status, (g'.party s.other).pc = .ended status → status = .success := by
    rw [(turn_frame hturn).1]
    exact h.ends
  have hrun := running_of_turn hturn
  cases h.stage with
  | facing c pc errno next target =>
    rcases facing_step h.tied pc errno next ha hstep with ⟨rfl, rfl⟩ | ⟨p', hdone, rfl⟩
    · exact ⟨h.toWatched.own hstep, h.tied.quitGame hrun hstep, hends,
        .facing c (by simpa [Player.quitGame] using pc) (by simpa [Player.quitGame] using errno) next
          (target.same (by simp [Player.quitGame]) (by simp [Player.quitGame]))⟩
    · have hdefend : (g.party s).phase = .defend := by simp [Player.phase, pc]
      obtain ⟨u, hu, hawait, husr, hfree, hagree⟩ := h.tied.reads_shot hdefend next
      obtain rfl : c = u := cellByte_inj (congrArg Message.byte hu)
      refine ⟨h.toWatched.own hstep,
        h.tied.of_fairTurn hstep (.attacked c hdefend next hawait husr hfree hagree hdone), hends,
        .sunk (by simp [Player.phase, hdone.pc]) (by simpa using target.attacked hdone)⟩
  | sunk phase boats =>
    obtain ⟨-, p', hp', hpost⟩ := step_some hstep
    by_cases hsig : a = .sigtstp
    · subst hsig
      obtain ⟨-, q, hq, rfl⟩ := silent_step ⟨by simp, by simp⟩ hstep
      obtain rfl := Player.step_sigtstp_eq hq
      exact ⟨h.toWatched.own hstep, h.tied.quitGame hrun hstep, hends,
        .sunk (by simpa [Player.quitGame, Player.phase] using phase)
          (by simpa [Player.quitGame] using boats)⟩
    · have hundisturbed : a.Undisturbed := by
        rcases ha with ha | ha | rfl
        · exact ha
        · exact absurd ha hsig
        · obtain ⟨k, hpc⟩ := pc_of_reply phase
          simp [Player.step, Player.quitGame, hpc] at hp'
      obtain ⟨rfl, hdone, hend, hlost, hboats⟩ :=
        last_reply (h.wellFormed.aimed s) phase boats hundisturbed hp'
      have hsend : g' = g.send s p' ⟨.result, (g.party s).data⟩ := by
        obtain ⟨k, hpc⟩ := pc_of_reply phase
        cases hpost with
        | silent hsilent => exact absurd rfl hsilent.1
        | send what k' hpc' =>
          obtain ⟨rfl, -⟩ : Sending.result = what ∧ k = k' := by simpa [hpc] using hpc'
          rfl
      subst hsend
      exact ⟨h.toWatched.own hstep, h.tied.of_fairTurn hstep (.reply phase hdone), hends,
        .lost (by simpa using hlost) (by simpa using hboats)
          (by simpa using Player.phase_of_ended hend)⟩
  | lost _ _ ended => exact absurd ended hrun

theorem Yields.opponent (h : g.Yields s) (ha : a.Undisturbed)
    (hstep : g.step (s.other, a) = some g') : g'.Yields s := by
  obtain ⟨hparty, -⟩ := opponent_frame h.wellFormed hstep
  obtain ⟨hfair, htied, hself⟩ := h.tied.step h.undisturbed ha hstep
  refine ⟨⟨htied.wellFormed, hself⟩, htied, fun status hend => success_of_turn hfair hend, ?_⟩
  cases h.stage with
  | facing c pc errno next target =>
    refine .facing c (by rwa [hparty]) (by rwa [hparty]) ?_
      (target.same (by rw [hparty]) (by rw [hparty]))
    obtain ⟨ms, hms⟩ := turn_appends h.wellFormed (h.wellFormed.step hstep).1
    rw [Side.other_other] at hms
    rw [Net.next_eq_head?] at next ⊢
    rw [hms, List.head?_append, next]
    rfl
  | sunk phase boats => exact .sunk (by rwa [hparty]) (by rwa [hparty])
  | lost lost boats ended => exact .lost (by rwa [hparty]) (by rwa [hparty]) (by rwa [hparty])

theorem Yields.step (h : g.Yields s) {e : Side × Act} (he : OnlySignals s e)
    (hstep : g.step e = some g') : g'.Yields s := by
  obtain ⟨t, a⟩ := e
  rcases s.eq_or_other t with rfl | rfl
  · exact h.own (he.imp id And.right) hstep
  · exact h.opponent (opponent_undisturbed he rfl) hstep

/-! ### Both together -/

theorem ended_of_phase {p : Player} (h : p.phase = .ended) (hbounds : p.pc ≠ .outOfBounds) :
    ∃ status, p.pc = .ended status := by
  rw [Player.phase] at h
  split at h
  · split_ifs at h
  all_goals first | exact ⟨_, ‹_›⟩ | exact absurd ‹_› hbounds | simp at h

theorem Fair.decides (hg : g.Fair)
    (hends : ∀ t status, (g.party t).pc = .ended status → status = .success) (ha : a.Signal)
    (hdecides : g.ShotDecides s) (hstep : g.step (s, a) = some g') :
    g'.Sinks s ∨ g'.Yields s := by
  have hwatched : g.Watched s := ⟨hg.wellFormed, hg.signals s.other⟩
  have haimed : ∀ c, (g.party s).Aims c ∧ g.LastBoat s.other c → g'.Sinks s := by
    rintro c ⟨haims, htarget⟩
    have hsinks : g.Sinks s := ⟨hwatched, .aiming c hg.toTied haims htarget⟩
    exact hsinks.own (Or.inr ha) hstep
  unfold ShotDecides at hdecides
  split at hdecides
  · obtain ⟨c, hc⟩ := hdecides
    exact Or.inl (haimed c hc)
  · obtain ⟨c, hc⟩ := hdecides
    exact Or.inl (haimed c hc)
  · rename_i hpc
    have hawait : (g.party s).phase = .await := by simp [Player.phase, hpc]
    refine Or.inl (Sinks.own ⟨hwatched, ?_⟩ (Or.inr ha) hstep)
    rcases hdecides with hboats | ⟨c, husr, htarget⟩
    · by_cases hended : (g.party s.other).phase = .ended
      · have hverdict := (hg.verdict s.other).ended hended
        rw [Side.other_other, hawait] at hverdict
        rcases hverdict with ⟨-, -, h, -⟩ | ⟨hlost, -⟩
        · simp at h
        · obtain ⟨status, hstatus⟩ := ended_of_phase hended (hg.inv s.other).intact.inBounds
          obtain rfl := hends s.other status hstatus
          exact .lost hstatus hlost hboats
      · by_cases hreply : (g.party s.other).phase = .reply
        · exact .sunk hreply hboats
        · exact absurd hboats (((hg.verdict s.other).open_ hended).2.2 hreply)
    · exact .coming c [] (hg.expects_shot hawait husr htarget.1 (by simp [htarget.2])) htarget
  · rename_i hpc
    obtain ⟨c, hnext, htarget⟩ := hdecides
    have hyields : g.Yields s := ⟨hwatched, hg.toTied, hends s.other,
      .facing c hpc (hg.signals s).2 hnext htarget⟩
    exact Or.inr (hyields.own (Or.inr ha) hstep)
  · rename_i k hpc
    have hyields : g.Yields s := ⟨hwatched, hg.toTied, hends s.other,
      .sunk (by simp [Player.phase, hpc]) hdecides⟩
    exact Or.inr (hyields.own (Or.inr ha) hstep)
  · exact absurd hdecides id

end Game

end SyeLabs.Battleship
