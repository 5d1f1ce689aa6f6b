import SyeLabs.Battleship.Departure

/-!
# Giving up

The loop looks at the forfeit flag behind the prompt, behind a failed wait for a
shot and in its condition. Only the first two lead to a `socketSend` of the
forfeit, so what the opponent learns depends on where SIGTSTP arrives.
-/

namespace SyeLabs.Battleship
open Duplex

/- SIGTSTP, in both of its effects. -/
def Act.Signal (a : Act) : Prop := a = .sigtstp ∨ a = .interrupt

instance (a : Act) : Decidable a.Signal := by
  unfold Act.Signal
  infer_instance

namespace Player

/-- The prompt will look at the flag before it returns. -/
def Prompting (p : Player) : Prop :=
  p.pc = .getchar ∨ (∃ h, p.pc = .flagTest h) ∨ p.pc = .clearBuffer (-1)

def Quitting (p : Player) : Prop :=
  p.forfeitFlag = true ∧ (p.pc = .recvShotFailed ∨ ∃ k, p.pc = .send .forfeit k)

/-- The signal `a` arrives where the loop heeds it. -/
def Heeds (p : Player) (a : Act) : Prop := p.Prompting ∨ a = .interrupt ∧ p.pc = .recvShot

variable {p p' : Player} {a : Act}

theorem Prompting.phase (h : p.Prompting) : p.phase = .attack := by
  rcases h with h | ⟨x, h⟩ | h <;> simp [Player.phase, h]

theorem step_sigtstp_eq (h : p.step .sigtstp = some p') : p' = p.quitGame := by
  unfold step at h
  split_ifs at h
  exact (Option.some.inj h).symm

theorem prompting_step (h : p.Prompting) (hflag : p.forfeitFlag = true ∨ a.Signal)
    (hstep : p.step a = some p') : a.Silent ∧ p.SameGame p' ∧ p'.forfeitFlag = true ∧
      (p'.Prompting ∨ p'.Quitting) := by
  have hset : ¬ a.Signal → p.forfeitFlag = true := hflag.resolve_right
  cases a with
  | sigtstp =>
    obtain rfl := step_sigtstp_eq hstep
    exact ⟨⟨by simp, by simp⟩, sameGame_of_out rfl (.of_frame rfl), rfl, Or.inl h⟩
  | tau =>
    have hflag := hset (by simp [Act.Signal])
    rcases h with hpc | ⟨x, hpc⟩ | hpc <;> simp only [step, hpc, Option.some.injEq, reduceCtorEq] at hstep
    rw [testFlag, if_pos hflag, afterPrompt_forfeit] at hstep
    subst hstep
    exact ⟨⟨by simp, by simp⟩, sameGame_of_out rfl (.of_frame rfl), hflag,
      Or.inr ⟨hflag, Or.inr ⟨0, rfl⟩⟩⟩
  | input c =>
    have hflag := hset (by simp [Act.Signal])
    rcases h with hpc | ⟨x, hpc⟩ | hpc <;>
      simp only [step, hpc, Option.some.injEq, reduceCtorEq] at hstep <;> subst hstep
    · exact ⟨⟨by simp, by simp⟩, sameGame_of_out rfl (.of_frame rfl), hflag,
        Or.inl (Or.inr (Or.inl ⟨_, rfl⟩))⟩
    · unfold clearBuffer
      split_ifs
      · exact ⟨⟨by simp, by simp⟩, SameGame.refl p, hflag, Or.inl (Or.inr (Or.inr hpc))⟩
      · exact ⟨⟨by simp, by simp⟩, sameGame_of_out rfl (.of_frame rfl), hflag,
          Or.inl (Or.inl rfl)⟩
  | interrupt =>
    rcases h with hpc | ⟨x, hpc⟩ | hpc <;>
      simp only [step, quitGame, hpc, Option.some.injEq, reduceCtorEq] at hstep <;> subst hstep
    · exact ⟨⟨by simp, by simp⟩, sameGame_of_out rfl (.of_frame rfl), rfl,
        Or.inl (Or.inr (Or.inl ⟨_, rfl⟩))⟩
    · exact ⟨⟨by simp, by simp⟩, sameGame_of_out rfl (.of_frame rfl), rfl,
        Or.inl (Or.inl rfl)⟩
  | sendOk => rcases h with hpc | ⟨x, hpc⟩ | hpc <;> simp [step, hpc] at hstep
  | sendErr e => rcases h with hpc | ⟨x, hpc⟩ | hpc <;> simp [step, hpc] at hstep
  | sigpipe => rcases h with hpc | ⟨x, hpc⟩ | hpc <;> simp [step, hpc] at hstep
  | recv r => rcases h with hpc | ⟨x, hpc⟩ | hpc <;> simp [step, hpc] at hstep

theorem quitting_step (h : p.Quitting) (ha : a.Undisturbed ∨ a.Signal)
    (hstep : p.step a = some p') : a.Silent ∧ p'.Quitting ∨
      a = .sendOk ∧ (∃ k, p.pc = .send .forfeit k) ∧ p'.pc = .ended .success := by
  obtain ⟨hflag, hpc⟩ := h
  cases a with
  | sigtstp =>
    obtain rfl := step_sigtstp_eq hstep
    exact Or.inl ⟨⟨by simp, by simp⟩, rfl, hpc⟩
  | tau =>
    rcases hpc with hpc | ⟨k, hpc⟩ <;>
      simp only [step, hpc, Option.some.injEq, reduceCtorEq] at hstep
    rw [shotFailed, if_pos hflag] at hstep
    subst hstep
    exact Or.inl ⟨⟨by simp, by simp⟩, hflag, Or.inr ⟨0, rfl⟩⟩
  | sendOk =>
    rcases hpc with hpc | ⟨k, hpc⟩ <;>
      simp only [step, hpc, Option.some.injEq, reduceCtorEq] at hstep
    subst hstep
    exact Or.inr ⟨rfl, ⟨k, hpc⟩, rfl⟩
  | input c => rcases hpc with hpc | ⟨k, hpc⟩ <;> simp [step, hpc] at hstep
  | interrupt => rcases hpc with hpc | ⟨k, hpc⟩ <;> simp [step, quitGame, hpc] at hstep
  | sendErr e => simp [Act.Undisturbed, Act.Calm, Act.Signal] at ha
  | sigpipe => simp [Act.Undisturbed, Act.Calm, Act.Signal] at ha
  | recv r => rcases hpc with hpc | ⟨k, hpc⟩ <;> simp [step, hpc] at hstep

end Player

namespace Game

def OnlySignals (s : Side) (e : Side × Act) : Prop := e.2.Undisturbed ∨ e.1 = s ∧ e.2.Signal

structure Watched (g : Game) (s : Side) : Prop where
  wellFormed : g.WellFormed
  undisturbed : (g.party s.other).Undisturbed

/-- The program of `s` announces its forfeit before it closes the socket, and its
opponent ends with nothing but that announcement. -/
structure Announced (g : Game) (s : Side) : Prop where
  sends : (g.party s).closed → ⟨.forfeit, FORFEIT⟩ ∈ g.sent s
  told : ∀ status, (g.party s.other).pc = .ended status →
    status = .success ∧ (g.party s.other).Told ∧ (g.party s.other).Won

variable {g g' : Game} {s : Side} {a : Act}

theorem silent_step (ha : a.Silent) (hstep : g.step (s, a) = some g') :
    g.Allowed s a ∧ ∃ p', (g.party s).step a = some p' ∧ g' = g.move s p' := by
  obtain ⟨hallowed, p', hp', hpost⟩ := step_some hstep
  refine ⟨hallowed, p', hp', ?_⟩
  cases hpost with
  | send => exact absurd rfl ha.1
  | consume m => exact absurd rfl (ha.2 m.byte)
  | silent => rfl

theorem Watched.own (h : g.Watched s) (hstep : g.step (s, a) = some g') : g'.Watched s := by
  obtain ⟨hturn, hwell⟩ : Turn g s a g' ∧ g'.WellFormed := h.wellFormed.step hstep
  refine ⟨hwell, ?_⟩
  rw [(turn_frame hturn).1]
  exact h.undisturbed

theorem Watched.opponent (h : g.Watched s) (ha : a.Calm) (hstep : g.step (s.other, a) = some g') :
    g'.Watched s := by
  refine ⟨(h.wellFormed.step hstep).2, ?_⟩
  obtain ⟨-, p', hp', hpost⟩ := step_some hstep
  have hsignals := Player.calm_signals ha hp'
  rw [posts_party hpost, Player.Undisturbed, hsignals.1, hsignals.2]
  exact h.undisturbed

theorem opponent_frame (hwell : g.WellFormed) (hstep : g.step (s.other, a) = some g') :
    g'.party s = g.party s ∧ g'.sent s = g.sent s := by
  have hframe := turn_frame (hwell.step hstep).1
  rw [Side.other_other] at hframe
  exact ⟨hframe.1, hframe.2.1⟩

theorem opponent_undisturbed {e : Side × Act} (he : OnlySignals s e) (hother : e.1 = s.other) :
    e.2.Undisturbed := by
  rcases he with he | ⟨hself, -⟩
  · exact he
  · exact absurd (hself.symm.trans hother) s.ne_other

theorem Tied.attacker_step (hg : g.Tied) {p' : Player} (hs : (g.party s).phase = .attack)
    (hstep : g.step (s, a) = some (g.move s p')) (hsame : (g.party s).SameGame p')
    (hphase : p'.phase = .attack) : Tied (g.move s p') := by
  refine hg.of_fairTurn hstep (.idle hsame (hphase.trans hs.symm) ?_ ?_ ?_) <;> simp [hs]

/-! ### A signal that is heeded -/

inductive QuitStage (g : Game) (s : Side) : Prop where
  | prompting (tied : g.Tied) (flag : (g.party s).forfeitFlag = true)
      (prompt : (g.party s).Prompting)
  | leaving (quitting : (g.party s).Quitting) (expects : g.Expects s.other [])
  | gone (ended : (g.party s).pc = .ended .success) (sent : ⟨.forfeit, FORFEIT⟩ ∈ g.sent s)
      (expects : g.Expects s.other [⟨.forfeit, FORFEIT⟩])
  | finished (ended : (g.party s).pc = .ended .success) (sent : ⟨.forfeit, FORFEIT⟩ ∈ g.sent s)
      (opponent : (g.party s.other).pc = .ended .success) (told : (g.party s.other).Told)
      (won : (g.party s.other).Won)

structure Quits (g : Game) (s : Side) : Prop extends g.Watched s where
  stage : g.QuitStage s

theorem Quits.announced (h : g.Quits s) : g.Announced s := by
  cases h.stage with
  | prompting tied flag prompt =>
    refine ⟨fun hclosed => ?_, fun status hend => ?_⟩
    · rcases prompt with hpc | ⟨x, hpc⟩ | hpc <;> simp [Player.closed_iff, hpc] at hclosed
    · have hrun := tied.other_running (s := s) (by simp [prompt.phase]) (by simp [prompt.phase])
      exact absurd (Player.phase_of_ended hend) hrun
  | leaving quitting expects =>
    refine ⟨fun hclosed => ?_, fun status hend => absurd hend expects.not_ended⟩
    rcases quitting.2 with hpc | ⟨k, hpc⟩ <;> simp [Player.closed_iff, hpc] at hclosed
  | gone ended sent expects =>
    exact ⟨fun _ => sent, fun status hend => absurd hend expects.not_ended⟩
  | finished ended sent opponent told won =>
    refine ⟨fun _ => sent, fun status hend => ⟨?_, told, won⟩⟩
    rw [opponent] at hend
    exact (Pc.ended.inj hend).symm

theorem Tied.prompting_step (hg : g.Tied) (h : g.Watched s) (hprompt : (g.party s).Prompting)
    (hflag : (g.party s).forfeitFlag = true ∨ a.Signal) (hstep : g.step (s, a) = some g') :
    g'.Quits s := by
  refine ⟨h.own hstep, ?_⟩
  obtain ⟨-, p', hp', hpost⟩ := step_some hstep
  obtain ⟨hsilent, hsame, hflag', hnext⟩ := Player.prompting_step hprompt hflag hp'
  obtain ⟨-, q, hq, rfl⟩ := silent_step hsilent hstep
  obtain rfl : p' = q := Option.some.inj (hp'.symm.trans hq)
  rcases hnext with hnext | hnext
  · exact .prompting (hg.attacker_step hprompt.phase hstep hsame hnext.phase) (by simpa using hflag')
      (by simpa using hnext)
  · refine .leaving (by simpa using hnext) ?_
    exact hg.expects_of_attack hprompt.phase (by simp) [] (by simp [Net.unread_move])

theorem Quits.own (h : g.Quits s) (ha : a.Undisturbed ∨ a.Signal)
    (hstep : g.step (s, a) = some g') : g'.Quits s := by
  have hrun := running_of_turn (h.wellFormed.step hstep).1
  cases h.stage with
  | prompting tied flag prompt => exact tied.prompting_step h.toWatched prompt (Or.inl flag) hstep
  | gone ended => exact absurd (Player.phase_of_ended ended) hrun
  | finished ended => exact absurd (Player.phase_of_ended ended) hrun
  | leaving quitting expects =>
    refine ⟨h.toWatched.own hstep, ?_⟩
    obtain ⟨-, p', hp', hpost⟩ := step_some hstep
    rcases Player.quitting_step quitting ha hp' with ⟨hsilent, hquit⟩ | ⟨rfl, ⟨k, hpc⟩, hend⟩
    · obtain ⟨-, q, hq, rfl⟩ := silent_step hsilent hstep
      obtain rfl : p' = q := Option.some.inj (hp'.symm.trans hq)
      exact .leaving (by simpa using hquit) (expects.same (by simp) (by simp) rfl)
    · cases hpost with
      | silent hsilent => exact absurd rfl hsilent.1
      | send what k' hpc' =>
        obtain ⟨rfl, -⟩ : Sending.forfeit = what ∧ k = k' := by simpa [hpc] using hpc'
        refine .gone (by simpa using hend) (by simp [Player.sendByte]) ?_
        exact expects.append [⟨.forfeit, FORFEIT⟩] (Or.inl (by simp)) (by simp) (by simp)
          h.wellFormed.causal.unread_send_other

theorem Quits.opponent (h : g.Quits s) (ha : a.Undisturbed)
    (hstep : g.step (s.other, a) = some g') : g'.Quits s := by
  obtain ⟨hparty, hsent⟩ := opponent_frame h.wellFormed hstep
  obtain ⟨hturn, -⟩ : Turn g s.other a g' ∧ g'.WellFormed := h.wellFormed.step hstep
  cases h.stage with
  | prompting tied flag prompt =>
    obtain ⟨-, htied, hself⟩ := tied.step h.undisturbed ha hstep
    exact ⟨⟨htied.wellFormed, hself⟩,
      .prompting htied (by rwa [hparty]) (by rwa [hparty])⟩
  | leaving quitting expects =>
    have hopen : ¬ (g.party s.other.other).closed := by
      rw [Side.other_other]
      rcases quitting.2 with hpc | ⟨k, hpc⟩ <;> simp [Player.closed_iff, hpc]
    have hcalm := expects.calm (fun _ => hopen) ha hstep
    refine ⟨h.toWatched.opponent hcalm hstep, .leaving (by rwa [hparty]) ?_⟩
    rcases expects.turn_of h.wellFormed h.undisturbed hcalm (by simp) hturn with h | ⟨m, hm, -⟩
    · exact h.1
    · simp at hm
  | gone ended sent expects =>
    have hcalm := expects.calm (by simp) ha hstep
    refine ⟨h.toWatched.opponent hcalm hstep, ?_⟩
    rcases expects.turn_of h.wellFormed h.undisturbed hcalm (by simp) hturn with h | ⟨m, hm, hread⟩
    · exact .gone (by rwa [hparty]) (by rwa [hsent]) h.1
    · obtain rfl : (⟨.forfeit, FORFEIT⟩ : Message) = m := by simpa using hm
      cases hread with
      | shot c byte => exact absurd byte.symm (cellByte_ne_forfeit c)
      | forfeit byte dst won told =>
        exact .finished (by rwa [hparty]) (by rwa [hsent]) (by simpa using dst) (by simpa using told)
          (by simpa using won)
  | finished _ _ opponent => exact absurd (Player.phase_of_ended opponent) (running_of_turn hturn)

theorem Quits.step (h : g.Quits s) {e : Side × Act} (he : OnlySignals s e)
    (hstep : g.step e = some g') : g'.Quits s := by
  obtain ⟨t, a⟩ := e
  rcases s.eq_or_other t with rfl | rfl
  · exact h.own (he.imp id And.right) hstep
  · exact h.opponent (opponent_undisturbed he rfl) hstep

theorem Fair.quits (hg : g.Fair) (ha : a.Signal) (hheeds : (g.party s).Heeds a)
    (hstep : g.step (s, a) = some g') : g'.Quits s := by
  have hwatched : g.Watched s := ⟨hg.wellFormed, hg.signals s.other⟩
  rcases hheeds with hprompt | ⟨rfl, hpc⟩
  · exact hg.toTied.prompting_step hwatched hprompt (Or.inr ha) hstep
  · refine ⟨hwatched.own hstep, ?_⟩
    obtain ⟨hallowed, p', hp', rfl⟩ := silent_step ⟨by simp, by simp⟩ hstep
    have hnone := (hallowed (Or.inr hpc)).1
    simp only [Player.step, Player.quitGame, hpc, Option.some.injEq] at hp'
    rw [Player.shotReceived, if_pos (Player.socketRecv_false (by simp))] at hp'
    have hexpects := hg.expects_of_blocked (s := s) (by simp [Player.phase, hpc]) hnone
    refine .leaving ?_ (hexpects.same (by simp) (by simp) rfl)
    rw [Net.move_party, ← hp']
    refine ⟨?_, Or.inl rfl⟩
    rw [(Player.socketRecv_same _).2.2]

end Game

end SyeLabs.Battleship
