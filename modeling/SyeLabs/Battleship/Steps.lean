import SyeLabs.Battleship.Moves

/-!
# Every step is a move

One lemma for each action, and the two of them that change neither the forfeit
flag nor `errno`.
-/

namespace SyeLabs.Battleship

namespace Player

variable {p p' : Player}

/-! ### The prompt -/

structure Prompted (p p' : Player) : Prop where
  same : p.SameGame p'
  phase : p'.phase = .attack ∨ p'.phase = .leaving ∧ p.forfeitFlag = true
  aimed : p'.Aimed

theorem Prompted.move_after {q : Player} {a : Act} (h : q.Prompted p') (hsame : p.SameGame q)
    (hflag : q.forfeitFlag = true → p.Disturbed a) (ha : a.Silent) (hphase : p.phase = .attack) :
    Move p a p' := by
  rcases h.phase with hp' | ⟨hp', hq⟩
  · refine .idle ha (hsame.trans h.same) (hp'.trans hphase.symm) ?_ ?_ ?_ <;> simp [hphase]
  · exact .leave ha.1 (hsame.trans h.same) (hflag hq) (Or.inl hphase) hp'

theorem Prompted.move {a : Act} (h : p.Prompted p') (ha : a.Silent)
    (hphase : p.phase = .attack) : Move p a p' :=
  h.move_after (SameGame.refl p) Or.inl ha hphase

theorem afterPrompt_forfeit (p : Player) : p.afterPrompt FORFEIT =
    {p with usrInput := FORFEIT, pc := .send .forfeit 0} := by
  simp [afterPrompt]

theorem afterPrompt_free {c : Cell} (hfree : p.advGrid c = .default) :
    p.afterPrompt (cellByte c) =
      {p with usrInput := cellByte c, data := cellByte c, pc := .send .shot 0} := by
  simp [afterPrompt, cellByte_ne_forfeit, hfree]

theorem prompted_afterPrompt (hodd : p.firstIter % 2 = 1) {value : Byte}
    (hvalue : value = FORFEIT ∧ p.forfeitFlag = true ∨ ∃ c, value = cellByte c) :
    p.Prompted (p.afterPrompt value) := by
  rcases hvalue with ⟨rfl, hflag⟩ | ⟨c, rfl⟩
  · rw [afterPrompt_forfeit]
    exact ⟨sameGame_of_out rfl (.of_frame rfl), Or.inr ⟨rfl, hflag⟩, aimed_of_leaving rfl⟩
  · by_cases hfree : p.advGrid c = .default
    · rw [afterPrompt_free hfree]
      refine ⟨sameGame_of_out rfl (.of_frame rfl), Or.inl rfl, ?_⟩
      constructor <;> simp [phase, hodd]
      exact ⟨c, rfl, hfree⟩
    · have heq : p.afterPrompt (cellByte c) =
          {p with usrInput := cellByte c, out := p.out ++ [.text .invCellAttacked], pc := .head} := by
        simp [afterPrompt, cellByte_ne_forfeit, hfree, print]
      rw [heq]
      refine ⟨SameGame.of_print [.text .invCellAttacked] (by simp) (by simp) rfl
        (.of_frame rfl), Or.inl (by simp [phase, hodd]), ?_⟩
      constructor <;> simp [phase, hodd]

theorem cellByte_of_digit {h : ℤ} (hne : h ≠ -1) (hrange : -1 ≤ h ∧ h < 16) :
    ∃ c, BitVec.ofInt 8 h = cellByte c := by
  obtain ⟨k, rfl⟩ := Int.eq_ofNat_of_zero_le (show 0 ≤ h by omega)
  have hk : k < GRID_SIZE := by
    have : k < 16 := by omega
    exact this
  exact ⟨⟨k, hk⟩, by simp [cellByte]⟩

theorem prompted_bufferCleared (hodd : p.firstIter % 2 = 1) {h : ℤ} (hrange : -1 ≤ h ∧ h < 16) :
    p.Prompted (p.bufferCleared h) := by
  by_cases hne : h = -1
  · have heq : p.bufferCleared h = {p with pc := .getchar} := by simp [bufferCleared, hne]
    rw [heq]
    refine ⟨sameGame_of_out rfl (.of_frame rfl), Or.inl rfl, ?_⟩
    constructor <;> simp [phase, hodd]
  · have heq : p.bufferCleared h = p.afterPrompt (BitVec.ofInt 8 h) := by
      simp [bufferCleared, hne]
    rw [heq]
    exact prompted_afterPrompt hodd (Or.inr (cellByte_of_digit hne hrange))

theorem prompted_clearBuffer (haimed : p.Aimed) {h : ℤ} (hpc : p.pc = .clearBuffer h) (c : ℤ) :
    p.Prompted (p.clearBuffer h c) := by
  have hphase : p.phase = .attack := by simp [phase, hpc]
  unfold clearBuffer
  split_ifs
  · exact ⟨SameGame.refl p, Or.inl hphase, haimed⟩
  · exact prompted_bufferCleared (haimed.odd (Or.inl hphase)) (haimed.digit h (Or.inr hpc))

theorem prompted_testFlag (haimed : p.Aimed) {h : ℤ} (hpc : p.pc = .flagTest h) :
    p.Prompted (p.testFlag h) := by
  have hodd := haimed.odd (Or.inl (by simp [phase, hpc]))
  have hdigit := haimed.digit h (Or.inl hpc)
  unfold testFlag
  split_ifs with hflag
  · exact prompted_afterPrompt hodd (Or.inl ⟨rfl, hflag⟩)
  · refine ⟨sameGame_of_out rfl (.of_frame rfl), Or.inl rfl, ?_⟩
    constructor <;> simp [phase, hodd]
    exact hdigit
  · refine ⟨SameGame.of_print [.text .invCellVal] (by simp) (by simp) rfl
      (.of_frame rfl), Or.inl rfl, ?_⟩
    constructor <;> simp [phase, hodd]
    exact hdigit

/-! ### Waiting for a byte -/

theorem socketRecv_byte (b : Byte) :
    p.socketRecv (.byte b) = ({p with data := b}, decide (p.errno ≠ EINTR)) := by
  by_cases h : p.errno = EINTR <;> simp [socketRecv, h]

theorem socketRecv_same (r : Recv) :
    p.SameGame (p.socketRecv r).1 ∧ (p.socketRecv r).1.pc = p.pc ∧
      (p.socketRecv r).1.forfeitFlag = p.forfeitFlag := by
  cases r with
  | byte b =>
    rw [socketRecv_byte]
    exact ⟨sameGame_of_out rfl (.of_frame rfl), rfl, rfl⟩
  | closed =>
    by_cases h : p.errno = EINTR
    · have heq : p.socketRecv .closed = (p, false) := by simp [socketRecv, h]
      rw [heq]
      exact ⟨SameGame.refl p, rfl, rfl⟩
    · have heq : p.socketRecv .closed = (p.print [.text .recvConnClosed], false) := by
        simp [socketRecv, h]
      rw [heq]
      exact ⟨SameGame.of_print [.text .recvConnClosed] (by simp) (by simp) rfl
        (.of_frame rfl), rfl, rfl⟩
  | error e =>
    by_cases h : e = EINTR
    · have heq : p.socketRecv (.error e) = ({p with errno := e}, false) := by simp [socketRecv, h]
      rw [heq]
      exact ⟨sameGame_of_out rfl (.of_frame rfl), rfl, rfl⟩
    · have heq : p.socketRecv (.error e) =
          ({p with errno := e}.print [.text .recvFail], false) := by simp [socketRecv, h]
      rw [heq]
      exact ⟨SameGame.of_print [.text .recvFail] (by simp) (by simp) rfl
        (.of_frame rfl), rfl, rfl⟩

theorem socketRecv_false {r : Recv} (h : ∀ b, r ≠ .byte b) : (p.socketRecv r).2 = false := by
  cases r with
  | byte b => exact absurd rfl (h b)
  | closed => by_cases he : p.errno = EINTR <;> simp [socketRecv, he]
  | error e => by_cases he : e = EINTR <;> simp [socketRecv, he]

/-! ### The moves of each action -/

theorem getchar_prompted (haimed : p.Aimed) (hpc : p.pc = .getchar) (c : ℤ) :
    p.Prompted {p with pc := .flagTest (charToHex c)} := by
  have hodd := haimed.odd (Or.inl (by simp [phase, hpc]))
  refine ⟨sameGame_of_out rfl (.of_frame rfl), Or.inl rfl, ?_⟩
  constructor <;> simp [phase, hodd]
  exact charToHex_range c

theorem running_iff : p.running ↔ p.phase ≠ .ended := by
  rw [running, phase]
  cases p.pc with
  | head => simp only [true_iff]; split_ifs <;> simp
  | send what k => cases what <;> simp
  | _ => simp

theorem step_tau (haimed : p.Aimed) (h : p.step .tau = some p') :
    Move p .tau p' ∧ p'.Aimed := by
  have hsilent : Act.Silent .tau := ⟨by simp, by simp⟩
  cases hpc : p.pc <;> simp only [step, hpc, Option.some.injEq, reduceCtorEq] at h <;> subst h
  case head =>
    unfold loopHead
    split_ifs with hflag hodd
    · exact ⟨.abort _ (by simp) (p.exit_spec .success).1 (Or.inl hflag)
        (by simp [phase, hpc]; split_ifs <;> simp) rfl, aimed_of_ended rfl⟩
    · have hphase : p.phase = .attack := by simp [phase, hpc, hodd]
      have hprompt : p.Prompted {p.print [.text .attackCell] with pc := .getchar} := by
        refine ⟨SameGame.of_print [.text .attackCell] (by simp) (by simp) rfl
          (.of_frame rfl), Or.inl rfl, ?_⟩
        constructor <;> simp [phase, hodd]
      exact ⟨hprompt.move hsilent hphase, hprompt.aimed⟩
    · have hphase : p.phase = .defend := by simp [phase, hpc, hodd]
      refine ⟨.idle hsilent (SameGame.of_print [.text .opponentWait] (by simp) (by simp) rfl
        (.of_frame rfl)) hphase.symm ?_ ?_ ?_, ?_⟩
      · simp [hphase]
      · simp [hphase]
      · simp [hphase]
      · constructor <;> simp [phase]
        omega
  case flagTest h =>
    have hprompt := prompted_testFlag haimed hpc
    exact ⟨hprompt.move hsilent (by simp [phase, hpc]), hprompt.aimed⟩
  case recvShotFailed =>
    have hphase : p.phase = .leaving := by simp [phase, hpc]
    unfold shotFailed
    split_ifs
    · refine ⟨.idle hsilent (sameGame_of_out rfl (.of_frame rfl)) hphase.symm ?_ ?_ ?_,
        aimed_of_leaving rfl⟩ <;> simp [hphase]
    · exact ⟨.abort _ (by simp) (p.exit_spec .failure).1 (Or.inr (Or.inr (Or.inl hphase)))
        (by simp [hphase]) rfl, aimed_of_ended rfl⟩

theorem step_input (haimed : p.Aimed) {c : ℤ} (h : p.step (.input c) = some p') :
    Move p (.input c) p' ∧ p'.Aimed := by
  have hsilent : Act.Silent (.input c) := ⟨by simp, by simp⟩
  cases hpc : p.pc <;> simp only [step, hpc, Option.some.injEq, reduceCtorEq] at h <;> subst h
  case getchar =>
    have hprompt := getchar_prompted haimed hpc c
    exact ⟨hprompt.move hsilent (by simp [phase, hpc]), hprompt.aimed⟩
  case clearBuffer h =>
    have hprompt := prompted_clearBuffer haimed hpc c
    exact ⟨hprompt.move hsilent (by simp [phase, hpc]), hprompt.aimed⟩

theorem step_sigtstp (haimed : p.Aimed) (h : p.step .sigtstp = some p') :
    Move p .sigtstp p' ∧ p'.Aimed := by
  unfold step at h
  split_ifs at h with hrun
  cases h
  exact ⟨.idle ⟨by simp, by simp⟩ (sameGame_of_out rfl (.of_frame rfl)) rfl
    (running_iff.mp hrun) (fun _ => rfl) fun _ => rfl,
    ⟨haimed.odd, haimed.even, haimed.digit, haimed.shot, haimed.result⟩⟩

theorem resultFailed_move {q : Player} {r : Recv} {a : Act} (ha : a ≠ .sendOk)
    (hcause : p.Disturbed a) (hpc : p.pc = .recvResult) (hsame : p.SameGame q) (hr : (q.socketRecv r).2 = false) :
    Move p a (resultReceived (q.socketRecv r)) ∧ (resultReceived (q.socketRecv r)).Aimed := by
  rw [resultReceived, if_pos hr]
  have hq := hsame.trans ((socketRecv_same r).1.trans (exit_spec .failure).1)
  exact ⟨.abort _ ha hq hcause (by simp [phase, hpc]) rfl, aimed_of_ended rfl⟩

theorem shotFailed_move {q : Player} {r : Recv} {a : Act} (ha : a ≠ .sendOk)
    (hcause : p.Disturbed a) (hpc : p.pc = .recvShot) (hsame : p.SameGame q) (hr : (q.socketRecv r).2 = false) :
    Move p a (shotReceived (q.socketRecv r)) ∧ (shotReceived (q.socketRecv r)).Aimed := by
  rw [shotReceived, if_pos hr]
  have hlast : (q.socketRecv r).1.SameGame {(q.socketRecv r).1 with pc := .recvShotFailed} :=
    sameGame_of_out rfl (.of_frame rfl)
  have hq := hsame.trans ((socketRecv_same r).1.trans hlast)
  exact ⟨.leave ha hq hcause (Or.inr (by simp [phase, hpc])) rfl, aimed_of_leaving rfl⟩

theorem step_interrupt (haimed : p.Aimed) (h : p.step .interrupt = some p') :
    Move p .interrupt p' ∧ p'.Aimed := by
  have hsilent : Act.Silent .interrupt := ⟨by simp, by simp⟩
  have hcause : p.Disturbed .interrupt := Or.inr (Or.inr (Or.inr id))
  obtain ⟨q, hq⟩ : ∃ q, q = ({p.quitGame with errno := EINTR} : Player) := ⟨_, rfl⟩
  have hsame : p.SameGame q := by
    rw [hq]
    exact sameGame_of_out rfl (.of_frame rfl)
  have haimed' : q.Aimed := by
    rw [hq]
    exact ⟨haimed.odd, haimed.even, haimed.digit, haimed.shot, haimed.result⟩
  have hqpc : q.pc = p.pc := by rw [hq]; rfl
  rw [step, ← hq] at h
  cases hpc : p.pc <;> simp only [hqpc, hpc, Option.some.injEq, reduceCtorEq] at h <;> subst h
  case getchar =>
    have hprompt := getchar_prompted haimed' (hqpc.trans hpc) EOF
    exact ⟨hprompt.move_after hsame (fun _ => hcause) hsilent (by simp [phase, hpc]),
      hprompt.aimed⟩
  case clearBuffer h =>
    have hprompt := prompted_clearBuffer haimed' (hqpc.trans hpc) EOF
    exact ⟨hprompt.move_after hsame (fun _ => hcause) hsilent (by simp [phase, hpc]),
      hprompt.aimed⟩
  case recvResult =>
    exact resultFailed_move (by simp) hcause hpc hsame (socketRecv_false (by simp))
  case recvShot =>
    exact shotFailed_move (by simp) hcause hpc hsame (socketRecv_false (by simp))

theorem disturbed_of_recv {r : Recv} (h : (p.socketRecv r).2 = false) : p.Disturbed (.recv r) := by
  cases r with
  | byte b => exact Or.inr (Or.inl (by simpa [socketRecv_byte] using h))
  | closed => exact Or.inr (Or.inr (Or.inr id))
  | error e => exact Or.inr (Or.inr (Or.inr id))

theorem step_recv (haimed : p.Aimed) {r : Recv} (h : p.step (.recv r) = some p') :
    Move p (.recv r) p' ∧ p'.Aimed := by
  cases hpc : p.pc <;> simp only [step, hpc, Option.some.injEq, reduceCtorEq] at h <;> subst h
  case recvResult =>
    have hphase : p.phase = .await := by simp [phase, hpc]
    by_cases hr : (p.socketRecv r).2 = false
    · exact resultFailed_move (by simp) (disturbed_of_recv hr) hpc (SameGame.refl p) hr
    · cases r with
      | closed => exact absurd (socketRecv_false (by simp)) hr
      | error e => exact absurd (socketRecv_false (by simp)) hr
      | byte b =>
        rw [socketRecv_byte] at hr ⊢
        have herrno : p.errno ≠ EINTR := by simpa using hr
        rw [resultReceived, if_neg hr]
        obtain ⟨c, hc, hfree⟩ := haimed.result hpc
        by_cases hb : b = FORFEIT
        · subst hb
          obtain ⟨q, rfl, hsame, hend, hwon, htold, hlost⟩ := afterResult_forfeit p
          exact ⟨.triumph (Or.inl hphase) herrno hsame hend hwon htold hlost, aimed_of_ended hend⟩
        · have hdone := afterResult_answered (p := {p with data := b}) hc hb
          refine ⟨.answered b c hphase hc hfree herrno hb
            ⟨hdone.userGrid, hdone.userBoats, hdone.advGrid, hdone.advBoats, hdone.ends,
              hdone.goes, hdone.lost⟩, ?_⟩
          by_cases hover : (Player.afterResult {p with data := b}).advBoats = 0
          · exact aimed_of_ended (hdone.ends hover).1
          · exact aimed_of_head (hdone.goes hover).1
  case recvShot =>
    have hphase : p.phase = .defend := by simp [phase, hpc]
    by_cases hr : (p.socketRecv r).2 = false
    · exact shotFailed_move (by simp) (disturbed_of_recv hr) hpc (SameGame.refl p) hr
    · cases r with
      | closed => exact absurd (socketRecv_false (by simp)) hr
      | error e => exact absurd (socketRecv_false (by simp)) hr
      | byte b =>
        rw [socketRecv_byte] at hr ⊢
        have herrno : p.errno ≠ EINTR := by simpa using hr
        rw [shotReceived, if_neg hr]
        by_cases hb : b = FORFEIT
        · subst hb
          obtain ⟨q, rfl, hsame, hend, hwon, htold, hlost⟩ := afterShot_forfeit p
          exact ⟨.triumph (Or.inr hphase) herrno hsame hend hwon htold hlost, aimed_of_ended hend⟩
        · cases hcell : cell? b with
          | none =>
            have heq : Player.afterShot {p with data := b} =
                {p with data := b, pc := .outOfBounds} := by
              simp [afterShot, hb, hcell]
            rw [heq]
            exact ⟨.overrun b hphase herrno hb hcell
              (sameGame_of_out rfl (.of_frame rfl)) rfl, aimed_of_outOfBounds rfl⟩
          | some c =>
            obtain rfl := cell?_eq_some hcell
            have hdone := afterShot_received p c
            exact ⟨.attacked c hphase herrno hdone,
              aimed_of_reply hdone.pc
                ((congrArg (· % 2) hdone.firstIter).trans (haimed.even (Or.inl hphase)))⟩

theorem afterReply_aimed (p : Player) : p.afterReply.Aimed := by
  have hdone : Replied p p.afterReply := afterReply_replied
  by_cases hover : p.userBoats = 0
  · exact aimed_of_ended (hdone.ends hover).1
  · exact aimed_of_head (hdone.goes hover).1

theorem afterForfeit_resigned (p : Player) : p.afterForfeit.pc = .ended .success ∧
    (p.afterForfeit.Won ↔ p.Won) ∧ p.afterForfeit.Lost := by
  simp [afterForfeit, exit, Won, Lost]

theorem step_sendOk (haimed : p.Aimed) (h : p.step .sendOk = some p') :
    Move p .sendOk p' ∧ p'.Aimed := by
  cases hpc : p.pc <;> simp only [step, hpc, Option.some.injEq, reduceCtorEq] at h
  case send what k =>
    subst h
    cases what with
    | shot =>
      obtain ⟨hdata, c, hc, hfree⟩ := haimed.shot k hpc
      have hphase : p.phase = .attack := by simp [phase, hpc]
      refine ⟨.shoot c k hphase hpc (hdata.trans hc) hc hfree, ?_⟩
      have hodd := haimed.odd (Or.inl hphase)
      constructor <;> simp [phase, sent, hodd]
      exact ⟨c, hc, hfree⟩
    | result => exact ⟨.reply k hpc afterReply_replied, afterReply_aimed p⟩
    | forfeit =>
      obtain ⟨hend, hwon, hlost⟩ := afterForfeit_resigned p
      exact ⟨.resign k (Or.inl rfl) hpc (.of_frame rfl) hend hwon hlost,
        aimed_of_ended hend⟩

theorem step_sendErr (haimed : p.Aimed) {e : ℕ} (h : p.step (.sendErr e) = some p') :
    Move p (.sendErr e) p' ∧ p'.Aimed := by
  cases hpc : p.pc <;> simp only [step, hpc, Option.some.injEq, reduceCtorEq] at h
  case send what k =>
    subst h
    have hrunning : p.phase ≠ .ended := by cases what <;> simp [phase, hpc]
    unfold retry
    split_ifs with hlast
    · cases what with
      | shot =>
        have hsame : p.SameGame (Player.exit (Player.print {p with errno := e} [.text .sendFail])
            .failure) :=
          SameGame.of_print [.text .sendFail] (by simp) (by simp) rfl (.of_frame rfl)
        exact ⟨.abort _ (by simp) hsame (Or.inr (Or.inr (Or.inr id))) hrunning rfl, aimed_of_ended rfl⟩
      | result =>
        have hdone : Replied (Player.print {p with errno := e} [.text .sendFail])
            (Player.print {p with errno := e} [.text .sendFail]).afterReply := afterReply_replied
        have hsame : p.SameGame (Player.print {p with errno := e} [.text .sendFail]) :=
          SameGame.of_print [.text .sendFail] (by simp) (by simp) rfl (.of_frame rfl)
        refine ⟨.replyFailed e k hpc hlast ⟨hdone.userGrid, hdone.userBoats, hdone.advGrid,
          hdone.advBoats, hdone.ends, fun hne => ?_, hdone.won.trans hsame.won⟩,
          afterReply_aimed _⟩
        obtain ⟨hhead, hlost, hturn⟩ := hdone.goes hne
        exact ⟨hhead, hlost.trans hsame.lost, hturn⟩
      | forfeit =>
        obtain ⟨hend, hwon, hlost⟩ :=
          afterForfeit_resigned (Player.print {p with errno := e} [.text .sendFail])
        refine ⟨.resign k (Or.inr ⟨e, rfl⟩) hpc (.of_frame rfl) hend (hwon.trans ?_) hlost,
          aimed_of_ended hend⟩
        simp [Won]
    · have hsame : p.SameGame {p with errno := e, pc := .send what (k + 1)} :=
        sameGame_of_out rfl (.of_frame rfl)
      have hphase : Player.phase {p with errno := e, pc := .send what (k + 1)} = p.phase := by
        cases what <;> simp [phase, hpc]
      refine ⟨.idle ⟨by simp, by simp⟩ hsame hphase hrunning (fun _ => rfl) fun _ => rfl, ?_⟩
      constructor
      · rw [hphase]
        exact haimed.odd
      · rw [hphase]
        exact haimed.even
      · simp
      · rintro j hj
        obtain ⟨rfl, -⟩ : what = .shot ∧ k + 1 = j := by simpa using hj
        exact haimed.shot k hpc
      · simp

theorem step_sigpipe (h : p.step .sigpipe = some p') : Move p .sigpipe p' ∧ p'.Aimed := by
  cases hpc : p.pc <;> simp only [step, hpc, Option.some.injEq, reduceCtorEq] at h
  case send what k =>
    subst h
    exact ⟨.abort _ (by simp) (p.exit_spec .killed).1 (Or.inr (Or.inr (Or.inr id)))
      (by cases what <;> simp [phase, hpc]) rfl, aimed_of_ended rfl⟩

theorem step_move (haimed : p.Aimed) {a : Act} (h : p.step a = some p') :
    Move p a p' ∧ p'.Aimed := by
  cases a with
  | tau => exact step_tau haimed h
  | input c => exact step_input haimed h
  | sigtstp => exact step_sigtstp haimed h
  | interrupt => exact step_interrupt haimed h
  | sendOk => exact step_sendOk haimed h
  | sendErr e => exact step_sendErr haimed h
  | sigpipe => exact step_sigpipe h
  | recv r => exact step_recv haimed h

/-! ### Signals and errors -/

def SameSignals (p p' : Player) : Prop := p'.forfeitFlag = p.forfeitFlag ∧ p'.errno = p.errno

theorem SameSignals.trans {p'' : Player} (h : p.SameSignals p') (h' : p'.SameSignals p'') :
    p.SameSignals p'' := ⟨h'.1.trans h.1, h'.2.trans h.2⟩

theorem afterPrompt_signals (p : Player) (value : Byte) : p.SameSignals (p.afterPrompt value) := by
  simp only [afterPrompt]
  split_ifs
  · exact ⟨rfl, rfl⟩
  · split
    · exact ⟨rfl, rfl⟩
    · split_ifs <;> exact ⟨rfl, rfl⟩

theorem clearBuffer_signals (p : Player) (h c : ℤ) : p.SameSignals (p.clearBuffer h c) := by
  unfold clearBuffer
  split_ifs
  · exact ⟨rfl, rfl⟩
  · unfold bufferCleared
    split_ifs
    · exact p.afterPrompt_signals _
    · exact ⟨rfl, rfl⟩

theorem testFlag_signals (p : Player) (h : ℤ) : p.SameSignals (p.testFlag h) := by
  unfold testFlag
  split_ifs
  · exact p.afterPrompt_signals _
  · exact ⟨rfl, rfl⟩
  · exact ⟨rfl, rfl⟩

theorem loopHead_signals (p : Player) : p.SameSignals p.loopHead := by
  unfold loopHead
  split_ifs <;> exact ⟨rfl, rfl⟩

theorem afterReply_signals (p : Player) : p.SameSignals p.afterReply := by
  simp only [afterReply]
  split_ifs <;> exact ⟨rfl, rfl⟩

theorem afterResult_signals (p : Player) : p.SameSignals p.afterResult := by
  simp only [afterResult]
  split_ifs
  · exact ⟨rfl, rfl⟩
  · split
    · exact ⟨rfl, rfl⟩
    · split_ifs <;> exact ⟨rfl, rfl⟩
  · split
    · exact ⟨rfl, rfl⟩
    · split_ifs <;> exact ⟨rfl, rfl⟩

theorem afterShot_signals (p : Player) : p.SameSignals p.afterShot := by
  simp only [afterShot]
  split_ifs
  · exact ⟨rfl, rfl⟩
  · split
    · exact ⟨rfl, rfl⟩
    · split_ifs <;> exact ⟨rfl, rfl⟩

theorem received_signals (p : Player) (b : Byte) :
    p.SameSignals (resultReceived (p.socketRecv (.byte b))) ∧
      p.SameSignals (shotReceived (p.socketRecv (.byte b))) := by
  have hdata : p.SameSignals {p with data := b} := ⟨rfl, rfl⟩
  rw [socketRecv_byte, resultReceived, shotReceived]
  refine ⟨?_, ?_⟩ <;> split_ifs
  · exact ⟨rfl, rfl⟩
  · exact hdata.trans (afterResult_signals _)
  · exact ⟨rfl, rfl⟩
  · exact hdata.trans (afterShot_signals _)

theorem calm_signals {a : Act} (ha : a.Calm) (h : p.step a = some p') : p.SameSignals p' := by
  cases a with
  | tau =>
    cases hpc : p.pc <;> simp only [step, hpc, Option.some.injEq, reduceCtorEq] at h <;> subst h
    · exact p.loopHead_signals
    · exact p.testFlag_signals _
    · unfold shotFailed
      split_ifs <;> exact ⟨rfl, rfl⟩
  | input c =>
    cases hpc : p.pc <;> simp only [step, hpc, Option.some.injEq, reduceCtorEq] at h <;> subst h
    · exact ⟨rfl, rfl⟩
    · exact p.clearBuffer_signals _ c
  | sendOk =>
    cases hpc : p.pc <;> simp only [step, hpc, Option.some.injEq, reduceCtorEq] at h
    case send what k =>
      subst h
      cases what with
      | shot => exact ⟨rfl, rfl⟩
      | result => exact p.afterReply_signals
      | forfeit => exact ⟨rfl, rfl⟩
  | recv r =>
    cases r with
    | byte b =>
      cases hpc : p.pc <;> simp only [step, hpc, Option.some.injEq, reduceCtorEq] at h <;> subst h
      · exact (p.received_signals b).1
      · exact (p.received_signals b).2
    | closed => exact absurd ha id
    | error e => exact absurd ha id
  | sigtstp => exact absurd ha id
  | interrupt => exact absurd ha id
  | sendErr e => exact absurd ha id
  | sigpipe => exact absurd ha id

end Player

end SyeLabs.Battleship
