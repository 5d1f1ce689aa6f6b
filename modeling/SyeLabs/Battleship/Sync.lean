import SyeLabs.Battleship.Match
import SyeLabs.Battleship.PlayerInvariant

/-!
# Both streams keep the order of the turns

A player that has not stopped has sent and read one message for each turn it
completed, so the position of a message in its stream tells whether it is a shot
or a result, on either side. The one way to break this is an answer that is not
sent: the defender does not look at the result of that `socketSend`.
-/

namespace SyeLabs.Battleship
open Duplex

def startIter (s : Side) : ℕ := if s = server then 1 else 0

def kindAt (n : ℕ) : Sending := if n % 2 = 1 then .shot else .result

namespace Player

def playing (p : Player) : Prop := p.phase ≠ .leaving ∧ p.phase ≠ .ended

/-- Playing, and not back at the test of the flag that ends the loop. -/
def playsOn (p : Player) : Prop := p.playing ∧ ¬ (p.pc = .head ∧ p.forfeitFlag = true)

/-- The step returns -1 from `socketSend` or `socketRecv`. -/
def Fails (p : Player) : Act → Prop
  | .sendErr _ => ∃ what k, p.pc = .send what k ∧ SEND_RETRY_LIMIT < k + 1
  | .recv r => (p.socketRecv r).2 = false
  | .interrupt => p.receiving
  | _ => False

variable {p p' : Player} {a : Act}

theorem not_playing_of_ended {status : Exit} (h : p.pc = .ended status) : ¬ p.playing :=
  fun hp => hp.2 (phase_of_ended h)

theorem not_playsOn_of_ended {status : Exit} (h : p.pc = .ended status) : ¬ p.playsOn :=
  fun hp => not_playing_of_ended h hp.1

theorem not_playsOn_of_leaving (h : p.phase = .leaving) : ¬ p.playsOn := fun hp => hp.1.1 h

theorem playsOn_of_phase (h : p.phase = .await ∨ p.phase = .reply) : p.playsOn := by
  refine ⟨?_, fun ⟨hpc, _⟩ => ?_⟩
  · rcases h with h | h <;> simp [playing, h]
  · rcases phase_of_head hpc with hhead | hhead <;> rw [hhead] at h <;> simp at h

/-- Who plays on after a step has done so before it. -/
theorem playsOn_before (haimed : p.Aimed) (hstep : p.step a = some p') (h : p'.playsOn) :
    p.playsOn := by
  constructor
  · cases (step_move haimed hstep).1 with
    | idle _ _ phase => simpa [playing, phase] using h.1
    | leave _ _ _ _ dst => exact absurd h (not_playsOn_of_leaving dst)
    | abort _ _ _ _ _ dst => exact absurd h (not_playsOn_of_ended dst)
    | shoot _ _ src => simp [playing, src]
    | answered _ _ src => simp [playing, src]
    | attacked _ src => simp [playing, src]
    | overrun _ src => simp [playing, src]
    | triumph _ _ _ dst => exact absurd h (not_playsOn_of_ended dst)
    | reply _ pc => simp [playing, phase, pc]
    | replyFailed _ _ pc => simp [playing, phase, pc]
    | resign _ _ _ _ dst => exact absurd h (not_playsOn_of_ended dst)
  · -- at the head of the loop with the flag set, the next step of its own is the last
    rintro ⟨hpc, hflag⟩
    cases a with
    | tau =>
      simp only [step, hpc, loopHead, hflag, if_true, Option.some.injEq] at hstep
      subst hstep
      exact not_playsOn_of_ended rfl h
    | sigtstp =>
      simp only [step, running, hpc, if_true, Option.some.injEq] at hstep
      subst hstep
      exact h.2 ⟨hpc, rfl⟩
    | _ => simp [step, hpc, quitGame] at hstep

/-- An answer that is lost ends the game of a player without boats, and no other. -/
theorem lost_reply {n k : ℕ} (hpc : p.pc = .send .result k) (hlast : SEND_RETRY_LIMIT < k + 1) :
    ∃ p', p.step (.sendErr n) = some p' ∧ (p.userBoats = 0 → p'.pc = .ended .success) ∧
      (p.userBoats ≠ 0 → p'.pc = .head) ∧ p'.forfeitFlag = p.forfeitFlag := by
  obtain ⟨q, hq⟩ : ∃ q, q = Player.print {p with errno := n} [.text .sendFail] := ⟨_, rfl⟩
  have hdone : Replied q q.afterReply := afterReply_replied
  have hboats : q.userBoats = p.userBoats := by
    rw [hq]
    rfl
  have hflag : q.forfeitFlag = p.forfeitFlag := by
    rw [hq]
    rfl
  have hretry : p.step (.sendErr n) = some (retry {p with errno := n} .result k) := by
    simp only [step]
    rw [hpc]
  refine ⟨q.afterReply, ?_, ?_, ?_, q.afterReply_signals.1.trans hflag⟩
  · rw [hretry, retry, if_pos hlast, ← hq]
    rfl
  · rw [← hboats]
    exact fun hover => (hdone.ends hover).1
  · rw [← hboats]
    exact fun hmore => (hdone.goes hmore).1

/-- Of the calls that fail, only one for an answer lets the player play on. -/
theorem stops_of_fails (hstep : p.step a = some p') (hfails : p.Fails a)
    (hkept : ∀ n k, a = .sendErr n → p.pc = .send .result k → SEND_RETRY_LIMIT < k + 1 →
      p.userBoats = 0 ∨ p.forfeitFlag = true) : ¬ p'.playsOn := by
  cases a with
  | sendErr n =>
    obtain ⟨what, k, hpc, hlast⟩ := hfails
    cases what with
    | result =>
      obtain ⟨q, hq, hends, hgoes, hflag⟩ := lost_reply (n := n) hpc hlast
      obtain rfl := Option.some.inj (hstep.symm.trans hq)
      by_cases hover : p.userBoats = 0
      · exact not_playsOn_of_ended (hends hover)
      · have hset := (hkept n k rfl hpc hlast).resolve_left hover
        exact fun hp => hp.2 ⟨hgoes hover, hflag.trans hset⟩
    | shot | forfeit =>
      simp only [step, hpc, Option.some.injEq] at hstep
      subst hstep
      rw [retry, if_pos hlast]
      exact not_playsOn_of_ended rfl
  | recv r =>
    have hr : (p.socketRecv r).2 = false := hfails
    cases hpc : p.pc <;>
      simp only [step, hpc, Option.some.injEq, reduceCtorEq] at hstep <;> subst hstep
    case recvResult =>
      rw [resultReceived, if_pos hr]
      exact not_playsOn_of_ended rfl
    case recvShot =>
      rw [shotReceived, if_pos hr]
      exact not_playsOn_of_leaving rfl
  | interrupt =>
    rcases hfails with hpc | hpc
    · simp only [step, quitGame, hpc, Option.some.injEq] at hstep
      subst hstep
      rw [resultReceived, if_pos (socketRecv_false (by simp))]
      exact not_playsOn_of_ended rfl
    · simp only [step, quitGame, hpc, Option.some.injEq] at hstep
      subst hstep
      rw [shotReceived, if_pos (socketRecv_false (by simp))]
      exact not_playsOn_of_leaving rfl
  | tau => exact absurd hfails id
  | input c => exact absurd hfails id
  | sigtstp => exact absurd hfails id
  | sendOk => exact absurd hfails id
  | sigpipe => exact absurd hfails id

end Player

namespace Game

/-- Messages sent and read by `s`, counted in turns. -/
structure Paced (g : Game) (s : Side) : Prop where
  sent : (g.party s).playsOn → (g.sent s).length + startIter s =
    (g.party s).firstIter + if (g.party s).phase = .await then 1 else 0
  taken : (g.party s).playsOn → g.taken s + startIter s =
    (g.party s).firstIter + if (g.party s).phase = .reply then 1 else 0
  kind : ∀ k m, (g.sent s)[k]? = some m → m.kind = .forfeit ∨ m.kind = kindAt (k + startIter s)

/-- An answer whose `socketSend` fails is the last one: it is to the shot that sank the last
boat, or the player is about to leave the loop. -/
def ReplyKept (g : Game) (e : Side × Act) : Prop :=
  ∀ n k, e.2 = .sendErr n → (g.party e.1).pc = .send .result k → SEND_RETRY_LIMIT < k + 1 →
    (g.party e.1).userBoats = 0 ∨ (g.party e.1).forfeitFlag = true

variable {g g' : Game} {s : Side}

theorem paced_start (board : Side → Board) (errno : Side → ℕ) (s : Side) :
    (start board errno).Paced s := by
  have hphase := Player.phase_of_head (p := (start board errno).party s) rfl
  have hiter : ((start board errno).party s).firstIter = startIter s := by
    simp [start, Player.start, startIter]
  refine ⟨fun _ => ?_, fun _ => ?_, fun k m hm => by simp [start] at hm⟩
  · rcases hphase with h | h <;> simp [h, hiter] <;> simp [start]
  · rcases hphase with h | h <;> simp [h, hiter] <;> simp [start]

theorem kind_append {ms : List Message} {i : ℕ} (m' : Message)
    (h : ∀ k m, ms[k]? = some m → m.kind = .forfeit ∨ m.kind = kindAt (k + i))
    (hm' : m'.kind = .forfeit ∨ m'.kind = kindAt (ms.length + i)) :
    ∀ k m, (ms ++ [m'])[k]? = some m → m.kind = .forfeit ∨ m.kind = kindAt (k + i) := by
  intro k m hm
  rcases Nat.lt_or_ge k ms.length with hk | hk
  · rw [List.getElem?_append_left hk] at hm
    exact h k m hm
  · rw [List.getElem?_append_right hk, List.getElem?_singleton] at hm
    split_ifs at hm with hk0
    cases hm
    obtain rfl : k = ms.length := by omega
    exact hm'

theorem Paced.of_stopped (hp : ¬ (g.party s).playsOn) (hkind : ∀ k m, (g.sent s)[k]? = some m →
    m.kind = .forfeit ∨ m.kind = kindAt (k + startIter s)) : g.Paced s :=
  ⟨fun h => absurd h hp, fun h => absurd h hp, hkind⟩

theorem Paced.withdraws {p' : Player} (h : g.Paced s) (hw : Withdraws g s p' g')
    (hp' : ¬ p'.playsOn) : g'.Paced s := by
  cases hw with
  | move => exact .of_stopped (by simpa using hp') (by simpa using h.kind)
  | drop => exact .of_stopped (by simpa using hp') (by simpa using h.kind)

theorem Paced.of_head (n : ℕ) (hpc : (g'.party s).pc = .head)
    (hiter : (g'.party s).firstIter = n + 1) (hsent : (g'.sent s).length + startIter s = n + 1)
    (htaken : g'.taken s + startIter s = n + 1)
    (hkind : ∀ k m, (g'.sent s)[k]? = some m →
      m.kind = .forfeit ∨ m.kind = kindAt (k + startIter s)) : g'.Paced s := by
  have hphase := Player.phase_of_head hpc
  refine ⟨fun _ => ?_, fun _ => ?_, hkind⟩
  · rcases hphase with h | h <;> simp [h, hiter, hsent]
  · rcases hphase with h | h <;> simp [h, hiter, htaken]

/- The counts of a player whose phase is known. -/
theorem Paced.counts {φ : Phase} (h : g.Paced s) (src : (g.party s).phase = φ)
    (hplays : (g.party s).playsOn) :
    (g.sent s).length + startIter s = (g.party s).firstIter + (if φ = .await then 1 else 0) ∧
      g.taken s + startIter s = (g.party s).firstIter + if φ = .reply then 1 else 0 := by
  subst src
  exact ⟨h.sent hplays, h.taken hplays⟩

theorem paced_turn {a : Act} (hg : g.WellFormed) (h : g.Paced s) (hturn : Turn g s a g')
    (hbefore : (g'.party s).playsOn → (g.party s).playsOn)
    (hlost : ∀ n k, a = .sendErr n → (g.party s).pc = .send .result k →
      SEND_RETRY_LIMIT < k + 1 → ¬ (g'.party s).playsOn) : g'.Paced s := by
  cases hturn with
  | @idle _ p' same phase running =>
    refine ⟨fun hp => ?_, fun hp => ?_, h.kind⟩
    · simpa [phase, same.firstIter] using h.sent (hbefore hp)
    · simpa [phase, same.firstIter] using h.taken (hbefore hp)
  | leave same _ src dst withdraws =>
    exact h.withdraws withdraws (Player.not_playsOn_of_leaving dst)
  | abort status same _ src dst withdraws =>
    exact h.withdraws withdraws (Player.not_playsOn_of_ended dst)
  | shoot c src usrInput free same dst =>
    have hplays := hbefore (Player.playsOn_of_phase (Or.inl (by simpa using dst)))
    obtain ⟨hsent, htaken⟩ := h.counts src hplays
    have hodd := (hg.aimed s).odd (Or.inl src)
    simp only [reduceCtorEq, ite_false] at hsent htaken
    refine ⟨fun _ => ?_, fun _ => ?_, ?_⟩
    · simp only [Net.send_sent, Net.send_party, List.length_append, List.length_singleton, dst,
        ite_true, same.firstIter]
      omega
    · simpa [dst, same.firstIter] using htaken
    · rw [Net.send_sent]
      exact kind_append _ h.kind (Or.inr (by simp [hsent, kindAt, hodd]))
  | @answered p' m c next src usrInput free noForfeit done =>
    obtain ⟨hsent, htaken⟩ := h.counts src (Player.playsOn_of_phase (Or.inl src))
    simp only [reduceCtorEq, ite_false, ite_true] at hsent htaken
    by_cases hover : p'.advBoats = 0
    · exact .of_stopped
        (by simpa using Player.not_playsOn_of_ended (done.ends hover).1) (by simpa using h.kind)
    · obtain ⟨hpc, -, hiter⟩ := done.goes hover
      refine .of_head (g.party s).firstIter (by simpa using hpc) (by simpa using hiter)
        ?_ ?_ (by simpa using h.kind)
      · simpa using hsent
      · simp only [Net.consume_taken]
        omega
  | @attacked p' m c next src byte done =>
    have hphase : p'.phase = .reply := by simp [Player.phase, done.pc]
    have hplays := hbefore (Player.playsOn_of_phase (Or.inr (by simpa using hphase)))
    obtain ⟨hsent, htaken⟩ := h.counts src hplays
    simp only [reduceCtorEq, ite_false] at hsent htaken
    refine ⟨fun _ => ?_, fun _ => ?_, by simpa using h.kind⟩
    · simpa [hphase, done.firstIter] using hsent
    · simp only [Net.consume_taken, Net.consume_party, hphase, done.firstIter, ite_true]
      omega
  | overrun m next src noForfeit wild same dst =>
    exact h.withdraws (.drop m next) fun hp => hp.1.2 (by simp [Player.phase, dst])
  | triumph m next src byte same dst =>
    exact h.withdraws (.drop m next) (Player.not_playsOn_of_ended dst)
  | @reply p' src done =>
    obtain ⟨hsent, htaken⟩ := h.counts src (Player.playsOn_of_phase (Or.inr src))
    have heven := (hg.aimed s).even (Or.inr src)
    simp only [reduceCtorEq, ite_false, ite_true] at hsent htaken
    have hkind : ∀ k m, (g.sent s ++ [⟨.result, (g.party s).data⟩])[k]? = some m →
        m.kind = .forfeit ∨ m.kind = kindAt (k + startIter s) :=
      kind_append _ h.kind (Or.inr (by simp [hsent, kindAt, heven]))
    by_cases hover : (g.party s).userBoats = 0
    · exact .of_stopped
        (by simpa using Player.not_playsOn_of_ended (done.ends hover).1) (by simpa using hkind)
    · obtain ⟨hpc, -, hiter⟩ := done.goes hover
      refine .of_head (g.party s).firstIter (by simpa using hpc) (by simpa using hiter)
        ?_ (by simpa using htaken) (by simpa using hkind)
      simp only [Net.send_sent, List.length_append, List.length_singleton]
      omega
  | replyFailed e k pc last _ =>
    exact h.withdraws .move (by simpa using hlost e k rfl pc last)
  | @resign _ p' _ src same dst won lost post =>
    have hp' := Player.not_playsOn_of_ended dst
    rcases post with rfl | rfl
    · exact .of_stopped (by simpa using hp')
        (by simpa using kind_append ⟨.forfeit, FORFEIT⟩ h.kind (Or.inl rfl))
    · exact h.withdraws .move hp'

structure Synced (g : Game) : Prop where
  wellFormed : g.WellFormed
  paced : ∀ s, g.Paced s

theorem synced_start (board : Side → Board) (errno : Side → ℕ) : (start board errno).Synced :=
  ⟨wellFormed_start board errno, paced_start board errno⟩

theorem synced_step {e : Side × Act} (h : g.Synced) (hkept : g.ReplyKept e)
    (hstep : g.step e = some g') : g'.Synced := by
  obtain ⟨hturn, hg'⟩ := h.wellFormed.step hstep
  obtain ⟨-, p', hp', hpost⟩ := step_some hstep
  have hparty : g'.party e.1 = p' := posts_party hpost
  have hbefore : (g'.party e.1).playsOn → (g.party e.1).playsOn := by
    rw [hparty]
    exact Player.playsOn_before (h.wellFormed.aimed e.1) hp'
  have hlost : ∀ n k, e.2 = .sendErr n → (g.party e.1).pc = .send .result k →
      SEND_RETRY_LIMIT < k + 1 → ¬ (g'.party e.1).playsOn := by
    intro n k ha hpc hlast
    rw [hparty]
    refine Player.stops_of_fails hp' ?_ hkept
    rw [ha]
    exact ⟨_, k, hpc, hlast⟩
  refine ⟨hg', Side.forall_of e.1
    (paced_turn h.wellFormed (h.paced e.1) hturn hbefore hlost) ?_⟩
  obtain ⟨hparty, hsent, htaken⟩ := turn_frame hturn
  have hother := h.paced e.1.other
  exact ⟨by simpa [hparty, hsent] using hother.sent, by simpa [hparty, htaken] using hother.taken,
    by simpa [hsent] using hother.kind⟩

/-- What each player reads next is of the kind it takes it for, or a forfeit. -/
structure InStep (g : Game) : Prop where
  shot : ∀ s m, g.next s = some m → (g.party s).pc = .recvShot → m.kind ≠ .result
  result : ∀ s m, g.next s = some m → (g.party s).pc = .recvResult → m.kind ≠ .shot

theorem startIter_add (s : Side) : startIter s + startIter s.other = 1 := by
  cases s <;> rfl

theorem Synced.inStep (h : g.Synced) : g.InStep := by
  constructor
  · intro s m hm hpc hkind
    have hphase : (g.party s).phase = .defend := by simp [Player.phase, hpc]
    have htaken := (h.paced s).taken (by simp [Player.playsOn, Player.playing, hphase, hpc])
    have heven := (h.wellFormed.aimed s).even (Or.inl hphase)
    have hsum := startIter_add s
    have hodd : (g.taken s + startIter s.other) % 2 = 1 := by
      simp only [hphase, reduceCtorEq, ite_false] at htaken
      omega
    have := (h.paced s.other).kind _ m hm
    simp [hkind, kindAt, hodd] at this
  · intro s m hm hpc hkind
    have hphase : (g.party s).phase = .await := by simp [Player.phase, hpc]
    have htaken := (h.paced s).taken (Player.playsOn_of_phase (Or.inl hphase))
    have hodd := (h.wellFormed.aimed s).odd (Or.inr hphase)
    have hsum := startIter_add s
    have heven : (g.taken s + startIter s.other) % 2 = 0 := by
      simp only [hphase, reduceCtorEq, ite_false] at htaken
      omega
    have := (h.paced s.other).kind _ m hm
    simp [hkind, kindAt, heven] at this

/-! ### Failed calls -/

theorem stopped_step {e : Side × Act} (hg : g.WellFormed) (hstep : g.step e = some g')
    (h : ¬ (g.party s).playsOn) : ¬ (g'.party s).playsOn := by
  rcases e.1.eq_or_other s with rfl | rfl
  · obtain ⟨-, p', hp', hpost⟩ := step_some hstep
    rw [posts_party hpost]
    exact fun hp => h (Player.playsOn_before (hg.aimed e.1) hp' hp)
  · rwa [(turn_frame (hg.step hstep).1).1]

/-- In every state of the run each byte is of the kind it is taken for, and a
player whose `socketSend` or `socketRecv` returned -1 takes no further turn: it is leaving,
or it is at the test of the loop with its forfeit flag set. -/
def StaysInStep (board : Side → Board) (errno : Side → ℕ) (es : List (Side × Act)) : Prop :=
  Run.Along step InStep (start board errno) es ∧
    ∀ es₁ e es₂ es₃ g₁ g, es = es₁ ++ e :: es₂ ++ es₃ →
      Run.exec step (start board errno) es₁ = some g₁ → (g₁.party e.1).Fails e.2 →
      Run.exec step (start board errno) (es₁ ++ e :: es₂) = some g → ¬ (g.party e.1).playsOn

theorem plays_on_of_lost_reply {n k : ℕ} (hpc : (g.party s).pc = .send .result k)
    (hlast : SEND_RETRY_LIMIT < k + 1) (hboats : (g.party s).userBoats ≠ 0)
    (hflag : ¬ (g.party s).forfeitFlag = true) :
    ∃ g', g.step (s, .sendErr n) = some g' ∧ (g'.party s).playsOn := by
  have hallowed : g.Allowed s (.sendErr n) := trivial
  obtain ⟨p', hp', -, hgoes, hsame⟩ := Player.lost_reply (n := n) hpc hlast
  refine ⟨g.move s p', ?_, ?_⟩
  · rw [step, if_pos hallowed, hp']
    rfl
  · rw [Net.move_party]
    refine ⟨?_, fun hends => hflag (hsame.symm.trans hends.2)⟩
    rcases Player.phase_of_head (hgoes hboats) with h | h <;> simp [Player.playing, h]

theorem staysInStep_iff (board : Side → Board) (errno : Side → ℕ) (es : List (Side × Act)) :
    StaysInStep board errno es ↔ Run.Meets step ReplyKept (start board errno) es := by
  have hstep : ∀ g e g', Synced g → ReplyKept g e → step g e = some g' → Synced g' :=
    fun g e g' hg he hg' => synced_step hg he hg'
  have hstart := synced_start board errno
  constructor
  · rintro ⟨-, hstops⟩
    -- a lost answer is a failed call after which the player takes its next turn
    refine Run.meets_of_prefixes fun es₁ e es₂ g₁ hes hrun₁ n k hn hpc hlast => ?_
    by_contra hkept
    obtain ⟨hboats, hflag⟩ := not_or.mp hkept
    obtain ⟨s, a⟩ := e
    obtain rfl : a = .sendErr n := hn
    obtain ⟨g, hg, hplaying⟩ := plays_on_of_lost_reply (n := n) hpc hlast hboats hflag
    refine hstops es₁ (s, .sendErr n) [] es₂ g₁ g (by simp [hes]) hrun₁ ⟨_, _, hpc, hlast⟩ ?_ hplaying
    rw [Run.exec_append, hrun₁, Option.bind_some, Run.exec_cons, hg]
    rfl
  · intro hkept
    -- the first part is the invariant, the second a run from the failed call on
    refine ⟨Run.along_of_invariant hstep (fun g hg => hg.inStep) hstart hkept, ?_⟩
    rintro es₁ e es₂ es₃ g₁ g rfl hrun₁ hfails hrun
    have hkept' := Run.meets_prefix hkept
    have hg₁ := Run.exec_invariant hstep hstart (Run.meets_prefix hkept') hrun₁
    have hkept₁ := (Run.meets_rest hkept' hrun₁).1
    rw [Run.exec_append, hrun₁, Option.bind_some] at hrun
    obtain ⟨g₂, hg₂, hrest⟩ := Run.exec_cons_some hrun
    have hstopped : ¬ (g₂.party e.1).playsOn := by
      obtain ⟨-, p', hp', hpost⟩ := step_some hg₂
      rw [posts_party hpost]
      exact Player.stops_of_fails hp' hfails hkept₁
    have hend := Run.exec_invariant_of_step (I := fun u => u.WellFormed ∧ ¬ (u.party e.1).playsOn)
      (fun _ _ _ hu hu' => ⟨(hu.1.step hu').2, stopped_step hu.1 hu' hu.2⟩)
      ⟨(hg₁.wellFormed.step hg₂).2, hstopped⟩ hrest
    exact hend.2

def shootAt (s : Side) (digit : ℤ) : List (Side × Act) :=
  [(s, .tau), (s, .input digit), (s, .tau), (s, .input newline)]

/- The server shoots at cell 0 and the client's answer fails four times; the
client goes on to its own shot at cell 1. -/
def skewedRun : List (Side × Act) :=
  shootAt server 48 ++ [(server, .sendOk), (client, .tau), (client, .recv (.byte 0#8))] ++
    List.replicate 4 (client, .sendErr 32) ++ shootAt client 49 ++ [(client, .sendOk)]

theorem skewed_by_lost_reply :
    ¬ StaysInStep (fun _ => Player.firstCells) (fun _ => 0) skewedRun := by
  intro h
  have hlast : (Run.exec step (start (fun _ => Player.firstCells) fun _ => 0) skewedRun).map
      (fun g => ((g.party server).pc, g.next server)) = some (.recvResult, some ⟨.shot, 1#8⟩) := by
    decide +kernel
  obtain ⟨g, hrun, hg⟩ := Option.map_eq_some_iff.mp hlast
  obtain ⟨hpc, hnext⟩ := Prod.mk.inj hg
  exact (Run.along_last h.1 hrun).result server _ hnext hpc rfl

end Game

end SyeLabs.Battleship
