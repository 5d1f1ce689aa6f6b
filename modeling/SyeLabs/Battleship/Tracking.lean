import SyeLabs.Battleship.Sync

/-!
# Undisturbed games

Without signals and failures the four boards are tied together by what is in
flight: the attacker's picture of the opponent's grid is up to date except for
the one shot whose answer it has not read.
-/

namespace SyeLabs.Battleship
open Duplex

/-- Actions of a run without SIGTSTP and without a socket failure. The end of the
stream is no failure by itself: it may follow once the peer has ended. -/
def Act.Undisturbed (a : Act) : Prop := a.Calm ∨ a = .recv .closed

/-- What the attacker can know of a cell of the opponent's grid. -/
def GridState.seen : GridState → GridState
  | sunkenBoat => sunkenBoat
  | missedShot => missedShot
  | _ => default

structure Agree (p q : Player) : Prop where
  cells : ∀ c, p.advGrid c = (q.userGrid c).seen
  boats : p.advBoats = q.userBoats

/-- They do so up to the shot at `u`, whose answer is `r`. -/
structure Pending (p q : Player) (u : Cell) (r : Byte) : Prop where
  cells : ∀ c, c ≠ u → p.advGrid c = (q.userGrid c).seen
  free : p.advGrid u = .default
  answer : q.userGrid u = .sunkenBoat ∧ r = GridState.boat.toByte ∧ p.advBoats = q.userBoats + 1 ∨
    q.userGrid u = .missedShot ∧ r = GridState.missedShot.toByte ∧ p.advBoats = q.userBoats

/- Messages sent and read in the turn that a player has not completed. -/
def Phase.sentIn : Phase → ℕ
  | await | ended => 1
  | _ => 0

def Phase.takenIn : Phase → ℕ
  | reply | ended => 1
  | _ => 0

def Phase.OnTurn : Phase → ℕ → Prop
  | attack, n | await, n => n % 2 = 1
  | defend, n | reply, n => n % 2 = 0
  | _, _ => True

/-- No signal has come, and none has interrupted a call. -/
def Player.Undisturbed (p : Player) : Prop := p.forfeitFlag = false ∧ p.errno ≠ EINTR

namespace Game

structure Counted (g : Game) (s : Side) : Prop where
  sent : (g.sent s).length + startIter s = (g.party s).firstIter + (g.party s).phase.sentIn
  taken : g.taken s + startIter s = (g.party s).firstIter + (g.party s).phase.takenIn

/-- How far the last shot of `s` has come. -/
inductive Tracks (g : Game) (s : Side) : Prop where
  | settled (phase : (g.party s).phase ≠ .await) (agree : Agree (g.party s) (g.party s.other))
  | flying (u : Cell) (phase : (g.party s).phase = .await)
      (usrInput : (g.party s).usrInput = cellByte u) (free : (g.party s).advGrid u = .default)
      (last : (g.sent s)[(g.sent s).length - 1]? = some ⟨.shot, cellByte u⟩)
      (unread : g.taken s.other < (g.sent s).length)
      (agree : Agree (g.party s) (g.party s.other))
  | landed (u : Cell) (r : Byte) (phase : (g.party s).phase = .await)
      (usrInput : (g.party s).usrInput = cellByte u)
      (read : g.taken s.other = (g.sent s).length)
      (pending : Pending (g.party s) (g.party s.other) u r)
      (answer : (g.party s.other).phase = .reply ∧ (g.party s.other).data = r ∨
        g.next s = some ⟨.result, r⟩)

/-- The verdict is out once a player has ended, and the loser ends first. -/
structure Verdict (g : Game) (s : Side) : Prop where
  open_ : (g.party s).phase ≠ .ended → ¬ (g.party s).Won ∧ ¬ (g.party s).Lost ∧
    ((g.party s).phase ≠ .reply → (g.party s).userBoats ≠ 0)
  ended : (g.party s).phase = .ended →
    ((g.party s).Won ∧ ¬ (g.party s).Lost ∧ (g.party s.other).phase = .ended ∧
        (g.party s.other).Lost) ∨
      ((g.party s).Lost ∧ ¬ (g.party s).Won ∧ (g.party s).userBoats = 0 ∧
        ((g.party s.other).phase = .await ∨
          (g.party s.other).phase = .ended ∧ (g.party s.other).Won))

structure Tied (g : Game) : Prop where
  wellFormed : g.WellFormed
  stays : ∀ s, (g.party s).phase ≠ .leaving
  counted : ∀ s, g.Counted s
  tracks : ∀ s, g.Tracks s
  inv : ∀ s, (g.party s).Inv
  verdict : ∀ s, g.Verdict s

structure Fair (g : Game) : Prop extends g.Tied where
  signals : ∀ s, (g.party s).Undisturbed

variable {g g' : Game} {s : Side}

/-! ### Phases against counts -/

theorem Tied.counts (hg : g.Tied) (s : Side) :
    (g.sent s).length + startIter s = (g.party s).firstIter + (g.party s).phase.sentIn ∧
    g.taken s + startIter s = (g.party s).firstIter + (g.party s).phase.takenIn ∧
    (g.sent s.other).length + startIter s.other =
      (g.party s.other).firstIter + (g.party s.other).phase.sentIn ∧
    g.taken s.other + startIter s.other =
      (g.party s.other).firstIter + (g.party s.other).phase.takenIn ∧
    (g.party s).phase.OnTurn (g.party s).firstIter ∧
    (g.party s.other).phase.OnTurn (g.party s.other).firstIter ∧
    g.taken s ≤ (g.sent s.other).length ∧ g.taken s.other ≤ (g.sent s).length ∧
    startIter s + startIter s.other = 1 := by
  have hturn : ∀ t, (g.party t).phase.OnTurn (g.party t).firstIter := by
    intro t
    have hodd := (hg.wellFormed.aimed t).odd
    have heven := (hg.wellFormed.aimed t).even
    cases ht : (g.party t).phase <;> simp [Phase.OnTurn, ht] at hodd heven ⊢ <;> assumption
  have hcausal := hg.wellFormed.causal s.other
  rw [Side.other_other] at hcausal
  exact ⟨(hg.counted s).sent, (hg.counted s).taken, (hg.counted s.other).sent,
    (hg.counted s.other).taken, hturn s, hturn s.other, hg.wellFormed.causal s, hcausal,
    startIter_add s⟩

theorem Tied.shot_next (hg : g.Tied) (hs : (g.party s).phase = .defend)
    (hread : g.taken s < (g.sent s.other).length) :
    (g.party s.other).phase = .await ∧ g.taken s + 1 = (g.sent s.other).length := by
  obtain ⟨h1, h2, h3, h4, h5, h6, h7, h8, h9⟩ := hg.counts s
  cases ho : (g.party s.other).phase <;>
    simp only [hs, ho, Phase.sentIn, Phase.takenIn, Phase.OnTurn, reduceCtorEq, true_and,
      false_and] at h1 h2 h3 h4 h5 h6 ⊢ <;> omega

theorem Tied.answer_next (hg : g.Tied) (hs : (g.party s).phase = .await)
    (hread : g.taken s < (g.sent s.other).length) :
    g.taken s.other = (g.sent s).length ∧ (g.party s.other).phase ≠ .reply := by
  obtain ⟨h1, h2, h3, h4, h5, h6, h7, h8, h9⟩ := hg.counts s
  cases ho : (g.party s.other).phase <;>
    simp only [hs, ho, Phase.sentIn, Phase.takenIn, Phase.OnTurn, ne_eq, reduceCtorEq,
      not_true_eq_false, not_false_eq_true, and_true, and_false] at h1 h2 h3 h4 h5 h6 ⊢ <;> omega

theorem Tied.reply_awaited (hg : g.Tied) (hs : (g.party s).phase = .reply) :
    (g.party s.other).phase = .await ∧ g.taken s = (g.sent s.other).length ∧
      g.taken s.other = (g.sent s).length := by
  obtain ⟨h1, h2, h3, h4, h5, h6, h7, h8, h9⟩ := hg.counts s
  cases ho : (g.party s.other).phase <;>
    simp only [hs, ho, Phase.sentIn, Phase.takenIn, Phase.OnTurn, reduceCtorEq, true_and,
      false_and] at h1 h2 h3 h4 h5 h6 ⊢ <;> omega

theorem Tied.answer_before_shot (hg : g.Tied) (hs : (g.party s).phase = .await)
    (ho : (g.party s.other).phase = .await) (hread : g.taken s < (g.sent s.other).length) :
    g.taken s + 1 < (g.sent s.other).length := by
  obtain ⟨h1, h2, h3, h4, h5, h6, h7, h8, h9⟩ := hg.counts s
  simp only [hs, ho, Phase.sentIn, Phase.takenIn, Phase.OnTurn] at h1 h2 h3 h4 h5 h6
  omega

theorem Tied.not_both (hg : g.Tied) :
    ¬ ((g.party s).phase = .attack ∧ (g.party s.other).phase = .attack) ∧
      ¬ ((g.party s).phase = .defend ∧ (g.party s.other).phase = .defend) := by
  obtain ⟨h1, h2, h3, h4, h5, h6, h7, h8, h9⟩ := hg.counts s
  refine ⟨fun ⟨hs, ho⟩ => ?_, fun ⟨hs, ho⟩ => ?_⟩ <;>
    simp only [hs, ho, Phase.sentIn, Phase.takenIn, Phase.OnTurn] at h1 h2 h3 h4 h5 h6 <;> omega

/-! ### What is read -/

theorem Tied.reads_shot (hg : g.Tied) {m : Message} (hs : (g.party s).phase = .defend)
    (hm : g.next s = some m) : ∃ u, m = ⟨.shot, cellByte u⟩ ∧
      (g.party s.other).phase = .await ∧ (g.party s.other).usrInput = cellByte u ∧
      (g.party s.other).advGrid u = .default ∧ Agree (g.party s.other) (g.party s) := by
  have hread := (Net.next_eq_some hm).1
  obtain ⟨hawait, hlast⟩ := hg.shot_next hs hread
  have htracks := hg.tracks s.other
  cases htracks with
  | settled phase => exact absurd hawait phase
  | flying u phase usrInput free last unread agree =>
    rw [← hlast, Nat.add_sub_cancel] at last
    rw [Side.other_other] at agree
    exact ⟨u, Option.some.inj (hm.symm.trans last), hawait, usrInput, free, agree⟩
  | landed u r phase usrInput read =>
    rw [Side.other_other] at read
    omega

theorem Tied.reads_result (hg : g.Tied) {m : Message} (hs : (g.party s).phase = .await)
    (hm : g.next s = some m) : ∃ u r, m = ⟨.result, r⟩ ∧ (g.party s).usrInput = cellByte u ∧
      Pending (g.party s) (g.party s.other) u r := by
  have hread := (Net.next_eq_some hm).1
  obtain ⟨hall, hreply⟩ := hg.answer_next hs hread
  cases hg.tracks s with
  | settled phase => exact absurd hs phase
  | flying u phase usrInput free last unread => omega
  | landed u r phase usrInput read pending answer =>
    rcases answer with ⟨hphase, -⟩ | hnext
    · exact absurd hphase hreply
    · exact ⟨u, r, Option.some.inj (hm.symm.trans hnext), usrInput, pending⟩

theorem pending_ne_forfeit {p q : Player} {u : Cell} {r : Byte} (h : Pending p q u r) :
    r ≠ FORFEIT := by
  rcases h.answer with ⟨-, rfl, -⟩ | ⟨-, rfl, -⟩ <;> decide

inductive FairTurn (g : Game) (s : Side) : Game → Prop where
  | idle {p'} (same : (g.party s).SameGame p') (phase : p'.phase = (g.party s).phase)
      (running : (g.party s).phase ≠ .ended)
      (usrInput : (g.party s).phase = .await → p'.usrInput = (g.party s).usrInput)
      (data : (g.party s).phase = .reply → p'.data = (g.party s).data) : FairTurn g s (g.move s p')
  | shoot {p'} (c : Cell) (src : (g.party s).phase = .attack) (usrInput : p'.usrInput = cellByte c)
      (free : (g.party s).advGrid c = .default) (same : (g.party s).SameGame p')
      (dst : p'.phase = .await) : FairTurn g s (g.send s p' ⟨.shot, cellByte c⟩)
  | answered {p'} (c : Cell) (r : Byte) (src : (g.party s).phase = .await)
      (next : g.next s = some ⟨.result, r⟩) (pending : Pending (g.party s) (g.party s.other) c r)
      (done : Answered (g.party s) r c p') : FairTurn g s (g.consume s p')
  | attacked {p'} (c : Cell) (src : (g.party s).phase = .defend)
      (next : g.next s = some ⟨.shot, cellByte c⟩)
      (awaits : (g.party s.other).phase = .await)
      (usrInput : (g.party s.other).usrInput = cellByte c)
      (free : (g.party s.other).advGrid c = .default)
      (agree : Agree (g.party s.other) (g.party s)) (done : Attacked (g.party s) c p') :
      FairTurn g s (g.consume s p')
  | reply {p'} (src : (g.party s).phase = .reply) (done : Replied (g.party s) p') :
      FairTurn g s (g.send s p' ⟨.result, (g.party s).data⟩)

theorem Tied.not_disturbed (hg : g.Tied) (hs : (g.party s).Undisturbed) {a : Act} (ha : a.Calm) :
    ¬ (g.party s).Disturbed a := by
  rintro (h | h | h | h)
  · simp [hs.1] at h
  · exact hs.2 h
  · exact hg.stays s h
  · exact h ha

theorem Tied.turn (hg : g.Tied) (hs : (g.party s).Undisturbed) {a : Act} (ha : a.Calm)
    (hturn : Turn g s a g') : FairTurn g s g' := by
  cases hturn with
  | idle same phase running usrInput data => exact .idle same phase running usrInput data
  | leave _ cause => exact absurd cause (hg.not_disturbed hs ha)
  | abort _ _ cause => exact absurd cause (hg.not_disturbed hs ha)
  | shoot c src usrInput free same dst => exact .shoot c src usrInput free same dst
  | answered m c next src usrInput free noForfeit done =>
    obtain ⟨u, r, rfl, husr, hpending⟩ := hg.reads_result src next
    obtain rfl := cellByte_inj (usrInput.symm.trans husr)
    exact .answered c r src next hpending done
  | attacked m c next src byte done =>
    obtain ⟨u, rfl, hawait, husr, hfree, hagree⟩ := hg.reads_shot src next
    obtain rfl := cellByte_inj byte
    exact .attacked u src next hawait husr hfree hagree done
  | overrun m next src noForfeit wild =>
    obtain ⟨u, rfl, -⟩ := hg.reads_shot src next
    simp at wild
  | triumph m next src byte =>
    rcases src with src | src
    · obtain ⟨u, r, rfl, -, hpending⟩ := hg.reads_result src next
      exact absurd byte (pending_ne_forfeit hpending)
    · obtain ⟨u, rfl, -⟩ := hg.reads_shot src next
      exact absurd byte (cellByte_ne_forfeit u)
  | reply src done => exact .reply src done
  | replyFailed => exact absurd ha id
  | resign src => exact absurd src (hg.stays s)

end Game

end SyeLabs.Battleship
