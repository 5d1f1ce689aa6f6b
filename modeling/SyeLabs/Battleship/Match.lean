import SyeLabs.Battleship.Steps
import SyeLabs.Library.Duplex
import SyeLabs.Library.Run

/-!
# Two players joined by a connection

The messages of the protocol are single bytes. The kind kept beside each byte is
the `socketSend` it comes from; no player ever sees it.
-/

namespace SyeLabs.Battleship
open Duplex

structure Message where
  kind : Sending
  byte : Byte
  deriving DecidableEq

abbrev Game := Net Player Message

def server : Side := .left
def client : Side := .right

def Pc.isEnded : Pc → Bool
  | .ended _ => true
  | _ => false

def Player.closed (p : Player) : Prop := p.pc.isEnded = true

instance (p : Player) : Decidable p.closed := inferInstanceAs (Decidable (p.pc.isEnded = true))

theorem Player.closed_iff {p : Player} : p.closed ↔ ∃ status, p.pc = .ended status := by
  unfold closed
  cases p.pc <;> simp [Pc.isEnded]

def Player.receiving (p : Player) : Prop := p.pc = .recvResult ∨ p.pc = .recvShot

instance (p : Player) : Decidable p.receiving := by
  unfold Player.receiving
  infer_instance

namespace Game

variable (g : Game)

/-- What the connection lets happen: bytes arrive in order, the end of the stream
after the last of them, and a call of `recv` blocks only while there is neither. -/
def Allowed (s : Side) : Act → Prop
  | .recv (.byte b) => (g.next s).map Message.byte = some b
  | .recv .closed => g.next s = none ∧ (g.party s.other).closed
  | .interrupt => (g.party s).receiving → g.next s = none ∧ ¬ (g.party s.other).closed
  | .sigpipe => (g.party s.other).closed
  | _ => True

instance (s : Side) (a : Act) : Decidable (g.Allowed s a) := by
  unfold Allowed
  split <;> infer_instance

def step (e : Side × Act) : Option Game :=
  if g.Allowed e.1 e.2 then
    ((g.party e.1).step e.2).map fun p => match e.2, (g.party e.1).pc with
      | .sendOk, .send what _ => g.send e.1 p ⟨what, (g.party e.1).sendByte what⟩
      | .recv (.byte _), _ => g.consume e.1 p
      | _, _ => g.move e.1 p
  else none

def start (board : Side → Board) (errno : Side → ℕ) : Game where
  party := fun s => Player.start (board s).grid (s = server) (errno s)
  sent := fun _ => []
  taken := fun _ => 0

end Game

/- What the action of a step does to the streams. -/
inductive Posts (g : Game) (s : Side) (p' : Player) : Act → Game → Prop where
  | send (what : Sending) (k : ℕ) (pc : (g.party s).pc = .send what k) :
      Posts g s p' .sendOk (g.send s p' ⟨what, (g.party s).sendByte what⟩)
  | consume (m : Message) (next : g.next s = some m) :
      Posts g s p' (.recv (.byte m.byte)) (g.consume s p')
  | silent {a} (silent : a.Silent) : Posts g s p' a (g.move s p')

inductive Withdraws (g : Game) (s : Side) (p' : Player) : Game → Prop where
  | move : Withdraws g s p' (g.move s p')
  | drop (m : Message) (next : g.next s = some m) : Withdraws g s p' (g.consume s p')

inductive Turn (g : Game) (s : Side) : Act → Game → Prop where
  | idle {a p'} (same : (g.party s).SameGame p') (phase : p'.phase = (g.party s).phase)
      (running : (g.party s).phase ≠ .ended)
      (usrInput : (g.party s).phase = .await → p'.usrInput = (g.party s).usrInput)
      (data : (g.party s).phase = .reply → p'.data = (g.party s).data) : Turn g s a (g.move s p')
  | leave {a p' g'} (same : (g.party s).SameGame p') (cause : (g.party s).Disturbed a)
      (src : (g.party s).phase = .attack ∨ (g.party s).phase = .defend)
      (dst : p'.phase = .leaving) (withdraws : Withdraws g s p' g') : Turn g s a g'
  | abort {a p' g'} (status : Exit) (same : (g.party s).SameGame p')
      (cause : (g.party s).Disturbed a) (src : (g.party s).phase ≠ .ended)
      (dst : p'.pc = .ended status) (withdraws : Withdraws g s p' g') : Turn g s a g'
  | shoot {p'} (c : Cell) (src : (g.party s).phase = .attack)
      (usrInput : p'.usrInput = cellByte c) (free : (g.party s).advGrid c = .default)
      (same : (g.party s).SameGame p') (dst : p'.phase = .await) :
      Turn g s .sendOk (g.send s p' ⟨.shot, cellByte c⟩)
  | answered {p'} (m : Message) (c : Cell) (next : g.next s = some m)
      (src : (g.party s).phase = .await) (usrInput : (g.party s).usrInput = cellByte c)
      (free : (g.party s).advGrid c = .default) (noForfeit : m.byte ≠ FORFEIT)
      (done : Answered (g.party s) m.byte c p') : Turn g s (.recv (.byte m.byte)) (g.consume s p')
  | attacked {p'} (m : Message) (c : Cell) (next : g.next s = some m)
      (src : (g.party s).phase = .defend) (byte : m.byte = cellByte c)
      (done : Attacked (g.party s) c p') : Turn g s (.recv (.byte m.byte)) (g.consume s p')
  | overrun {p'} (m : Message) (next : g.next s = some m) (src : (g.party s).phase = .defend)
      (noForfeit : m.byte ≠ FORFEIT) (wild : cell? m.byte = none)
      (same : (g.party s).SameGame p') (dst : p'.pc = .outOfBounds) :
      Turn g s (.recv (.byte m.byte)) (g.consume s p')
  | triumph {p'} (m : Message) (next : g.next s = some m)
      (src : (g.party s).phase = .await ∨ (g.party s).phase = .defend) (byte : m.byte = FORFEIT)
      (same : (g.party s).SameBoards p') (dst : p'.pc = .ended .success) (won : p'.Won)
      (told : p'.Told) (lost : p'.Lost ↔ (g.party s).Lost) : Turn g s (.recv (.byte m.byte)) (g.consume s p')
  | reply {p'} (src : (g.party s).phase = .reply) (done : Replied (g.party s) p') :
      Turn g s .sendOk (g.send s p' ⟨.result, (g.party s).data⟩)
  | replyFailed {p'} (e k : ℕ) (pc : (g.party s).pc = .send .result k)
      (last : SEND_RETRY_LIMIT < k + 1) (done : Replied (g.party s) p') :
      Turn g s (.sendErr e) (g.move s p')
  | resign {a p' g'} (src : (g.party s).phase = .leaving) (same : (g.party s).SameBoards p')
      (dst : p'.pc = .ended .success) (won : p'.Won ↔ (g.party s).Won) (lost : p'.Lost)
      (post : g' = g.send s p' ⟨.forfeit, FORFEIT⟩ ∨ g' = g.move s p') : Turn g s a g'

namespace Game

variable {g g' : Game} {s : Side}

theorem step_some {a : Act} (h : g.step (s, a) = some g') :
    g.Allowed s a ∧ ∃ p', (g.party s).step a = some p' ∧ Posts g s p' a g' := by
  simp only [step] at h
  split_ifs at h with hallowed
  obtain ⟨p', hp', hpost⟩ := Option.map_eq_some_iff.mp h
  refine ⟨hallowed, p', hp', ?_⟩
  cases a with
  | sendOk =>
    cases hpc : (g.party s).pc <;> simp only [Player.step, hpc, reduceCtorEq] at hp'
    case send what k =>
      rw [hpc] at hpost
      exact hpost ▸ .send what k hpc
  | recv r =>
    cases r with
    | byte b =>
      obtain ⟨m, hm, rfl⟩ := Option.map_eq_some_iff.mp hallowed
      exact hpost ▸ .consume m hm
    | closed => exact hpost ▸ .silent ⟨by simp, by simp⟩
    | error e => exact hpost ▸ .silent ⟨by simp, by simp⟩
  | tau => exact hpost ▸ .silent ⟨by simp, by simp⟩
  | input c => exact hpost ▸ .silent ⟨by simp, by simp⟩
  | sigtstp => exact hpost ▸ .silent ⟨by simp, by simp⟩
  | interrupt => exact hpost ▸ .silent ⟨by simp, by simp⟩
  | sendErr e => exact hpost ▸ .silent ⟨by simp, by simp⟩
  | sigpipe => exact hpost ▸ .silent ⟨by simp, by simp⟩

theorem posts_party {a : Act} {p' : Player} (h : Posts g s p' a g') :
    g'.party s = p' := by
  cases h <;> simp

theorem posts_withdraws {a : Act} {p' : Player} (h : Posts g s p' a g') (ha : a ≠ .sendOk) :
    Withdraws g s p' g' := by
  cases h with
  | send => exact absurd rfl ha
  | consume m hm => exact .drop m hm
  | silent => exact .move

theorem step_turn {a : Act} (haimed : (g.party s).Aimed) (h : g.step (s, a) = some g') :
    Turn g s a g' ∧ (g'.party s).Aimed := by
  obtain ⟨-, p', hp', hpost⟩ := step_some h
  obtain ⟨hmove, haimed'⟩ := Player.step_move haimed hp'
  refine ⟨?_, posts_party hpost ▸ haimed'⟩
  cases hmove with
  | idle silent same phase running usrInput data =>
    cases hpost with
    | send => exact absurd rfl silent.1
    | consume m => exact absurd rfl (silent.2 m.byte)
    | silent => exact .idle same phase running usrInput data
  | leave quiet same cause src dst =>
    exact .leave same cause src dst (posts_withdraws hpost quiet)
  | abort status quiet same cause src dst =>
    exact .abort status same cause src dst (posts_withdraws hpost quiet)
  | shoot c k src pc data usrInput free =>
    cases hpost with
    | send what k' pc' =>
      obtain ⟨rfl, -⟩ : Sending.shot = what ∧ k = k' := by simpa [pc] using pc'
      have hbyte : (g.party s).sendByte .shot = cellByte c := data
      have hsame : (g.party s).SameGame {g.party s with pc := .recvResult} :=
        Player.sameGame_of_out rfl (.of_frame rfl)
      rw [hbyte]
      exact .shoot c src usrInput free hsame rfl
    | silent silent => exact absurd rfl silent.1
  | answered b c src usrInput free errno noForfeit done =>
    cases hpost with
    | consume m next => exact .answered m c next src usrInput free noForfeit done
    | silent silent => exact absurd rfl (silent.2 b)
  | attacked c src errno done =>
    generalize hb : Act.recv (.byte (cellByte c)) = a at hpost ⊢
    cases hpost with
    | send => simp at hb
    | consume m next => exact .attacked m c next src (by simpa using hb.symm) done
    | silent silent => exact absurd hb.symm (silent.2 _)
  | overrun b src errno noForfeit wild same dst =>
    cases hpost with
    | consume m next => exact .overrun m next src noForfeit wild same dst
    | silent silent => exact absurd rfl (silent.2 b)
  | triumph src errno same dst won told lost =>
    generalize hb : Act.recv (.byte FORFEIT) = a at hpost ⊢
    cases hpost with
    | send => simp at hb
    | consume m next => exact .triumph m next src (by simpa using hb.symm) same dst won told lost
    | silent silent => exact absurd hb.symm (silent.2 _)
  | reply k pc done =>
    cases hpost with
    | send what k' pc' =>
      obtain ⟨rfl, -⟩ : Sending.result = what ∧ k = k' := by simpa [pc] using pc'
      exact .reply (by simp [Player.phase, pc]) done
    | silent silent => exact absurd rfl silent.1
  | replyFailed e k pc last done =>
    cases hpost with
    | silent => exact .replyFailed e k pc last done
  | resign k how pc same dst won lost =>
    have src : (g.party s).phase = .leaving := by simp [Player.phase, pc]
    cases hpost with
    | send what k' pc' =>
      obtain ⟨rfl, -⟩ : Sending.forfeit = what ∧ k = k' := by simpa [pc] using pc'
      exact .resign src same dst won lost (Or.inl rfl)
    | consume m => simp at how
    | silent => exact .resign src same dst won lost (Or.inr rfl)

theorem turn_frame {a : Act} (h : Turn g s a g') : g'.party s.other = g.party s.other ∧
    g'.sent s.other = g.sent s.other ∧ g'.taken s.other = g.taken s.other := by
  have hwithdraws : ∀ {p' g'}, Withdraws g s p' g' → g'.party s.other = g.party s.other ∧
      g'.sent s.other = g.sent s.other ∧ g'.taken s.other = g.taken s.other := by
    rintro p' g' (_ | ⟨m, -⟩) <;> simp
  cases h with
  | leave _ _ _ _ withdraws => exact hwithdraws withdraws
  | abort _ _ _ _ _ withdraws => exact hwithdraws withdraws
  | resign _ _ _ _ _ post => rcases post with rfl | rfl <;> simp
  | _ => simp

theorem turn_causal {a : Act} (h : Turn g s a g') (hcausal : g.Causal) : g'.Causal := by
  have hwithdraws : ∀ {p' g'}, Withdraws g s p' g' → g'.Causal := by
    rintro p' g' (_ | ⟨m, hm⟩)
    · exact hcausal.move
    · exact hcausal.consume hm
  cases h with
  | idle => exact hcausal.move
  | leave _ _ _ _ withdraws => exact hwithdraws withdraws
  | abort _ _ _ _ _ withdraws => exact hwithdraws withdraws
  | shoot => exact hcausal.send
  | answered m c next => exact hcausal.consume next
  | attacked m c next => exact hcausal.consume next
  | overrun m next => exact hcausal.consume next
  | triumph m next => exact hcausal.consume next
  | reply => exact hcausal.send
  | replyFailed => exact hcausal.move
  | resign _ _ _ _ _ post =>
    rcases post with rfl | rfl
    · exact hcausal.send
    · exact hcausal.move

structure WellFormed (g : Game) : Prop where
  aimed : ∀ s, (g.party s).Aimed
  causal : g.Causal

theorem wellFormed_start (board : Side → Board) (errno : Side → ℕ) :
    (start board errno).WellFormed :=
  ⟨fun s => Player.aimed_start _ _ _, fun s => by simp [start]⟩

theorem WellFormed.step {e : Side × Act} (hg : g.WellFormed) (h : g.step e = some g') :
    Turn g e.1 e.2 g' ∧ g'.WellFormed := by
  obtain ⟨hturn, haimed⟩ := step_turn (hg.aimed e.1) h
  refine ⟨hturn, Side.forall_of e.1 haimed ?_, turn_causal hturn hg.causal⟩
  rw [(turn_frame hturn).1]
  exact hg.aimed e.1.other

end Game

end SyeLabs.Battleship
