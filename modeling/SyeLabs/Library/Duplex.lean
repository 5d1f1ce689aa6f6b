import Mathlib.Logic.Function.Basic
import Mathlib.Data.List.Basic

/-!
# Two parties joined by two FIFO streams

Each party appends to its own stream and consumes the other's in order. A stream
is kept whole, with the number of messages already consumed, so the history of a
run can be read off its last state.
-/

namespace SyeLabs.Duplex

inductive Side where
  | left
  | right
  deriving DecidableEq

def Side.other : Side → Side
  | left => right
  | right => left

@[simp] theorem Side.other_other (s : Side) : s.other.other = s := by cases s <;> rfl
@[simp] theorem Side.other_ne (s : Side) : s.other ≠ s := by cases s <;> decide
@[simp] theorem Side.ne_other (s : Side) : s ≠ s.other := by cases s <;> decide

theorem Side.eq_or_other (s t : Side) : t = s ∨ t = s.other := by
  cases s <;> cases t <;> simp [Side.other]

theorem Side.forall_of {P : Side → Prop} (s : Side) (h : P s) (ho : P s.other) (t : Side) :
    P t := by
  rcases s.eq_or_other t with rfl | rfl
  · exact h
  · exact ho

variable {σ α : Type*}

structure Net (σ α : Type*) where
  party : Side → σ
  sent : Side → List α
  taken : Side → ℕ

namespace Net

variable (n : Net σ α) (s : Side)

/- The message `s` consumes next. -/
def next : Option α := (n.sent s.other)[n.taken s]?

/-- The messages `s` has still to consume. -/
def unread : List α := (n.sent s.other).drop (n.taken s)

def inFlight : ℕ := (n.sent s).length - n.taken s.other

def move (p : σ) : Net σ α := {n with party := Function.update n.party s p}

def send (p : σ) (m : α) : Net σ α :=
  {n with
    party := Function.update n.party s p
    sent := Function.update n.sent s (n.sent s ++ [m])}

def consume (p : σ) : Net σ α :=
  {n with
    party := Function.update n.party s p
    taken := Function.update n.taken s (n.taken s + 1)}

def Causal : Prop := ∀ s, n.taken s ≤ (n.sent s.other).length

variable (p : σ) (m : α)

@[simp] theorem move_party : (n.move s p).party s = p := by simp [move]
@[simp] theorem move_party_other : (n.move s p).party s.other = n.party s.other := by simp [move]
@[simp] theorem move_sent : (n.move s p).sent = n.sent := rfl
@[simp] theorem move_taken : (n.move s p).taken = n.taken := rfl

@[simp] theorem send_party : (n.send s p m).party s = p := by simp [send]
@[simp] theorem send_party_other : (n.send s p m).party s.other = n.party s.other := by simp [send]
@[simp] theorem send_sent : (n.send s p m).sent s = n.sent s ++ [m] := by simp [send]
@[simp] theorem send_sent_other : (n.send s p m).sent s.other = n.sent s.other := by simp [send]
@[simp] theorem send_taken : (n.send s p m).taken = n.taken := rfl

@[simp] theorem consume_party : (n.consume s p).party s = p := by simp [consume]
@[simp] theorem consume_party_other : (n.consume s p).party s.other = n.party s.other := by
  simp [consume]
@[simp] theorem consume_sent : (n.consume s p).sent = n.sent := rfl
@[simp] theorem consume_taken : (n.consume s p).taken s = n.taken s + 1 := by simp [consume]
@[simp] theorem consume_taken_other : (n.consume s p).taken s.other = n.taken s.other := by
  simp [consume]

variable {n s p m}

theorem next_eq_some (h : n.next s = some m) :
    n.taken s < (n.sent s.other).length ∧ m ∈ n.sent s.other := by
  obtain ⟨hlt, hget⟩ := List.getElem?_eq_some_iff.mp h
  exact ⟨hlt, hget ▸ List.getElem_mem hlt⟩

theorem inFlight_other_pos (h : n.next s = some m) : 0 < n.inFlight s.other := by
  have hlt := (next_eq_some h).1
  rw [inFlight, Side.other_other]
  omega

theorem Causal.move (h : n.Causal) : (n.move s p).Causal := h

theorem Causal.send (h : n.Causal) : (n.send s p m).Causal := by
  refine Side.forall_of s ?_ ?_
  · simpa using h s
  · have := h s.other
    rw [Side.other_other] at this
    simp only [send_taken, Side.other_other, send_sent, List.length_append]
    omega

theorem Causal.consume (h : n.Causal) (hm : n.next s = some m) : (n.consume s p).Causal := by
  refine Side.forall_of s ?_ ?_
  · rw [consume_taken, consume_sent]
    exact (next_eq_some hm).1
  · simpa using h s.other

theorem next_eq_head? : n.next s = (n.unread s).head? := List.head?_drop.symm

theorem unread_of_length (h : n.taken s = (n.sent s.other).length) : n.unread s = [] := by
  rw [unread, h, List.drop_length]

theorem unread_of_last (h : n.taken s + 1 = (n.sent s.other).length) (hm : n.next s = some m) :
    n.unread s = [m] := by
  have hlen : (n.unread s).length = 1 := by
    rw [unread, List.length_drop]
    omega
  obtain ⟨x, hx⟩ := List.length_eq_one_iff.mp hlen
  rw [next_eq_head?, hx] at hm
  rw [hx, Option.some.inj hm]

theorem unread_of_two {m' : α} (h : n.taken s + 2 = (n.sent s.other).length)
    (hm : n.next s = some m) (hm' : (n.sent s.other)[(n.sent s.other).length - 1]? = some m') :
    n.unread s = [m, m'] := by
  have hlen : (n.unread s).length = 2 := by
    rw [unread, List.length_drop]
    omega
  obtain ⟨x, y, hxy⟩ := List.length_eq_two.mp hlen
  have hlast : (n.unread s)[1]? = some m' := by
    rw [unread, List.getElem?_drop, ← hm', ← h]
    rfl
  rw [next_eq_head?, hxy] at hm
  rw [hxy] at hlast ⊢
  rw [Option.some.inj hm, Option.some.inj hlast]

theorem unread_move (t : Side) : (n.move s p).unread t = n.unread t := rfl

theorem unread_send : (n.send s p m).unread s = n.unread s := by
  simp [unread]

theorem Causal.unread_send_other (h : n.Causal) :
    (n.send s p m).unread s.other = n.unread s.other ++ [m] := by
  have := h s.other
  rw [Side.other_other] at this
  simp only [unread, Side.other_other, send_sent, send_taken]
  rw [List.drop_append_of_le_length this]

theorem unread_consume : (n.consume s p).unread s = (n.unread s).tail := by
  simp only [unread, consume_sent, consume_taken]
  rw [List.tail_drop]

theorem inFlight_move (t : Side) : (n.move s p).inFlight t = n.inFlight t := rfl

theorem Causal.inFlight_send (h : n.Causal) : (n.send s p m).inFlight s = n.inFlight s + 1 := by
  have := h s.other
  rw [Side.other_other] at this
  simp only [inFlight, send_sent, send_taken, List.length_append, List.length_singleton]
  omega

theorem inFlight_send_other : (n.send s p m).inFlight s.other = n.inFlight s.other := by
  simp [inFlight]

theorem inFlight_consume : (n.consume s p).inFlight s = n.inFlight s := by
  simp [inFlight]

theorem inFlight_consume_other : (n.consume s p).inFlight s.other = n.inFlight s.other - 1 := by
  simp only [inFlight, consume_sent, Side.other_other, consume_taken]
  omega

end Net

end SyeLabs.Duplex
