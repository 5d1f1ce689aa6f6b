import SyeLabs.Library.Interaction

/-!
# Programs on a machine

Programs that make calls follow one another, and a machine answers the calls from its state.
What a sequence of programs does to the machine is what each does, one after the other.
-/

namespace SyeLabs.Interaction.Prog

universe u

variable {C A σ : Type*} {R S : Type u}

def bind : Prog C A R → (R → Prog C A S) → Prog C A S
  | done r, f => f r
  | call c next, f => call c fun a => (next a).bind f

instance : Monad (Prog C A) where
  pure := done
  bind := bind

/-- One call, for its answer. -/
def ask (c : C) : Prog C A A := call c done

/-- The state a machine is left in, and what the program ends with. -/
def run (m : σ → C → σ × A) : σ → Prog C A R → σ × R
  | s, done r => (s, r)
  | s, call c next => (next (m s c).2).run m (m s c).1

variable (m : σ → C → σ × A) (s : σ)

@[simp] theorem run_pure (r : R) : (pure r : Prog C A R).run m s = (s, r) := rfl

@[simp] theorem run_ask (c : C) : (ask c).run m s = m s c := (rfl)

@[simp] theorem run_bind (p : Prog C A R) (f : R → Prog C A S) :
    (p >>= f).run m s = (f (p.run m s).2).run m (p.run m s).1 := by
  change (p.bind f).run m s = _
  induction p generalizing s with
  | done r => rfl
  | call c next ih => exact ih (m s c).2 (m s c).1

@[simp] theorem run_ite (c : Prop) [Decidable c] (p q : Prog C A R) :
    (if c then p else q).run m s = if c then p.run m s else q.run m s := by
  split <;> rfl

/-- Whatever the answers are, every call that is made satisfies `allowed`. -/
def Only (allowed : C → Prop) : Prog C A R → Prop
  | done _ => True
  | call c next => allowed c ∧ ∀ a, (next a).Only allowed

variable {allowed : C → Prop}

theorem only_pure (r : R) : (pure r : Prog C A R).Only allowed := trivial

theorem only_ask {c : C} (h : allowed c) : (ask c : Prog C A A).Only allowed :=
  ⟨h, fun _ => trivial⟩

theorem only_bind {p : Prog C A R} {f : R → Prog C A S} (hp : p.Only allowed)
    (hf : ∀ r, (f r).Only allowed) : (p >>= f).Only allowed := by
  induction p with
  | done r => exact hf r
  | call c next ih => exact ⟨hp.1, fun a => ih a (hp.2 a)⟩

/-- A machine that answers the allowed calls as a part of it does goes through the program as
that part does. -/
theorem run_lift {τ : Type*} {n : τ → C → τ × A} (lift : σ → τ)
    (hlift : ∀ s c, allowed c → n (lift s) c = (lift (m s c).1, (m s c).2))
    {p : Prog C A R} (hp : p.Only allowed) :
    p.run n (lift s) = (lift (p.run m s).1, (p.run m s).2) := by
  induction p generalizing s with
  | done r => rfl
  | call c next ih =>
    simp only [run, hlift s c hp.1]
    exact ih _ _ (hp.2 _)

end SyeLabs.Interaction.Prog
