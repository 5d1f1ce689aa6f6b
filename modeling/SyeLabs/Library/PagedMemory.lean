import Mathlib.Data.List.Induction
import Mathlib.Logic.Function.Basic
import Mathlib.Logic.Nontrivial.Basic

/-!
# Memory behind a checked translation

A unit of memory management sends a virtual address to a physical cell, once for
loads and once for stores; either direction may refuse the access. The memory
itself maps cells to bytes. The two questions asked of such a unit are whether it
behaves as a flat memory, and which cells a program can observe.
-/

namespace SyeLabs.PagedMemory

variable {V P B E : Type*} [DecidableEq P]

structure Mmu (V P E : Type*) where
  load : V → Except E P
  store : V → Except E P

inductive Op (V B : Type*) where
  | load (v : V)
  | store (v : V) (b : B)
  deriving DecidableEq

inductive Reply (B E : Type*) where
  | byte (b : B)
  | stored
  | refused (e : E)
  deriving DecidableEq

def Mmu.step (M : Mmu V P E) (mem : P → B) : Op V B → (P → B) × Reply B E
  | .load v => match M.load v with
    | .ok p => (mem, .byte (mem p))
    | .error e => (mem, .refused e)
  | .store v b => match M.store v with
    | .ok p => (Function.update mem p b, .stored)
    | .error e => (mem, .refused e)

def Mmu.run (M : Mmu V P E) (mem : P → B) (ops : List (Op V B)) :
    (P → B) × List (Op V B × Reply B E) :=
  ops.foldl (fun s op => ((M.step s.1 op).1, s.2 ++ [(op, (M.step s.1 op).2)])) (mem, [])

theorem Mmu.run_snoc (M : Mmu V P E) (mem : P → B) (ops : List (Op V B)) (op : Op V B) :
    M.run mem (ops ++ [op]) =
      ((M.step (M.run mem ops).1 op).1,
        (M.run mem ops).2 ++ [(op, (M.step (M.run mem ops).1 op).2)]) := by
  simp [Mmu.run, List.foldl_append]

/-! ### Flat memory -/

/-- The value of the last accepted store to exactly `v` in a trace, `b₀` before any. -/
def lastStored [DecidableEq V] (b₀ : B) (v : V) (trace : List (Op V B × Reply B E)) : B :=
  trace.foldl (fun b x => match x with
    | (.store w c, .stored) => if w = v then c else b
    | _ => b) b₀

theorem lastStored_snoc [DecidableEq V] (b₀ : B) (v : V) (trace : List (Op V B × Reply B E))
    (x : Op V B × Reply B E) :
    lastStored b₀ v (trace ++ [x]) = match x with
      | (.store w c, .stored) => if w = v then c else lastStored b₀ v trace
      | _ => lastStored b₀ v trace := by
  simp [lastStored, List.foldl_append]

def Mmu.Reaches (M : Mmu V P E) (v : V) (p : P) : Prop := M.load v = .ok p ∨ M.store v = .ok p

/-- No cell is reached from two addresses, and no address reaches two cells. -/
structure Mmu.Injective (M : Mmu V P E) : Prop where
  address : ∀ v w p, M.Reaches v p → M.Reaches w p → v = w
  cell : ∀ v p q, M.Reaches v p → M.Reaches v q → p = q

theorem Mmu.Injective.run_reaches [DecidableEq V] {M : Mmu V P E} (hM : M.Injective) (b₀ : B)
    (ops : List (Op V B)) (v : V) (p : P) (hp : M.Reaches v p) :
    (M.run (fun _ => b₀) ops).1 p = lastStored b₀ v (M.run (fun _ => b₀) ops).2 := by
  induction ops using List.reverseRecOn with
  | nil => rfl
  | append_singleton ops op ih =>
    rw [Mmu.run_snoc, lastStored_snoc]
    cases op with
    | load w =>
      cases hw : M.load w <;> simpa [Mmu.step, hw] using ih
    | store w b =>
      cases hw : M.store w with
      | error e => simpa [Mmu.step, hw] using ih
      | ok q =>
        simp only [Mmu.step, hw]
        -- a store reaches the cell of `v` from the address `v` only
        by_cases hwv : w = v
        · have hpq : p = q := hM.cell v p q hp (hwv ▸ Or.inr hw)
          simp [hwv, hpq]
        · have hpq : p ≠ q := fun h => hwv (hM.address w v p (h ▸ Or.inr hw) hp)
          rw [Function.update_of_ne hpq, ih]
          simp [hwv]

/-- Every byte loaded is the one last stored at exactly that address. -/
def FlatTrace [DecidableEq V] (b₀ : B) (trace : List (Op V B × Reply B E)) : Prop :=
  ∀ before v b after, trace = before ++ (.load v, .byte b) :: after → b = lastStored b₀ v before

theorem FlatTrace.snoc [DecidableEq V] {b₀ : B} {trace : List (Op V B × Reply B E)}
    {x : Op V B × Reply B E} (h : FlatTrace b₀ trace)
    (hx : ∀ v b, x = (.load v, .byte b) → b = lastStored b₀ v trace) :
    FlatTrace b₀ (trace ++ [x]) := by
  intro before v b after heq
  rcases List.eq_nil_or_concat after with rfl | ⟨after, y, rfl⟩
  · obtain ⟨rfl, hlast⟩ := List.append_inj' heq rfl
    exact hx v b (List.head_eq_of_cons_eq hlast)
  · rw [List.concat_eq_append, ← List.cons_append, ← List.append_assoc] at heq
    exact h before v b after (List.append_inj' heq rfl).1

theorem Mmu.Injective.run_flat [DecidableEq V] {M : Mmu V P E} (hM : M.Injective) (b₀ : B)
    (ops : List (Op V B)) : FlatTrace b₀ (M.run (fun _ => b₀) ops).2 := by
  induction ops using List.reverseRecOn with
  | nil =>
    intro before v b after heq
    simp [Mmu.run] at heq
  | append_singleton ops op ih =>
    rw [Mmu.run_snoc]
    refine ih.snoc fun v b hx => ?_
    obtain ⟨rfl, hreply⟩ := Prod.mk.inj hx
    cases hv : M.load v with
    | error e => simp [Mmu.step, hv] at hreply
    | ok p =>
      have hb : (M.run (fun _ => b₀) ops).1 p = b := by simpa [Mmu.step, hv] using hreply
      rw [← hb]
      exact hM.run_reaches b₀ ops v p (Or.inl hv)

theorem Mmu.run_ops (M : Mmu V P E) (mem : P → B) (ops : List (Op V B)) :
    (M.run mem ops).2.map Prod.fst = ops := by
  induction ops using List.reverseRecOn with
  | nil => rfl
  | append_singleton ops op ih => simp [Mmu.run_snoc, ih]

/-! ### What can be observed -/

def Mmu.Observable (M : Mmu V P E) (p : P) : Prop := ∃ v, M.load v = .ok p

theorem Mmu.step_agree (M : Mmu V P E) {O : P → Prop} (hO : ∀ p, M.Observable p → O p)
    {mem mem' : P → B} (h : ∀ p, O p → mem p = mem' p) (op : Op V B) :
    (M.step mem op).2 = (M.step mem' op).2 ∧
      ∀ p, O p → (M.step mem op).1 p = (M.step mem' op).1 p := by
  cases op with
  | load v =>
    cases hv : M.load v with
    | error e => simpa [Mmu.step, hv] using h
    | ok p =>
      have hp := h p (hO p ⟨v, hv⟩)
      simpa [Mmu.step, hv, hp] using h
  | store v b =>
    cases hv : M.store v with
    | error e => simpa [Mmu.step, hv] using h
    | ok q =>
      refine ⟨by simp [Mmu.step, hv], fun p hp => ?_⟩
      simp only [Mmu.step, hv]
      by_cases hpq : p = q
      · simp [hpq]
      · rw [Function.update_of_ne hpq, Function.update_of_ne hpq]
        exact h p hp

theorem Mmu.run_agree (M : Mmu V P E) {O : P → Prop} (hO : ∀ p, M.Observable p → O p)
    {mem mem' : P → B} (h : ∀ p, O p → mem p = mem' p) (ops : List (Op V B)) :
    (M.run mem ops).2 = (M.run mem' ops).2 ∧
      ∀ p, O p → (M.run mem ops).1 p = (M.run mem' ops).1 p := by
  induction ops using List.reverseRecOn with
  | nil => exact ⟨rfl, h⟩
  | append_singleton ops op ih =>
    obtain ⟨hreply, hmem⟩ := M.step_agree hO ih.2 op
    rw [Mmu.run_snoc, Mmu.run_snoc]
    exact ⟨by rw [ih.1, hreply], hmem⟩

/-- Memories that agree on `O` are told apart by no sequence of operations
exactly when every observable cell is in `O`. -/
theorem Mmu.agree_iff [Nontrivial B] (M : Mmu V P E) (O : P → Prop) :
    (∀ mem mem' : P → B, (∀ p, O p → mem p = mem' p) →
        ∀ ops, (M.run mem ops).2 = (M.run mem' ops).2) ↔ ∀ p, M.Observable p → O p := by
  constructor
  · rintro h p ⟨v, hv⟩
    by_contra hp
    obtain ⟨b, c, hbc⟩ := exists_pair_ne B
    have hagree : ∀ q, O q → (fun _ : P => b) q = Function.update (fun _ : P => b) p c q := by
      intro q hq
      have hqp : q ≠ p := fun e => hp (e ▸ hq)
      simp [hqp]
    have htrace := h _ _ hagree [.load v]
    simp [Mmu.run, Mmu.step, hv, hbc] at htrace
  · intro h mem mem' hagree ops
    exact (M.run_agree h hagree ops).1

/-! ### What can be written -/

/-- The operation stores into the cell `c`. -/
def Mmu.Writes (M : Mmu V P E) (c : P) (op : Op V B) : Prop :=
  ∃ v b, op = .store v b ∧ M.store v = .ok c

theorem Mmu.step_untouched (M : Mmu V P E) {c : P} {op : Op V B} (h : ¬ M.Writes c op)
    (mem : P → B) : (M.step mem op).1 c = mem c := by
  cases op with
  | load v => cases hv : M.load v <;> simp [Mmu.step, hv]
  | store v b =>
    cases hv : M.store v with
    | error e => simp [Mmu.step, hv]
    | ok q =>
      have hcq : c ≠ q := fun hc => h ⟨v, b, rfl, hc ▸ hv⟩
      simp [Mmu.step, hv, hcq]

theorem Mmu.step_refused (M : Mmu V P E) {mem : P → B} {op : Op V B} {e : E}
    (h : (M.step mem op).2 = .refused e) : (M.step mem op).1 = mem := by
  cases op with
  | load v => cases hv : M.load v <;> simp [Mmu.step, hv]
  | store v b =>
    cases hv : M.store v with
    | error e => simp [Mmu.step, hv]
    | ok p => simp [Mmu.step, hv] at h

theorem Mmu.run_append (M : Mmu V P E) (mem : P → B) (ops ops' : List (Op V B)) :
    (M.run mem (ops ++ ops')).1 = (M.run (M.run mem ops).1 ops').1 := by
  induction ops' using List.reverseRecOn with
  | nil => simp [Mmu.run]
  | append_singleton ops' op ih => rw [← List.append_assoc, Mmu.run_snoc, Mmu.run_snoc, ih]

theorem Mmu.run_untouched (M : Mmu V P E) {c : P} {ops : List (Op V B)}
    (h : ∀ op ∈ ops, ¬ M.Writes c op) (mem : P → B) : (M.run mem ops).1 c = mem c := by
  induction ops using List.reverseRecOn with
  | nil => rfl
  | append_singleton ops op ih =>
    rw [Mmu.run_snoc, M.step_untouched (h op (by simp))]
    exact ih fun op' hop' => h op' (by simp [hop'])

/-- The last accepted store to a cell decides its content. -/
theorem Mmu.run_last_write (M : Mmu V P E) {c : P} {v : V} (hv : M.store v = .ok c) (b : B)
    (before : List (Op V B)) {after : List (Op V B)} (h : ∀ op ∈ after, ¬ M.Writes c op)
    (mem : P → B) : (M.run mem (before ++ .store v b :: after)).1 c = b := by
  have hsplit : before ++ .store v b :: after = (before ++ [.store v b]) ++ after := by simp
  rw [hsplit, Mmu.run_append, M.run_untouched h, Mmu.run_snoc]
  simp [Mmu.step, hv]

end SyeLabs.PagedMemory
