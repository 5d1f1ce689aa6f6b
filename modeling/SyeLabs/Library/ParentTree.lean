import Mathlib.Logic.Relation
import Mathlib.Logic.Function.Basic
import Mathlib.Data.Set.Insert

/-!
# Trees given by parent pointers

Each node knows its parent. `Rooted` says that the pointers of a set of nodes stay
inside it and lead from every node to one root. It is kept when a leaf is hung under
a node and when a leaf is taken away.
-/

namespace SyeLabs.ParentTree

variable {α : Type*} {parent parent' : α → Option α} {nodes : Set α} {root a b : α}

def ChildOf (parent : α → Option α) (a b : α) : Prop := parent a = some b

structure Rooted (parent : α → Option α) (nodes : Set α) (root : α) : Prop where
  root_mem : root ∈ nodes
  root_parent : parent root = none
  parent_mem : ∀ a ∈ nodes, a ≠ root → ∃ p ∈ nodes, parent a = some p
  reach : ∀ a ∈ nodes, Relation.ReflTransGen (ChildOf parent) a root

theorem Rooted.closed (h : Rooted parent nodes root) (ha : a ∈ nodes) (hab : ChildOf parent a b) :
    b ∈ nodes := by
  by_cases hroot : a = root
  · subst hroot
    exact nomatch h.root_parent.symm.trans hab
  · obtain ⟨p, hp, hparent⟩ := h.parent_mem a ha hroot
    obtain rfl := Option.some.inj (hparent.symm.trans hab)
    exact hp

/- From a node that reaches one without a parent, no path comes back. -/
theorem no_cycle_of_reach (hroot : parent root = none)
    (h : Relation.ReflTransGen (ChildOf parent) a root) :
    ¬ Relation.TransGen (ChildOf parent) a a := by
  -- along the path, a cycle would move one step closer to the root
  induction h using Relation.ReflTransGen.head_induction_on with
  | refl =>
    intro hcycle
    obtain ⟨b, hb, _⟩ := Relation.TransGen.head'_iff.mp hcycle
    exact nomatch hroot.symm.trans hb
  | head hab _ ih =>
    intro hcycle
    obtain ⟨_, hnext, hback⟩ := Relation.TransGen.head'_iff.mp hcycle
    cases hab.symm.trans hnext
    exact ih (.tail' hback hab)

theorem Rooted.acyclic (h : Rooted parent nodes root) (ha : a ∈ nodes) :
    ¬ Relation.TransGen (ChildOf parent) a a :=
  no_cycle_of_reach h.root_parent (h.reach a ha)

theorem Rooted.congr (h : Rooted parent nodes root)
    (heq : ∀ a ∈ nodes, parent' a = parent a) : Rooted parent' nodes root := by
  refine ⟨h.root_mem, (heq root h.root_mem).trans h.root_parent, fun a ha hroot => ?_, fun a ha => ?_⟩
  · obtain ⟨p, hp, hparent⟩ := h.parent_mem a ha hroot
    exact ⟨p, hp, (heq a ha).trans hparent⟩
  · have hreach := h.reach a ha
    induction hreach using Relation.ReflTransGen.head_induction_on with
    | refl => exact .refl
    | head hab _ ih => exact .head ((heq _ ha).trans hab) (ih (h.closed ha hab))

theorem Rooted.insertLeaf [DecidableEq α] {p : α} (h : Rooted parent nodes root) (ha : a ∉ nodes)
    (hp : p ∈ nodes) : Rooted (Function.update parent a (some p)) (insert a nodes) root := by
  have hsame : ∀ b ∈ nodes, Function.update parent a (some p) b = parent b := fun b hb =>
    Function.update_of_ne (fun hba : b = a => ha (hba ▸ hb)) _ _
  have hold := h.congr hsame
  have hnew : Function.update parent a (some p) a = some p := Function.update_self _ _ _
  refine ⟨Or.inr h.root_mem, hold.root_parent, fun b hb hroot => ?_, fun b hb => ?_⟩
  · rcases hb with rfl | hb
    · exact ⟨p, Or.inr hp, hnew⟩
    · obtain ⟨q, hq, hparent⟩ := hold.parent_mem b hb hroot
      exact ⟨q, Or.inr hq, hparent⟩
  · rcases hb with rfl | hb
    · exact .head hnew (hold.reach p hp)
    · exact hold.reach b hb

theorem Rooted.eraseLeaf (h : Rooted parent nodes root) (hroot : a ≠ root)
    (hleaf : ∀ b ∈ nodes, parent b ≠ some a) : Rooted parent (nodes \ {a}) root := by
  refine ⟨⟨h.root_mem, fun hra => hroot hra.symm⟩, h.root_parent, fun b hb hb' => ?_,
    fun b hb => h.reach b hb.1⟩
  obtain ⟨p, hp, hparent⟩ := h.parent_mem b hb.1 hb'
  exact ⟨p, ⟨hp, fun hpa => hleaf b hb.1 (hparent.trans (congrArg some hpa))⟩, hparent⟩

end SyeLabs.ParentTree
