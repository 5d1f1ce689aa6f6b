import Mathlib.InformationTheory.Coding.UniquelyDecodable
import Mathlib.Data.Set.Function

/-!
# Prefix codes

Code words of which none is the beginning of another can be told apart when they are
written one after the other.
-/

namespace SyeLabs.PrefixCode

open InformationTheory

variable {α β : Type*}

theorem uniquelyDecodable {S : Set (List β)} (hne : [] ∉ S)
    (hbeginning : ∀ u ∈ S, ∀ v ∈ S, u <+: v → u = v) : UniquelyDecodable S := by
  intro us vs hus hvs hflat
  induction us generalizing vs with
  | nil =>
    cases vs with
    | nil => rfl
    | cons v vs =>
      rw [List.flatten_nil, List.flatten_cons] at hflat
      have hv : v = [] := (List.append_eq_nil_iff.mp hflat.symm).1
      exact absurd (hv ▸ hvs v (List.mem_cons_self ..)) hne
  | cons u us ih =>
    cases vs with
    | nil =>
      rw [List.flatten_nil, List.flatten_cons] at hflat
      have hu : u = [] := (List.append_eq_nil_iff.mp hflat).1
      exact absurd (hu ▸ hus u (List.mem_cons_self ..)) hne
    | cons v vs =>
      rw [List.flatten_cons, List.flatten_cons] at hflat
      have hu := hus u (List.mem_cons_self ..)
      have hv := hvs v (List.mem_cons_self ..)
      have hsame : u = v := by
        have hleft : u <+: u ++ us.flatten := List.prefix_append _ _
        have hright : v <+: u ++ us.flatten := hflat ▸ List.prefix_append _ _
        rcases List.prefix_or_prefix_of_prefix hleft hright with h | h
        · exact hbeginning u hu v hv h
        · exact (hbeginning v hv u hu h).symm
      subst hsame
      rw [ih vs (fun w hw => hus w (List.mem_cons_of_mem _ hw))
        (fun w hw => hvs w (List.mem_cons_of_mem _ hw)) (List.append_cancel_left hflat)]

theorem map_injOn {γ : Type*} {f : α → γ} {S : Set α} (hinj : Set.InjOn f S) {as bs : List α}
    (has : ∀ a ∈ as, a ∈ S) (hbs : ∀ b ∈ bs, b ∈ S) (h : as.map f = bs.map f) : as = bs := by
  induction as generalizing bs with
  | nil =>
    cases bs with
    | nil => rfl
    | cons b bs => cases h
  | cons a as ih =>
    cases bs with
    | nil => cases h
    | cons b bs =>
      obtain ⟨hab, hrest⟩ := List.cons.inj h
      rw [hinj (has a (List.mem_cons_self ..)) (hbs b (List.mem_cons_self ..)) hab,
        ih (fun c hc => has c (List.mem_cons_of_mem _ hc))
          (fun c hc => hbs c (List.mem_cons_of_mem _ hc)) hrest]

/-- What is written in such a code can be read. -/
theorem flatMap_inj {code : α → List β} {S : Set α} (hne : ∀ a ∈ S, code a ≠ [])
    (hbeginning : ∀ a ∈ S, ∀ b ∈ S, code a <+: code b → a = b) {as bs : List α}
    (has : ∀ a ∈ as, a ∈ S) (hbs : ∀ b ∈ bs, b ∈ S) (h : as.flatMap code = bs.flatMap code) :
    as = bs := by
  have hcode : UniquelyDecodable (code '' S) := by
    refine uniquelyDecodable (fun ⟨a, ha, hnil⟩ => hne a ha hnil) ?_
    rintro _ ⟨a, ha, rfl⟩ _ ⟨b, hb, rfl⟩ hab
    rw [hbeginning a ha b hb hab]
  have hinj : Set.InjOn code S := fun a ha b hb hab =>
    hbeginning a ha b hb (hab ▸ List.prefix_refl _)
  have hwords : ∀ {cs : List α}, (∀ c ∈ cs, c ∈ S) → ∀ w ∈ cs.map code, w ∈ code '' S := by
    intro cs hcs w hw
    obtain ⟨c, hc, rfl⟩ := List.mem_map.mp hw
    exact ⟨c, hcs c hc, rfl⟩
  exact map_injOn hinj has hbs (hcode _ _ (hwords has) (hwords hbs) h)

end SyeLabs.PrefixCode
