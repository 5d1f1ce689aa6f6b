import SyeLabs.Memreplace.Spec
import Mathlib.Tactic.FinCases

/-!
# Conservation of the pages in RAM and in swap

Both replacement modes move pages between RAM and swap without losing one. The
two modes share the effect of an access on the bits other than REF; what they
do with REF is the part that differs.
-/

namespace SyeLabs.Memreplace

/-- What an access to `p` may do to the page table, in either mode. -/
structure Effect (m : Mem) (p : Page) (m' : Mem) : Prop where
  stderr : m'.stderr = m.stderr
  hit : m.valid p = true → ∀ j b, b ≠ 2 → m'.bit j b = m.bit j b
  miss : ¬ m.valid p = true → ∃ v, m.valid v = true ∧ ¬ m'.ref v = true ∧
    ∀ j b, b ≠ 2 → m'.bit j b = ((m.evict v).load p).bit j b
  ref : ∀ j, m'.ref j = true → m.ref j = true ∨ j = p

theorem incCompteur_bit (m : Mem) (p j : Page) (b : ℕ) :
    (incCompteur m p).bit j b = m.bit j b := rfl

theorem lru_effect (m : Mem) (p : Page) (hne : m.validSet.Nonempty) (href : m.refSet = ∅) :
    ∃ m', accessLRU m p = .ok m' ∧ Effect m p m' ∧ m'.refSet = ∅ := by
  have hnoref : ∀ j, ¬ m.ref j = true := by
    intro j hj
    have hmem : j ∈ m.refSet := (mem_refSet m j).mpr hj
    rw [href] at hmem
    exact absurd hmem (Finset.notMem_empty j)
  by_cases hp : m.valid p = true
  · refine ⟨_, accessLRU_hit m hp, ⟨rfl, fun _ j b _ => rfl, fun h => absurd hp h, ?_⟩, href⟩
    exact fun j hj => Or.inl hj
  · obtain ⟨q, hq⟩ := hne
    obtain ⟨v, hv⟩ := Recency.oldest_isSome (fun i => (m.tdu i).toNat) hq (mem_pages q)
    have hvalid : m.valid v = true := (mem_validSet m v).mp (Recency.oldest_mem hv)
    have hrefs : ∀ j, (incCompteur ((m.evict v).load p) p).ref j = m.ref j := by
      intro j
      rw [ref_eq, ref_eq, incCompteur_bit, load_bit, evict_bit]
      simp
    refine ⟨_, accessLRU_miss m hp hv, ⟨rfl, fun h => absurd h hp, fun _ => ?_, ?_⟩, ?_⟩
    · refine ⟨v, hvalid, ?_, fun _ _ _ => rfl⟩
      rw [hrefs]
      exact hnoref v
    · intro j hj
      rw [hrefs] at hj
      exact Or.inl hj
    · ext j
      rw [mem_refSet, hrefs]
      simp [hnoref j]

theorem wsc_effect (m : Mem) (p : Page) (hne : m.validSet.Nonempty) :
    Effect m p (accessWSC m p) := by
  by_cases hp : m.valid p = true
  · rw [accessWSC_hit m hp]
    refine ⟨rfl, fun _ j b hb => ?_, fun h => absurd hp h, fun j hj => ?_⟩
    · rw [touch_bit]
      rw [valid_eq] at hp
      by_cases hj : j = p
      · by_cases hb0 : b = 0
        · simp [hj, hb0, hp]
        · simp [hb, hb0]
      · simp [hj]
    · rw [ref_eq, touch_bit] at hj
      rw [ref_eq]
      by_cases h : j = p
      · exact Or.inr h
      · simp only [h, false_and, decide_false, Bool.or_false] at hj
        exact Or.inl hj
  · obtain ⟨v, ref, hvic, hv, hvref, hsub⟩ :=
      WorkingSet.Cache.victim_spec pages staleStamp m.cache mem_pages hne
    have hm := accessWSC_miss_spec m hp hvic
    have hvalid : m.valid v = true := (mem_validSet m v).mp hv
    have hvp : v ≠ p := fun h => hp (h ▸ hvalid)
    refine ⟨hm.stderr, fun h => absurd h hp, fun _ => ⟨v, hvalid, ?_, hm.bit⟩, fun j hj => ?_⟩
    · rw [← mem_refSet, hm.refSet, Finset.mem_insert]
      exact fun h => h.elim hvp hvref
    · rw [← mem_refSet, hm.refSet, Finset.mem_insert] at hj
      rcases hj with hj | hj
      · exact Or.inr hj
      · exact Or.inl ((mem_refSet m j).mp (hsub hj))

/-- The law kept after every access; `accessed` lists the accesses so far. -/
structure Conserved (accessed : List Page) (m : Mem) : Prop where
  three : m.validSet.card = 3
  disjoint : ∀ i, ¬ (m.valid i = true ∧ m.swap i = true)
  kept : ∀ i, (m.valid i = true ∨ m.swap i = true) ↔ (i.val < 4 ∨ i ∈ accessed)
  ref : ∀ i, m.ref i = true → m.valid i = true
  pageNb : ∀ i, m.pageNb i = i.val
  stderr : m.stderr = []

structure Replaced (m : Mem) (p : Page) (m' : Mem) : Prop where
  loaded : m'.valid p = true
  hit : m.valid p = true → m'.validSet = m.validSet
  miss : ¬ m.valid p = true →
    ∃ v, v ≠ p ∧ v ∈ m.validSet ∧ m'.validSet = insert p (m.validSet.erase v)

theorem Effect.hit_eq {m m' : Mem} {p : Page} (he : Effect m p m') (hp : m.valid p = true) :
    m'.validSet = m.validSet ∧ (∀ j, m'.valid j = m.valid j) ∧ ∀ j, m'.swap j = m.swap j := by
  have hvalid : ∀ j, m'.valid j = m.valid j := fun j => by
    rw [valid_eq, valid_eq, he.hit hp j 0 (by omega)]
  refine ⟨?_, hvalid, fun j => ?_⟩
  · ext j
    rw [mem_validSet, mem_validSet, hvalid]
  · rw [swap_eq, swap_eq, he.hit hp j 1 (by omega)]

theorem Effect.replaced {m m' : Mem} {p : Page} (he : Effect m p m') : Replaced m p m' := by
  have hmiss : ¬ m.valid p = true →
      ∃ v, v ≠ p ∧ v ∈ m.validSet ∧ m'.validSet = insert p (m.validSet.erase v) := by
    intro hp
    obtain ⟨v, hv, -, hbit⟩ := he.miss hp
    exact ⟨v, fun h => hp (h ▸ hv), (mem_validSet m v).mpr hv, validSet_of_miss hbit⟩
  refine ⟨?_, fun hp => (he.hit_eq hp).1, hmiss⟩
  rw [← mem_validSet]
  by_cases hp : m.valid p = true
  · rw [(he.hit_eq hp).1]
    exact (mem_validSet m p).mpr hp
  · obtain ⟨v, -, -, hset⟩ := hmiss hp
    rw [hset]
    exact Finset.mem_insert_self p _

theorem Effect.swap_miss {m m' : Mem} {p v : Page} (hvp : v ≠ p)
    (hbit : ∀ j b, b ≠ 2 → m'.bit j b = ((m.evict v).load p).bit j b) (j : Page) :
    m'.swap j = true ↔ j ≠ p ∧ (j = v ∨ m.swap j = true) := by
  rw [swap_eq, hbit j 1 (by omega), load_bit, evict_bit, ← swap_eq]
  by_cases hj : j = p
  · simp [hj]
  · by_cases hjv : j = v <;> simp [hj, hjv, hvp]

/- Bits 7..4 are touched by no access. -/
theorem Effect.pageNb {m m' : Mem} {p : Page} (he : Effect m p m') (i : Page) :
    m'.pageNb i = m.pageNb i := by
  apply pageNb_congr
  intro k hk
  by_cases hp : m.valid p = true
  · exact he.hit hp i k (by omega)
  · obtain ⟨v, -, -, hbit⟩ := he.miss hp
    rw [hbit i k (by omega), load_bit, evict_bit]
    have hk0 : k ≠ 0 := by omega
    have hk1 : k ≠ 1 := by omega
    simp [hk0, hk1]

theorem kept_snoc (accessed : List Page) (p i : Page) :
    (i.val < 4 ∨ i ∈ accessed ++ [p]) ↔ (i.val < 4 ∨ i ∈ accessed) ∨ i = p := by
  simp only [List.mem_append, List.mem_singleton]
  tauto

theorem Effect.conserved_hit {m m' : Mem} {p : Page} {accessed : List Page} (he : Effect m p m')
    (h : Conserved accessed m) (hp : m.valid p = true) : Conserved (accessed ++ [p]) m' := by
  obtain ⟨hset, hvalid, hswap⟩ := he.hit_eq hp
  refine ⟨by rw [hset]; exact h.three, fun i => ?_, fun i => ?_, fun i hi => ?_,
    fun i => (he.pageNb i).trans (h.pageNb i), he.stderr.trans h.stderr⟩
  · rw [hvalid, hswap]
    exact h.disjoint i
  · rw [hvalid, hswap, h.kept, kept_snoc]
    constructor
    · exact Or.inl
    · rintro (hi | rfl)
      · exact hi
      · exact (h.kept i).mp (Or.inl hp)
  · rw [hvalid]
    rcases he.ref i hi with hi | rfl
    · exact h.ref i hi
    · exact hp

theorem Effect.conserved_miss {m m' : Mem} {p : Page} {accessed : List Page} (he : Effect m p m')
    (h : Conserved accessed m) (hp : ¬ m.valid p = true) : Conserved (accessed ++ [p]) m' := by
  obtain ⟨v, hv, hvref, hbit⟩ := he.miss hp
  have hvp : v ≠ p := fun e => hp (e ▸ hv)
  have hswap := Effect.swap_miss hvp hbit
  have hset := validSet_of_miss hbit
  have hvalid : ∀ j, m'.valid j = true ↔ j = p ∨ (j ≠ v ∧ m.valid j = true) := by
    intro j
    rw [← mem_validSet, hset, Finset.mem_insert, Finset.mem_erase, mem_validSet]
  refine ⟨?_, ?_, fun i => ?_, fun i hi => ?_,
    fun i => (he.pageNb i).trans (h.pageNb i), he.stderr.trans h.stderr⟩
  · have hpe : p ∉ m.validSet.erase v := fun hm =>
      hp ((mem_validSet m p).mp (Finset.mem_of_mem_erase hm))
    rw [hset, Finset.card_insert_of_notMem hpe,
      Finset.card_erase_of_mem ((mem_validSet m v).mpr hv), h.three]
  · rintro i ⟨hi, hs⟩
    rw [hvalid] at hi
    rw [hswap] at hs
    rcases hi with rfl | ⟨hiv, hi⟩
    · exact hs.1 rfl
    · exact h.disjoint i ⟨hi, hs.2.resolve_left hiv⟩
  · -- the victim moves to swap, the accessed page out of it, the others stay
    rw [hvalid, hswap, kept_snoc, ← h.kept i]
    by_cases hip : i = p
    · simp [hip]
    · by_cases hiv : i = v
      · simp [hiv, hv, hvp]
      · simp [hip, hiv]
  · rw [hvalid]
    rcases he.ref i hi with hr | rfl
    · exact Or.inr ⟨fun e => hvref (e ▸ hi), h.ref i hr⟩
    · exact Or.inl rfl

theorem Effect.conserved {m m' : Mem} {p : Page} {accessed : List Page} (he : Effect m p m')
    (h : Conserved accessed m) : Conserved (accessed ++ [p]) m' := by
  by_cases hp : m.valid p = true
  · exact he.conserved_hit h hp
  · exact he.conserved_miss h hp

theorem Conserved.nonempty {m : Mem} {accessed : List Page} (h : Conserved accessed m) :
    m.validSet.Nonempty := by
  rw [← Finset.card_pos, h.three]
  omega

theorem init_conserved : Conserved [] (initPageTable zeroed) := by
  refine ⟨by decide, by decide, ?_, by decide, by decide, rfl⟩
  intro i
  simp only [List.not_mem_nil, or_false]
  revert i
  decide

theorem init_refSet : (initPageTable zeroed).refSet = ∅ := by decide

theorem run_conserved (lruRun : Bool) (accessed : List Page) :
    ∃ m, run lruRun accessed = .ok m ∧ Conserved accessed m ∧ (lruRun = true → m.refSet = ∅) := by
  induction accessed using List.reverseRecOn with
  | nil => exact ⟨_, rfl, init_conserved, fun _ => init_refSet⟩
  | append_singleton accessed p ih =>
    obtain ⟨m, hrun, hm, hlru⟩ := ih
    have hne := hm.nonempty
    rw [run_snoc, hrun]
    cases lruRun with
    | true =>
      obtain ⟨m', hacc, heff, href⟩ := lru_effect m p hne (hlru rfl)
      exact ⟨m', hacc, heff.conserved hm, fun _ => href⟩
    | false => exact ⟨_, rfl, (wsc_effect m p hne).conserved hm, fun h => Bool.noConfusion h⟩

theorem ram_swap_conserved (lruRun : Bool) (accessed : List Page) (p : Page) :
    ∃ m m', run lruRun accessed = .ok m ∧ run lruRun (accessed ++ [p]) = .ok m' ∧
      Conserved (accessed ++ [p]) m' ∧ Replaced m p m' := by
  obtain ⟨m, hrun, hm, hlru⟩ := run_conserved lruRun accessed
  obtain ⟨m', hrun', hm', -⟩ := run_conserved lruRun (accessed ++ [p])
  refine ⟨m, m', hrun, hrun', hm', ?_⟩
  have hne := hm.nonempty
  rw [run_snoc, hrun] at hrun'
  cases lruRun with
  | true =>
    obtain ⟨m'', hacc, heff, -⟩ := lru_effect m p hne (hlru rfl)
    have hsame : m'' = m' := Except.ok.inj (hacc.symm.trans hrun')
    exact hsame ▸ heff.replaced
  | false =>
    have hsame : accessWSC m p = m' := Except.ok.inj hrun'
    exact hsame ▸ (wsc_effect m p hne).replaced

end SyeLabs.Memreplace
