import Mathlib.Data.List.MinMax
import Mathlib.Data.Finset.Basic
import Mathlib.Data.Finset.Card
import Mathlib.Logic.Function.Basic

/-!
# Least recently used replacement

A cache over a set `α` of pages holds the resident pages, the number of the
last access to each page (0 for a page that was never accessed) and the number
of accesses so far. The clock is a natural number and never wraps.

`order` lists the pages in index order and breaks the ties. `view` is what the
replacement sees of an access number: `id` for the ideal policy, a reduction
modulo `2 ^ w` for stamps kept in `w` bits.
-/

namespace SyeLabs.Recency

variable {α : Type*} [DecidableEq α]

/-- The element of `s` with the least key, the first one in `order` among equals. -/
def oldest (order : List α) (key : α → ℕ) (s : Finset α) : Option α :=
  (order.filter (· ∈ s)).argmin key

theorem oldest_mem {order : List α} {key : α → ℕ} {s : Finset α} {v : α}
    (h : oldest order key s = some v) : v ∈ s := by
  have hv := List.argmin_mem h
  simpa using (List.mem_filter.mp hv).2

theorem oldest_isSome {order : List α} {s : Finset α} {q : α} (key : α → ℕ)
    (hq : q ∈ s) (ho : q ∈ order) : ∃ v, oldest order key s = some v := by
  apply Option.ne_none_iff_exists'.mp
  intro hnone
  rw [oldest, List.argmin_eq_none] at hnone
  have hmem : q ∈ order.filter (· ∈ s) := List.mem_filter.mpr ⟨ho, by simpa using hq⟩
  rw [hnone] at hmem
  exact absurd hmem List.not_mem_nil

/-- The only element with the least key. -/
theorem oldest_eq {order : List α} {key : α → ℕ} {s : Finset α} {v : α} (hv : v ∈ s)
    (ho : v ∈ order) (hleast : ∀ q ∈ s, q ≠ v → key v < key q) :
    oldest order key s = some v := by
  obtain ⟨w, hw⟩ := oldest_isSome key hv ho
  have hle : key w ≤ key v :=
    List.le_of_mem_argmin (List.mem_filter.mpr ⟨ho, decide_eq_true hv⟩) hw
  have hwv : w = v := by
    by_contra hne
    exact absurd (hleast w (oldest_mem hw) hne) (Nat.not_lt.mpr hle)
  rw [hw, hwv]

theorem oldest_congr {order : List α} {key key' : α → ℕ} {s : Finset α}
    (h : ∀ q ∈ s, key q = key' q) : oldest order key s = oldest order key' s := by
  -- `argmin` is a fold, so the fact is generalized over its accumulator
  have hfold : ∀ (l : List α), (∀ q ∈ l, key q = key' q) → ∀ r : Option α,
      (∀ q ∈ r, key q = key' q) →
      l.foldl (List.argAux fun b c => key b < key c) r =
        l.foldl (List.argAux fun b c => key' b < key' c) r := by
    intro l
    induction l with
    | nil => intros; rfl
    | cons x xs ih =>
      intro hl r hr
      have hx := hl x (List.mem_cons_self ..)
      have hxs : ∀ q ∈ xs, key q = key' q := fun q hq => hl q (List.mem_cons_of_mem _ hq)
      simp only [List.foldl_cons]
      cases r with
      | none =>
        exact ih hxs (some x) fun q hq => by cases hq; exact hx
      | some c =>
        have hc := hr c rfl
        simp only [List.argAux, hx, hc]
        split_ifs
        · exact ih hxs (some x) fun q hq => by cases hq; exact hx
        · exact ih hxs (some c) fun q hq => by cases hq; exact hc
  refine hfold _ ?_ none (by simp)
  intro q hq
  exact h q (by simpa using (List.mem_filter.mp hq).2)

structure Cache (α : Type*) where
  resident : Finset α
  last : α → ℕ
  time : ℕ

/-- The pages resident after an access to `p`, when the stamps are seen through `view`. -/
def Cache.loaded (order : List α) (view : ℕ → ℕ) (c : Cache α) (p : α) : Finset α :=
  if p ∈ c.resident then c.resident
  else match oldest order (fun q => view (c.last q)) c.resident with
    | some v => insert p (c.resident.erase v)
    | none => insert p c.resident

def Cache.access (order : List α) (view : ℕ → ℕ) (c : Cache α) (p : α) : Cache α :=
  ⟨c.loaded order view p, Function.update c.last p (c.time + 1), c.time + 1⟩

def Cache.run (order : List α) (view : ℕ → ℕ) (c : Cache α) (ps : List α) : Cache α :=
  ps.foldl (Cache.access order view) c

def Cache.start (s : Finset α) : Cache α := ⟨s, fun _ => 0, 0⟩

variable {order : List α} {view : ℕ → ℕ}

theorem Cache.run_snoc (c : Cache α) (ps : List α) (p : α) :
    c.run order view (ps ++ [p]) = (c.run order view ps).access order view p := by
  simp [Cache.run, List.foldl_append]

theorem Cache.run_time (order : List α) (view : ℕ → ℕ) (c : Cache α) (ps : List α) :
    (c.run order view ps).time = c.time + ps.length := by
  induction ps using List.reverseRecOn with
  | nil => rfl
  | append_singleton ps p ih =>
    simp only [Cache.run_snoc, Cache.access, ih, List.length_append, List.length_singleton]
    omega

theorem Cache.run_last_le (order : List α) (view : ℕ → ℕ) (c : Cache α)
    (h : ∀ q, c.last q ≤ c.time) (ps : List α) (q : α) :
    (c.run order view ps).last q ≤ (c.run order view ps).time := by
  induction ps using List.reverseRecOn with
  | nil => exact h q
  | append_singleton ps p ih =>
    simp only [Cache.run_snoc, Cache.access]
    by_cases hq : q = p
    · simp [hq]
    · rw [Function.update_of_ne hq]
      omega

theorem Cache.run_stamps (order : List α) (view view' : ℕ → ℕ) (c : Cache α) (ps : List α) :
    (c.run order view ps).last = (c.run order view' ps).last ∧
      (c.run order view ps).time = (c.run order view' ps).time := by
  induction ps using List.reverseRecOn with
  | nil => exact ⟨rfl, rfl⟩
  | append_singleton ps p ih =>
    simp only [Cache.run_snoc, Cache.access, ih.1, ih.2, and_self]

theorem Cache.run_eq_of_resident (c : Cache α) (view' : ℕ → ℕ) (ps : List α)
    (h : (c.run order view ps).resident = (c.run order view' ps).resident) :
    c.run order view ps = c.run order view' ps := by
  obtain ⟨hl, ht⟩ := Cache.run_stamps order view view' c ps
  rcases hv : c.run order view ps with ⟨r, l, t⟩
  rcases hi : c.run order view' ps with ⟨r', l', t'⟩
  simp only [hv, hi] at hl ht h
  rw [hl, ht, h]

/-- The page seen as the oldest through `view` is the least recently used one. -/
def Cache.SeesOldest (order : List α) (view : ℕ → ℕ) (c : Cache α) : Prop :=
  oldest order (fun q => view (c.last q)) c.resident = oldest order c.last c.resident

theorem Cache.loaded_eq_iff (c : Cache α) (horder : ∀ q, q ∈ order) (p : α)
    (hne : c.resident.Nonempty) (hp : p ∉ c.resident) :
    c.loaded order view p = c.loaded order id p ↔ c.SeesOldest order view := by
  obtain ⟨q, hq⟩ := hne
  obtain ⟨v, hv⟩ := oldest_isSome (fun q => view (c.last q)) hq (horder q)
  obtain ⟨w, hw⟩ := oldest_isSome c.last hq (horder q)
  simp only [Cache.loaded, Cache.SeesOldest, hp, ite_false, id_eq, hv, hw, Option.some.injEq]
  constructor
  · intro h
    by_contra hvw
    -- two different victims: the one kept on the right is missing on the left
    have hmem : v ∈ insert p (c.resident.erase w) :=
      Finset.mem_insert_of_mem (Finset.mem_erase.mpr ⟨hvw, oldest_mem hv⟩)
    rw [← h, Finset.mem_insert] at hmem
    rcases hmem with rfl | hmem
    · exact hp (oldest_mem hv)
    · exact absurd rfl (Finset.mem_erase.mp hmem).1
  · rintro rfl
    rfl

theorem Cache.loaded_card (c : Cache α) (horder : ∀ q, q ∈ order) (p : α)
    (hne : c.resident.Nonempty) :
    (c.loaded order view p).card = c.resident.card := by
  obtain ⟨q, hq⟩ := hne
  obtain ⟨v, hv⟩ := oldest_isSome (fun q => view (c.last q)) hq (horder q)
  unfold Cache.loaded
  split_ifs with hp
  · rfl
  · simp only [hv]
    have hpe : p ∉ c.resident.erase v := fun h => hp (Finset.mem_of_mem_erase h)
    rw [Finset.card_insert_of_notMem hpe, Finset.card_erase_of_mem (oldest_mem hv)]
    have hpos : 0 < c.resident.card := Finset.card_pos.mpr ⟨q, hq⟩
    omega

theorem Cache.run_nonempty (view : ℕ → ℕ) (c : Cache α) (horder : ∀ q, q ∈ order)
    (hne : c.resident.Nonempty) (ps : List α) : (c.run order view ps).resident.Nonempty := by
  induction ps using List.reverseRecOn with
  | nil => exact hne
  | append_singleton ps p ih =>
    rw [Cache.run_snoc, ← Finset.card_pos]
    simp only [Cache.access, Cache.loaded_card _ horder p ih]
    exact Finset.card_pos.mpr ih

/-- The resident pages under `view` are the ideal ones after every access of a
run exactly when, at each of its misses, `view` still shows the oldest page. -/
theorem Cache.run_resident_iff (view : ℕ → ℕ) (c : Cache α) (horder : ∀ q, q ∈ order)
    (hne : c.resident.Nonempty) (ps : List α) :
    (∀ qs, qs <+: ps → (c.run order view qs).resident = (c.run order id qs).resident) ↔
      ∀ qs p, qs ++ [p] <+: ps → p ∉ (c.run order id qs).resident →
        (c.run order id qs).SeesOldest order view := by
  constructor
  · intro h qs p hpre hmiss
    have hcur := h qs ((List.prefix_append qs [p]).trans hpre)
    have hnext := h (qs ++ [p]) hpre
    rw [Cache.run_snoc, Cache.run_snoc, Cache.run_eq_of_resident c id qs hcur] at hnext
    exact (Cache.loaded_eq_iff _ horder p (Cache.run_nonempty id c horder hne qs) hmiss).mp hnext
  · intro h qs hqs
    -- induction on the prefix: equal so far, the caches agree on the stamps as well
    induction qs using List.reverseRecOn with
    | nil => rfl
    | append_singleton qs p ih =>
      have hcur := ih ((List.prefix_append qs [p]).trans hqs)
      rw [Cache.run_snoc, Cache.run_snoc, Cache.run_eq_of_resident c id qs hcur]
      by_cases hp : p ∈ (c.run order id qs).resident
      · simp only [Cache.access, Cache.loaded, hp, ite_true]
      · exact (Cache.loaded_eq_iff _ horder p (Cache.run_nonempty id c horder hne qs) hp).mpr
          (h qs p hqs hp)

end SyeLabs.Recency
