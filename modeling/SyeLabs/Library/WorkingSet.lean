import Mathlib.Data.Finset.SDiff
import Mathlib.Data.Finset.Card
import Mathlib.Logic.Function.Basic
import Mathlib.Order.Bounds.Basic

/-!
# Working-set replacement

Besides the resident pages a working-set cache keeps a reference bit for each
page and the virtual time at which each page was last seen referenced. A scan
over the resident pages in index order clears the bits it passes and stops at
the first unreferenced page that `stale` judges old; `stale t l` is the test on
the current time and the recorded one.
-/

namespace SyeLabs.WorkingSet

variable {α : Type*} [DecidableEq α]

structure Cache (α : Type*) where
  resident : Finset α
  ref : Finset α
  last : α → ℕ
  time : ℕ

/-- The scan along an index list: the stale page it stops at, if any, and the
reference bits it leaves. -/
def scan (resident : Finset α) (old : α → Prop) [DecidablePred old] :
    List α → Finset α → Option α × Finset α
  | [], ref => (none, ref)
  | i :: is, ref =>
    if i ∉ resident then scan resident old is ref
    else if i ∈ ref then scan resident old is (ref.erase i)
    else if old i then (some i, ref)
    else scan resident old is ref

theorem scan_subset (resident : Finset α) (old : α → Prop) [DecidablePred old] (is : List α)
    (ref : Finset α) : (scan resident old is ref).2 ⊆ ref := by
  induction is generalizing ref with
  | nil => exact Finset.Subset.refl ref
  | cons i is ih =>
    simp only [scan]
    split_ifs with hr hf ho
    · exact (ih (ref.erase i)).trans (Finset.erase_subset i ref)
    · exact Finset.Subset.refl ref
    · exact ih ref
    · exact ih ref

theorem scan_some {resident : Finset α} {old : α → Prop} [DecidablePred old] {is : List α}
    {ref : Finset α} {v : α} (h : (scan resident old is ref).1 = some v) :
    v ∈ resident ∧ old v ∧ v ∉ (scan resident old is ref).2 := by
  induction is generalizing ref with
  | nil => cases h
  | cons i is ih =>
    by_cases hr : i ∈ resident
    · by_cases hf : i ∈ ref
      · simp only [scan, hr, hf, not_true_eq_false, ite_false, ite_true] at h ⊢
        exact ih h
      · by_cases ho : old i
        · simp only [scan, hr, hf, ho, not_true_eq_false, ite_false, ite_true] at h ⊢
          cases h
          exact ⟨hr, ho, hf⟩
        · simp only [scan, hr, hf, ho, not_true_eq_false, ite_false] at h ⊢
          exact ih h
    · simp only [scan, hr, not_false_eq_true, ite_true] at h ⊢
      exact ih h

theorem scan_none {resident : Finset α} {old : α → Prop} [DecidablePred old] {is : List α}
    {ref : Finset α} (h : (scan resident old is ref).1 = none) :
    ∀ i ∈ is, i ∈ resident → i ∉ (scan resident old is ref).2 := by
  induction is generalizing ref with
  | nil => simp
  | cons i is ih =>
    intro j hj hjr
    by_cases hr : i ∈ resident
    · by_cases hf : i ∈ ref
      · simp only [scan, hr, hf, not_true_eq_false, ite_false, ite_true] at h ⊢
        rcases List.mem_cons.mp hj with rfl | hj
        · exact fun hm => absurd rfl (Finset.mem_erase.mp (scan_subset _ _ _ _ hm)).1
        · exact ih h j hj hjr
      · by_cases ho : old i
        · simp [scan, hr, hf, ho] at h
        · simp only [scan, hr, hf, ho, not_true_eq_false, ite_false] at h ⊢
          rcases List.mem_cons.mp hj with rfl | hj
          · exact fun hm => hf (scan_subset _ _ _ _ hm)
          · exact ih h j hj hjr
    · simp only [scan, hr, not_false_eq_true, ite_true] at h ⊢
      rcases List.mem_cons.mp hj with rfl | hj
      · exact absurd hjr hr
      · exact ih h j hj hjr

variable (order : List α) (stale : ℕ → ℕ → Prop) [∀ t l, Decidable (stale t l)]

/-- The page a miss evicts and the reference bits left by the scan. Without a
stale page the lowest resident page goes. -/
def Cache.victim (c : Cache α) : Option α × Finset α :=
  let r := scan c.resident (fun i => stale c.time (c.last i)) order c.ref
  (r.1.or (order.find? (· ∈ c.resident)), r.2)

/-- A miss replaces the victim; the page is then referenced, the time passes
and every referenced resident page is seen at the new time. -/
def Cache.access (c : Cache α) (p : α) : Cache α :=
  let s : Finset α × Finset α :=
    if p ∈ c.resident then (c.resident, c.ref)
    else match c.victim order stale with
      | (some v, ref) => (insert p (c.resident.erase v), ref)
      | (none, ref) => (insert p c.resident, ref)
  let ref := insert p s.2
  let time := c.time + 1
  ⟨s.1, ref, fun i => if i ∈ s.1 ∧ i ∈ ref then time else c.last i, time⟩

def Cache.run (c : Cache α) (ps : List α) : Cache α := ps.foldl (Cache.access order stale) c

def Cache.start (s : Finset α) : Cache α := ⟨s, ∅, fun _ => 0, 0⟩

theorem Cache.victim_spec (c : Cache α) (horder : ∀ q, q ∈ order) (hne : c.resident.Nonempty) :
    ∃ v ref, c.victim order stale = (some v, ref) ∧ v ∈ c.resident ∧ v ∉ ref ∧ ref ⊆ c.ref := by
  have hsub := scan_subset c.resident (fun i => stale c.time (c.last i)) order c.ref
  unfold Cache.victim
  rcases hs : scan c.resident (fun i => stale c.time (c.last i)) order c.ref with ⟨v?, ref⟩
  rw [hs] at hsub
  cases v? with
  | some v =>
    obtain ⟨hv, -, hvr⟩ := scan_some (congrArg Prod.fst hs)
    rw [hs] at hvr
    exact ⟨v, ref, rfl, hv, hvr, hsub⟩
  | none =>
    -- the fallback page has been passed by the scan, so its bit is clear too
    have hnone := scan_none (congrArg Prod.fst hs)
    rw [hs] at hnone
    obtain ⟨q, hq⟩ := hne
    obtain ⟨v, hv⟩ := Option.ne_none_iff_exists'.mp fun h : order.find? (· ∈ c.resident) = none =>
      absurd hq (by simpa using List.find?_eq_none.mp h q (horder q))
    have hvres : v ∈ c.resident := by simpa using List.find?_some hv
    refine ⟨v, ref, ?_, hvres, hnone v (horder v) hvres, hsub⟩
    rw [hv]
    rfl

variable {order stale}

theorem Cache.run_snoc (c : Cache α) (ps : List α) (p : α) :
    c.run order stale (ps ++ [p]) = (c.run order stale ps).access order stale p := by
  simp [Cache.run, List.foldl_append]

theorem Cache.run_time (c : Cache α) (ps : List α) :
    (c.run order stale ps).time = c.time + ps.length := by
  induction ps using List.reverseRecOn with
  | nil => rfl
  | append_singleton ps p ih =>
    simp only [Cache.run_snoc, Cache.access, ih, List.length_append, List.length_singleton]
    omega

def firstOld (resident ref : Finset α) (old : α → Prop) [DecidablePred old] (is : List α) :
    Option α :=
  is.find? fun i => decide (i ∈ resident ∧ i ∉ ref ∧ old i)

theorem firstOld_erase {resident ref : Finset α} {old : α → Prop} [DecidablePred old]
    {is : List α} {j : α} (hj : j ∉ is) :
    firstOld resident (ref.erase j) old is = firstOld resident ref old is := by
  induction is with
  | nil => rfl
  | cons i is ih =>
    have hij : i ≠ j := fun h => hj (h ▸ List.mem_cons_self ..)
    have his : j ∉ is := fun h => hj (List.mem_cons_of_mem _ h)
    have hpred : (i ∈ resident ∧ i ∉ ref.erase j ∧ old i) ↔ (i ∈ resident ∧ i ∉ ref ∧ old i) := by
      simp [Finset.mem_erase, hij]
    simp only [firstOld, List.find?_cons, hpred]
    rw [← firstOld, ← firstOld, ih his]

theorem scan_congr {resident : Finset α} {old old' : α → Prop} [DecidablePred old]
    [DecidablePred old'] {is : List α} (hnd : is.Nodup) {ref : Finset α}
    (h : firstOld resident ref old is = firstOld resident ref old' is) :
    scan resident old is ref = scan resident old' is ref := by
  induction is generalizing ref with
  | nil => rfl
  | cons i is ih =>
    obtain ⟨hi, hnd⟩ := List.nodup_cons.mp hnd
    by_cases hr : i ∈ resident
    · by_cases hf : i ∈ ref
      · -- `i` does not come again, so clearing its bit changes nothing further on
        have hrest : firstOld resident (ref.erase i) old is =
            firstOld resident (ref.erase i) old' is := by
          rw [firstOld_erase hi, firstOld_erase hi]
          simpa [firstOld, List.find?_cons, hr, hf] using h
        simp only [scan, hr, hf, not_true_eq_false, ite_false, ite_true]
        exact ih hnd hrest
      · by_cases ho : old i <;> by_cases ho' : old' i
        · simp [scan, hr, hf, ho, ho']
        · exfalso
          simp only [firstOld, List.find?_cons, hr, hf, ho, ho', not_false_eq_true, and_self,
            decide_true, true_and, decide_false] at h
          exact hi (List.mem_of_find?_eq_some h.symm)
        · exfalso
          simp only [firstOld, List.find?_cons, hr, hf, ho, ho', not_false_eq_true, and_self,
            decide_true, true_and, decide_false] at h
          exact hi (List.mem_of_find?_eq_some h)
        · have hrest : firstOld resident ref old is = firstOld resident ref old' is := by
            simpa [firstOld, List.find?_cons, ho, ho'] using h
          simp only [scan, hr, hf, ho, ho', not_true_eq_false, ite_false]
          exact ih hnd hrest
    · have hrest : firstOld resident ref old is = firstOld resident ref old' is := by
        simpa [firstOld, List.find?_cons, hr] using h
      simp only [scan, hr, not_false_eq_true, ite_true]
      exact ih hnd hrest

/- A test that gives one answer `b` for every page finds the same page as `old`
exactly when `b` is what `old` says of the first unreferenced resident page, or,
for `b` false, of every unreferenced resident page. -/
theorem firstOld_const_iff {resident ref : Finset α} {old : α → Prop} [DecidablePred old]
    {b : Prop} [Decidable b] {is : List α} :
    firstOld resident ref (fun _ => b) is = firstOld resident ref old is ↔
      (b → ∀ u, firstOld resident ref (fun _ => True) is = some u → old u) ∧
        (¬ b → ∀ u ∈ is, u ∈ resident → u ∉ ref → ¬ old u) := by
  by_cases hb : b
  · have hconst : firstOld resident ref (fun _ => b) is =
        firstOld resident ref (fun _ => True) is := by simp [firstOld, hb]
    simp only [hb, true_implies, not_true_eq_false, false_implies, and_true]
    constructor
    · intro h u hu
      rw [h] at hu
      have hp := List.find?_some hu
      simp only [decide_eq_true_eq] at hp
      exact hp.2.2
    · intro h
      clear hconst
      induction is with
      | nil => rfl
      | cons i is ih =>
        by_cases hi : i ∈ resident ∧ i ∉ ref
        · have hold : old i := h i (by simp [firstOld, hi.1, hi.2])
          simp [firstOld, hi.1, hi.2, hold]
        · have htrue : firstOld resident ref (fun _ => True) (i :: is) =
              firstOld resident ref (fun _ => True) is := by
            simp only [firstOld, List.find?_cons, and_true, hi, decide_false]
          have hrest : firstOld resident ref old (i :: is) = firstOld resident ref old is := by
            have hno : ¬ (i ∈ resident ∧ i ∉ ref ∧ old i) := fun h => hi ⟨h.1, h.2.1⟩
            simp only [firstOld, List.find?_cons, hno, decide_false]
          rw [htrue, hrest]
          exact ih fun u hu => h u (htrue.trans hu)
  · have hconst : firstOld resident ref (fun _ => b) is = none := by
      simp [firstOld, hb]
    rw [hconst, eq_comm]
    simp only [hb, false_implies, not_false_eq_true, true_implies, true_and]
    rw [firstOld, List.find?_eq_none]
    constructor
    · intro h u hu hr hf ho
      exact h u hu (by simp [hr, hf, ho])
    · intro h u hu hp
      simp only [decide_eq_true_eq] at hp
      exact h u hu hp.1 hp.2.1 hp.2.2

theorem firstOld_congr {resident ref : Finset α} {old old' : α → Prop} [DecidablePred old]
    [DecidablePred old'] {is : List α} (h : ∀ i, old i ↔ old' i) :
    firstOld resident ref old is = firstOld resident ref old' is := by
  simp only [firstOld, h]

theorem Cache.victim_congr (stale' : ℕ → ℕ → Prop) [∀ t l, Decidable (stale' t l)] {c c' : Cache α}
    (hnd : order.Nodup) (hres : c.resident = c'.resident) (href : c.ref = c'.ref)
    (h : firstOld c.resident c.ref (fun i => stale c.time (c.last i)) order =
      firstOld c.resident c.ref (fun i => stale' c'.time (c'.last i)) order) :
    c.victim order stale = c'.victim order stale' := by
  simp only [Cache.victim, ← hres, ← href, scan_congr hnd h]

theorem Cache.access_congr (stale' : ℕ → ℕ → Prop) [∀ t l, Decidable (stale' t l)] (c : Cache α)
    (hnd : order.Nodup) {p : α}
    (h : p ∉ c.resident → firstOld c.resident c.ref (fun i => stale c.time (c.last i)) order =
      firstOld c.resident c.ref (fun i => stale' c.time (c.last i)) order) :
    c.access order stale p = c.access order stale' p := by
  by_cases hp : p ∈ c.resident
  · simp only [Cache.access, hp, ite_true]
  · simp only [Cache.access, hp, ite_false, Cache.victim_congr stale' hnd rfl rfl (h hp)]

/-! ### What a scan leaves, in full -/

/-- The part of an index list in front of the page the scan stops at. -/
def passed (resident ref : Finset α) (old : α → Prop) [DecidablePred old] (is : List α) : List α :=
  is.takeWhile fun i => ¬ (i ∈ resident ∧ i ∉ ref ∧ old i)

theorem passed_erase {resident ref : Finset α} {old : α → Prop} [DecidablePred old]
    {is : List α} {j : α} (hj : j ∉ is) :
    passed resident (ref.erase j) old is = passed resident ref old is := by
  induction is with
  | nil => rfl
  | cons i is ih =>
    have hij : i ≠ j := fun h => hj (h ▸ List.mem_cons_self ..)
    have his : j ∉ is := fun h => hj (List.mem_cons_of_mem _ h)
    have hpred : (i ∈ resident ∧ i ∉ ref.erase j ∧ old i) ↔ (i ∈ resident ∧ i ∉ ref ∧ old i) := by
      simp [Finset.mem_erase, hij]
    simp only [passed, List.takeWhile_cons, hpred]
    rw [← passed, ← passed, ih his]

theorem scan_fst {resident : Finset α} {old : α → Prop} [DecidablePred old] {is : List α}
    (hnd : is.Nodup) {ref : Finset α} :
    (scan resident old is ref).1 = firstOld resident ref old is := by
  induction is generalizing ref with
  | nil => rfl
  | cons i is ih =>
    obtain ⟨hi, hnd⟩ := List.nodup_cons.mp hnd
    by_cases hr : i ∈ resident
    · by_cases hf : i ∈ ref
      · simp only [scan, hr, hf, not_true_eq_false, ite_false, ite_true]
        rw [ih hnd, firstOld_erase hi]
        simp [firstOld, hf]
      · by_cases ho : old i
        · simp [scan, firstOld, hr, hf, ho]
        · simp only [scan, hr, hf, ho, not_true_eq_false, ite_false]
          rw [ih hnd]
          simp [firstOld, ho]
    · simp only [scan, hr, not_false_eq_true, ite_true]
      rw [ih hnd]
      simp [firstOld, hr]

/-- The scan clears the bits of the resident pages it passes, and no other. -/
theorem mem_scan_snd {resident : Finset α} {old : α → Prop} [DecidablePred old] {is : List α}
    (hnd : is.Nodup) {ref : Finset α} {j : α} :
    j ∈ (scan resident old is ref).2 ↔
      j ∈ ref ∧ ¬ (j ∈ resident ∧ j ∈ passed resident ref old is) := by
  induction is generalizing ref with
  | nil => simp [scan, passed]
  | cons i is ih =>
    obtain ⟨hi, hnd⟩ := List.nodup_cons.mp hnd
    by_cases hr : i ∈ resident
    · by_cases hf : i ∈ ref
      · have hpass : passed resident ref old (i :: is) = i :: passed resident ref old is := by
          simp [passed, hf]
        simp only [scan, hr, hf, not_true_eq_false, ite_false, ite_true]
        rw [ih hnd, passed_erase hi, hpass, Finset.mem_erase, List.mem_cons]
        by_cases hji : j = i
        · simp [hji, hr]
        · simp [hji]
      · by_cases ho : old i
        · have hpass : passed resident ref old (i :: is) = [] := by
            simp [passed, hr, hf, ho]
          simp [scan, hr, hf, ho, hpass]
        · have hpass : passed resident ref old (i :: is) = i :: passed resident ref old is := by
            simp [passed, ho]
          simp only [scan, hr, hf, ho, not_true_eq_false, ite_false]
          rw [ih hnd, hpass, List.mem_cons]
          by_cases hji : j = i
          · simp [hji, hf]
          · simp [hji]
    · have hpass : passed resident ref old (i :: is) = i :: passed resident ref old is := by
        simp [passed, hr]
      simp only [scan, hr, not_false_eq_true, ite_true]
      rw [ih hnd, hpass, List.mem_cons]
      by_cases hji : j = i
      · simp [hji, hr]
      · simp [hji]

/-! ### Searches in an ordered list -/

theorem find_isLeast {β : Type*} [Preorder β] {p : β → Bool} {is : List β} {v : β}
    (hsorted : is.Pairwise (· < ·)) (hall : ∀ i, i ∈ is) (h : is.find? p = some v) :
    IsLeast {i | p i = true} v := by
  obtain ⟨hp, front, rest, rfl, hnone⟩ := List.find?_eq_some_iff_append.mp h
  refine ⟨hp, fun i hi => ?_⟩
  rcases List.mem_append.mp (hall i) with hfront | hrest
  · have hno := hnone i hfront
    rw [hi] at hno
    cases hno
  · rcases List.mem_cons.mp hrest with rfl | hrest
    · exact le_refl i
    · have hcons := (List.pairwise_append.mp hsorted).2.1
      exact le_of_lt ((List.pairwise_cons.mp hcons).1 i hrest)

theorem mem_takeWhile_of_find {β : Type*} [Preorder β] {p : β → Bool} {is : List β} {v : β}
    (hsorted : is.Pairwise (· < ·)) (hall : ∀ i, i ∈ is) (h : is.find? p = some v) (j : β) :
    j ∈ is.takeWhile (fun i => ¬ p i = true) ↔ j < v := by
  obtain ⟨hp, front, rest, rfl, hnone⟩ := List.find?_eq_some_iff_append.mp h
  have hfront : ∀ i ∈ front, decide (¬ p i = true) = true := by
    intro i hi
    simpa using hnone i hi
  rw [List.takeWhile_append_of_pos hfront, List.takeWhile_cons_of_neg (by simp [hp]),
    List.append_nil]
  have hpairs := List.pairwise_append.mp hsorted
  constructor
  · intro hj
    exact hpairs.2.2 j hj v List.mem_cons_self
  · intro hlt
    rcases List.mem_append.mp (hall j) with hj | hj
    · exact hj
    · rcases List.mem_cons.mp hj with rfl | hj
      · exact absurd hlt (lt_irrefl j)
      · exact absurd ((List.pairwise_cons.mp hpairs.2.1).1 j hj) (lt_asymm hlt)

end SyeLabs.WorkingSet
