import Mathlib.Combinatorics.Colex
import Mathlib.Data.List.TakeWhile
import Mathlib.Data.Nat.Count
import SyeLabs.Library.WorkingSet

/-!
# Working sets that fit

While the test finds every page old, a working-set cache evicts the first page without a
reference bit and clears the bits in front of it, as a binary counter is increased. So pages
that fit into the cache all come in, and stay, after a bounded number of faults.
-/

namespace SyeLabs.WorkingSet
open Finset

variable {α : Type*} [LinearOrder α]

/-! ### The place of a set among the subsets of another -/

/-- How many subsets come before it. -/
def rank (W s : Finset α) : ℕ := (W.powerset.filter fun t => toColex t < toColex s).card

variable {W s t : Finset α}

theorem rank_lt_pow (hs : s ⊆ W) : rank W s < 2 ^ W.card := by
  have hself : s ∉ W.powerset.filter fun t => toColex t < toColex s := by simp
  have hproper : (W.powerset.filter fun t => toColex t < toColex s) ⊂ W.powerset :=
    (Finset.ssubset_iff_of_subset (Finset.filter_subset _ _)).mpr
      ⟨s, Finset.mem_powerset.mpr hs, hself⟩
  calc rank W s < W.powerset.card := Finset.card_lt_card hproper
    _ = 2 ^ W.card := Finset.card_powerset W

theorem rank_mono (h : toColex s ≤ toColex t) : rank W s ≤ rank W t :=
  Finset.card_le_card fun _ hu => Finset.mem_filter.mpr
    ⟨(Finset.mem_filter.mp hu).1, (Finset.mem_filter.mp hu).2.trans_le h⟩

theorem rank_lt (hs : s ⊆ W) (h : toColex s < toColex t) : rank W s < rank W t := by
  refine Finset.card_lt_card ((Finset.ssubset_iff_of_subset fun u hu => ?_).mpr ⟨s, ?_, ?_⟩)
  · obtain ⟨hsub, hlt⟩ := Finset.mem_filter.mp hu
    exact Finset.mem_filter.mpr ⟨hsub, hlt.trans h⟩
  · exact Finset.mem_filter.mpr ⟨Finset.mem_powerset.mpr hs, h⟩
  · simp

/-! ### What a fault does when every page is old -/

variable {order : List α} {stale : ℕ → ℕ → Prop} [∀ t l, Decidable (stale t l)] {c : Cache α}
  {p v : α}

/-- The victim is the first page whose bit is clear, and the pages in front of it lose theirs;
if no bit is clear the first page goes and all the others lose theirs. -/
theorem Cache.victim_old (hsorted : order.Pairwise (· < ·)) (hall : ∀ i, i ∈ order)
    (hold : ∀ l, stale c.time l) (hne : c.resident.Nonempty) :
    ∃ v ref, c.victim order stale = (some v, ref) ∧ v ∈ c.resident ∧
      ((v ∉ c.ref ∧ (∀ i ∈ c.resident, i ∉ c.ref → v ≤ i) ∧
          ∀ j, j ∈ ref ↔ j ∈ c.ref ∧ ¬ (j ∈ c.resident ∧ j < v)) ∨
        (c.resident ⊆ c.ref ∧ ∀ j, j ∈ ref ↔ j ∈ c.ref ∧ j ∉ c.resident)) := by
  have hnodup : order.Nodup := hsorted.imp fun h => ne_of_lt h
  let old : α → Prop := fun i => stale c.time (c.last i)
  have hscan : c.victim order stale = ((scan c.resident old order c.ref).1.or
      (order.find? (· ∈ c.resident)), (scan c.resident old order c.ref).2) := rfl
  rw [scan_fst hnodup] at hscan
  cases hfirst : firstOld c.resident c.ref old order with
  | some v =>
    obtain ⟨⟨hmem, href, _⟩, hleast⟩ : (v ∈ c.resident ∧ v ∉ c.ref ∧ old v) ∧
        ∀ i, i ∈ c.resident ∧ i ∉ c.ref ∧ old i → v ≤ i := by
      simpa [IsLeast, mem_lowerBounds] using find_isLeast hsorted hall hfirst
    have hfront : ∀ j, j ∈ passed c.resident c.ref old order ↔ j < v := by
      simpa [passed] using mem_takeWhile_of_find hsorted hall hfirst
    refine ⟨v, _, hscan.trans (by rw [hfirst]; rfl), hmem, .inl ⟨href, fun i hi hclear => ?_, ?_⟩⟩
    · exact hleast i ⟨hi, hclear, hold _⟩
    · intro j
      rw [mem_scan_snd hnodup, hfront]
  | none =>
    have hnone : ∀ i, ¬ (i ∈ c.resident ∧ i ∉ c.ref ∧ old i) := fun i hi =>
      List.find?_eq_none.mp hfirst i (hall i) (decide_eq_true hi)
    have hpassed : passed c.resident c.ref old order = order :=
      List.takeWhile_eq_self_iff.mpr fun i _ => decide_eq_true (hnone i)
    obtain ⟨i, hi⟩ := hne
    obtain ⟨v, hv⟩ := Option.ne_none_iff_exists'.mp fun h : order.find? (· ∈ c.resident) = none =>
      List.find?_eq_none.mp h i (hall i) (decide_eq_true hi)
    refine ⟨v, _, hscan.trans (by rw [hfirst, hv]; rfl), ?_, .inr ⟨fun j hj => ?_, fun j => ?_⟩⟩
    · simpa using List.find?_some hv
    · by_contra hclear
      exact hnone j ⟨hj, hclear, hold _⟩
    · rw [mem_scan_snd hnodup, hpassed]
      simp [hall j]

/-! ### The work that is left -/

/-- The pages of the working set that the next fault cannot evict: those whose bit is set, and
those that are not in the cache. -/
def closed (W : Finset α) (c : Cache α) : Finset α :=
  W.filter fun w => w ∉ c.resident ∨ w ∈ c.ref

def missing (W : Finset α) (c : Cache α) : Finset α := W.filter fun w => w ∉ c.resident

/-- Another page is in the cache, with its bit clear. -/
def Idle (W : Finset α) (c : Cache α) : Prop := ∃ u ∈ c.resident, u ∉ W ∧ u ∉ c.ref

instance (W : Finset α) (c : Cache α) : Decidable (Idle W c) :=
  inferInstanceAs (Decidable (∃ u ∈ c.resident, u ∉ W ∧ u ∉ c.ref))

/-- The faults that may still come while every page is old. -/
def work (W : Finset α) (c : Cache α) : ℕ :=
  if (missing W c).card = 0 then 0
  else ((missing W c).card - 1) * (2 * 2 ^ W.card) + (if Idle W c then 0 else 2 ^ W.card) +
    (2 ^ W.card - rank W (closed W c))

theorem mem_missing : p ∈ missing W c ↔ p ∈ W ∧ p ∉ c.resident := Finset.mem_filter

theorem closed_subset (W : Finset α) (c : Cache α) : closed W c ⊆ W := Finset.filter_subset _ _

theorem work_le (W : Finset α) (c : Cache α) : work W c ≤ W.card * (2 * 2 ^ W.card) := by
  have hmissing : (missing W c).card ≤ W.card := Finset.card_filter_le _ _
  unfold work
  split_ifs with hnone
  · exact Nat.zero_le _
  · obtain ⟨n, hn⟩ := Nat.exists_eq_add_one_of_ne_zero hnone
    have hall : (n + 1) * (2 * 2 ^ W.card) ≤ W.card * (2 * 2 ^ W.card) :=
      Nat.mul_le_mul_right _ (by omega)
    rw [hn, Nat.add_sub_cancel]
    rw [Nat.add_mul] at hall
    omega
  · obtain ⟨n, hn⟩ := Nat.exists_eq_add_one_of_ne_zero hnone
    have hall : (n + 1) * (2 * 2 ^ W.card) ≤ W.card * (2 * 2 ^ W.card) :=
      Nat.mul_le_mul_right _ (by omega)
    rw [hn, Nat.add_sub_cancel]
    rw [Nat.add_mul] at hall
    omega

variable {c' : Cache α}

theorem work_lt_of_fetched (h : (missing W c').card + 1 = (missing W c).card) :
    work W c' < work W c := by
  have hrank := rank_lt_pow (closed_subset W c)
  unfold work
  rw [← h, if_neg (Nat.succ_ne_zero _), Nat.add_sub_cancel]
  by_cases hnone : (missing W c').card = 0
  · rw [if_pos hnone]
    omega
  · obtain ⟨n, hn⟩ := Nat.exists_eq_add_one_of_ne_zero hnone
    rw [if_neg hnone, hn, Nat.add_sub_cancel, Nat.add_mul]
    split_ifs <;> omega

theorem work_lt_of_closed (hmissing : (missing W c').card = (missing W c).card)
    (hsome : (missing W c).card ≠ 0) (hidle : Idle W c → Idle W c')
    (hclosed : toColex (closed W c) < toColex (closed W c')) : work W c' < work W c := by
  have hrank := rank_lt (closed_subset W c) hclosed
  have hrank' := rank_lt_pow (closed_subset W c')
  unfold work
  rw [hmissing, if_neg hsome, if_neg hsome]
  by_cases hc : Idle W c
  · rw [if_pos hc, if_pos (hidle hc)]
    omega
  · rw [if_neg hc]
    split_ifs <;> omega

theorem work_lt_of_idle (hmissing : (missing W c').card = (missing W c).card)
    (hsome : (missing W c).card ≠ 0) (hc : ¬ Idle W c) (hc' : Idle W c') :
    work W c' < work W c := by
  have hrank := rank_lt_pow (closed_subset W c)
  unfold work
  rw [hmissing, if_neg hsome, if_neg hsome, if_neg hc, if_pos hc']
  omega

/-- An access to a page that is there only sets its bit. -/
theorem work_hit (hp : p ∈ W) (hres : p ∈ c.resident) :
    work W (c.access order stale p) ≤ work W c := by
  have hresident : (c.access order stale p).resident = c.resident := by
    simp only [Cache.access, hres, ite_true]
  have href : (c.access order stale p).ref = insert p c.ref := by
    simp only [Cache.access, hres, ite_true]
  have hmissing : missing W (c.access order stale p) = missing W c := by
    rw [missing, hresident, missing]
  have hidle : Idle W (c.access order stale p) ↔ Idle W c := by
    simp only [Idle, hresident, href, Finset.mem_insert, not_or]
    refine exists_congr fun u => and_congr_right fun _ => and_congr_right fun hu => ?_
    exact and_iff_right fun hup => hu (hup ▸ hp)
  have hclosed : closed W c ⊆ closed W (c.access order stale p) := by
    refine Finset.monotone_filter_right W fun w _ hw => ?_
    rw [hresident, href]
    exact hw.imp id (Finset.mem_insert_of_mem)
  have hrank := rank_mono (W := W) (Finset.Colex.toColex_le_toColex_of_subset hclosed)
  unfold work
  simp only [hmissing, hidle]
  split_ifs <;> omega

section Fault

/-! A fault on `p` evicts `v` and leaves the bits `ref`. -/

variable {ref : Finset α} (hresident : c'.resident = insert p (c.resident.erase v))
  (href : c'.ref = insert p ref) (hp : p ∈ W) (hres : p ∉ c.resident) (hv : v ∈ c.resident)

include hresident hp hres in
theorem missing_fetched (hvW : v ∉ W) : (missing W c').card + 1 = (missing W c).card := by
  have hmissing : missing W c' = (missing W c).erase p := by
    ext w
    simp only [missing, hresident, Finset.mem_filter, Finset.mem_insert, Finset.mem_erase]
    constructor
    · rintro ⟨hw, hout⟩
      have hwv : w ≠ v := fun h => hvW (h ▸ hw)
      exact ⟨fun h => hout (.inl h), hw, fun h => hout (.inr ⟨hwv, h⟩)⟩
    · rintro ⟨hwp, hw, hout⟩
      exact ⟨hw, fun h => h.elim hwp fun h => hout h.2⟩
  have hmem : p ∈ missing W c := mem_missing.mpr ⟨hp, hres⟩
  rw [hmissing, Finset.card_erase_add_one hmem]

include hresident hp hres hv in
theorem missing_exchanged (hvW : v ∈ W) : (missing W c').card = (missing W c).card := by
  have hpv : p ≠ v := fun h => hres (h ▸ hv)
  have hmissing : missing W c' = insert v ((missing W c).erase p) := by
    ext w
    simp only [missing, hresident, Finset.mem_filter, Finset.mem_insert, Finset.mem_erase]
    by_cases hwv : w = v
    · simp [hwv, hvW, hpv.symm]
    · by_cases hwp : w = p
      · simp [hwp, hpv]
      · simp [hwv, hwp]
  have hnew : v ∉ (missing W c).erase p := by simp [missing, hv]
  have hmem : p ∈ missing W c := mem_missing.mpr ⟨hp, hres⟩
  rw [hmissing, Finset.card_insert_of_notMem hnew, Finset.card_erase_add_one hmem]

include hresident href hp in
/- A page outside of the working set stays, when one in it is evicted. -/
theorem idle_of_other {u : α} (hvW : v ∈ W) (hu : u ∈ c.resident) (huW : u ∉ W) (huref : u ∉ ref) :
    Idle W c' := by
  have huv : u ≠ v := fun h => huW (h ▸ hvW)
  refine ⟨u, ?_, huW, ?_⟩
  · rw [hresident]
    exact Finset.mem_insert_of_mem (Finset.mem_erase.mpr ⟨huv, hu⟩)
  · rw [href, Finset.mem_insert, not_or]
    exact ⟨fun h => huW (h ▸ hp), huref⟩

include hresident href hres hv in
/- The victim is closed now, and pages that have been opened stand in front of it. -/
theorem closed_lt (hvW : v ∈ W) (hclear : v ∉ c.ref)
    (hbits : ∀ j, j ∈ ref ↔ j ∈ c.ref ∧ ¬ (j ∈ c.resident ∧ j < v)) :
    toColex (closed W c) < toColex (closed W c') := by
  have hpv : p ≠ v := fun h => hres (h ▸ hv)
  rw [Finset.Colex.toColex_lt_toColex_iff_exists_forall_lt]
  refine ⟨v, ?_, ?_, fun w hw hopen => ?_⟩
  · refine Finset.mem_filter.mpr ⟨hvW, .inl ?_⟩
    simp [hresident, hpv.symm]
  · exact fun h => (Finset.mem_filter.mp h).2.elim (fun hout => hout hv) hclear
  · obtain ⟨hwW, hw⟩ := Finset.mem_filter.mp hw
    have hnow : w ∈ insert p (c.resident.erase v) ∧ w ∉ insert p ref := by
      rw [← hresident, ← href]
      simpa [closed, hwW] using hopen
    have hwp : w ≠ p := fun h => hnow.2 (h ▸ Finset.mem_insert_self ..)
    have herase := (Finset.mem_insert.mp hnow.1).resolve_left hwp
    have hwres : w ∈ c.resident := (Finset.mem_erase.mp herase).2
    have hwref := hw.resolve_left (not_not.mpr hwres)
    by_contra hbehind
    exact hnow.2 (Finset.mem_insert_of_mem ((hbits w).mpr ⟨hwref, fun h => hbehind h.2⟩))

end Fault

/- The working set would fit, so as long as a page of it is missing there is another one. -/
theorem exists_outside (hfits : W.card ≤ c.resident.card) (hp : p ∈ W) (hres : p ∉ c.resident) :
    ∃ u ∈ c.resident, u ∉ W := by
  by_contra hinside
  simp only [not_exists, not_and, not_not] at hinside
  have hsub : c.resident ⊂ W := (Finset.ssubset_iff_of_subset hinside).mpr ⟨p, hp, hres⟩
  exact absurd hfits (Nat.not_le_of_lt (Finset.card_lt_card hsub))

theorem work_fault (hsorted : order.Pairwise (· < ·)) (hall : ∀ i, i ∈ order)
    (hold : ∀ l, stale c.time l) (hfits : W.card ≤ c.resident.card) (hp : p ∈ W)
    (hres : p ∉ c.resident) : work W (c.access order stale p) < work W c := by
  obtain ⟨u, hu, huW⟩ := exists_outside hfits hp hres
  obtain ⟨v, ref, hvictim, hv, hcases⟩ := Cache.victim_old hsorted hall hold ⟨u, hu⟩
  have hresident : (c.access order stale p).resident = insert p (c.resident.erase v) := by
    simp only [Cache.access, hres, ite_false, hvictim]
  have href : (c.access order stale p).ref = insert p ref := by
    simp only [Cache.access, hres, ite_false, hvictim]
  by_cases hvW : v ∈ W
  · have hcard := missing_exchanged hresident hp hres hv hvW
    have hsome : (missing W c).card ≠ 0 :=
      Finset.card_ne_zero_of_mem (mem_missing.mpr ⟨hp, hres⟩)
    rcases hcases with ⟨hclear, -, hbits⟩ | ⟨hset, hbits⟩
    · refine work_lt_of_closed hcard hsome ?_ (closed_lt hresident href hres hv hvW hclear hbits)
      rintro ⟨u, hu, huW, huclear⟩
      exact idle_of_other hresident href hp hvW hu huW fun h => huclear ((hbits u).mp h).1
    · -- all bits were set, and are cleared now
      refine work_lt_of_idle hcard hsome ?_ ?_
      · rintro ⟨u, hu, _, huclear⟩
        exact huclear (hset hu)
      · exact idle_of_other hresident href hp hvW hu huW fun h => ((hbits u).mp h).2 hu
  · exact work_lt_of_fetched (missing_fetched hresident hp hres hvW)

/-! ### Runs -/

variable (order stale)

/-- The accesses to pages that are not there. -/
def Cache.faults : Cache α → List α → ℕ
  | _, [] => 0
  | c, p :: ps =>
    (if p ∈ c.resident then 0 else 1) + Cache.faults (c.access order stale p) ps

variable {order stale}

theorem Cache.access_card (hall : ∀ i, i ∈ order) (hne : c.resident.Nonempty) (p : α) :
    (c.access order stale p).resident.card = c.resident.card := by
  by_cases hres : p ∈ c.resident
  · simp only [Cache.access, hres, ite_true]
  · obtain ⟨v, ref, hvictim, hv, -, -⟩ := Cache.victim_spec order stale c hall hne
    have hresident : (c.access order stale p).resident = insert p (c.resident.erase v) := by
      simp only [Cache.access, hres, ite_false, hvictim]
    have hnew : p ∉ c.resident.erase v := fun h => hres (Finset.mem_erase.mp h).2
    rw [hresident, Finset.card_insert_of_notMem hnew, Finset.card_erase_add_one hv]

variable {old : ℕ → Prop} [DecidablePred old]

theorem faults_step (hsorted : order.Pairwise (· < ·)) (hall : ∀ i, i ∈ order)
    (hold : ∀ t, old t → ∀ l, stale t l) (hfits : W.card ≤ c.resident.card) (hp : p ∈ W) :
    (if p ∈ c.resident then 0 else 1) + work W (c.access order stale p) ≤
      work W c + (1 + W.card * (2 * 2 ^ W.card)) * if old c.time then 0 else 1 := by
  by_cases hres : p ∈ c.resident
  · have hhit := @work_hit α _ W order stale _ c p hp hres
    rw [if_pos hres]
    omega
  · rw [if_neg hres]
    split_ifs with ht
    · have hfault := work_fault hsorted hall (hold c.time ht) hfits hp hres
      omega
    · have hle := work_le W (c.access order stale p)
      omega

/-- A fault takes from the work that is left, or comes at a time when not every page is old. -/
theorem faults_le (hsorted : order.Pairwise (· < ·)) (hall : ∀ i, i ∈ order)
    (hold : ∀ t, old t → ∀ l, stale t l) (hfits : W.card ≤ c.resident.card) {ps : List α}
    (hps : ∀ p ∈ ps, p ∈ W) : c.faults order stale ps ≤ work W c +
      (1 + W.card * (2 * 2 ^ W.card)) * Nat.count (fun k => ¬ old (c.time + k)) ps.length := by
  induction ps generalizing c with
  | nil => exact Nat.zero_le _
  | cons p ps ih =>
    have hp := hps p (List.mem_cons_self ..)
    have hne : c.resident.Nonempty := by
      rw [← Finset.card_pos]
      exact (Finset.card_pos.mpr ⟨p, hp⟩).trans_le hfits
    have hcard : (c.access order stale p).resident.card = c.resident.card := c.access_card hall hne p
    have hrest := @ih (c.access order stale p) (hfits.trans_eq hcard.symm) fun q hq =>
      hps q (List.mem_cons_of_mem p hq)
    have hstep := faults_step hsorted hall hold hfits hp
    have htime : (c.access order stale p).time = c.time + 1 := rfl
    have hcount : Nat.count (fun k => ¬ old (c.time + k)) (p :: ps).length =
        (if old c.time then 0 else 1) + Nat.count (fun k => ¬ old (c.time + 1 + k)) ps.length := by
      rw [List.length_cons, Nat.add_comm, Nat.count_add]
      simp [Nat.count_succ, Nat.add_assoc]
    rw [htime] at hrest
    rw [Cache.faults, hcount, Nat.mul_add]
    omega

end SyeLabs.WorkingSet
