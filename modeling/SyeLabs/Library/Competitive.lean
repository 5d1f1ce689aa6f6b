import Mathlib.Data.Finset.Card

/-!
# Page faults against the best schedule

A schedule may bring in and drop pages as it likes, knowing all requests, as long as no more
than `k` are resident and the requested one is. A replacement that keeps the pages of every
stretch with at most `k` of them faults at most `k` times in each phase of the requests, and
every schedule has to load a page in each phase but the first.
-/

namespace SyeLabs.Paging

variable {α : Type*} [DecidableEq α]

/-- The requests are served from the resident pages `R` on with `n` loads, and `R'` is resident
at the end. -/
inductive Serves (k : ℕ) : Finset α → List α → ℕ → Finset α → Prop
  | nil (R : Finset α) : Serves k R [] 0 R
  | cons {R R₁ R₂ : Finset α} {p : α} {ps : List α} {n : ℕ} : p ∈ R₁ → R₁.card ≤ k →
    Serves k R₁ ps n R₂ → Serves k R (p :: ps) ((R₁ \ R).card + n) R₂

/-- How often a new phase begins, when the phase so far has requested `S`: a phase ends before
the request that would be for one page too many. -/
def newPhases (k : ℕ) : Finset α → List α → ℕ
  | _, [] => 0
  | S, p :: ps =>
    if (insert p S).card ≤ k then newPhases k (insert p S) ps else newPhases k {p} ps + 1

/-- The requests of `ps` to pages that are not in `res`, the pages resident after the requests
before them, which begin with `xs`. -/
def faults (res : List α → Finset α) : List α → List α → ℕ
  | _, [] => 0
  | xs, p :: ps => (if p ∈ res xs then 0 else 1) + faults res (xs ++ [p]) ps

/-- After a stretch of requests for at most `k` pages, all of these are resident. -/
def Conservative (k : ℕ) (res : List α → Finset α) : Prop :=
  ∀ xs us : List α, us.toFinset.card ≤ k → ∀ q ∈ us, q ∈ res (xs ++ us)

variable {k n : ℕ} {R R' S : Finset α} {ps : List α}

theorem faults_append (res : List α → Finset α) (xs ps qs : List α) :
    faults res xs (ps ++ qs) = faults res xs ps + faults res (xs ++ ps) qs := by
  induction ps generalizing xs with
  | nil => rw [List.nil_append, faults, Nat.zero_add, List.append_nil]
  | cons p ps ih =>
    rw [List.cons_append, faults, faults, ih, List.append_assoc, List.singleton_append,
      Nat.add_assoc]

theorem faults_congr {res res' : List α → Finset α} {xs ps : List α}
    (h : ∀ qs, qs <+: xs ++ ps → res qs = res' qs) : faults res xs ps = faults res' xs ps := by
  induction ps generalizing xs with
  | nil => rfl
  | cons p ps ih =>
    have hsplit : xs ++ [p] ++ ps = xs ++ p :: ps := by
      rw [List.append_assoc, List.singleton_append]
    rw [faults, faults, h xs (List.prefix_append _ _), ih fun qs hqs => h qs (hsplit ▸ hqs)]

/-- No load is made for pages that are resident. -/
theorem Serves.of_resident (hcard : R.card ≤ k) (h : ∀ p ∈ ps, p ∈ R) : Serves k R ps 0 R := by
  induction ps with
  | nil => exact .nil R
  | cons p ps ih =>
    have hrest := ih fun q hq => h q (List.mem_cons_of_mem _ hq)
    have hserves := Serves.cons (R := R) (h p (List.mem_cons_self ..)) hcard hrest
    rwa [Finset.sdiff_self, Finset.card_empty, Nat.zero_add] at hserves

theorem Serves.append {ps' : List α} {n' : ℕ} {R₂ : Finset α} (h : Serves k R ps n R')
    (h' : Serves k R' ps' n' R₂) : Serves k R (ps ++ ps') (n + n') R₂ := by
  induction h with
  | nil R => rwa [List.nil_append, Nat.zero_add]
  | cons hp hcard _ ih =>
    rw [List.cons_append, Nat.add_assoc]
    exact .cons hp hcard (ih h')

/-- Every new phase costs a schedule a load. `R₀` was resident before the phase, and at most `m`
loads have been made in it. -/
theorem Serves.newPhases_le {R₀ : Finset α} {m : ℕ} (h : Serves k R ps n R')
    (hstart : R₀.card ≤ k) (hloads : ((R ∪ S) \ R₀).card ≤ m) : newPhases k S ps ≤ m + n := by
  induction h generalizing R₀ S m with
  | nil R => exact Nat.zero_le _
  | @cons R R₁ R₂ p ps n hp hcard _ ih =>
    have hsub : (R₁ ∪ insert p S) \ R₀ ⊆ ((R ∪ S) \ R₀) ∪ (R₁ \ R) := by
      intro q hq
      simp only [Finset.mem_sdiff, Finset.mem_union, Finset.mem_insert] at hq ⊢
      by_cases hR : q ∈ R
      · exact Or.inl ⟨Or.inl hR, hq.2⟩
      · rcases hq.1 with hq₁ | rfl | hqS
        · exact Or.inr ⟨hq₁, hR⟩
        · exact Or.inr ⟨hp, hR⟩
        · exact Or.inl ⟨Or.inr hqS, hq.2⟩
    have hnow : ((R₁ ∪ insert p S) \ R₀).card ≤ m + (R₁ \ R).card :=
      (Finset.card_le_card hsub).trans ((Finset.card_union_le _ _).trans
        (Nat.add_le_add_right hloads _))
    rw [newPhases]
    split_ifs with hfew
    · have hrest := ih hstart hnow
      omega
    · -- more pages than fit were requested since `R₀`
      have hmany : 0 < ((R₁ ∪ insert p S) \ R₀).card := by
        have hsplit := Finset.card_le_card_sdiff_add_card (s := R₁ ∪ insert p S) (t := R₀)
        have hle : (insert p S).card ≤ (R₁ ∪ insert p S).card :=
          Finset.card_le_card Finset.subset_union_right
        omega
      have hnone : ((R₁ ∪ {p}) \ R₁).card ≤ 0 := by
        rw [Finset.union_eq_left.mpr (Finset.singleton_subset_iff.mpr hp), Finset.sdiff_self]
        exact Nat.le_refl 0
      have hrest := ih hcard hnone
      omega

/-- A phase begins with at most `k` faults. -/
theorem Conservative.faults_le {res : List α → Finset α} (h : Conservative k res) (hk : 0 < k)
    (xs us ps : List α) (hfew : us.toFinset.card ≤ k) :
    faults res (xs ++ us) ps ≤ (k - us.toFinset.card) + k * newPhases k us.toFinset ps := by
  induction ps generalizing xs us with
  | nil => exact Nat.zero_le _
  | cons p ps ih =>
    have hsnoc : (us ++ [p]).toFinset = insert p us.toFinset := by
      rw [List.toFinset_append, List.toFinset_cons, List.toFinset_nil, Finset.union_comm]
      rfl
    rw [faults, newPhases]
    split_ifs with hres hmore hmore
    · have hrest := ih xs (us ++ [p]) (hsnoc ▸ hmore)
      rw [hsnoc, ← List.append_assoc] at hrest
      have hcard := Finset.card_le_card (Finset.subset_insert p us.toFinset)
      omega
    · have hrest := ih (xs ++ us) [p] hk
      rw [Nat.mul_add]
      simp only [List.toFinset_cons, List.toFinset_nil, insert_empty_eq,
        Finset.card_singleton] at hrest
      omega
    · have hnew : p ∉ us.toFinset := fun hp =>
        hres (h xs us hfew p (List.mem_toFinset.mp hp))
      have hrest := ih xs (us ++ [p]) (hsnoc ▸ hmore)
      rw [hsnoc, ← List.append_assoc] at hrest
      rw [Finset.card_insert_of_notMem hnew] at hrest hmore
      omega
    · have hrest := ih (xs ++ us) [p] hk
      rw [Nat.mul_add]
      simp only [List.toFinset_cons, List.toFinset_nil, insert_empty_eq,
        Finset.card_singleton] at hrest
      omega

/-- At most `k` faults for each load of any schedule, and `k` more. -/
theorem Conservative.competitive {res : List α → Finset α} (h : Conservative k res) (hk : 0 < k)
    (hR : R.card ≤ k) (hserves : Serves k R ps n R') : faults res [] ps ≤ k * n + k := by
  have hphases : newPhases k ∅ ps ≤ 0 + n := hserves.newPhases_le hR (by simp)
  have hfaults := h.faults_le hk [] [] ps (Nat.zero_le _)
  rw [Nat.zero_add] at hphases
  rw [List.toFinset_nil, Finset.card_empty, Nat.sub_zero] at hfaults
  calc faults res [] ps ≤ k + k * newPhases k ∅ ps := hfaults
    _ ≤ k + k * n := Nat.add_le_add_left (Nat.mul_le_mul_left k hphases) k
    _ = k * n + k := Nat.add_comm _ _

end SyeLabs.Paging
