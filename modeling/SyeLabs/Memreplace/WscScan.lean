import SyeLabs.Memreplace.Spec
import Mathlib.Data.List.TakeWhile

/-!
# The scan of `replaceWSC` (`lab13/memreplace.c`, lines 68-97)

What one call leaves, for every page table, every stamp and every clock.
-/

namespace SyeLabs.Memreplace

/-- A page the loop stops at. -/
def Mem.Stale (m : Mem) (i : Page) : Prop := m.valid i = true ∧ ¬ m.ref i = true ∧ overDelta m i

/-- Page `v` has left the RAM, the REF bits of `swept` are clear, and nothing else has
changed. -/
structure Swept (m : Mem) (v : Page) (swept : Page → Prop) (m' : Mem) : Prop where
  valid : ¬ m'.valid v = true
  swap : m'.swap v = true
  ref : ¬ m'.ref v = true
  cleared : ∀ i, swept i → ¬ m'.ref i = true
  kept : ∀ i b, ¬ (i = v ∧ b = 0) → ¬ (i = v ∧ b = 1) → ¬ (swept i ∧ b = 2) →
    m'.bit i b = m.bit i b
  tdu : m'.tdu = m.tdu
  tvc : m'.tvc = m.tvc
  stderr : m'.stderr = m.stderr

variable {m : Mem} {v : Page}

theorem pages_sorted : pages.Pairwise (· < ·) := List.pairwise_lt_finRange nbPages

/- Nothing to scan. -/
theorem wscLoop_of_not_valid (hnone : ∀ i, ¬ m.valid i = true) (is : List Page)
    (r : Option Page) : wscLoop is r m = (r, m) := by
  induction is with
  | nil => rfl
  | cons i is ih => rw [wscLoop, if_pos ((valid_test m i).mpr (hnone i)), ih]

theorem stale_iff (i : Page) :
    (i ∈ m.validSet ∧ i ∉ m.refSet ∧ overDelta m i) ↔ m.Stale i := by
  rw [mem_validSet, mem_refSet, Mem.Stale]

/- `m₁` is the state after the loop. -/
theorem evict_swept {swept : Page → Prop} {m₁ : Mem} (hsame : SameButRef m m₁)
    (hclear : ¬ m₁.ref v = true)
    (href : ∀ i, m₁.ref i = true ↔ m.ref i = true ∧ ¬ swept i) : Swept m v swept (m₁.evict v) := by
  constructor
  · rw [valid_eq, evict_bit]
    simp
  · rw [swap_eq, evict_bit]
    simp
  · rw [ref_eq, evict_bit, ← ref_eq]
    simpa using hclear
  · intro i hi
    rw [ref_eq, evict_bit, ← ref_eq]
    simpa using fun h => ((href i).mp h).2 hi
  · intro i b hvalid hswap hswept
    rw [evict_bit, decide_eq_false hvalid, decide_eq_false hswap, Bool.not_false, Bool.and_true,
      Bool.or_false]
    by_cases hb : b = 2
    · subst hb
      rw [← ref_eq, ← ref_eq, Bool.eq_iff_iff, href i]
      exact and_iff_left fun hi => hswept ⟨hi, rfl⟩
    · exact hsame.bit i b hb
  · exact hsame.tdu
  · exact hsame.tvc
  · exact hsame.stderr

theorem refSet_swept {m₁ : Mem} {is : List Page}
    (h : m₁.refSet = (WorkingSet.scan m.validSet (overDelta m) pages m.refSet).2)
    (hpassed : WorkingSet.passed m.validSet m.refSet (overDelta m) pages = is) (i : Page) :
    m₁.ref i = true ↔ m.ref i = true ∧ ¬ (m.valid i = true ∧ i ∈ is) := by
  rw [← mem_refSet, h, WorkingSet.mem_scan_snd pages_nodup, mem_refSet, mem_validSet, hpassed]

/- The page the loop has chosen leaves the RAM; `front` is what the scan has passed. -/
theorem replaceWSC_of_scan {front : List Page}
    (hpassed : WorkingSet.passed m.validSet m.refSet (overDelta m) pages = front)
    (hchosen : (WorkingSet.firstOld m.validSet m.refSet (overDelta m) pages).or
      (pages.find? (· ∈ m.validSet)) = some v)
    (hclear : m.ref v = true → m.valid v = true ∧ v ∈ front) :
    Swept m v (fun i => m.valid i = true ∧ i ∈ front) (replaceWSC m) := by
  obtain ⟨hfst, hsnd, hsame⟩ := wscLoop_spec pages none m
  rw [WorkingSet.scan_fst pages_nodup, Option.none_or, hchosen] at hfst
  have hloop : wscLoop (List.finRange nbPages) none m = (some v, (wscLoop pages none m).2) :=
    Prod.ext hfst rfl
  have href := refSet_swept hsnd hpassed
  rw [replaceWSC, hloop]
  exact evict_swept hsame (fun h => ((href v).mp h).2 (hclear ((href v).mp h).1)) href

theorem replaceWSC_stops (h : ∃ i, m.Stale i) :
    ∃ v, IsLeast {i | m.Stale i} v ∧
      Swept m v (fun i => m.valid i = true ∧ i < v) (replaceWSC m) := by
  obtain ⟨i, hi⟩ := h
  have hsome : WorkingSet.firstOld m.validSet m.refSet (overDelta m) pages ≠ none := by
    intro hnone
    have hno := List.find?_eq_none.mp hnone i (mem_pages i)
    exact hno (decide_eq_true ((stale_iff i).mpr hi))
  obtain ⟨v, hv⟩ := Option.ne_none_iff_exists'.mp hsome
  have hleast := WorkingSet.find_isLeast pages_sorted mem_pages hv
  simp only [decide_eq_true_eq, stale_iff] at hleast
  have hfront := WorkingSet.mem_takeWhile_of_find pages_sorted mem_pages hv
  simp only [decide_eq_true_eq] at hfront
  have hswept := replaceWSC_of_scan (m := m) (v := v) rfl (by rw [hv]; rfl)
    fun href => absurd href hleast.1.2.1
  refine ⟨v, hleast, ?_⟩
  have hiff : ∀ i, i ∈ WorkingSet.passed m.validSet m.refSet (overDelta m) pages ↔ i < v := hfront
  simp only [hiff] at hswept
  exact hswept

/- With no such page the scan passes them all. -/
theorem replaceWSC_falls_back (hvalid : ∃ i, m.valid i = true) (hnone : ¬ ∃ i, m.Stale i) :
    ∃ v, IsLeast {i | m.valid i = true} v ∧
      Swept m v (fun i => m.valid i = true) (replaceWSC m) := by
  have hold : WorkingSet.firstOld m.validSet m.refSet (overDelta m) pages = none := by
    refine List.find?_eq_none.mpr fun i _ hi => hnone ⟨i, ?_⟩
    exact (stale_iff i).mp (of_decide_eq_true hi)
  have hpassed : WorkingSet.passed m.validSet m.refSet (overDelta m) pages = pages := by
    refine List.takeWhile_eq_self_iff.mpr fun i _ => decide_eq_true fun hi => hnone ⟨i, ?_⟩
    exact (stale_iff i).mp hi
  obtain ⟨i, hi⟩ := hvalid
  have hsome : pages.find? (· ∈ m.validSet) ≠ none := by
    intro hno
    exact List.find?_eq_none.mp hno i (mem_pages i) (decide_eq_true ((mem_validSet m i).mpr hi))
  obtain ⟨v, hv⟩ := Option.ne_none_iff_exists'.mp hsome
  have hleast := WorkingSet.find_isLeast pages_sorted mem_pages hv
  simp only [decide_eq_true_eq, mem_validSet] at hleast
  have hswept := replaceWSC_of_scan (m := m) (v := v) hpassed (by rw [hold]; exact hv)
    fun _ => ⟨hleast.1, mem_pages v⟩
  refine ⟨v, hleast, ?_⟩
  simp only [mem_pages, and_true] at hswept
  exact hswept

/-- The first unreferenced stale page goes and the VALID pages below it lose REF; without
one the first VALID page goes and all of them lose REF. -/
theorem replaceWSC_exact (m : Mem) :
    ((∃ i, m.Stale i) → ∃ v, IsLeast {i | m.Stale i} v ∧
      Swept m v (fun i => m.valid i = true ∧ i < v) (replaceWSC m)) ∧
    ((∃ i, m.valid i = true) → (¬ ∃ i, m.Stale i) →
      ∃ v, IsLeast {i | m.valid i = true} v ∧
        Swept m v (fun i => m.valid i = true) (replaceWSC m)) ∧
    ((∀ i, ¬ m.valid i = true) → replaceWSC m = {m with stderr := m.stderr ++ [noPage]}) := by
  refine ⟨replaceWSC_stops, replaceWSC_falls_back, fun hnone => ?_⟩
  rw [replaceWSC, wscLoop_of_not_valid hnone]

end SyeLabs.Memreplace
