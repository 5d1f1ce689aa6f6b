import SyeLabs.Memreplace.Replace
import SyeLabs.Library.Recency
import SyeLabs.Library.WorkingSet
import Mathlib.Data.Fintype.Basic

/-!
# What one access does

Each function of the simulator described by the sets of VALID and REF pages it
leaves and by the bits it keeps. Later modules use these descriptions and do not
open the loops again.
-/

namespace SyeLabs.Memreplace

def pages : List Page := List.finRange nbPages

theorem mem_pages (i : Page) : i ∈ pages := List.mem_finRange i
theorem pages_nodup : pages.Nodup := List.nodup_finRange nbPages

def Mem.validSet (m : Mem) : Finset Page := Finset.univ.filter fun i => m.valid i = true
def Mem.refSet (m : Mem) : Finset Page := Finset.univ.filter fun i => m.ref i = true

@[simp] theorem mem_validSet (m : Mem) (i : Page) : i ∈ m.validSet ↔ m.valid i = true := by
  simp [Mem.validSet]

@[simp] theorem mem_refSet (m : Mem) (i : Page) : i ∈ m.refSet ↔ m.ref i = true := by
  simp [Mem.refSet]

theorem valid_test (m : Mem) (i : Page) :
    m.pageTable i &&& validBitMask = 0#8 ↔ ¬ m.valid i = true := by
  simp [Mem.valid]

theorem ref_test (m : Mem) (i : Page) :
    m.pageTable i &&& refBitMask ≠ 0#8 ↔ m.ref i = true := by
  simp [Mem.ref]

/-! ### Eviction and loading -/

theorem evict_bit (m : Mem) (v j : Page) (b : ℕ) :
    (m.evict v).bit j b =
      ((m.bit j b && !decide (j = v ∧ b = 0)) || decide (j = v ∧ b = 1)) := by
  simp only [Mem.evict, validBitMask_eq, swapBitMask_eq]
  rw [bit_set _ _ _ _ _ (by omega), bit_clear]

theorem evict_validSet (m : Mem) (v : Page) : (m.evict v).validSet = m.validSet.erase v := by
  ext j
  simp only [mem_validSet, valid_eq, evict_bit, Finset.mem_erase]
  by_cases h : j = v <;> simp [h]

theorem evict_refSet (m : Mem) (v : Page) : (m.evict v).refSet = m.refSet := by
  ext j
  simp [ref_eq, evict_bit]

/- `page_table[p] |= VALID` followed by `&= ~SWAP` (lines 186-187). -/
def Mem.load (m : Mem) (p : Page) : Mem :=
  let m := m.setEntry p (m.pageTable p ||| validBitMask)
  m.setEntry p (m.pageTable p &&& ~~~swapBitMask)

theorem load_bit (m : Mem) (p j : Page) (b : ℕ) :
    (m.load p).bit j b =
      ((m.bit j b || decide (j = p ∧ b = 0)) && !decide (j = p ∧ b = 1)) := by
  simp only [Mem.load, validBitMask_eq, swapBitMask_eq]
  rw [bit_clear, bit_set _ _ _ _ _ (by omega)]

theorem load_validSet (m : Mem) (p : Page) : (m.load p).validSet = insert p m.validSet := by
  ext j
  simp only [mem_validSet, valid_eq, load_bit, Finset.mem_insert]
  by_cases h : j = p <;> simp [h]

/- What a miss does to the pages in RAM, whichever way it picks the victim `v`. -/
theorem validSet_of_miss {m m' : Mem} {p v : Page}
    (hbit : ∀ j b, b ≠ 2 → m'.bit j b = ((m.evict v).load p).bit j b) :
    m'.validSet = insert p (m.validSet.erase v) := by
  rw [← evict_validSet, ← load_validSet]
  ext j
  rw [mem_validSet, mem_validSet, valid_eq, valid_eq, hbit j 0 (by omega)]

/-! ### LRU -/

theorem foldl_lruCandidate (m : Mem) (is : List Page) (r : Option Page) :
    is.foldl (lruCandidate m) r =
      (is.filter (· ∈ m.validSet)).foldl
        (List.argAux fun b c => (m.tdu b).toNat < (m.tdu c).toNat) r := by
  induction is generalizing r with
  | nil => rfl
  | cons i is ih =>
    rw [List.foldl_cons, ih]
    by_cases hv : m.valid i = true
    · have hstep : lruCandidate m r i =
          List.argAux (fun b c => (m.tdu b).toNat < (m.tdu c).toNat) r i := by
        simp only [lruCandidate, valid_test, hv, not_true_eq_false, ite_false]
        cases r with
        | none => rfl
        | some c => simp only [List.argAux, BitVec.lt_def]
      rw [hstep, List.filter_cons_of_pos (by simpa using hv), List.foldl_cons]
    · have hstep : lruCandidate m r i = r := by
        simp only [lruCandidate, valid_test, hv, Bool.false_eq_true, not_false_eq_true, ite_true]
      rw [hstep, List.filter_cons_of_neg (by simpa using hv)]

theorem replaceLRU_eq (m : Mem) {v : Page}
    (h : Recency.oldest pages (fun i => (m.tdu i).toNat) m.validSet = some v) :
    replaceLRU m = .ok (m.evict v) := by
  have hfold : (List.finRange nbPages).foldl (lruCandidate m) none = some v := by
    rw [foldl_lruCandidate]
    exact h
  rw [replaceLRU, hfold]

theorem accessLRU_hit (m : Mem) {p : Page} (h : m.valid p = true) :
    accessLRU m p = .ok (incCompteur m p) := by
  simp only [accessLRU, valid_test, h, not_true_eq_false, ite_false]
  rfl

theorem accessLRU_miss (m : Mem) {p v : Page} (h : ¬ m.valid p = true)
    (hv : Recency.oldest pages (fun i => (m.tdu i).toNat) m.validSet = some v) :
    accessLRU m p = .ok (incCompteur ((m.evict v).load p) p) := by
  simp only [accessLRU, valid_test, h, Bool.false_eq_true, not_false_eq_true, ite_true,
    replaceLRU_eq m hv]
  rfl

/-! ### WSC -/

/-- `m'` differs from `m` in REF bits only. -/
structure SameButRef (m m' : Mem) : Prop where
  bit : ∀ j b, b ≠ 2 → m'.bit j b = m.bit j b
  tdu : m'.tdu = m.tdu
  tvc : m'.tvc = m.tvc
  stderr : m'.stderr = m.stderr

theorem SameButRef.refl (m : Mem) : SameButRef m m := ⟨fun _ _ _ => rfl, rfl, rfl, rfl⟩

theorem SameButRef.validSet {m m' : Mem} (h : SameButRef m m') : m'.validSet = m.validSet := by
  ext j
  simp [valid_eq, h.bit j 0 (by omega)]

theorem clearRef_same (m : Mem) (i : Page) :
    SameButRef m (m.setEntry i (m.pageTable i &&& ~~~refBitMask)) := by
  refine ⟨fun j b hb => ?_, rfl, rfl, rfl⟩
  rw [refBitMask_eq, bit_clear]
  simp [hb]

theorem clearRef_refSet (m : Mem) (i : Page) :
    (m.setEntry i (m.pageTable i &&& ~~~refBitMask)).refSet = m.refSet.erase i := by
  ext j
  simp only [mem_refSet, ref_eq, refBitMask_eq, bit_clear, Finset.mem_erase]
  by_cases h : j = i <;> simp [h]

/-- The loop of `replaceWSC` is the scan of the working-set library: it finds the
same page, leaves the same REF bits and falls back to the first VALID page. -/
theorem wscLoop_spec (is : List Page) (r : Option Page) (m : Mem) :
    (wscLoop is r m).1 =
        (WorkingSet.scan m.validSet (overDelta m) is m.refSet).1.or
          (r.or (is.find? (· ∈ m.validSet))) ∧
      (wscLoop is r m).2.refSet = (WorkingSet.scan m.validSet (overDelta m) is m.refSet).2 ∧
      SameButRef m (wscLoop is r m).2 := by
  induction is generalizing r m with
  | nil => exact ⟨by simp [wscLoop, WorkingSet.scan], rfl, SameButRef.refl m⟩
  | cons i is ih =>
    by_cases hv : m.valid i = true
    · have hdef : (if r = none then some i else r) = r.or ((i :: is).find? (· ∈ m.validSet)) := by
        cases r <;> simp [hv]
      by_cases hr : m.ref i = true
      · have hc := clearRef_same m i
        have hold : overDelta (m.setEntry i (m.pageTable i &&& ~~~refBitMask)) = overDelta m := rfl
        obtain ⟨h1, h2, h3⟩ := ih (if r = none then some i else r)
          (m.setEntry i (m.pageTable i &&& ~~~refBitMask))
        simp only [hc.validSet, clearRef_refSet, hold] at h1 h2
        simp only [wscLoop, WorkingSet.scan, valid_test, ref_test, mem_validSet, mem_refSet, hv, hr,
          not_true_eq_false, ite_false, ite_true]
        refine ⟨?_, h2, ?_⟩
        · rw [h1, hdef, Option.or_assoc]
          cases r <;> simp [hv]
        · exact ⟨fun j b hb => (h3.bit j b hb).trans (hc.bit j b hb), h3.tdu, h3.tvc, h3.stderr⟩
      · by_cases ho : overDelta m i
        · simp only [wscLoop, WorkingSet.scan, valid_test, ref_test, mem_validSet, mem_refSet, hv,
            hr, ho, Bool.false_eq_true, not_true_eq_false, ite_false, ite_true]
          exact ⟨rfl, trivial, SameButRef.refl m⟩
        · obtain ⟨h1, h2, h3⟩ := ih (if r = none then some i else r) m
          simp only [wscLoop, WorkingSet.scan, valid_test, ref_test, mem_validSet, mem_refSet, hv,
            hr, ho, Bool.false_eq_true, not_true_eq_false, ite_false]
          refine ⟨?_, h2, h3⟩
          rw [h1, hdef, Option.or_assoc]
          cases r <;> simp [hv]
    · obtain ⟨h1, h2, h3⟩ := ih r m
      simp only [wscLoop, WorkingSet.scan, valid_test, mem_validSet, hv, not_false_eq_true,
        ite_true, List.find?_cons_of_neg, Bool.false_eq_true, decide_false] at h1 h2 h3 ⊢
      exact ⟨h1, h2, h3⟩

/-- What the working-set library sees of the globals: the stamps are those of `tdu`. -/
def Mem.cache (m : Mem) : WorkingSet.Cache Page :=
  ⟨m.validSet, m.refSet, fun i => (m.tdu i).toNat, m.tvc.toNat⟩

/-- The test of the source on the stamps it keeps. -/
def staleStamp (t l : ℕ) : Prop := (t : ℤ) - l > delta

instance (t l : ℕ) : Decidable (staleStamp t l) := inferInstanceAs (Decidable ((t : ℤ) - l > delta))

theorem replaceWSC_eq (m : Mem) {v : Page} {ref : Finset Page}
    (h : m.cache.victim pages staleStamp = (some v, ref)) :
    ∃ m₁, replaceWSC m = m₁.evict v ∧ SameButRef m m₁ ∧ m₁.refSet = ref := by
  obtain ⟨h1, h2, h3⟩ := wscLoop_spec pages none m
  have hfst := congrArg Prod.fst h
  have hsnd := congrArg Prod.snd h
  simp only [Option.none_or] at h1
  change (wscLoop pages none m).1 = (m.cache.victim pages staleStamp).1 at h1
  change (wscLoop pages none m).2.refSet = (m.cache.victim pages staleStamp).2 at h2
  rw [hfst] at h1
  refine ⟨(wscLoop pages none m).2, ?_, h3, h2.trans hsnd⟩
  have hpair : wscLoop (List.finRange nbPages) none m = (some v, (wscLoop pages none m).2) :=
    Prod.ext h1 rfl
  rw [replaceWSC, hpair]

/- REF and VALID are different bits, so the mask test of `updateTDU` never holds. -/
theorem updateTDU_eq (m : Mem) : updateTDU m = m := by
  have hmask : refBitMask &&& validBitMask = 0#8 := by decide
  have htdu : (fun i => if m.pageTable i &&& refBitMask &&& validBitMask ≠ 0#8 then m.tvc
      else m.tdu i) = m.tdu := by
    funext i
    rw [BitVec.and_assoc, hmask, BitVec.and_zero]
    simp
  rw [updateTDU, htdu]

/- Lines 200-203: VALID and REF are set on the accessed page and the clock advances. -/
def Mem.touch (m : Mem) (p : Page) : Mem :=
  let m := m.setEntry p (m.pageTable p ||| validBitMask)
  let m := m.setEntry p (m.pageTable p ||| refBitMask)
  {m with tvc := m.tvc + 1#8}

theorem touch_bit (m : Mem) (p j : Page) (b : ℕ) :
    (m.touch p).bit j b =
      ((m.bit j b || decide (j = p ∧ b = 0)) || decide (j = p ∧ b = 2)) := by
  simp only [Mem.touch, validBitMask_eq, refBitMask_eq]
  change Mem.bit (Mem.setEntry _ p _) j b = _
  rw [bit_set _ _ _ _ _ (by omega), bit_set _ _ _ _ _ (by omega)]

theorem touch_validSet (m : Mem) (p : Page) : (m.touch p).validSet = insert p m.validSet := by
  ext j
  simp only [mem_validSet, valid_eq, touch_bit, Finset.mem_insert]
  by_cases h : j = p <;> simp [h]

theorem touch_refSet (m : Mem) (p : Page) : (m.touch p).refSet = insert p m.refSet := by
  ext j
  simp only [mem_refSet, ref_eq, touch_bit, Finset.mem_insert]
  by_cases h : j = p <;> simp [h]

theorem accessWSC_hit (m : Mem) {p : Page} (h : m.valid p = true) : accessWSC m p = m.touch p := by
  simp only [accessWSC, valid_test, h, not_true_eq_false, ite_false, updateTDU_eq]
  rfl

/- `page_table[p] &= ~SWAP` on a page just replaced (line 197). -/
def Mem.leaveSwap (m : Mem) (p : Page) : Mem :=
  m.setEntry p (m.pageTable p &&& ~~~swapBitMask)

theorem leaveSwap_bit (m : Mem) (p j : Page) (b : ℕ) :
    (m.leaveSwap p).bit j b = (m.bit j b && !decide (j = p ∧ b = 1)) := by
  simp only [Mem.leaveSwap, swapBitMask_eq]
  rw [bit_clear]

theorem accessWSC_miss (m : Mem) {p : Page} (h : ¬ m.valid p = true) :
    accessWSC m p = ((replaceWSC m).leaveSwap p).touch p := by
  simp only [accessWSC, valid_test, h, Bool.false_eq_true, not_false_eq_true, ite_true,
    updateTDU_eq]
  rfl

/-- The effect of a miss: bits other than REF change as in an LRU miss, the REF
bits are those the scan left and the one of the accessed page. -/
structure WscMiss (m : Mem) (p v : Page) (ref : Finset Page) (m' : Mem) : Prop where
  bit : ∀ j b, b ≠ 2 → m'.bit j b = ((m.evict v).load p).bit j b
  refSet : m'.refSet = insert p ref
  tdu : m'.tdu = m.tdu
  tvc : m'.tvc = m.tvc + 1#8
  stderr : m'.stderr = m.stderr

theorem accessWSC_miss_spec (m : Mem) {p v : Page} {ref : Finset Page} (h : ¬ m.valid p = true)
    (hvic : m.cache.victim pages staleStamp = (some v, ref)) :
    WscMiss m p v ref (accessWSC m p) := by
  obtain ⟨m₁, heq, hsame, hrefs⟩ := replaceWSC_eq m hvic
  rw [accessWSC_miss m h, heq]
  refine ⟨fun j b hb => ?_, ?_, hsame.tdu, congrArg (· + 1#8) hsame.tvc, hsame.stderr⟩
  · rw [touch_bit, leaveSwap_bit, evict_bit, load_bit, evict_bit, hsame.bit j b hb]
    by_cases h0 : b = 0 <;> by_cases h1 : b = 1 <;> simp [h0, h1, hb]
  · rw [touch_refSet, ← hrefs, ← evict_refSet m₁ v]
    congr 1
    ext j
    rw [mem_refSet, mem_refSet, ref_eq, ref_eq, leaveSwap_bit]
    simp

end SyeLabs.Memreplace
