import SyeLabs.Library.RecencyStack
import SyeLabs.Memreplace.Lru

/-!
# Which accesses of LRU mode hit

As long as `tvc` has not wrapped twice around, the RAM holds the three pages accessed last.
An access hits when fewer than three other pages were accessed since the last one to its page.
-/

namespace SyeLabs.Memreplace

/-- The pages that `init_page_table` puts into RAM, as if 0 had been accessed first. -/
def initialOrder : List Page := [2, 1, 0]

theorem start_listed : Recency.Listed pages 3 (Recency.Cache.start firstFrames) initialOrder :=
  ⟨by decide, by decide, by decide, by
    have hpairs : initialOrder.Pairwise fun a b : Page => List.Sublist [b, a] pages := by decide
    exact hpairs.imp fun h => Or.inr ⟨rfl, h⟩, fun _ => Nat.le_refl 0⟩

/- While the stamps are the access numbers, the pages in RAM are those of the ideal cache. -/
theorem run_short {accessed : List Page} (h : accessed.length ≤ 256) :
    ∃ m, run true accessed = .ok m ∧ m.validSet = (idealLRU accessed).resident := by
  obtain ⟨m, hrun, hm⟩ := run_lruRel accessed
  have hideal := (Recency.Cache.run_resident_iff stamp (Recency.Cache.start firstFrames) mem_pages
    firstFrames_nonempty accessed).mpr (oldestByStamp_of_short h)
  exact ⟨m, hrun, hm.resident.trans (hideal accessed (List.prefix_refl accessed))⟩

/-- What the session so far says about the pages in RAM: they are the first three of the
recency list; a page that was accessed is in RAM when fewer than three others were accessed
since; and after a stretch of accesses to at most three pages, all of these are. -/
structure ThreeLast (accessed : List Page) (m : Mem) : Prop where
  recent : ∀ i, m.valid i = true ↔ i ∈ (firstSeen (accessed.reverse ++ initialOrder)).take 3
  since : ∀ xs i ys, accessed = xs ++ i :: ys → i ∉ ys →
    (m.valid i = true ↔ ys.toFinset.card < 3)
  stretch : ∀ xs us, accessed = xs ++ us → us.toFinset.card ≤ 3 → ∀ i ∈ us, m.valid i = true

/-- LRU mode keeps the three pages accessed last, in every session of at most 256 accesses. -/
theorem lru_keeps_last (accessed : List Page) (h : accessed.length ≤ 256) :
    ∃ m, run true accessed = .ok m ∧ ThreeLast accessed m := by
  obtain ⟨m, hrun, hset⟩ := run_short h
  have hvalid : ∀ i, m.valid i = true ↔ i ∈ (idealLRU accessed).resident := fun i => by
    rw [← hset, mem_validSet]
  refine ⟨m, hrun, fun i => ?_, fun xs i ys hsplit hi => ?_, fun xs us hsplit hfew i hi => ?_⟩
  · rw [hvalid]
    exact start_listed.resident_run pages_nodup mem_pages accessed i
  · rw [hvalid, hsplit]
    exact start_listed.resident_since pages_nodup mem_pages xs hi
  · rw [hvalid, hsplit]
    exact start_listed.resident_stretch pages_nodup mem_pages xs hi hfew

/- Page 0 goes for 3, page 1 for 0. -/
theorem lru_keeps_last_three : [3, 0].length ≤ 256 ∧
    ∃ m, run true [3, 0] = .ok m ∧ ThreeLast [3, 0] m :=
  ⟨by decide, lru_keeps_last [3, 0] (by decide)⟩

end SyeLabs.Memreplace
