import SyeLabs.Memreplace.Conservation

/-!
# LRU mode against the ideal policy

`tdu` and `tvc` hold the true access numbers modulo 256, so LRU mode is the
ideal cache seen through `(· % 256)`. It evicts the right page as long as that
reduction keeps the oldest resident page the oldest.
-/

namespace SyeLabs.Memreplace

/- What an 8-bit stamp shows of an access number. -/
def stamp (n : ℕ) : ℕ := n % 256

def firstFrames : Finset Page := {0, 1, 2}

/-- The ideal cache with the true order of accesses. -/
def idealLRU (accessed : List Page) : Recency.Cache Page :=
  (Recency.Cache.start firstFrames).run pages id accessed

structure LruRel (m : Mem) (c : Recency.Cache Page) : Prop where
  resident : m.validSet = c.resident
  tdu : ∀ i, (m.tdu i).toNat = stamp (c.last i)
  tvc : m.tvc.toNat = stamp c.time

theorem tick_toNat {b : Byte} {t : ℕ} (h : b.toNat = stamp t) : (b + 1#8).toNat = stamp (t + 1) := by
  simp only [BitVec.toNat_add, h, stamp, BitVec.toNat_ofNat]
  omega

theorem LruRel.count {m : Mem} {c : Recency.Cache Page} (h : LruRel m c) (p : Page)
    (s : Finset Page) (hs : m.validSet = s) :
    LruRel (incCompteur m p) ⟨s, Function.update c.last p (c.time + 1), c.time + 1⟩ := by
  have htvc : (incCompteur m p).tvc.toNat = stamp (c.time + 1) := tick_toNat h.tvc
  refine ⟨hs, fun i => ?_, htvc⟩
  by_cases hi : i = p
  · subst hi
    have hstamp : (incCompteur m i).tdu i = (incCompteur m i).tvc := by simp [incCompteur]
    rw [hstamp, htvc]
    simp
  · have hstamp : (incCompteur m p).tdu i = m.tdu i := by simp [incCompteur, hi]
    rw [hstamp, h.tdu i]
    simp [hi]

theorem LruRel.access {m : Mem} {c : Recency.Cache Page} (h : LruRel m c)
    (hne : c.resident.Nonempty) (p : Page) :
    ∃ m', accessLRU m p = .ok m' ∧ LruRel m' (c.access pages stamp p) := by
  have hiff : m.valid p = true ↔ p ∈ c.resident := by rw [← h.resident, mem_validSet]
  by_cases hp : m.valid p = true
  · refine ⟨_, accessLRU_hit m hp, ?_⟩
    have hload : c.loaded pages stamp p = c.resident := by
      simp only [Recency.Cache.loaded, hiff.mp hp, ite_true]
    rw [Recency.Cache.access, hload]
    exact h.count p _ h.resident
  · obtain ⟨q, hq⟩ := hne
    obtain ⟨v, hv⟩ := Recency.oldest_isSome (fun i => stamp (c.last i)) hq (mem_pages q)
    have hkey : Recency.oldest pages (fun i => (m.tdu i).toNat) m.validSet = some v := by
      rw [h.resident, Recency.oldest_congr fun i _ => h.tdu i]
      exact hv
    refine ⟨_, accessLRU_miss m hp hkey, ?_⟩
    have hload : c.loaded pages stamp p = insert p (c.resident.erase v) := by
      simp only [Recency.Cache.loaded, hiff.not.mp hp, ite_false, hv]
    have hmoved : LruRel ((m.evict v).load p) ⟨insert p (c.resident.erase v), c.last, c.time⟩ := by
      refine ⟨?_, h.tdu, h.tvc⟩
      rw [load_validSet, evict_validSet, h.resident]
    rw [Recency.Cache.access, hload]
    exact hmoved.count p _ hmoved.resident

theorem init_lruRel : LruRel (initPageTable zeroed) (Recency.Cache.start firstFrames) :=
  ⟨by decide, fun _ => rfl, rfl⟩

theorem firstFrames_nonempty : (Recency.Cache.start firstFrames).resident.Nonempty := ⟨0, by decide⟩

theorem run_lruRel (accessed : List Page) :
    ∃ m, run true accessed = .ok m ∧
      LruRel m ((Recency.Cache.start firstFrames).run pages stamp accessed) := by
  induction accessed using List.reverseRecOn with
  | nil => exact ⟨_, rfl, init_lruRel⟩
  | append_singleton accessed p ih =>
    obtain ⟨m, hrun, hm⟩ := ih
    have hne := Recency.Cache.run_nonempty stamp (Recency.Cache.start firstFrames) mem_pages
      firstFrames_nonempty accessed
    obtain ⟨m', hacc, hm'⟩ := hm.access hne p
    refine ⟨m', ?_, ?_⟩
    · rw [run_snoc, hrun]
      exact hacc
    · rw [Recency.Cache.run_snoc]
      exact hm'

/- After every access of the session the VALID pages are those of the ideal cache. -/
def RefinesLRU (accessed : List Page) : Prop :=
  ∀ qs, qs <+: accessed → ∃ m, run true qs = .ok m ∧ m.validSet = (idealLRU qs).resident

/-- At every miss of the session, comparing the last access numbers modulo 256
instead of exactly still shows the least recently used resident page first. -/
def OldestByStamp (accessed : List Page) : Prop :=
  ∀ qs p, qs ++ [p] <+: accessed → p ∉ (idealLRU qs).resident →
    (idealLRU qs).SeesOldest pages stamp

theorem refinesLRU_iff (accessed : List Page) : RefinesLRU accessed ↔ OldestByStamp accessed := by
  have hlib := Recency.Cache.run_resident_iff stamp (Recency.Cache.start firstFrames) mem_pages
    firstFrames_nonempty accessed
  refine Iff.trans ?_ hlib
  constructor
  · intro h qs hqs
    obtain ⟨m, hrun, hset⟩ := h qs hqs
    obtain ⟨m', hrun', hm'⟩ := run_lruRel qs
    have hsame : m = m' := Except.ok.inj (hrun.symm.trans hrun')
    rw [← hm'.resident, ← hsame]
    exact hset
  · intro h qs hqs
    obtain ⟨m, hrun, hm⟩ := run_lruRel qs
    exact ⟨m, hrun, hm.resident.trans (h qs hqs)⟩

theorem oldestByStamp_of_short {accessed : List Page} (h : accessed.length ≤ 256) :
    OldestByStamp accessed := by
  intro qs p hpre _
  have hlen : qs.length ≤ 255 := by
    have hle := hpre.length_le
    simp only [List.length_append, List.length_singleton] at hle
    omega
  apply Recency.oldest_congr
  intro q _
  have hlast := Recency.Cache.run_last_le pages id (Recency.Cache.start firstFrames)
    (fun _ => le_rfl) qs q
  have htime := Recency.Cache.run_time pages id (Recency.Cache.start firstFrames) qs
  have hzero : (Recency.Cache.start firstFrames).time = 0 := rfl
  change stamp ((idealLRU qs).last q) = (idealLRU qs).last q
  unfold stamp
  apply Nat.mod_eq_of_lt
  change (idealLRU qs).last q ≤ (idealLRU qs).time at hlast
  change (idealLRU qs).time = _ at htime
  omega

/- The 256th access gets stamp 0: page 2, just used, is evicted at the next miss. -/
def wrapRun : List Page := List.replicate 254 0 ++ [1, 2, 3]

theorem lru_wraps : ¬ RefinesLRU wrapRun := by
  have hcode : (run true wrapRun).toOption.map Mem.validSet = some {0, 1, 3} := by decide +kernel
  have hideal : (idealLRU wrapRun).resident = {1, 2, 3} := by decide +kernel
  intro h
  obtain ⟨m, hrun, hset⟩ := h wrapRun (List.prefix_refl _)
  rw [hrun] at hcode
  have hvalid : m.validSet = {0, 1, 3} := Option.some.inj hcode
  rw [hideal, hvalid] at hset
  exact absurd hset (by decide)

end SyeLabs.Memreplace
