import SyeLabs.Memreplace.Lru

/-!
# WSC mode against the ideal working-set policy

`updateTDU` never stores a stamp (`updateTDU_eq`), so `tdu` stays 0 and the age
test `tvc - tdu[i] > DELTA` gives one answer for all pages: it compares the
number of accesses modulo 256 with `DELTA`. WSC mode is the working-set cache
with that test in place of the true age.
-/

namespace SyeLabs.Memreplace
open WorkingSet

/-- The reference simulator: true last-reference times and a clock that never wraps. -/
def idealWSC (accessed : List Page) : Cache Page :=
  (Cache.start firstFrames).run pages staleStamp accessed

/-- The age test as the program computes it, every stamp being 0. -/
def zeroStale (t _l : ℕ) : Prop := staleStamp (stamp t) 0

instance (t l : ℕ) : Decidable (zeroStale t l) := inferInstanceAs (Decidable (staleStamp (stamp t) 0))

structure WscRel (m : Mem) (c : Cache Page) : Prop where
  resident : m.validSet = c.resident
  ref : m.refSet = c.ref
  tdu : ∀ i, m.tdu i = 0#8
  tvc : m.tvc.toNat = stamp c.time

theorem WscRel.victim {m : Mem} {c : Cache Page} (h : WscRel m c) :
    m.cache.victim pages staleStamp = c.victim pages zeroStale := by
  refine Cache.victim_congr zeroStale pages_nodup h.resident h.ref (firstOld_congr fun i => ?_)
  have hlast : m.cache.last i = 0 := by
    simp only [Mem.cache, h.tdu i]
    rfl
  rw [hlast, zeroStale, ← h.tvc]
  rfl

theorem WscRel.access {m : Mem} {c : Cache Page} (h : WscRel m c) (hne : c.resident.Nonempty)
    (p : Page) : WscRel (accessWSC m p) (c.access pages zeroStale p) := by
  have hiff : m.valid p = true ↔ p ∈ c.resident := by rw [← h.resident, mem_validSet]
  by_cases hp : m.valid p = true
  · rw [accessWSC_hit m hp]
    have hres : (c.access pages zeroStale p).resident = c.resident := by
      simp only [Cache.access, hiff.mp hp, ite_true]
    have href : (c.access pages zeroStale p).ref = insert p c.ref := by
      simp only [Cache.access, hiff.mp hp, ite_true]
    refine ⟨?_, ?_, h.tdu, tick_toNat h.tvc⟩
    · rw [touch_validSet, hres, h.resident, Finset.insert_eq_of_mem (hiff.mp hp)]
    · rw [touch_refSet, href, h.ref]
  · obtain ⟨v, ref, hvic, -, -, -⟩ := Cache.victim_spec pages zeroStale c mem_pages hne
    have hm := accessWSC_miss_spec m hp (h.victim.trans hvic)
    have hres : (c.access pages zeroStale p).resident = insert p (c.resident.erase v) := by
      simp only [Cache.access, hiff.not.mp hp, ite_false, hvic]
    have href : (c.access pages zeroStale p).ref = insert p ref := by
      simp only [Cache.access, hiff.not.mp hp, ite_false, hvic]
    refine ⟨?_, ?_, ?_, ?_⟩
    · rw [validSet_of_miss hm.bit, hres, h.resident]
    · rw [hm.refSet, href]
    · rw [hm.tdu]
      exact h.tdu
    · rw [hm.tvc]
      exact tick_toNat h.tvc

theorem init_wscRel : WscRel (initPageTable zeroed) (Cache.start firstFrames) :=
  ⟨by decide, by decide, fun _ => rfl, rfl⟩

theorem run_wscRel (accessed : List Page) :
    ∃ m, run false accessed = .ok m ∧
      WscRel m ((Cache.start firstFrames).run pages zeroStale accessed) := by
  induction accessed using List.reverseRecOn with
  | nil => exact ⟨_, rfl, init_wscRel⟩
  | append_singleton accessed p ih =>
    obtain ⟨m, hrun, hm⟩ := ih
    obtain ⟨m', hrun', hcons, -⟩ := run_conserved false accessed
    have hsame : m' = m := Except.ok.inj (hrun'.symm.trans hrun)
    have hne : (m.validSet).Nonempty := (hsame ▸ hcons).nonempty
    rw [hm.resident] at hne
    refine ⟨accessWSC m p, ?_, ?_⟩
    · rw [run_snoc, hrun]
      rfl
    · rw [Cache.run_snoc]
      exact hm.access hne p

/- After every access of the session the VALID pages are those of the reference simulator. -/
def RefinesWSC (accessed : List Page) : Prop :=
  ∀ n ≤ accessed.length, ∃ m, run false (accessed.take n) = .ok m ∧
    m.validSet = (idealWSC (accessed.take n)).resident

def firstUnreferenced (c : Cache Page) : Option Page :=
  firstOld c.resident c.ref (fun _ => True) pages

/-- The answer of the zero-stamp test is the right one for the scan: if the
clock modulo 256 exceeds `DELTA`, the first unreferenced resident page is truly
older than `DELTA`; if it does not, no unreferenced resident page is. -/
def StampHarmless (c : Cache Page) : Prop :=
  (staleStamp (stamp c.time) 0 →
      ∀ u, firstUnreferenced c = some u → staleStamp c.time (c.last u)) ∧
    (¬ staleStamp (stamp c.time) 0 →
      ∀ u ∈ pages, u ∈ c.resident → u ∉ c.ref → ¬ staleStamp c.time (c.last u))

instance (c : Cache Page) : Decidable (StampHarmless c) :=
  @instDecidableAnd _ _ inferInstance inferInstance

theorem StampHarmless.firstOld_eq {c : Cache Page} (h : StampHarmless c) :
    firstOld c.resident c.ref (fun i => zeroStale c.time (c.last i)) pages =
      firstOld c.resident c.ref (fun i => staleStamp c.time (c.last i)) pages := by
  have hconst : firstOld c.resident c.ref (fun i => zeroStale c.time (c.last i)) pages =
      firstOld c.resident c.ref (fun _ => staleStamp (stamp c.time) 0) pages :=
    firstOld_congr fun _ => Iff.rfl
  rw [hconst, firstOld_const_iff]
  exact h

def HarmlessRun (accessed : List Page) : Prop :=
  ∀ n, ∀ h : n < accessed.length, accessed[n] ∉ (idealWSC (accessed.take n)).resident →
    StampHarmless (idealWSC (accessed.take n))

instance (accessed : List Page) : Decidable (HarmlessRun accessed) :=
  inferInstanceAs (Decidable (∀ n, ∀ _ : n < accessed.length, _))

theorem zeroStale_run {accessed : List Page} (h : HarmlessRun accessed) {n : ℕ}
    (hn : n ≤ accessed.length) :
    (Cache.start firstFrames).run pages zeroStale (accessed.take n) = idealWSC (accessed.take n) := by
  induction n with
  | zero => simp only [List.take_zero, idealWSC, Cache.run, List.foldl_nil]
  | succ n ih =>
    have hlt : n < accessed.length := by omega
    have hcur := ih (by omega)
    have hstep : (idealWSC (accessed.take n)).access pages zeroStale accessed[n] =
        (idealWSC (accessed.take n)).access pages staleStamp accessed[n] :=
      Cache.access_congr staleStamp (idealWSC (accessed.take n)) pages_nodup
        fun hmiss => (h n hlt hmiss).firstOld_eq
    rw [← List.take_append_getElem hlt, Cache.run_snoc, hcur, hstep, idealWSC, ← Cache.run_snoc]
    rfl

theorem refinesWSC_of_harmless {accessed : List Page} (h : HarmlessRun accessed) :
    RefinesWSC accessed := by
  intro n hn
  obtain ⟨m, hrun, hm⟩ := run_wscRel (accessed.take n)
  refine ⟨m, hrun, ?_⟩
  rw [hm.resident, zeroStale_run h hn]

theorem refinesWSC_short : HarmlessRun [2, 2, 2, 3, 4] ∧ RefinesWSC [2, 2, 2, 3, 4] :=
  ⟨by decide +kernel, refinesWSC_of_harmless (by decide +kernel)⟩

/- Page 2 was referenced two accesses ago and is evicted in place of page 1. -/
def recentRun : List Page := [0, 1, 2, 3, 1, 4]

theorem wsc_evicts_recent : ¬ RefinesWSC recentRun := by
  have hcode : (run false recentRun).toOption.map Mem.validSet = some {1, 3, 4} := by decide +kernel
  have hideal : (idealWSC recentRun).resident = {2, 3, 4} := by decide +kernel
  intro h
  obtain ⟨m, hrun, hset⟩ := h 6 (by decide)
  rw [show recentRun.take 6 = recentRun from rfl] at hrun hset
  rw [hrun] at hcode
  have hvalid : m.validSet = {1, 3, 4} := Option.some.inj hcode
  rw [hideal, hvalid] at hset
  exact absurd hset (by decide)

end SyeLabs.Memreplace
