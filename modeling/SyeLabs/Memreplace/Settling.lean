import SyeLabs.Library.Settling
import SyeLabs.Memreplace.Wsc
import SyeLabs.Memreplace.WscScan

/-!
# Page faults of WSC mode

All stamps are 0, so every page is old when the clock is above `DELTA`. While a session stays on
three pages, the number of faults is then bounded, however long it is.
-/

namespace SyeLabs.Memreplace
open WorkingSet

/-- The accesses that find their page without VALID. -/
def faultsWSC : Mem → List Page → ℕ
  | _, [] => 0
  | m, p :: ps => (if m.valid p = true then 0 else 1) + faultsWSC (accessWSC m p) ps

/-- The clock is above `DELTA` after so many accesses. -/
def aboveDelta (t : ℕ) : Prop := 2 < stamp t

instance (t : ℕ) : Decidable (aboveDelta t) := inferInstanceAs (Decidable (2 < stamp t))

theorem zeroStale_of_aboveDelta (t : ℕ) (h : aboveDelta t) (l : ℕ) : zeroStale t l := by
  change 2 < stamp t at h
  change ((stamp t : ℕ) : ℤ) - (0 : ℕ) > 2
  omega

theorem faultsWSC_eq {m : Mem} {c : Cache Page} (h : WscRel m c) (hne : c.resident.Nonempty)
    (ps : List Page) : faultsWSC m ps = c.faults pages zeroStale ps := by
  induction ps generalizing m c with
  | nil => rfl
  | cons p ps ih =>
    have hvalid : m.valid p = true ↔ p ∈ c.resident := by rw [← h.resident, mem_validSet]
    have hcard : (c.access pages zeroStale p).resident.card = c.resident.card :=
      c.access_card mem_pages hne p
    have hnext : (c.access pages zeroStale p).resident.Nonempty := by
      rw [← Finset.card_pos, hcard]
      exact Finset.card_pos.mpr hne
    rw [faultsWSC, Cache.faults, ih (h.access hne p) hnext]
    simp only [hvalid]

/-- In a stretch on three pages there are at most 16 faults for each of them, and 49 more for each
access at which the clock, which goes from 255 back to 0, is not above `DELTA`. -/
theorem wsc_settles (accessed us : List Page) (hfew : us.toFinset.card ≤ 3) :
    ∃ m, run false accessed = .ok m ∧ faultsWSC m us ≤
      48 + 49 * Nat.count (fun k => ¬ aboveDelta (accessed.length + k)) us.length := by
  obtain ⟨m, hrun, hm⟩ := run_wscRel accessed
  obtain ⟨c, hc⟩ : ∃ c, c = (Cache.start firstFrames).run pages zeroStale accessed := ⟨_, rfl⟩
  rw [← hc] at hm
  have htime : c.time = accessed.length := by
    rw [hc, Cache.run_time]
    exact Nat.zero_add _
  have hthree : c.resident.card = 3 := by
    obtain ⟨m', hrun', hcons, -⟩ := run_conserved false accessed
    obtain rfl : m' = m := Except.ok.inj (hrun'.symm.trans hrun)
    rw [← hm.resident, hcons.three]
  have hne : c.resident.Nonempty := Finset.card_pos.mp (by omega)
  have hwork := work_le us.toFinset c
  have hfaults := @faults_le Page _ us.toFinset pages zeroStale _ c aboveDelta _ pages_sorted
    mem_pages zeroStale_of_aboveDelta (by omega) us fun p hp => List.mem_toFinset.mpr hp
  have hbound : us.toFinset.card * (2 * 2 ^ us.toFinset.card) ≤ 48 := by
    generalize us.toFinset.card = n at hfew
    interval_cases n <;> decide
  refine ⟨m, hrun, ?_⟩
  rw [faultsWSC_eq hm hne, ← htime]
  calc c.faults pages zeroStale us
      ≤ _ := hfaults
    _ ≤ 48 + (1 + 48) * Nat.count (fun k => ¬ aboveDelta (c.time + k)) us.length := by
      gcongr
      omega

/- After three accesses the clock is above `DELTA`, and 4 has to come in. -/
theorem wsc_settles_four : ([4, 0, 2, 4] : List Page).toFinset.card ≤ 3 ∧
    ∃ m, run false [0, 1, 2] = .ok m ∧ faultsWSC m [4, 0, 2, 4] ≤
      48 + 49 * Nat.count (fun k => ¬ aboveDelta ([0, 1, 2].length + k)) [4, 0, 2, 4].length :=
  ⟨by decide, wsc_settles [0, 1, 2] [4, 0, 2, 4] (by decide)⟩

end SyeLabs.Memreplace
