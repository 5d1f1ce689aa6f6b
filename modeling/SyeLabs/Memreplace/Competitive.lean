import SyeLabs.Library.Competitive
import SyeLabs.Memreplace.ReuseDistance

/-!
# LRU mode against the best schedule

Until `tvc` has wrapped, LRU mode has at most three page faults for each page that a schedule
with three frames has to load, even if it knows all accesses. Afterwards two pages with large
stamps can stay in RAM, and the others take turns in the third frame.
-/

namespace SyeLabs.Memreplace
open Paging

/-- The page faults of the accesses in LRU mode, and the memory after them. -/
def serveLRU : Mem → List Page → Except Exit (ℕ × Mem)
  | m, [] => .ok (0, m)
  | m, p :: ps => do
    let m' ← accessLRU m p
    let (n, m₂) ← serveLRU m' ps
    pure ((if m.valid p = true then 0 else 1) + n, m₂)

/-- The memory is the one of the session. -/
theorem foldlM_of_serveLRU {m m' : Mem} {ps : List Page} {n : ℕ}
    (h : serveLRU m ps = .ok (n, m')) : ps.foldlM (access true) m = .ok m' := by
  induction ps generalizing m n with
  | nil =>
    cases h
    rfl
  | cons p ps ih =>
    rw [serveLRU] at h
    cases haccess : accessLRU m p with
    | error e =>
      rw [haccess] at h
      cases h
    | ok m₁ =>
      cases hserve : serveLRU m₁ ps with
      | error e =>
        simp only [haccess, hserve, bind, Except.bind] at h
        cases h
      | ok r =>
        simp only [haccess, hserve, bind, Except.bind, pure, Except.pure] at h
        have hlast : r.2 = m' := congrArg Prod.snd (Except.ok.inj h)
        have hone : access true m p = .ok m₁ := haccess
        rw [List.foldlM_cons, hone]
        exact ih (hserve.trans (congrArg Except.ok (Prod.ext rfl hlast)))

/-- The cache that sees the access numbers modulo 256. -/
def stampLRU (accessed : List Page) : Recency.Cache Page :=
  (Recency.Cache.start firstFrames).run pages stamp accessed

def stampFrames (accessed : List Page) : Finset Page := (stampLRU accessed).resident

theorem stampLRU_snoc (xs : List Page) (p : Page) :
    stampLRU (xs ++ [p]) = (stampLRU xs).access pages stamp p := Recency.Cache.run_snoc _ _ _

theorem serveLRU_eq {m : Mem} {xs : List Page} (h : LruRel m (stampLRU xs)) (ps : List Page) :
    ∃ m', serveLRU m ps = .ok (faults stampFrames xs ps, m') ∧ LruRel m' (stampLRU (xs ++ ps)) := by
  induction ps generalizing m xs with
  | nil =>
    rw [List.append_nil]
    exact ⟨m, rfl, h⟩
  | cons p ps ih =>
    have hne := Recency.Cache.run_nonempty stamp (Recency.Cache.start firstFrames) mem_pages
      firstFrames_nonempty xs
    obtain ⟨m₁, haccess, hm₁⟩ := h.access hne p
    rw [← stampLRU_snoc] at hm₁
    obtain ⟨m', hserve, hm'⟩ := ih hm₁
    rw [List.append_assoc, List.singleton_append] at hm'
    have hvalid : m.valid p = true ↔ p ∈ stampFrames xs := by
      rw [stampFrames, ← h.resident, mem_validSet]
    refine ⟨m', ?_, hm'⟩
    rw [serveLRU, haccess]
    simp only [bind, Except.bind, hserve, faults, hvalid]
    rfl

theorem session_serveLRU (accessed : List Page) : ∃ m, run true accessed = .ok m ∧
    serveLRU (initPageTable zeroed) accessed = .ok (faults stampFrames [] accessed, m) := by
  obtain ⟨m, hserve, _⟩ := @serveLRU_eq _ [] init_lruRel accessed
  exact ⟨m, foldlM_of_serveLRU hserve, hserve⟩

/-- Least recently used replacement keeps the pages of a stretch on three of them. -/
theorem ideal_conservative : Conservative 3 fun qs => (idealLRU qs).resident :=
  fun xs _ hfew _ hq => start_listed.resident_stretch pages_nodup mem_pages xs hq hfew

/-- In a session of at most 256 accesses there are at most three page faults for each page that
any schedule with three frames loads, and three more. -/
theorem lru_competitive (accessed : List Page) (h : accessed.length ≤ 256) :
    ∃ n m, run true accessed = .ok m ∧ serveLRU (initPageTable zeroed) accessed = .ok (n, m) ∧
      ∀ loads R, Serves 3 firstFrames accessed loads R → n ≤ 3 * loads + 3 := by
  obtain ⟨m, hrun, hserve⟩ := session_serveLRU accessed
  have hideal := (Recency.Cache.run_resident_iff stamp (Recency.Cache.start firstFrames) mem_pages
    firstFrames_nonempty accessed).mpr (oldestByStamp_of_short h)
  have hfaults : faults stampFrames [] accessed =
      faults (fun qs => (idealLRU qs).resident) [] accessed := faults_congr hideal
  refine ⟨_, m, hrun, hserve, fun loads R hserves => ?_⟩
  rw [hfaults]
  exact ideal_conservative.competitive (by decide) (by decide) hserves

/- Page 3 comes in for 0, and 0 for 1. -/
theorem lru_competitive_two : ∃ n m, run true [3, 0] = .ok m ∧
    serveLRU (initPageTable zeroed) [3, 0] = .ok (n, m) ∧
      ∀ loads R, Serves 3 firstFrames [3, 0] loads R → n ≤ 3 * loads + 3 :=
  lru_competitive [3, 0] (by decide)

/-! ### After the clock has wrapped -/

/-- Pages 0, 1 and `a` are in RAM, and the stamp of `a` is below 254. -/
structure Third (a : Page) (c : Recency.Cache Page) : Prop where
  resident : c.resident = {0, 1, a}
  third : stamp (c.last a) < 254

/-- Moreover the stamps of 0 and 1 are the largest ones. -/
structure Stuck (a : Page) (c : Recency.Cache Page) : Prop extends Third a c where
  zero : stamp (c.last 0) = 254
  one : stamp (c.last 1) = 255

variable {a b : Page} {c : Recency.Cache Page}

theorem access_hit {p : Page} (hp : p ∈ c.resident) :
    c.access pages stamp p = ⟨c.resident, Function.update c.last p (c.time + 1), c.time + 1⟩ := by
  rw [Recency.Cache.access, Recency.Cache.loaded, if_pos hp]

/- The third frame is the one that is given to another page. -/
theorem Stuck.miss (h : Stuck a c) (ha : a ≠ 0 ∧ a ≠ 1) (hb : b ≠ 0 ∧ b ≠ 1 ∧ b ≠ a)
    (hlow : stamp (c.time + 1) < 254) :
    b ∉ c.resident ∧ Stuck b (c.access pages stamp b) := by
  have hmiss : b ∉ c.resident := by
    rw [h.resident]
    simp [hb]
  have hvictim : Recency.oldest pages (fun q => stamp (c.last q)) c.resident = some a := by
    refine Recency.oldest_eq (by simp [h.resident]) (mem_pages a) fun q hq hne => ?_
    rw [h.resident] at hq
    simp only [Finset.mem_insert, Finset.mem_singleton, hne, or_false] at hq
    have hthird := h.third
    rcases hq with rfl | rfl
    · rw [h.zero]
      exact hthird
    · rw [h.one]
      omega
  have hframes : insert b (c.resident.erase a) = {0, 1, b} := by
    rw [h.resident]
    ext q
    simp only [Finset.mem_insert, Finset.mem_erase, Finset.mem_singleton]
    constructor
    · tauto
    · rintro (rfl | rfl | rfl)
      · exact Or.inr ⟨ha.1.symm, Or.inl rfl⟩
      · exact Or.inr ⟨ha.2.symm, Or.inr (Or.inl rfl)⟩
      · exact Or.inl rfl
  refine ⟨hmiss, ⟨?_, ?_⟩, ?_, ?_⟩
  · rw [Recency.Cache.access, Recency.Cache.loaded, if_neg hmiss, hvictim]
    exact hframes
  · change stamp (Function.update c.last b (c.time + 1) b) < 254
    rwa [Function.update_self]
  · change stamp (Function.update c.last b (c.time + 1) 0) = 254
    rw [Function.update_of_ne hb.1.symm]
    exact h.zero
  · change stamp (Function.update c.last b (c.time + 1) 1) = 255
    rw [Function.update_of_ne hb.2.1.symm]
    exact h.one

theorem stampLRU_time (xs : List Page) : (stampLRU xs).time = xs.length := by
  rw [stampLRU, Recency.Cache.run_time]
  exact Nat.zero_add _

/-- Pages 3 and 2 in turn. -/
def turns : ℕ → List Page
  | 0 => []
  | i + 1 => turns i ++ [3, 2]

theorem length_turns (i : ℕ) : (turns i).length = 2 * i := by
  induction i with
  | zero => rfl
  | succ i ih =>
    rw [turns, List.length_append, ih]
    rfl

theorem turns_succ (i : ℕ) : turns (i + 1) = 3 :: 2 :: turns i := by
  induction i with
  | zero => rfl
  | succ i ih =>
    calc turns (i + 1 + 1) = turns (i + 1) ++ [3, 2] := rfl
      _ = 3 :: 2 :: turns i ++ [3, 2] := by rw [ih]
      _ = 3 :: 2 :: turns (i + 1) := rfl

/-- Each of these accesses is a page fault. -/
theorem faults_turns {xs : List Page} (h : Stuck 2 (stampLRU xs)) (htime : stamp xs.length = 255)
    {i : ℕ} (hi : i ≤ 127) :
    faults stampFrames xs (turns i) = 2 * i ∧ Stuck 2 (stampLRU (xs ++ turns i)) := by
  induction i with
  | zero =>
    rw [turns, List.append_nil]
    exact ⟨rfl, h⟩
  | succ i ih =>
    obtain ⟨hfaults, hstuck⟩ := ih (by omega)
    have hclock : (stampLRU (xs ++ turns i)).time = xs.length + 2 * i := by
      rw [stampLRU_time, List.length_append, length_turns]
    have hfirst : stamp ((stampLRU (xs ++ turns i)).time + 1) < 254 := by
      rw [hclock]
      unfold stamp at htime ⊢
      omega
    obtain ⟨hmiss3, hstuck3⟩ := hstuck.miss (b := 3) (by decide) (by decide) hfirst
    rw [← stampLRU_snoc] at hstuck3
    have hsecond : stamp ((stampLRU (xs ++ turns i ++ [3])).time + 1) < 254 := by
      rw [stampLRU_snoc]
      change stamp ((stampLRU (xs ++ turns i)).time + 1 + 1) < 254
      rw [hclock]
      unfold stamp at htime ⊢
      omega
    obtain ⟨hmiss2, hstuck2⟩ := hstuck3.miss (b := 2) (by decide) (by decide) hsecond
    rw [← stampLRU_snoc] at hstuck2
    have hsplit : xs ++ turns (i + 1) = xs ++ turns i ++ [3] ++ [2] := by
      simp [turns]
    refine ⟨?_, hsplit ▸ hstuck2⟩
    rw [turns, faults_append, hfaults, faults, faults, faults, stampFrames, if_neg hmiss3,
      stampFrames, if_neg hmiss2]
    omega

/-- Pages 0 and 1 get the stamps 254 and 255. -/
theorem Third.renewed {xs : List Page} (h : Third 2 (stampLRU xs)) (htime : stamp xs.length = 253) :
    faults stampFrames xs [0, 1] = 0 ∧ Stuck 2 (stampLRU (xs ++ [0, 1])) := by
  have hzero : (0 : Page) ∈ (stampLRU xs).resident := by
    rw [h.resident]
    decide
  have hone : (1 : Page) ∈ (stampLRU xs).resident := by
    rw [h.resident]
    decide
  have hnext : stampLRU (xs ++ [0]) = ⟨(stampLRU xs).resident,
      Function.update (stampLRU xs).last 0 (xs.length + 1), xs.length + 1⟩ := by
    rw [stampLRU_snoc, access_hit hzero, stampLRU_time]
  have hlast : stampLRU (xs ++ [0] ++ [1]) = ⟨(stampLRU xs).resident, Function.update
      (Function.update (stampLRU xs).last 0 (xs.length + 1)) 1 (xs.length + 1 + 1),
        xs.length + 1 + 1⟩ := by
    rw [stampLRU_snoc, hnext]
    exact access_hit hone
  have hsplit : xs ++ [0, 1] = xs ++ [0] ++ [1] := by
    rw [List.append_assoc, List.singleton_append]
  unfold stamp at htime
  rw [hsplit, hlast]
  refine ⟨?_, ⟨h.resident, ?_⟩, ?_, ?_⟩
  · rw [faults, faults, faults, stampFrames, if_pos hzero, stampFrames, hnext, if_pos hone]
  · simp only [Function.update_of_ne (show (2 : Page) ≠ 1 by decide),
      Function.update_of_ne (show (2 : Page) ≠ 0 by decide)]
    exact h.third
  · simp only [Function.update_of_ne (show (0 : Page) ≠ 1 by decide), Function.update_self, stamp]
    omega
  · simp only [Function.update_self, stamp]
    omega

/-- The session up to the first wrap of the clock. -/
def warmUp : List Page := List.replicate 253 2 ++ [0, 1]

theorem third_replicate (n : ℕ) : (stampLRU (List.replicate n 2)).resident = firstFrames ∧
    (stampLRU (List.replicate n 2)).last 2 = n ∧
    faults stampFrames [] (List.replicate n 2) = 0 := by
  induction n with
  | zero => exact ⟨rfl, rfl, rfl⟩
  | succ n ih =>
    obtain ⟨hres, _, hfaults⟩ := ih
    have hmem : (2 : Page) ∈ (stampLRU (List.replicate n 2)).resident := by
      rw [hres]
      decide
    rw [List.replicate_succ', stampLRU_snoc, access_hit hmem, faults_append, hfaults,
      List.nil_append]
    refine ⟨hres, ?_, ?_⟩
    · simp only [Function.update_self, stampLRU_time, List.length_replicate]
    · rw [faults, faults, stampFrames, if_pos hmem]

theorem stuck_warmUp : faults stampFrames [] warmUp = 0 ∧ Stuck 2 (stampLRU warmUp) := by
  obtain ⟨hres, hlast, hfaults⟩ := third_replicate 253
  have hthird : Third 2 (stampLRU (List.replicate 253 2)) := by
    refine ⟨hres.trans (by decide), ?_⟩
    rw [hlast]
    decide
  obtain ⟨hrenewed, hstuck⟩ := hthird.renewed (by rw [List.length_replicate]; rfl)
  refine ⟨?_, hstuck⟩
  rw [warmUp, faults_append, hfaults, List.nil_append, hrenewed]

/-- 256 accesses. -/
def period : List Page := turns 127 ++ [0, 1]

theorem faults_period {xs : List Page} (h : Stuck 2 (stampLRU xs)) (htime : stamp xs.length = 255) :
    faults stampFrames xs period = 254 ∧ Stuck 2 (stampLRU (xs ++ period)) := by
  obtain ⟨hfaults, hstuck⟩ := faults_turns h htime (Nat.le_refl 127)
  obtain ⟨hrenewed, hagain⟩ := hstuck.toThird.renewed (by
    rw [List.length_append, length_turns]
    unfold stamp at htime ⊢
    omega)
  refine ⟨?_, ?_⟩
  · rw [period, faults_append, hfaults, hrenewed]
  · rwa [period, ← List.append_assoc]

/-- Page 3 comes in for page 1 and goes again. -/
theorem serves_period : Serves 3 firstFrames period 2 firstFrames := by
  have hsplit : period = [3] ++ (2 :: turns 126 ++ [0]) ++ [1] := by
    rw [period, turns_succ]
    simp
  have hturns : ∀ i, ∀ p ∈ turns i, p = 3 ∨ p = 2 := by
    intro i
    induction i with
    | zero => exact fun p hp => absurd hp List.not_mem_nil
    | succ i ih =>
      intro p hp
      rcases List.mem_append.mp hp with hold | hnew
      · exact ih p hold
      · simpa using hnew
  have hin : Serves 3 firstFrames [3] ((({0, 2, 3} : Finset Page) \ firstFrames).card + 0)
      {0, 2, 3} := .cons (by decide) (by decide) (.nil _)
  have hback : Serves 3 {0, 2, 3} [1] ((firstFrames \ {0, 2, 3}).card + 0) firstFrames :=
    .cons (by decide) (by decide) (.nil _)
  have hstay : Serves 3 ({0, 2, 3} : Finset Page) (2 :: turns 126 ++ [0]) 0 {0, 2, 3} := by
    refine .of_resident (by decide) fun p hp => ?_
    simp only [List.cons_append, List.mem_cons, List.mem_append, List.not_mem_nil, or_false] at hp
    rcases hp with rfl | hp | rfl
    · decide
    · rcases hturns 126 p hp with rfl | rfl
      · decide
      · decide
    · decide
  rw [hsplit]
  exact (hin.append hstay).append hback

/-- The session with `n` periods. -/
def thrashing : ℕ → List Page
  | 0 => warmUp
  | n + 1 => thrashing n ++ period

theorem length_thrashing (n : ℕ) : (thrashing n).length = 255 + 256 * n := by
  induction n with
  | zero =>
    rw [thrashing, warmUp, List.length_append, List.length_replicate]
    rfl
  | succ n ih =>
    rw [thrashing, List.length_append, ih, period, List.length_append, length_turns]
    simp only [List.length_cons, List.length_nil]
    omega

theorem faults_thrashing (n : ℕ) :
    faults stampFrames [] (thrashing n) = 254 * n ∧ Stuck 2 (stampLRU (thrashing n)) := by
  induction n with
  | zero => exact stuck_warmUp
  | succ n ih =>
    have htime : stamp (thrashing n).length = 255 := by
      rw [length_thrashing, stamp]
      omega
    obtain ⟨hfaults, hstuck⟩ := faults_period ih.2 htime
    refine ⟨?_, hstuck⟩
    rw [thrashing, faults_append, ih.1, List.nil_append, hfaults]
    omega

theorem serves_thrashing (n : ℕ) : Serves 3 firstFrames (thrashing n) (2 * n) firstFrames := by
  induction n with
  | zero =>
    refine .of_resident (by decide) fun p hp => ?_
    rcases List.mem_append.mp hp with hp | hp
    · rw [List.eq_of_mem_replicate hp]
      decide
    · simp only [List.mem_cons, List.not_mem_nil, or_false] at hp
      rcases hp with rfl | rfl
      · decide
      · decide
  | succ n ih => exact ih.append serves_period

/-- After the first 255 accesses, each further 256 can cost LRU mode 254 page faults where two
loads are enough. -/
theorem lru_thrashes (n : ℕ) : ∃ accessed m, accessed.length = 255 + 256 * n ∧
    run true accessed = .ok m ∧ serveLRU (initPageTable zeroed) accessed = .ok (254 * n, m) ∧
    Serves 3 firstFrames accessed (2 * n) firstFrames := by
  obtain ⟨m, hrun, hserve⟩ := session_serveLRU (thrashing n)
  refine ⟨thrashing n, m, length_thrashing n, hrun, ?_, serves_thrashing n⟩
  rw [hserve, (faults_thrashing n).1]

end SyeLabs.Memreplace
