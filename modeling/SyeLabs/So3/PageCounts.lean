import SyeLabs.So3.Boot
import SyeLabs.Library.Run
import SyeLabs.Library.SharedCount

/-!
# The reference counts of pages

Processes put pages on their lists and release them all at once, in any order. A page
that is listed by nobody and gets listed again counts as allocated, whether
`get_free_page` gave it or `add_page_to_proc` was called on it.
-/

namespace SyeLabs.So3
open SharedCount

/-- `get_free_page`: what it returns has no references and is listed by no process. -/
structure FreePages (procs : Finset PcbPtr) where
  get : MemState → Option Page
  fresh : ∀ ms page, get ms = some page →
    ms.refcount page = 0 ∧ ∀ a ∈ procs, page ∉ (ms.spaces a).pageList

/- Each call has its own `get_free_page`, which may so depend on anything. -/
inductive PageCall (procs : Finset PcbPtr) where
  | add (a : procs) (page : Page)
  | allocate (a : procs) (virt : Word) (nrPages : ℕ) (pages : FreePages procs)
  | release (a : procs)

variable (X : Platform) {procs : Finset PcbPtr}

def PageCall.perform (ms : MemState) : PageCall procs → Option MemState
  | .add a page => some (MemState.addPageToProc a page ms)
  | .allocate a virt nrPages pages =>
    MemState.allocatePage { X with getFreePage := pages.get } a virt nrPages ms
  | .release a => some (MemState.releaseProcPages a ms)

/-- The pages that `get_free_page` returned in the call: `allocate_page` lists them. -/
def PageCall.got (ms ms' : MemState) : PageCall procs → List Page
  | .allocate a _ _ _ => (ms'.spaces a).pageList.drop (ms.spaces a).pageList.length
  | _ => []

/-- The page that `add_page_to_proc` listed although it had no reference. -/
def PageCall.adopted (ms : MemState) : PageCall procs → List Page
  | .add _ page => if ms.refcount page = 0 then [page] else []
  | _ => []

/-- The memory, and the pages allocated so far in one way or the other, in order. -/
structure PageSys where
  mem : MemState
  got : List Page
  adopted : List Page

def PageSys.step (s : PageSys) (c : PageCall procs) : Option PageSys :=
  (c.perform X s.mem).map fun ms =>
    { mem := ms, got := s.got ++ c.got s.mem ms, adopted := s.adopted ++ c.adopted s.mem }

def MemState.lists (ms : MemState) (a : PcbPtr) : List Page := (ms.spaces a).pageList

/-- No process lists a page and no page has a reference. -/
structure PageSys.Unused (s : PageSys) (procs : Finset PcbPtr) : Prop where
  lists : ∀ a ∈ procs, s.mem.lists a = []
  refcount : ∀ page, s.mem.refcount page = 0
  logs : s.mem.freed = [] ∧ s.got = [] ∧ s.adopted = []

def MemState.Listed (ms : MemState) (procs : Finset PcbPtr) (page : Page) : Prop :=
  ∃ a ∈ procs, page ∈ ms.lists a

instance (ms : MemState) (page : Page) : Decidable (ms.Listed procs page) :=
  inferInstanceAs (Decidable (∃ _ ∈ _, _))

/-- The counter of a page is the number of entries for it, and a page was allocated as
often as it was freed, and once more while it is listed. -/
structure PagesExact (procs : Finset PcbPtr) (s : PageSys) : Prop where
  refcount : ∀ page, s.mem.refcount page = entries procs s.mem.lists page
  balance : ∀ page, s.got.count page + s.adopted.count page =
    s.mem.freed.count page + if s.mem.Listed procs page then 1 else 0

/-- A call frees the pages whose last entries it takes away, each once. -/
def FreesLast (procs : Finset PcbPtr) (ms ms' : MemState) : Prop :=
  ∃ f, ms'.freed = ms.freed ++ f ∧
    ∀ page, f.count page = if ms.Listed procs page ∧ ¬ ms'.Listed procs page then 1 else 0

/-- The turn of the release loop for an entry frees the page when no entry is left of it,
neither behind this one nor in the list of another process. -/
def TurnFreesLast (procs : Finset PcbPtr) (ms : MemState) (a : PcbPtr) : Prop :=
  ∀ before page after, ms.lists a = before ++ page :: after →
    let turn := before.foldl MemState.releasePage (ms.setSpace a { ms.spaces a with pageList := [] })
    (turn.releasePage page).freed =
      if page ∉ after ∧ ∀ b ∈ procs, b ≠ a → page ∉ ms.lists b then turn.freed ++ [page]
      else turn.freed

variable {X} {ms ms' : MemState} {page : Page}

def MemState.Counted (ms : MemState) (procs : Finset PcbPtr) : Prop :=
  ∀ page, ms.refcount page = entries procs ms.lists page

theorem listed_iff : ms.Listed procs page ↔ 0 < entries procs ms.lists page := entries_pos.symm

/-! ### Taking a page -/

/-- The page is put at the end of the list of `a`. -/
structure Takes (ms ms' : MemState) (a : PcbPtr) (page : Page) : Prop where
  lists : ms'.lists = Function.update ms.lists a (ms.lists a ++ [page])
  refcount : ms'.refcount = Function.update ms.refcount page (ms.refcount page + 1)
  freed : ms'.freed = ms.freed

theorem setSpace_lists (ms : MemState) (a : PcbPtr) (sp : Space) :
    (ms.setSpace a sp).lists = Function.update ms.lists a sp.pageList := by
  funext b
  by_cases h : b = a
  · subst h
    simp [MemState.lists, MemState.setSpace]
  · simp [MemState.lists, MemState.setSpace, h]

theorem createMapping_lists (ms : MemState) (a : PcbPtr) (virt : Word) (page : Page) :
    (MemState.createMapping a virt page ms).lists = ms.lists := by
  unfold MemState.createMapping
  rw [setSpace_lists]
  exact Function.update_eq_self a ms.lists

theorem addPage_takes (ms : MemState) (a : PcbPtr) (page : Page) :
    Takes ms (MemState.addPageToProc a page ms) a page :=
  ⟨setSpace_lists _ _ _, rfl, rfl⟩

theorem turn_takes (ms : MemState) (a : PcbPtr) (virt : Word) (page : Page) :
    Takes ms (MemState.addPageToProc a page (MemState.createMapping a virt page ms)) a page := by
  obtain ⟨hlists, hrefcount, hfreed⟩ :=
    addPage_takes (MemState.createMapping a virt page ms) a page
  rw [createMapping_lists] at hlists
  exact ⟨hlists, hrefcount, hfreed⟩

theorem Takes.entries {a : PcbPtr} (h : Takes ms ms' a page) (ha : a ∈ procs) (y : Page) :
    entries procs ms'.lists y = entries procs ms.lists y + if y = page then 1 else 0 := by
  have hupdate : SharedCount.entries procs (Function.update ms.lists a (ms.lists a ++ [page])) y +
      (ms.lists a).count y =
        SharedCount.entries procs ms.lists y + (ms.lists a ++ [page]).count y :=
    entries_update ha _
  rw [← h.lists, List.count_append, List.count_singleton] at hupdate
  by_cases hy : y = page
  · simp only [hy, beq_self_eq_true, if_true] at hupdate ⊢
    omega
  · have hne : (page == y) = false := by simpa using Ne.symm hy
    simp only [hne, hy, if_false] at hupdate ⊢
    simpa using hupdate

theorem Takes.counted {a : PcbPtr} (h : Takes ms ms' a page) (ha : a ∈ procs)
    (hms : ms.Counted procs) : ms'.Counted procs := by
  intro y
  rw [h.entries ha, h.refcount, Function.update_apply]
  by_cases hy : y = page
  · rw [hy, if_pos rfl, if_pos rfl, hms page]
    push_cast
    rfl
  · rw [if_neg hy, if_neg hy, hms y, Nat.add_zero]

theorem Takes.listed {a : PcbPtr} (h : Takes ms ms' a page) (ha : a ∈ procs) (y : Page) :
    ms'.Listed procs y ↔ ms.Listed procs y ∨ y = page := by
  rw [listed_iff, listed_iff, h.entries ha]
  split_ifs with hy
  · simp [hy]
  · simp [hy]

/-! ### What a call does -/

/-- What a call does to the counters and to the two logs: `taken` are the pages that it
listed and nobody had listed. -/
structure CallSpec (procs : Finset PcbPtr) (ms ms' : MemState) (taken : List Page) : Prop where
  counted : ms'.Counted procs
  frees : FreesLast procs ms ms'
  taken : ∀ page, taken.count page =
    if ms'.Listed procs page ∧ ¬ ms.Listed procs page then 1 else 0

theorem freesLast_of_grows (hfreed : ms'.freed = ms.freed)
    (hgrows : ∀ page, ms.Listed procs page → ms'.Listed procs page) : FreesLast procs ms ms' := by
  refine ⟨[], by rw [hfreed, List.append_nil], fun page => ?_⟩
  rw [if_neg fun h => h.2 (hgrows page h.1)]
  rfl

theorem add_spec {a : PcbPtr} (ha : a ∈ procs) (hms : ms.Counted procs) (page : Page) :
    CallSpec procs ms (MemState.addPageToProc a page ms)
      (if ms.refcount page = 0 then [page] else []) := by
  have h := addPage_takes ms a page
  have hzero : ms.refcount page = 0 ↔ ¬ ms.Listed procs page := by
    rw [hms page, listed_iff]
    omega
  refine ⟨h.counted ha hms, freesLast_of_grows h.freed fun y hy => (h.listed ha y).mpr (Or.inl hy),
    fun y => ?_⟩
  by_cases hy : y = page
  · subst hy
    by_cases hlisted : ms.Listed procs y
    · simp [hzero, hlisted]
    · simp [hzero, hlisted, h.listed ha]
  · have hcount : (if ms.refcount page = 0 then [page] else []).count y = 0 := by
      split_ifs <;> simp [Ne.symm hy]
    rw [hcount, if_neg]
    rintro ⟨hnew, hold⟩
    exact ((h.listed ha y).mp hnew).elim hold hy

/- The turns of `allocate_page` from some point on. -/
theorem allocate_turns {a : PcbPtr} (ha : a ∈ procs) (virt : Word) (pages : FreePages procs)
    (turns : List ℕ) (hms : ms.Counted procs)
    (h : turns.foldlM (fun ms i => do
      let page ← pages.get ms
      some (MemState.addPageToProc a page (MemState.createMapping a
        (virt + BitVec.ofNat 32 (i * X.arch.pageSize)) page ms))) ms = some ms') :
    ∃ taken, ms'.lists a = ms.lists a ++ taken ∧ ms'.freed = ms.freed ∧
      (∀ page, ms.Listed procs page → ms'.Listed procs page) ∧ CallSpec procs ms ms' taken := by
  induction turns generalizing ms with
  | nil =>
    obtain rfl := Option.some.inj h
    refine ⟨[], (List.append_nil _).symm, rfl, fun _ hp => hp, hms,
      freesLast_of_grows rfl fun _ hp => hp, fun page => ?_⟩
    rw [if_neg fun hp => hp.2 hp.1]
    rfl
  | cons i turns ih =>
    rw [List.foldlM_cons] at h
    obtain ⟨ms₁, hturn, hrest⟩ := Option.bind_eq_some_iff.mp h
    obtain ⟨page, hget, hms₁⟩ := Option.bind_eq_some_iff.mp hturn
    obtain rfl := Option.some.inj hms₁
    obtain ⟨hzero, hunlisted⟩ := pages.fresh ms page hget
    have htakes := turn_takes ms a (virt + BitVec.ofNat 32 (i * X.arch.pageSize)) page
    obtain ⟨taken, hlist, hfreed, hgrows, hspec⟩ := ih (htakes.counted ha hms) hrest
    have hgrows' : ∀ y, ms.Listed procs y → ms'.Listed procs y := fun y hy =>
      hgrows y ((htakes.listed ha y).mpr (Or.inl hy))
    refine ⟨page :: taken, ?_, hfreed.trans htakes.freed, hgrows', hspec.counted,
      freesLast_of_grows (hfreed.trans htakes.freed) hgrows', fun y => ?_⟩
    · rw [hlist, htakes.lists, Function.update_self, List.append_assoc]
      rfl
    · have htaken := hspec.taken y
      simp only [htakes.listed ha] at htaken
      rw [List.count_cons, htaken]
      by_cases hy : y = page
      · subst hy
        have hnew : ¬ ms.Listed procs y := fun ⟨b, hb, hmem⟩ => hunlisted b hb hmem
        have hlisted : ms'.Listed procs y := hgrows y ((htakes.listed ha y).mpr (Or.inr rfl))
        simp [hnew, hlisted]
      · simp [hy, Ne.symm hy]

/-! ### Releasing the pages of a process -/

def MemState.counts (ms : MemState) : Counts Page := ⟨ms.refcount, ms.freed⟩

theorem releasePage_counts (ms : MemState) (page : Page) :
    (ms.releasePage page).counts = ms.counts.drop page := rfl

theorem releasePages_counts (pages : List Page) (ms : MemState) :
    (pages.foldl MemState.releasePage ms).counts = pages.foldl Counts.drop ms.counts := by
  induction pages generalizing ms with
  | nil => rfl
  | cons page pages ih => rw [List.foldl_cons, ih, releasePage_counts, List.foldl_cons]

theorem releasePages_lists (pages : List Page) (ms : MemState) :
    (pages.foldl MemState.releasePage ms).lists = ms.lists := by
  induction pages generalizing ms with
  | nil => rfl
  | cons page pages ih =>
    rw [List.foldl_cons, ih]
    rfl

theorem release_lists (ms : MemState) (a : PcbPtr) :
    (MemState.releaseProcPages a ms).lists = Function.update ms.lists a [] := by
  unfold MemState.releaseProcPages
  rw [releasePages_lists, setSpace_lists]

theorem release_counts (ms : MemState) (a : PcbPtr) :
    (MemState.releaseProcPages a ms).counts = (ms.lists a).foldl Counts.drop ms.counts := by
  unfold MemState.releaseProcPages
  rw [releasePages_counts]
  rfl

theorem release_entries {a : PcbPtr} (ha : a ∈ procs) (ms : MemState) (y : Page) :
    entries procs (MemState.releaseProcPages a ms).lists y + (ms.lists a).count y =
      entries procs ms.lists y := by
  rw [release_lists, entries_update ha]
  simp

theorem release_spec {a : PcbPtr} (ha : a ∈ procs) (hms : ms.Counted procs) :
    CallSpec procs ms (MemState.releaseProcPages a ms) [] := by
  have hcounts := release_counts ms a
  have hle : ∀ y, ((ms.lists a).count y : ℤ) ≤ ms.counts.count y := fun y => by
    have hcount : (ms.lists a).count y ≤ entries procs ms.lists y := count_le_entries ha
    change _ ≤ ms.refcount y
    rw [hms y]
    exact_mod_cast hcount
  obtain ⟨f, hfreed, hf⟩ := foldl_drop_freed (ms.lists a) ms.counts hle
  have hshrinks : ∀ y, (MemState.releaseProcPages a ms).Listed procs y → ms.Listed procs y := by
    intro y hy
    have hentries := release_entries ha ms y
    rw [listed_iff] at hy ⊢
    omega
  refine ⟨fun y => ?_, ⟨f, ?_, fun y => ?_⟩, fun y => ?_⟩
  · have hcount : (MemState.releaseProcPages a ms).refcount y = _ := congrFun
      (congrArg Counts.count hcounts) y
    have hentries := release_entries ha ms y
    have hy : ms.counts.count y = entries procs ms.lists y := hms y
    rw [foldl_drop_count, hy] at hcount
    omega
  · exact (congrArg Counts.freed hcounts).trans hfreed
  · have hlast : (y ∈ ms.lists a ∧ ms.counts.count y = (ms.lists a).count y) ↔
        (ms.Listed procs y ∧ ¬ (MemState.releaseProcPages a ms).Listed procs y) := by
      have hy : ms.counts.count y = entries procs ms.lists y := hms y
      have hentries := release_entries ha ms y
      rw [listed_iff, listed_iff, hy, ← List.count_pos_iff]
      omega
    rw [hf]
    simp only [hlast]
  · rw [if_neg fun h => h.2 (hshrinks y h.1)]
    rfl

theorem release_turn {a : PcbPtr} (ha : a ∈ procs) (hms : ms.Counted procs) :
    TurnFreesLast procs ms a := by
  intro before page after hlist turn
  have hturn : turn.counts = before.foldl Counts.drop ms.counts := releasePages_counts before _
  have hcount : turn.refcount page = ms.refcount page - before.count page := by
    have hfold := foldl_drop_count (x := page) before ms.counts
    rw [← hturn] at hfold
    exact hfold
  have hentries := release_entries ha ms page
  have hothers : entries procs (MemState.releaseProcPages a ms).lists page = 0 ↔
      ∀ b ∈ procs, b ≠ a → page ∉ ms.lists b := by
    rw [release_lists, entries_eq_zero]
    refine ⟨fun h b hb hne => ?_, fun h b hb => ?_⟩
    · have hempty := h b hb
      rwa [Function.update_of_ne hne] at hempty
    · by_cases hne : b = a
      · simp [hne]
      · rw [Function.update_of_ne hne]
        exact h b hb hne
  have hzero : turn.refcount page - 1 = 0 ↔
      page ∉ after ∧ ∀ b ∈ procs, b ≠ a → page ∉ ms.lists b := by
    rw [hlist, List.count_append, List.count_cons_self] at hentries
    rw [← hothers, ← List.count_eq_zero, hcount, hms page]
    omega
  unfold MemState.releasePage
  simp only [hzero]

theorem perform_spec {c : PageCall procs} (hms : ms.Counted procs)
    (h : c.perform X ms = some ms') :
    ∃ taken, CallSpec procs ms ms' taken ∧
      ∀ page, taken.count page = (c.got ms ms').count page + (c.adopted ms).count page := by
  cases c with
  | add a page =>
    obtain rfl := Option.some.inj h
    exact ⟨_, add_spec a.2 hms page, fun y => (Nat.zero_add _).symm⟩
  | allocate a virt nrPages pages =>
    obtain ⟨taken, hlist, _, _, hspec⟩ := allocate_turns a.2 virt pages _ hms h
    refine ⟨taken, hspec, fun y => ?_⟩
    have hgot : (ms'.lists a).drop (ms.lists a).length = taken := by
      rw [hlist, List.drop_left]
    change _ = ((ms'.lists a).drop (ms.lists a).length).count y + 0
    rw [hgot, Nat.add_zero]
  | release a =>
    obtain rfl := Option.some.inj h
    exact ⟨[], release_spec a.2 hms, fun y => rfl⟩

/-! ### Runs -/

variable {s s' : PageSys}

theorem PagesExact.step {c : PageCall procs} (hs : PagesExact procs s) (h : s.step X c = some s') :
    PagesExact procs s' ∧ FreesLast procs s.mem s'.mem := by
  obtain ⟨ms, hperform, rfl⟩ := Option.map_eq_some_iff.mp h
  obtain ⟨taken, hspec, htaken⟩ := perform_spec hs.refcount hperform
  refine ⟨⟨hspec.counted, fun page => ?_⟩, hspec.frees⟩
  obtain ⟨f, hfreed, hf⟩ := hspec.frees
  have hnew := (htaken page).symm.trans (hspec.taken page)
  have hold := hs.balance page
  simp only [hfreed, List.count_append, hf page]
  by_cases hbefore : s.mem.Listed procs page
  · by_cases hafter : ms.Listed procs page
    · simp only [hbefore, hafter, not_true_eq_false, and_false, if_false, if_true] at hnew hold ⊢
      omega
    · simp only [hbefore, hafter, not_true_eq_false, not_false_eq_true, and_false, and_true,
        if_false, if_true] at hnew hold ⊢
      omega
  · by_cases hafter : ms.Listed procs page
    · simp only [hbefore, hafter, not_true_eq_false, not_false_eq_true, and_false, and_true,
        if_false, if_true] at hnew hold ⊢
      omega
    · simp only [hbefore, hafter, false_and, if_false] at hnew hold ⊢
      omega

theorem PageSys.Unused.exact (h : s.Unused procs) : PagesExact procs s := by
  have hnone : ∀ page, ¬ s.mem.Listed procs page := fun page ⟨a, ha, hmem⟩ => by
    rw [h.lists a ha] at hmem
    exact List.not_mem_nil hmem
  obtain ⟨hfreed, hgot, hadopted⟩ := h.logs
  refine ⟨fun page => ?_, fun page => ?_⟩
  · rw [h.refcount page]
    have hzero : entries procs s.mem.lists page = 0 :=
      entries_eq_zero.mpr fun a ha hmem => hnone page ⟨a, ha, hmem⟩
    rw [hzero]
    rfl
  · rw [if_neg (hnone page), hfreed, hgot, hadopted]
    rfl

/-- What holds in a state of a run: the counters are exact; the next call frees the pages
that lose their last entries and no others, in the turn of that entry; a page that nobody
lists is freed later only if it was allocated again; and once no process lists a page,
none has a reference and all that was allocated has been freed. -/
structure PageLaw (X : Platform) (procs : Finset PcbPtr) (s : PageSys) : Prop where
  exact : PagesExact procs s
  frees : ∀ (c : PageCall procs) t, PageSys.step X s c = some t → FreesLast procs s.mem t.mem
  turns : ∀ a ∈ procs, TurnFreesLast procs s.mem a
  again : ∀ (es : List (PageCall procs)) t page, Run.exec (PageSys.step X) s es = some t →
    ¬ s.mem.Listed procs page → s.mem.freed.count page < t.mem.freed.count page →
      s.got.count page + s.adopted.count page < t.got.count page + t.adopted.count page
  idle : (∀ a ∈ procs, s.mem.lists a = []) → ∀ page, s.mem.refcount page = 0 ∧
    s.got.count page + s.adopted.count page = s.mem.freed.count page

theorem PagesExact.run {es : List (PageCall procs)} (hs : PagesExact procs s)
    (hrun : Run.exec (PageSys.step X) s es = some s') : PagesExact procs s' := by
  have hstep : ∀ u (c : PageCall procs) u', PagesExact procs u →
      PageSys.step X u c = some u' → PagesExact procs u' := fun u c u' hu h => (hu.step h).1
  exact Run.exec_invariant_of_step hstep hs hrun

theorem PagesExact.law (hs : PagesExact procs s) : PageLaw X procs s := by
  refine ⟨hs, fun c t h => (hs.step h).2, fun a ha => release_turn ha hs.refcount,
    fun es t page hrun hnone hmore => ?_, fun hempty page => ?_⟩
  · have hbefore := hs.balance page
    have hafter := (hs.run hrun).balance page
    rw [if_neg hnone] at hbefore
    omega
  · have hnone : ¬ s.mem.Listed procs page := fun ⟨a, ha, hmem⟩ => by
      rw [hempty a ha] at hmem
      exact List.not_mem_nil hmem
    have hbalance := hs.balance page
    rw [if_neg hnone, Nat.add_zero] at hbalance
    refine ⟨?_, hbalance⟩
    rw [hs.refcount page, Int.natCast_eq_zero]
    exact entries_eq_zero.mpr fun a ha hmem => hnone ⟨a, ha, hmem⟩

/-- From a state without references every run of calls reaches states with exact counts. -/
theorem page_counts_exact {es : List (PageCall procs)} (hstart : s.Unused procs)
    (hrun : Run.exec (PageSys.step X) s es = some s') : PageLaw X procs s' :=
  (hstart.exact.run hrun).law

/- The lowest of some pages that is free. -/
def lowestFree (procs : Finset PcbPtr) : FreePages procs where
  get ms := (List.range 4).find? fun page =>
    ms.refcount page = 0 ∧ ∀ a ∈ procs, page ∉ (ms.spaces a).pageList
  fresh ms page h := by simpa using List.find?_some h

def noPages : PageSys := ⟨⟨fun _ => ⟨[], []⟩, fun _ => 0, [], fun _ => 0⟩, [], []⟩

theorem noPages_unused (procs : Finset PcbPtr) : noPages.Unused procs :=
  ⟨fun _ _ => rfl, fun _ => rfl, rfl, rfl, rfl⟩

/- Process 0 takes two pages, process 1 shares the first one, and both release theirs. -/
def sharedPage : List (PageCall {0, 1}) :=
  [.allocate ⟨0, by decide⟩ 0x1000 2 (lowestFree _), .add ⟨1, by decide⟩ 0,
    .release ⟨0, by decide⟩, .release ⟨1, by decide⟩]

theorem shared_page_counts :
    ∃ t, Run.exec (PageSys.step rootPlatform) noPages sharedPage = some t ∧
      PageLaw rootPlatform {0, 1} t ∧ t.mem.freed = [1, 0] := by
  have hrun : (Run.exec (PageSys.step rootPlatform) noPages sharedPage).map
      (fun t => t.mem.freed) = some [1, 0] := by decide
  obtain ⟨t, ht, hfreed⟩ := Option.map_eq_some_iff.mp hrun
  exact ⟨t, ht, page_counts_exact (noPages_unused _) ht, hfreed⟩

end SyeLabs.So3
