import SyeLabs.So3.PageCounts

/-!
# The pages of the live processes

Only live processes list pages: the pages that a process gets are mapped and listed one by
one, and all of them go together. `FramesExact` is what this makes of the memory.
-/

namespace SyeLabs.So3
open SharedCount ByteMemory

/-- Pages given to `a`, each one mapped and listed as in a turn of `allocate_page`; `G` tells
which pages may be given. The contents of the memory may change as well. -/
inductive Fills (G : MemState → Page → Prop) (a : PcbPtr) : MemState → MemState → Prop
  | done (ms : MemState) : Fills G a ms ms
  | write {ms ms' : MemState} (bytes : Memory) (h : Fills G a { ms with bytes := bytes } ms') :
    Fills G a ms ms'
  | page {ms ms' : MemState} (virt : Word) (page : Page) (hpage : G ms page)
    (h : Fills G a (MemState.addPageToProc a page (MemState.createMapping a virt page ms)) ms') :
    Fills G a ms ms'

/-- The pages of the live processes: each counter is the number of entries in their lists,
no other process has an entry, and what a live process maps it lists, the pages `code` of
the kernel's own image apart. -/
structure FramesExact (code : List Page) (live : Finset PcbPtr) (ms : MemState) : Prop where
  counted : ms.Counted live
  silent : ∀ a ∉ live, ms.lists a = []
  mapped : ∀ a ∈ live, ∀ m ∈ (ms.spaces a).pgtable, m.2 ∈ ms.lists a ∨ m.2 ∈ code

def MemState.OnlyIn (ms : MemState) (a : PcbPtr) (page : Page) : Prop :=
  page ∈ ms.lists a ∧ ∀ b, b ≠ a → page ∉ ms.lists b

/-- The pages freed in between are those of `F`, each freed once. -/
def Freed (F : Page → Prop) (ms ms' : MemState) : Prop :=
  ∃ f, ms'.freed = ms.freed ++ f ∧ f.Nodup ∧ ∀ page, page ∈ f ↔ F page

variable {G : MemState → Page → Prop} {code : List Page} {live : Finset PcbPtr} {a b : PcbPtr}
  {ms ms₁ ms' : MemState} {page : Page}

/-! ### Giving pages -/

theorem Fills.trans (h : Fills G a ms ms₁) (h' : Fills G a ms₁ ms') : Fills G a ms ms' := by
  induction h with
  | done ms => exact h'
  | write bytes _ ih => exact .write bytes (ih h')
  | page virt page hpage _ ih => exact .page virt page hpage (ih h')

theorem Fills.other (h : Fills G a ms ms') (hb : b ≠ a) : ms'.spaces b = ms.spaces b := by
  induction h with
  | done ms => rfl
  | write bytes _ ih => exact ih
  | page virt page hpage _ ih =>
    rw [ih]
    simp [MemState.addPageToProc, MemState.createMapping, MemState.setSpace, hb]

theorem Fills.freed (h : Fills G a ms ms') : ms'.freed = ms.freed := by
  induction h with
  | done ms => rfl
  | write bytes _ ih => exact ih
  | page virt page hpage _ ih => exact ih.trans (turn_takes _ a virt page).freed

theorem Fills.counted (h : Fills G a ms ms') (ha : a ∈ live) (hms : ms.Counted live) :
    ms'.Counted live := by
  induction h with
  | done ms => exact hms
  | write bytes _ ih => exact ih hms
  | page virt page hpage _ ih => exact ih ((turn_takes _ a virt page).counted ha hms)

theorem turn_space (ms : MemState) (a : PcbPtr) (virt : Word) (page : Page) :
    (MemState.addPageToProc a page (MemState.createMapping a virt page ms)).spaces a =
      ⟨ms.lists a ++ [page], (virt, page) :: (ms.spaces a).pgtable⟩ := by
  simp [MemState.addPageToProc, MemState.createMapping, MemState.setSpace, MemState.lists]

theorem Fills.mapped (h : Fills G a ms ms')
    (hms : ∀ m ∈ (ms.spaces a).pgtable, m.2 ∈ ms.lists a ∨ m.2 ∈ code) :
    ∀ m ∈ (ms'.spaces a).pgtable, m.2 ∈ ms'.lists a ∨ m.2 ∈ code := by
  induction h with
  | done ms => exact hms
  | write bytes _ ih => exact ih hms
  | page virt page hpage _ ih =>
    refine ih fun m hm => ?_
    rw [MemState.lists, turn_space, List.mem_append]
    rw [turn_space] at hm
    rcases List.mem_cons.mp hm with rfl | hm
    · exact Or.inl (Or.inr (List.mem_singleton.mpr rfl))
    · exact (hms m hm).imp_left Or.inl

theorem Fills.le_one (h : Fills G a ms ms') (hfresh : ∀ ms page, G ms page → ms.refcount page = 0)
    (hms : ∀ y, ms.refcount y ≤ 1) : ∀ y, ms'.refcount y ≤ 1 := by
  induction h with
  | done ms => exact hms
  | write bytes _ ih => exact ih hms
  | page virt page hpage _ ih =>
    refine ih fun y => ?_
    rw [(turn_takes _ a virt page).refcount, Function.update_apply]
    split_ifs
    · rw [hfresh _ _ hpage]
      rfl
    · exact hms y

theorem allocatePage_fills {X : Platform} {virt : Word} {nrPages : ℕ}
    (hG : ∀ ms page, X.getFreePage ms = some page → G ms page)
    (h : MemState.allocatePage X a virt nrPages ms = some ms') : Fills G a ms ms' := by
  unfold MemState.allocatePage at h
  generalize List.range nrPages = turns at h
  induction turns generalizing ms with
  | nil =>
    obtain rfl := Option.some.inj h
    exact .done ms
  | cons i turns ih =>
    rw [List.foldlM_cons] at h
    obtain ⟨ms₁, hturn, hrest⟩ := Option.bind_eq_some_iff.mp h
    obtain ⟨page, hget, hms₁⟩ := Option.bind_eq_some_iff.mp hturn
    obtain rfl := Option.some.inj hms₁
    exact .page _ page (hG ms page hget) (ih hrest)

theorem FramesExact.fill (hms : FramesExact code live ms) (ha : a ∈ live)
    (h : Fills G a ms ms') : FramesExact code live ms' := by
  refine ⟨h.counted ha hms.counted, fun b hb => ?_, fun b hb => ?_⟩
  · have hne : b ≠ a := fun hba => hb (hba ▸ ha)
    rw [MemState.lists, h.other hne]
    exact hms.silent b hb
  · by_cases hne : b = a
    · subst hne
      exact h.mapped (hms.mapped b hb)
    · rw [MemState.lists, h.other hne]
      exact hms.mapped b hb

/-! ### Processes that come, go and are forgotten -/

theorem counted_of_silent {owners : Finset PcbPtr} (hsub : live ⊆ owners)
    (hsilent : ∀ a ∉ live, ms.lists a = []) : ms.Counted owners ↔ ms.Counted live := by
  have hentries : ∀ page, entries owners ms.lists page = entries live ms.lists page :=
    fun page => entries_of_subset hsub fun a _ ha => hsilent a ha
  unfold MemState.Counted
  simp only [hentries]

theorem FramesExact.join (hms : FramesExact code live ms) (ha : ms.spaces a = ⟨[], []⟩) :
    FramesExact code (insert a live) ms := by
  have hsub := Finset.subset_insert a live
  refine ⟨(counted_of_silent hsub hms.silent).mpr hms.counted, fun b hb => ?_, fun b hb m hm => ?_⟩
  · exact hms.silent b fun hmem => hb (hsub hmem)
  · rcases Finset.mem_insert.mp hb with rfl | hb
    · rw [ha] at hm
      exact absurd hm List.not_mem_nil
    · exact hms.mapped b hb m hm

theorem FramesExact.leave (hms : FramesExact code live ms) (ha : ms.lists a = []) :
    FramesExact code (live.erase a) ms := by
  have hsilent : ∀ b ∉ live.erase a, ms.lists b = [] := fun b hb => by
    by_cases hba : b = a
    · rw [hba, ha]
    · exact hms.silent b fun hmem => hb (Finset.mem_erase.mpr ⟨hba, hmem⟩)
  refine ⟨(counted_of_silent (Finset.erase_subset a live) hsilent).mp hms.counted, hsilent,
    fun b hb => hms.mapped b (Finset.mem_of_mem_erase hb)⟩

/- The page table of any process may be emptied. -/
theorem FramesExact.reset (hms : FramesExact code live ms) (a : PcbPtr) :
    FramesExact code live (ms.resetRootPgtable a) := by
  have hlists : (ms.resetRootPgtable a).lists = ms.lists := by
    unfold MemState.resetRootPgtable
    rw [setSpace_lists]
    exact Function.update_eq_self a ms.lists
  refine ⟨fun page => ?_, fun b hb => ?_, fun b hb m hm => ?_⟩
  · rw [hlists]
    exact hms.counted page
  · rw [hlists]
    exact hms.silent b hb
  · rw [hlists]
    by_cases hba : b = a
    · simp [MemState.resetRootPgtable, MemState.setSpace, hba] at hm
    · refine hms.mapped b hb m ?_
      simpa [MemState.resetRootPgtable, MemState.setSpace, hba] using hm

/-! ### Releasing pages -/

theorem releasePages_spaces (pages : List Page) (ms : MemState) :
    (pages.foldl MemState.releasePage ms).spaces = ms.spaces := by
  induction pages generalizing ms with
  | nil => rfl
  | cons page pages ih => exact ih (ms.releasePage page)

theorem release_space (ms : MemState) (a b : PcbPtr) :
    (MemState.releaseProcPages a ms).spaces b =
      if b = a then ⟨[], (ms.spaces a).pgtable⟩ else ms.spaces b := by
  unfold MemState.releaseProcPages
  rw [releasePages_spaces]
  exact Function.update_apply ms.spaces a _ b

theorem release_onlyIn (hsilent : ∀ a ∉ live, ms.lists a = []) (ha : a ∈ live) :
    (ms.Listed live page ∧ ¬ (MemState.releaseProcPages a ms).Listed live page) ↔
      ms.OnlyIn a page := by
  have hafter : (MemState.releaseProcPages a ms).Listed live page ↔
      ∃ b ∈ live, b ≠ a ∧ page ∈ ms.lists b := by
    refine exists_congr fun b => and_congr_right fun _ => ?_
    rw [release_lists, Function.update_apply]
    split_ifs with hba
    · simp [hba]
    · simp [hba]
  rw [hafter]
  constructor
  · rintro ⟨⟨b, hb, hmem⟩, hnot⟩
    have hothers : ∀ c, c ≠ a → page ∉ ms.lists c := fun c hc hpage => by
      by_cases hlive : c ∈ live
      · exact hnot ⟨c, hlive, hc, hpage⟩
      · rw [hsilent c hlive] at hpage
        exact List.not_mem_nil hpage
    have hba : b = a := by
      by_contra hne
      exact hothers b hne hmem
    exact ⟨hba ▸ hmem, hothers⟩
  · rintro ⟨hmem, hothers⟩
    exact ⟨⟨a, ha, hmem⟩, fun ⟨b, _, hne, hpage⟩ => hothers b hne hpage⟩

theorem release_freed (hms : FramesExact code live ms) (ha : a ∈ live) :
    Freed (ms.OnlyIn a) ms (MemState.releaseProcPages a ms) := by
  obtain ⟨f, hfreed, hf⟩ := (release_spec ha hms.counted).frees
  refine ⟨f, hfreed, List.nodup_iff_count_le_one.mpr fun y => ?_, fun y => ?_⟩
  · rw [hf]
    split_ifs
    · exact Nat.le_refl 1
    · exact Nat.zero_le 1
  · rw [← release_onlyIn hms.silent ha, ← List.count_pos_iff, hf]
    split_ifs with hlast
    · exact iff_of_true Nat.one_pos hlast
    · exact iff_of_false (Nat.lt_irrefl 0) hlast

theorem release_le (hms : FramesExact code live ms) (ha : a ∈ live) (y : Page) :
    (MemState.releaseProcPages a ms).refcount y ≤ ms.refcount y := by
  have hentries := release_entries ha ms y
  rw [(release_spec ha hms.counted).counted y, hms.counted y]
  omega

/-- What goes is all that the process had, so that it can leave, or be filled again once
nothing is mapped. -/
theorem FramesExact.release (hms : FramesExact code live ms) (ha : a ∈ live) :
    FramesExact code (live.erase a) (MemState.releaseProcPages a ms) := by
  have hlists : ∀ b ∉ live.erase a, (MemState.releaseProcPages a ms).lists b = [] := by
    intro b hb
    rw [release_lists, Function.update_apply]
    split_ifs with hba
    · rfl
    · exact hms.silent b fun hmem => hb (Finset.mem_erase.mpr ⟨hba, hmem⟩)
  refine ⟨(counted_of_silent (Finset.erase_subset a live) hlists).mp
    (release_spec ha hms.counted).counted, hlists, fun b hb m hm => ?_⟩
  obtain ⟨hba, hlive⟩ := Finset.mem_erase.mp hb
  rw [MemState.lists, release_space, if_neg hba]
  rw [release_space, if_neg hba] at hm
  exact hms.mapped b hlive m hm

/- What `exec` does before the new image is mapped. -/
theorem FramesExact.unload (hms : FramesExact code live ms) (ha : a ∈ live) :
    FramesExact code live ((ms.resetRootPgtable a).releaseProcPages a) := by
  have hspace : ((ms.resetRootPgtable a).releaseProcPages a).spaces a = ⟨[], []⟩ := by
    rw [release_space, if_pos rfl]
    simp [MemState.resetRootPgtable, MemState.setSpace]
  have hjoin := ((hms.reset a).release ha).join hspace
  rwa [Finset.insert_erase ha] at hjoin

/-! ### What follows from exact counters -/

theorem FramesExact.referenced (hms : FramesExact code live ms) (ha : a ∈ live) {m : Word × Page}
    (hm : m ∈ (ms.spaces a).pgtable) : 0 < ms.refcount m.2 ∨ m.2 ∈ code := by
  refine (hms.mapped a ha m hm).imp_left fun hlisted => ?_
  have hpos := entries_pos.mpr ⟨a, ha, hlisted⟩
  rw [hms.counted m.2]
  exact_mod_cast hpos

/- With counters of at most 1, no page is in two places. -/
theorem FramesExact.isolated (hms : FramesExact code live ms) (hone : ∀ y, ms.refcount y ≤ 1) :
    ∀ a, (ms.lists a).Nodup ∧ ∀ b, b ≠ a → ∀ page ∈ ms.lists a, page ∉ ms.lists b := by
  have hentries : ∀ y, entries live ms.lists y ≤ 1 := fun y => by
    have hy := hone y
    rw [hms.counted y] at hy
    exact_mod_cast hy
  have hcount : ∀ a y, (ms.lists a).count y ≤ entries live ms.lists y := fun a y => by
    by_cases ha : a ∈ live
    · exact count_le_entries ha
    · rw [hms.silent a ha]
      exact Nat.zero_le _
  refine fun a => ⟨List.nodup_iff_count_le_one.mpr fun y => (hcount a y).trans (hentries y),
    fun b hb page hpage hother => ?_⟩
  have ha : a ∈ live := by
    by_contra ha
    rw [hms.silent a ha] at hpage
    exact List.not_mem_nil hpage
  have hupdate : entries live (Function.update ms.lists a []) page + (ms.lists a).count page =
      entries live ms.lists page := entries_update ha []
  have hleft : (ms.lists b).count page ≤
      entries live (Function.update ms.lists a []) page := by
    have hb' : b ∈ live := by
      by_contra hb'
      rw [hms.silent b hb'] at hother
      exact List.not_mem_nil hother
    rw [← Function.update_of_ne hb [] ms.lists]
    exact count_le_entries hb'
  have hposa := List.count_pos_iff.mpr hpage
  have hposb := List.count_pos_iff.mpr hother
  have htotal := hentries page
  omega

end SyeLabs.So3
