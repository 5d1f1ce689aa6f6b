import SyeLabs.So3.Life

/-!
# Pages over whole runs

From the boot on, whatever the processes call, the reference counters are those of the
live processes, and a process that is gone has left nothing behind.
-/

namespace SyeLabs.So3
open SharedCount ByteMemory

/-- What holds in a state of a run. Who has ended lists nothing, and maps nothing either once it
is reaped. A request frees the pages that only the process listed
which gives up its own, each once; if pages are only given that have no reference, no page
is in two places. -/
structure FrameLaw (X : Platform) (G : MemState → Page → Prop) (code : List Page) (s : Sys) :
    Prop where
  counters : ∀ page, s.kernel.mem.refcount page = entries s.kernel.live s.kernel.mem.lists page
  silent : ∀ a ∉ s.kernel.live, s.kernel.mem.lists a = []
  mapped : ∀ a ∈ s.kernel.live, ∀ m ∈ (s.kernel.mem.spaces a).pgtable,
    0 < s.kernel.mem.refcount m.2 ∨ m.2 ∈ code
  buried : ∀ a, a ∉ s.kernel.procList ∨ a ∈ s.released → s.kernel.mem.spaces a = ⟨[], []⟩
  frees : ∀ e s', s.serve X e = some s' →
    Freed (fun page => ∃ a, s.unloads e = some a ∧ s.kernel.mem.OnlyIn a page)
      s.kernel.mem s'.kernel.mem
  isolated : (∀ ms page, G ms page → ms.refcount page = 0) →
    ∀ a, (s.kernel.mem.lists a).Nodup ∧
      ∀ b, b ≠ a → ∀ page ∈ s.kernel.mem.lists a, page ∉ s.kernel.mem.lists b

variable {X : Platform} {G : MemState → Page → Prop} {code : List Page} {k k' : Kernel}
  {s s' : Sys} {a : PcbPtr} {o : Option PcbPtr} {ms ms' : MemState}

/-! ### Steps -/

theorem reset_lists (ms : MemState) (a : PcbPtr) : (ms.resetRootPgtable a).lists = ms.lists := by
  unfold MemState.resetRootPgtable
  rw [setSpace_lists]
  exact Function.update_eq_self a ms.lists

theorem reset_space (ms : MemState) (a b : PcbPtr) : (ms.resetRootPgtable a).spaces b =
    if b = a then ⟨ms.lists a, []⟩ else ms.spaces b :=
  Function.update_apply ms.spaces a _ b

theorem Freed.nothing {F : Page → Prop} (hfreed : ms'.freed = ms.freed) (hF : ∀ page, ¬ F page) :
    Freed F ms ms' :=
  ⟨[], by rw [hfreed, List.append_nil], List.nodup_nil,
    fun page => iff_of_false List.not_mem_nil (hF page)⟩

theorem Freed.congr {F F' : Page → Prop} (h : Freed F ms ms') (hF : ∀ page, F page ↔ F' page) :
    Freed F' ms ms' := by
  obtain ⟨f, hfreed, hnodup, hf⟩ := h
  exact ⟨f, hfreed, hnodup, fun page => (hf page).trans (hF page)⟩

/- Where nobody gives up pages, none is freed. -/
theorem Freed.nobody (hfreed : ms'.freed = ms.freed) :
    Freed (fun page => ∃ a, (none : Option PcbPtr) = some a ∧ ms.OnlyIn a page) ms ms' :=
  .nothing hfreed fun _ ⟨_, hnobody, _⟩ => nomatch hnobody

theorem LifeExact.living (hs : LifeExact code s) (ha : a ∈ s.kernel.live) :
    ¬ (a ∉ s.kernel.procList ∨ a ∈ s.released) := by
  rintro (hgone | hpast)
  · exact hgone (mem_live.mp ha).1
  · exact (hs.past a hpast).2 ha

theorem SameLife.exact (hlife : SameLife s s') (hs : LifeExact code s)
    (hsettled : Settled s'.kernel) (hframes : FramesExact code s.kernel.live s'.kernel.mem)
    (hspaces : ∀ b, b ∉ s.kernel.procList ∨ b ∈ s.released →
      s'.kernel.mem.spaces b = s.kernel.mem.spaces b) : LifeExact code s' := by
  refine ⟨hsettled, ?_, fun b hb => ?_, fun b hb => ?_⟩
  · rw [hlife.live]
    exact hframes
  · rw [hlife.procList, hlife.released] at hb
    exact (hspaces b hb).trans (hs.buried b hb)
  · rw [hlife.released] at hb
    rw [hlife.created, hlife.live]
    exact hs.past b hb

theorem LifeExact.replace {bytes : Memory} (hs : LifeExact code s) (hsettled : Settled s'.kernel)
    (ha : a ∈ s.kernel.live) (hlife : SameLife s s')
    (hmem : Fills G a ((MemState.resetRootPgtable a
      { s.kernel.mem with bytes := bytes }).releaseProcPages a) s'.kernel.mem) :
    LifeExact code s' ∧ Freed (s.kernel.mem.OnlyIn a) s.kernel.mem s'.kernel.mem := by
  have hframes : FramesExact code s.kernel.live { s.kernel.mem with bytes := bytes } :=
    ⟨hs.frames.counted, hs.frames.silent, hs.frames.mapped⟩
  refine ⟨hlife.exact hs hsettled ((hframes.unload ha).fill ha hmem) fun b hb => ?_, ?_⟩
  · have hba : b ≠ a := fun hba => hs.living ha (hba ▸ hb)
    rw [hmem.other hba, release_space, if_neg hba, reset_space, if_neg hba]
  · obtain ⟨f, hfreed, hnodup, hf⟩ := release_freed (hframes.reset a) ha
    refine ⟨f, hmem.freed.trans hfreed, hnodup, fun page => (hf page).trans ?_⟩
    unfold MemState.OnlyIn
    rw [reset_lists]
    rfl

theorem LifeExact.exit (hs : LifeExact code s) (hsettled : Settled s'.kernel)
    (ha : a ∈ s.kernel.live) (hlist : s'.kernel.procList = s.kernel.procList)
    (hcreated : s'.kernel.created = s.kernel.created)
    (hlive : s'.kernel.live = s.kernel.live.erase a) (hreleased : s'.released = s.released)
    (hmem : s'.kernel.mem = s.kernel.mem.releaseProcPages a) : LifeExact code s' := by
  refine ⟨hsettled, ?_, fun b hb => ?_, fun b hb => ?_⟩
  · rw [hlive, hmem]
    exact hs.frames.release ha
  · rw [hlist, hreleased] at hb
    have hba : b ≠ a := fun hba => hs.living ha (hba ▸ hb)
    rw [hmem, release_space, if_neg hba]
    exact hs.buried b hb
  · rw [hreleased] at hb
    rw [hcreated, hlive]
    exact ⟨(hs.past b hb).1, fun hmem => (hs.past b hb).2 (Finset.mem_of_mem_erase hmem)⟩

theorem LifeExact.fork (hs : LifeExact code s) (hsettled : Settled s'.kernel)
    (hlist : s'.kernel.procList = s.kernel.procList ++ [s.kernel.created])
    (hcreated : s'.kernel.created = s.kernel.created + 1)
    (hlive : s'.kernel.live = insert s.kernel.created s.kernel.live)
    (hreleased : s'.released = s.released)
    (hmem : Fills G s.kernel.created (s.kernel.mem.setSpace s.kernel.created ⟨[], []⟩)
      s'.kernel.mem) :
    LifeExact code s' ∧ s'.kernel.mem.freed = s.kernel.mem.freed := by
  have hnew : s.kernel.created ∉ s.kernel.procList := fun hmem =>
    Nat.lt_irrefl _ (hs.settled.fresh _ hmem)
  have hempty := hs.buried _ (Or.inl hnew)
  have hsame : s.kernel.mem.setSpace s.kernel.created ⟨[], []⟩ = s.kernel.mem := by
    rw [MemState.setSpace, ← hempty, Function.update_eq_self]
  rw [hsame] at hmem
  refine ⟨⟨hsettled, ?_, fun b hb => ?_, fun b hb => ?_⟩, hmem.freed⟩
  · rw [hlive]
    exact (hs.frames.join hempty).fill (Finset.mem_insert_self ..) hmem
  · rw [hlist, hreleased, List.mem_append, List.mem_singleton, not_or] at hb
    have hold : b ≠ s.kernel.created ∧ (b ∉ s.kernel.procList ∨ b ∈ s.released) := by
      rcases hb with ⟨hgone, hne⟩ | hpast
      · exact ⟨hne, Or.inl hgone⟩
      · exact ⟨Nat.ne_of_lt (hs.past b hpast).1, Or.inr hpast⟩
    rw [hmem.other hold.1]
    exact hs.buried b hold.2
  · rw [hreleased] at hb
    obtain ⟨hlt, hdead⟩ := hs.past b hb
    rw [hcreated, hlive, Finset.mem_insert, not_or]
    exact ⟨Nat.lt_succ_of_lt hlt, Nat.ne_of_lt hlt, hdead⟩

theorem LifeExact.reap {child : PcbPtr} (hs : LifeExact code s) (hsettled : Settled s'.kernel)
    (hchild : child ∉ s.kernel.live) (hpast : child < s.kernel.created)
    (hlist : ∀ a, a ≠ child → (a ∈ s'.kernel.procList ↔ a ∈ s.kernel.procList))
    (hcreated : s'.kernel.created = s.kernel.created) (hlive : s'.kernel.live = s.kernel.live)
    (hreleased : s'.released = s.released ++ [child])
    (hmem : s'.kernel.mem = s.kernel.mem.resetRootPgtable child) : LifeExact code s' := by
  refine ⟨hsettled, ?_, fun b hb => ?_, fun b hb => ?_⟩
  · rw [hlive, hmem]
    exact hs.frames.reset child
  · rw [hmem, reset_space]
    split_ifs with hbc
    · rw [hs.frames.silent child hchild]
    · rw [hlist b hbc, hreleased, List.mem_append, List.mem_singleton] at hb
      exact hs.buried b (hb.imp_right fun hb => hb.resolve_right hbc)
  · rw [hcreated, hlive]
    rw [hreleased, List.mem_append, List.mem_singleton] at hb
    rcases hb with hb | rfl
    · exact hs.past b hb
    · exact ⟨hpast, hchild⟩

theorem LifeExact.step (hs : LifeExact code s) (hsettled : Settled s'.kernel)
    (h : FrameStep G s s' o) : LifeExact code s' ∧
      Freed (fun page => ∃ a, o = some a ∧ s.kernel.mem.OnlyIn a page)
        s.kernel.mem s'.kernel.mem := by
  cases h with
  | keeps hlife hmem =>
    refine ⟨hlife.exact hs hsettled ?_ fun b _ => by rw [hmem], .nobody (congrArg MemState.freed hmem)⟩
    rw [hmem]
    exact hs.frames
  | replaces a bytes ha hlife hmem =>
    obtain ⟨hexact, hfreed⟩ := hs.replace hsettled ha hlife hmem
    exact ⟨hexact, hfreed.congr fun page => by simp⟩
  | forks hlist hcreated hlive hreleased hmem =>
    obtain ⟨hexact, hfreed⟩ := hs.fork hsettled hlist hcreated hlive hreleased hmem
    exact ⟨hexact, .nobody hfreed⟩
  | exits a ha hlist hcreated hlive hreleased hmem =>
    refine ⟨hs.exit hsettled ha hlist hcreated hlive hreleased hmem, ?_⟩
    rw [hmem]
    exact (release_freed hs.frames ha).congr fun page => by simp
  | reaps child hchild hpast hlist hcreated hlive hreleased hmem =>
    refine ⟨hs.reap hsettled hchild hpast hlist hcreated hlive hreleased hmem, .nobody ?_⟩
    exact (congrArg MemState.freed hmem).trans rfl

/- Pages that are given without a reference have one afterwards. -/
theorem FrameStep.le_one (h : FrameStep G s s' o) (hs : LifeExact code s)
    (hfresh : ∀ ms page, G ms page → ms.refcount page = 0)
    (hone : ∀ y, s.kernel.mem.refcount y ≤ 1) : ∀ y, s'.kernel.mem.refcount y ≤ 1 := by
  cases h with
  | keeps hlife hmem =>
    rw [hmem]
    exact hone
  | replaces a bytes ha hlife hmem =>
    have hframes : FramesExact code s.kernel.live { s.kernel.mem with bytes := bytes } :=
      ⟨hs.frames.counted, hs.frames.silent, hs.frames.mapped⟩
    exact hmem.le_one hfresh fun y => (release_le (hframes.reset a) ha y).trans (hone y)
  | forks hlist hcreated hlive hreleased hmem => exact hmem.le_one hfresh hone
  | exits a ha hlist hcreated hlive hreleased hmem =>
    rw [hmem]
    exact fun y => (release_le hs.frames ha y).trans (hone y)
  | reaps child hchild hpast hlist hcreated hlive hreleased hmem =>
    rw [hmem]
    exact hone

/-! ### The boot -/

theorem mapRange_counts (frames : List (Page × ℕ)) (virt : Word) (ms : MemState) :
    let ms' := frames.foldl (fun ms p =>
      MemState.createMapping a (virt + BitVec.ofNat 32 (p.2 * X.arch.pageSize)) p.1 ms) ms
    ms'.lists = ms.lists ∧ ms'.refcount = ms.refcount ∧
      (∀ b, b ≠ a → ms'.spaces b = ms.spaces b) ∧
      ∀ m ∈ (ms'.spaces a).pgtable, m ∈ (ms.spaces a).pgtable ∨ ∃ p ∈ frames, m.2 = p.1 := by
  induction frames generalizing ms with
  | nil => exact ⟨rfl, rfl, fun _ _ => rfl, fun m hm => Or.inl hm⟩
  | cons p frames ih =>
    obtain ⟨hlists, hrefcount, hother, hpgtable⟩ := ih (MemState.createMapping a
      (virt + BitVec.ofNat 32 (p.2 * X.arch.pageSize)) p.1 ms)
    refine ⟨hlists.trans (createMapping_lists ..), hrefcount.trans rfl, fun b hb => ?_,
      fun m hm => ?_⟩
    · rw [List.foldl_cons, hother b hb]
      simp [MemState.createMapping, MemState.setSpace, hb]
    · rcases hpgtable m hm with hm | ⟨q, hq, hmq⟩
      · simp only [MemState.createMapping, MemState.setSpace, Function.update_self] at hm
        rcases List.mem_cons.mp hm with rfl | hm
        · exact Or.inr ⟨p, List.mem_cons_self .., rfl⟩
        · exact Or.inl hm
      · exact Or.inr ⟨q, List.mem_cons_of_mem _ hq, hmq⟩

theorem FramesExact.mapRange {live : Finset PcbPtr} (hms : FramesExact code live ms) (virt : Word) :
    FramesExact code live (ms.mapRange X a virt code) ∧
      (ms.mapRange X a virt code).refcount = ms.refcount ∧
      ∀ b, b ≠ a → (ms.mapRange X a virt code).spaces b = ms.spaces b := by
  obtain ⟨hlists, hrefcount, hother, hpgtable⟩ :=
    @mapRange_counts X a code.zipIdx virt ms
  change (ms.mapRange X a virt code).lists = _ at hlists
  change (ms.mapRange X a virt code).refcount = _ at hrefcount
  refine ⟨⟨fun y => ?_, fun b hb => ?_, fun b hb m hm => ?_⟩, hrefcount, hother⟩
  · rw [hrefcount, hlists]
    exact hms.counted y
  · rw [hlists]
    exact hms.silent b hb
  · rw [hlists]
    by_cases hba : b = a
    · subst hba
      rcases hpgtable m hm with hm | ⟨p, hp, hmp⟩
      · exact hms.mapped b hb m hm
      · right
        rw [hmp]
        exact List.fst_mem_of_mem_zipIdx hp
    · have hspace : (ms.mapRange X a virt code).spaces b = ms.spaces b := hother b hba
      rw [hspace] at hm
      exact hms.mapped b hb m hm

/-- The kernel after the first process was made. -/
def Kernel.withRoot (k : Kernel) (root : Pcb) (tcbs : Tid → Tcb) (mem : MemState) : Kernel :=
  { k with
    pcbs := Function.update k.pcbs k.created root
    procList := k.procList ++ [k.created]
    created := k.created + 1
    pidCurrent := k.pidCurrent + 1
    tcbs := tcbs
    irqsOff := true
    mem := mem }

theorem createRootProcess_cases {image : RootImage} {k₀ : Kernel}
    (h : createRootProcess X image k₀ = some k) :
    ∃ (root : Pcb) (tcbs : Tid → Tcb) (mem : MemState) (virt : Word) (nrPages : ℕ),
      k = k₀.withRoot root tcbs (mem.mapRange X k₀.created image.userSpaceVaddr image.frames) ∧
      MemState.allocatePage X k₀.created virt nrPages
        (k₀.mem.setSpace k₀.created ⟨[], []⟩) = some mem ∧
      root.pid = k₀.pidCurrent ∧ root.parent = none ∧ root.state = .ready ∧
      root.ptracePendingReq = .noRequest ∧ root.mainThread ≠ none := by
  obtain ⟨mem, hstack, h⟩ := Option.bind_eq_some_iff.mp h
  simp only [Kernel.localIrqSave, Kernel.resetProcessStack, Kernel.setPcb, Function.update_self,
    Function.update_idem] at hstack h
  obtain rfl := Option.some.inj h
  exact ⟨_, _, mem, _, _, rfl, hstack, rfl, rfl, rfl, rfl, Option.some_ne_none _⟩

section
variable {k₀ : Kernel} {root : Pcb} {tcbs : Tid → Tcb} {mem : MemState}

theorem withRoot_pcb (hk₀ : Unbooted k₀) : (k₀.withRoot root tcbs mem).pcbs 0 = root := by
  rw [← hk₀.created]
  exact Function.update_self ..

theorem withRoot_procList (hk₀ : Unbooted k₀) : (k₀.withRoot root tcbs mem).procList = [0] := by
  change k₀.procList ++ [k₀.created] = [0]
  rw [hk₀.procList, hk₀.created]
  rfl

theorem withRoot_start (hk₀ : Unbooted k₀) (hpid : root.pid = k₀.pidCurrent)
    (hparent : root.parent = none) (hstate : root.state = .ready)
    (hreq : root.ptracePendingReq = .noRequest) (hmain : root.mainThread ≠ none) :
    Start (k₀.withRoot root tcbs mem) := by
  have hroot := @withRoot_pcb k₀ root tcbs mem hk₀
  refine ⟨withRoot_procList hk₀, ?_, ?_, ?_, ?_, ?_, ?_, ?_⟩
  · exact congrArg (· + 1) hk₀.created
  · exact congrArg (· + 1) hk₀.pidCurrent
  · rw [hroot, hpid, hk₀.pidCurrent]
  · rw [hroot, hparent]
  · rw [hroot, hstate]
  · rw [hroot, hreq]
  · rwa [hroot]

theorem withRoot_live (hk₀ : Unbooted k₀) (hstate : root.state = .ready) :
    (k₀.withRoot root tcbs mem).live = insert 0 ∅ := by
  have hroot := @withRoot_pcb k₀ root tcbs mem hk₀
  ext a
  rw [mem_live, withRoot_procList hk₀, List.mem_singleton, Finset.mem_insert]
  constructor
  · exact fun h => Or.inl h.1
  · rintro (rfl | hnone)
    · exact ⟨rfl, by rw [hroot, hstate]; exact nofun⟩
    · exact absurd hnone (Finset.notMem_empty a)

end

/-- `create_root_process` leaves a table with the root process in it, and exact counters. -/
theorem createRootProcess_exact {image : RootImage} {k₀ : Kernel} (hX : Accountable G X)
    (hk₀ : Unbooted k₀) (h : createRootProcess X image k₀ = some k) :
    Start k ∧ LifeExact image.frames ⟨k, [], []⟩ ∧
      ((∀ ms page, G ms page → ms.refcount page = 0) → ∀ y, k.mem.refcount y ≤ 1) := by
  obtain ⟨root, tcbs, mem, virt, nrPages, rfl, hstack, hpid, hparent, hstate, hreq, hmain⟩ :=
    createRootProcess_cases h
  have hspace : k₀.mem.setSpace 0 ⟨[], []⟩ = k₀.mem := by
    rw [MemState.setSpace, ← hk₀.spaces 0, Function.update_eq_self]
  rw [hk₀.created, hspace] at hstack
  rw [hk₀.created]
  have hfills : Fills G 0 k₀.mem mem := allocatePage_fills hX.freePage hstack
  have hblank : FramesExact image.frames ∅ k₀.mem :=
    ⟨fun y => by rw [hk₀.refcount y]; rfl, fun b _ => by rw [MemState.lists, hk₀.spaces b],
      fun b hb => absurd hb (Finset.notMem_empty b)⟩
  obtain ⟨hframes, hrefcount, hother⟩ := ((hblank.join (hk₀.spaces 0)).fill
    (Finset.mem_insert_self ..) hfills).mapRange (X := X) (a := 0) image.userSpaceVaddr
  have hstart := @withRoot_start k₀ root tcbs (mem.mapRange X 0 image.userSpaceVaddr image.frames)
    hk₀ hpid hparent hstate hreq hmain
  refine ⟨hstart, ⟨hstart.settled, ?_, fun b hb => ?_, fun b hb => absurd hb List.not_mem_nil⟩,
    fun hfresh y => ?_⟩
  · rw [withRoot_live hk₀ hstate]
    exact hframes
  · have hb0 : b ≠ 0 := by
      rintro rfl
      refine hb.elim (fun hgone => hgone ?_) List.not_mem_nil
      exact hstart.procList.symm ▸ List.mem_singleton.mpr rfl
    exact ((hother b hb0).trans (hfills.other hb0)).trans (hk₀.spaces b)
  · have hone := hfills.le_one hfresh (fun y => by rw [hk₀.refcount y]; exact Int.one_nonneg) y
    rwa [← hrefcount] at hone

/-! ### Runs -/

theorem LifeExact.law (hX : Accountable G X) (hs : LifeExact code s)
    (hone : (∀ ms page, G ms page → ms.refcount page = 0) → ∀ y, s.kernel.mem.refcount y ≤ 1) :
    FrameLaw X G code s := by
  refine ⟨hs.frames.counted, hs.frames.silent, fun a ha m hm => hs.frames.referenced ha hm,
    hs.buried, fun e s' h => ?_, fun hfresh => hs.frames.isolated (hone hfresh)⟩
  obtain ⟨hstep, hsettled⟩ := serve_frames hX hs.settled h
  exact (hs.step hsettled hstep).2

/-- From the boot on, in every order of requests, the pages are accounted for. -/
theorem frames_in_run {image : RootImage} {k₀ : Kernel} {es : List (Tid × Request)}
    (hX : Accountable G X) (hk₀ : Unbooted k₀) (hboot : createRootProcess X image k₀ = some k)
    (hrun : Run.exec (Sys.serve X) ⟨k, [], []⟩ es = some s) : FrameLaw X G image.frames s := by
  obtain ⟨_, hstart, hone⟩ := createRootProcess_exact hX hk₀ hboot
  have hstep : ∀ u e u', (LifeExact image.frames u ∧
        ((∀ ms page, G ms page → ms.refcount page = 0) → ∀ y, u.kernel.mem.refcount y ≤ 1)) →
      Sys.serve X u e = some u' → LifeExact image.frames u' ∧
        ((∀ ms page, G ms page → ms.refcount page = 0) → ∀ y, u'.kernel.mem.refcount y ≤ 1) := by
    intro u e u' hu h
    obtain ⟨hframes, hsettled⟩ := serve_frames hX hu.1.settled h
    exact ⟨(hu.1.step hsettled hframes).1, fun hfresh => hframes.le_one hu.1 hfresh (hu.2 hfresh)⟩
  obtain ⟨hexact, hcount⟩ := Run.exec_invariant_of_step hstep ⟨hstart, hone⟩ hrun
  exact hexact.law hX hcount

/- Of a few pages, the first one without references. -/
def firstFree (ms : MemState) : Option Page :=
  (List.range 16).find? fun page => ms.refcount page = 0

/- A page for each page of the parent. -/
def copySpace (parent child : PcbPtr) (ms : MemState) : MemState :=
  (ms.spaces parent).pgtable.foldr (fun m ms =>
    match firstFree ms with
    | none => ms
    | some page => MemState.addPageToProc child page (MemState.createMapping child m.1 page ms)) ms

def copyPlatform : Platform :=
  { rootPlatform with getFreePage := firstFree, duplicateUserSpace := copySpace }

def unbootedKernel : Kernel :=
  { rootKernel with procList := [], created := 0, pidCurrent := 1 }

theorem copyPlatform_accountable :
    Accountable (fun ms page => ms.refcount page = 0) copyPlatform := by
  have hfree : ∀ ms page, firstFree ms = some page → ms.refcount page = 0 := fun ms page h => by
    simpa using List.find?_some h
  refine ⟨joinFinished_inStep, fun t k k' h => ?_, hfree, fun parent child ms => ?_⟩
  · change joinFinished t k = some k' at h
    unfold joinFinished at h
    split_ifs at h
    rw [← Option.some.inj h]
    rfl
  · change Fills _ child ms (copySpace parent child ms)
    unfold copySpace
    generalize (ms.spaces parent).pgtable = entries
    induction entries with
    | nil => exact .done ms
    | cons m entries ih =>
      rw [List.foldr_cons]
      refine ih.trans ?_
      split
      · exact .done _
      · rename_i page hpage
        exact .page m.1 page (hfree _ page hpage) (.done _)

/- The root process forks, the child ends and is waited for. -/
def shortLife : List (Tid × Request) :=
  [(0, .call .fork), (1, .sbrk 0x800), (1, .call (.exit 0)), (0, .call (.waitpid 2 none 0))]

theorem frames_of_shortLife : ∃ k s,
    createRootProcess copyPlatform ⟨0x1000, [20]⟩ unbootedKernel = some k ∧
      Run.exec (Sys.serve copyPlatform) ⟨k, [], []⟩ shortLife = some s ∧
      FrameLaw copyPlatform (fun ms page => ms.refcount page = 0) [20] s := by
  have hsome : ((createRootProcess copyPlatform ⟨0x1000, [20]⟩ unbootedKernel).bind fun k =>
      Run.exec (Sys.serve copyPlatform) ⟨k, [], []⟩ shortLife).isSome = true := by decide
  obtain ⟨s, hs⟩ := Option.isSome_iff_exists.mp hsome
  obtain ⟨k, hboot, hrun⟩ := Option.bind_eq_some_iff.mp hs
  exact ⟨k, s, hboot, hrun, frames_in_run copyPlatform_accountable
    ⟨rfl, rfl, rfl, fun _ => rfl, fun _ => rfl⟩ hboot hrun⟩

end SyeLabs.So3
