import SyeLabs.So3.Frames
import SyeLabs.So3.Runs
import SyeLabs.So3.Sbrk

/-!
# The life of the processes

`create_root_process` (lines 316-361) makes the first process; from then on live processes
fork, replace their image, move their break, end and wait, in any order. `FrameStep` says
once what this does to the pages.
-/

namespace SyeLabs.So3
open SharedCount ByteMemory

/-- The code of the root process: where it is mapped, and the pages of the kernel's own
image that hold it. -/
structure RootImage where
  userSpaceVaddr : Word
  frames : List Page

inductive Request where
  | call (c : Call)
  | execve (image : Option ElfImage) (filename : CStr) (argv envp : Option (List CStr)) (args : ℕ)
  | sbrk (increment : Word)

variable (X : Platform)

/- `create_mapping` of a range of pages. -/
def MemState.mapRange (a : PcbPtr) (virt : Word) (frames : List Page) (ms : MemState) : MemState :=
  frames.zipIdx.foldl (fun ms p =>
    MemState.createMapping a (virt + BitVec.ofNat 32 (p.2 * X.arch.pageSize)) p.1 ms) ms

def createRootProcess (image : RootImage) (k : Kernel) : Option Kernel := do
  let k := k.localIrqSave
  let (k, pcb) := k.newProcess
  let k := k.resetProcessStack X pcb
  let p := k.pcbs pcb
  let mem ← k.mem.allocatePage X pcb
    (p.stackTop - p.pageCount * BitVec.ofNat 32 X.arch.pageSize) p.pageCount.toNat
  let mem := mem.mapRange X pcb image.userSpaceVaddr image.frames
  let (thread, tcbs) := X.userThread pcb k.tcbs
  let p := { p with mainThread := some thread }
  let p := { p with state := .ready }
  some { k.setPcb pcb p with tcbs := tcbs, mem := mem }

/-- The kernel that `create_root_process` is called in. -/
structure Unbooted (k : Kernel) : Prop where
  procList : k.procList = []
  created : k.created = 0
  pidCurrent : k.pidCurrent = 1
  spaces : ∀ a, k.mem.spaces a = ⟨[], []⟩
  refcount : ∀ page, k.mem.refcount page = 0

namespace Sys

/-- A system call of a live process, as in `Sys.step`. -/
def user (s : Sys) (t : Tid) (f : Kernel → Option Kernel) : Option Sys :=
  match (s.enter t).caller with
  | none => none
  | some p =>
    if p ∈ s.kernel.procList ∧ (s.kernel.pcbs p).state ≠ .zombie then
      (f (s.enter t)).map fun k => { s with kernel := k }
    else none

def serve (s : Sys) (e : Tid × Request) : Option Sys :=
  match e.2 with
  | .call c => s.step X ⟨e.1, c⟩
  | .execve image filename argv envp args => s.user e.1 fun k =>
    match doExecve X image filename argv envp args k with
    | .returned k _ => some k
    | .replaced k => some k
    | .stopped => none
  | .sbrk increment => s.user e.1 fun k => some (doSbrk X increment k).1

/-- The process that gives up its pages in a request: it ends, or its image is replaced. -/
def unloads (s : Sys) (e : Tid × Request) : Option PcbPtr :=
  match e.2 with
  | .call (.exit _) => (s.enter e.1).caller
  | .execve (some _) _ _ _ _ => (s.enter e.1).caller
  | _ => none

end Sys

def Kernel.live (k : Kernel) : Finset PcbPtr :=
  (k.procList.filter fun a => (k.pcbs a).state ≠ .zombie).toFinset

/-- What is asked of the rest of the kernel: a join leaves the memory alone, and pages are
given one by one, as far as `G` allows. -/
structure Accountable (G : MemState → Page → Prop) (X : Platform) : Prop where
  join : JoinsInStep X.threadJoin
  joinMem : ∀ t k k', X.threadJoin t k = some k' → k'.mem = k.mem
  freePage : ∀ ms page, X.getFreePage ms = some page → G ms page
  duplicate : ∀ parent child ms, Fills G child ms (X.duplicateUserSpace parent child ms)

structure SameLife (s s' : Sys) : Prop where
  procList : s'.kernel.procList = s.kernel.procList
  created : s'.kernel.created = s.kernel.created
  live : s'.kernel.live = s.kernel.live
  released : s'.released = s.released

/-- What a request does to the pages; the process is the one that gives up its own. -/
inductive FrameStep (G : MemState → Page → Prop) (s s' : Sys) : Option PcbPtr → Prop
  | keeps (h : SameLife s s') (hmem : s'.kernel.mem = s.kernel.mem) : FrameStep G s s' none
  | replaces (a : PcbPtr) (bytes : Memory) (ha : a ∈ s.kernel.live) (h : SameLife s s')
    (hmem : Fills G a ((MemState.resetRootPgtable a
      { s.kernel.mem with bytes := bytes }).releaseProcPages a) s'.kernel.mem) :
    FrameStep G s s' (some a)
  | forks (hlist : s'.kernel.procList = s.kernel.procList ++ [s.kernel.created])
    (hcreated : s'.kernel.created = s.kernel.created + 1)
    (hlive : s'.kernel.live = insert s.kernel.created s.kernel.live)
    (hreleased : s'.released = s.released)
    (hmem : Fills G s.kernel.created (s.kernel.mem.setSpace s.kernel.created ⟨[], []⟩)
      s'.kernel.mem) : FrameStep G s s' none
  | exits (a : PcbPtr) (ha : a ∈ s.kernel.live) (hlist : s'.kernel.procList = s.kernel.procList)
    (hcreated : s'.kernel.created = s.kernel.created)
    (hlive : s'.kernel.live = s.kernel.live.erase a) (hreleased : s'.released = s.released)
    (hmem : s'.kernel.mem = s.kernel.mem.releaseProcPages a) : FrameStep G s s' (some a)
  | reaps (child : PcbPtr) (hchild : child ∉ s.kernel.live) (hpast : child < s.kernel.created)
    (hlist : ∀ a, a ≠ child → (a ∈ s'.kernel.procList ↔ a ∈ s.kernel.procList))
    (hcreated : s'.kernel.created = s.kernel.created)
    (hlive : s'.kernel.live = s.kernel.live) (hreleased : s'.released = s.released ++ [child])
    (hmem : s'.kernel.mem = s.kernel.mem.resetRootPgtable child) : FrameStep G s s' none

/-- The pages in a run: they are exactly those of the live processes, and a process that was
removed or reaped has neither pages nor mappings. -/
structure LifeExact (code : List Page) (s : Sys) : Prop where
  settled : Settled s.kernel
  frames : FramesExact code s.kernel.live s.kernel.mem
  buried : ∀ a, a ∉ s.kernel.procList ∨ a ∈ s.released → s.kernel.mem.spaces a = ⟨[], []⟩
  past : ∀ a ∈ s.released, a < s.kernel.created ∧ a ∉ s.kernel.live

variable {X} {G : MemState → Page → Prop} {code : List Page} {k k' : Kernel} {s s' : Sys}
  {a : PcbPtr} {o : Option PcbPtr}

/-! ### Who is alive after a step of the table -/

theorem mem_live : a ∈ k.live ↔ a ∈ k.procList ∧ (k.pcbs a).state ≠ .zombie := by
  simp [Kernel.live]

theorem SameTable.live (h : SameTable k k') : k'.live = k.live := by
  rw [Kernel.live, Kernel.live, h.procList, h.pcbs]

theorem Forks.live {p : PcbPtr} {child : Pcb} (h : Forks k k' p child) (hk : Settled k) :
    k'.live = insert k.created k.live := by
  ext a
  rw [Finset.mem_insert, mem_live, mem_live, h.procList, List.mem_append, List.mem_singleton]
  by_cases ha : a = k.created
  · subst ha
    simp [h.born, h.state]
  · simp only [ha, or_false, false_or]
    exact and_congr_right fun hmem => by rw [h.old hk hmem]

theorem Exits.live {p : PcbPtr} {exitStatus : Word} (h : Exits k k' p exitStatus) :
    k'.live = k.live.erase p := by
  ext a
  rw [Finset.mem_erase, mem_live, mem_live, h.procList, h.pcb]
  split_ifs with ha
  · simp [ha]
  · simp [ha]

theorem Reaps.live {child : PcbPtr} (h : Reaps k k' child) (hk : Settled k)
    (hchild : child ∈ k.procList) : k'.live = k.live := by
  ext a
  obtain ⟨m, hm⟩ := h.same a
  rw [mem_live, mem_live, hm]
  refine ⟨fun ⟨hmem, hstate⟩ => ⟨h.mem hmem, hstate⟩, fun ⟨hmem, hstate⟩ => ⟨?_, hstate⟩⟩
  rw [h.procList]
  split_ifs
  · refine (List.mem_erase_of_ne fun hac => hstate ?_).mpr hmem
    rw [hac]
    exact h.zombie hk hchild
  · exact hmem

/-! ### What the calls do to the memory -/

theorem doFork_mem {r : Word} (h : doFork X k = some (k', r)) :
    (k'.created = k.created ∧ k'.mem = k.mem) ∨ (k'.created = k.created + 1 ∧
      ∃ p, k'.mem = X.duplicateUserSpace p k.created (k.mem.setSpace k.created ⟨[], []⟩)) := by
  have hcaller : k.localIrqSave.caller = k.caller := rfl
  rw [doFork, hcaller] at h
  cases hparent : k.caller with
  | none => simp [hparent] at h
  | some parent =>
    simp only [hparent] at h
    split at h
    · cases h
      exact Or.inl ⟨rfl, rfl⟩
    · cases h
      exact Or.inr ⟨rfl, parent, rfl⟩

theorem joinChild_mem (hX : Accountable G X) {child : PcbPtr} (h : joinChild X child k = some k') :
    k'.mem = k.mem := by
  unfold joinChild at h
  split_ifs at h
  · exact hX.joinMem _ k k' h
  · cases h
    rfl

theorem resumeChild_mem {child : PcbPtr} : (resumeChild child k).1.mem = k.mem ∧
    (resumeChild child k).2.filterMap Effect.released? = [] := by
  unfold resumeChild
  split_ifs
  · exact ⟨rfl, rfl⟩
  · exact ⟨rfl, rfl⟩

theorem collectChild_mem {child : PcbPtr} {wstatus : Option Word} :
    ((collectChild X child wstatus k).1.mem = k.mem ∧
        (collectChild X child wstatus k).2.2.filterMap Effect.released? = []) ∨
      ((collectChild X child wstatus k).1.mem = k.mem.resetRootPgtable child ∧
        (collectChild X child wstatus k).2.2.filterMap Effect.released? = [child]) := by
  simp only [collectChild]
  split_ifs
  · exact Or.inr ⟨by rw [reapChild_kernel], reapChild_released⟩
  · exact Or.inl ⟨rfl, rfl⟩
  · exact Or.inr ⟨by rw [reapChild_kernel], reapChild_released⟩

/- The page tables emptied are those of the processes logged as released. -/
theorem doWaitpid_mem (hX : Accountable G X) {pid options : Word} {wstatus : Option Word}
    {r : WaitReturn} (h : doWaitpid X pid wstatus options k = some r) :
    (r.kernel.mem = k.mem ∧ r.effects.filterMap Effect.released? = []) ∨
      ∃ child, r.kernel.mem = k.mem.resetRootPgtable child ∧
        r.effects.filterMap Effect.released? = [child] := by
  rcases doWaitpid_cases h with ⟨_, _, heffects, hkernel⟩ |
    ⟨child, _, ⟨_, _, rfl⟩ | ⟨_, k₁, hk₁, rfl⟩⟩
  · rw [hkernel, heffects]
    exact Or.inl ⟨rfl, rfl⟩
  · exact Or.inl ⟨rfl, rfl⟩
  · obtain ⟨hresume, hnone⟩ := @resumeChild_mem k.localIrqSave child
    have hmem : k₁.mem = k.mem := (joinChild_mem hX hk₁).trans hresume
    rw [List.filterMap_append, hnone, List.nil_append]
    rcases @collectChild_mem X k₁ child wstatus with ⟨hsame, heffects⟩ | ⟨hreset, heffects⟩
    · exact Or.inl ⟨hsame.trans hmem, heffects⟩
    · exact Or.inr ⟨child, hreset.trans (by rw [hmem]), heffects⟩

/-! ### What `exec` does -/

/-- The PCB of `a` is rewritten, but neither its state nor the pending request. -/
structure Rewrites (k k' : Kernel) (a : PcbPtr) : Prop where
  procList : k'.procList = k.procList
  created : k'.created = k.created
  pcb : ∃ p, k'.pcbs = Function.update k.pcbs a p ∧ p.state = (k.pcbs a).state ∧
    p.ptracePendingReq = (k.pcbs a).ptracePendingReq

theorem Rewrites.trans {k₁ : Kernel} (h : Rewrites k k₁ a) (h' : Rewrites k₁ k' a) :
    Rewrites k k' a := by
  obtain ⟨p, hp, hstate, hreq⟩ := h.pcb
  obtain ⟨p', hp', hstate', hreq'⟩ := h'.pcb
  rw [hp, Function.update_self] at hstate' hreq'
  refine ⟨h'.procList.trans h.procList, h'.created.trans h.created, p', ?_, hstate'.trans hstate,
    hreq'.trans hreq⟩
  rw [hp', hp, Function.update_idem]

theorem Rewrites.same (hpcbs : k'.pcbs = k.pcbs) (hlist : k'.procList = k.procList)
    (hcreated : k'.created = k.created) : Rewrites k k' a :=
  ⟨hlist, hcreated, k.pcbs a, by rw [hpcbs, Function.update_eq_self], rfl, rfl⟩

theorem Rewrites.live (h : Rewrites k k' a) : k'.live = k.live := by
  obtain ⟨p, hp, hstate, _⟩ := h.pcb
  ext b
  rw [mem_live, mem_live, h.procList, hp, Function.update_apply]
  split_ifs with hb
  · rw [hb, hstate]
  · rfl

theorem Rewrites.settled (h : Rewrites k k' a) (hk : Settled k)
    (hmain : (k'.pcbs a).mainThread = none → (k.pcbs a).mainThread = none) : Settled k' := by
  obtain ⟨p, hp, hstate, hreq⟩ := h.pcb
  rw [hp, Function.update_self] at hmain
  refine ⟨?_, ?_, fun b hb => ?_, fun b hb => ?_, fun b hb hnone => ?_⟩
  · rw [h.procList, h.created]
    exact hk.fresh
  · rw [h.procList]
    exact hk.nodup
  · rw [h.procList] at hb
    rw [hp, Function.update_apply]
    split_ifs with hba
    · rw [hreq]
      exact hk.untraced a (hba ▸ hb)
    · exact hk.untraced b hb
  · rw [h.procList] at hb
    rw [hp, Function.update_apply]
    split_ifs with hba
    · rw [hstate]
      exact hk.notWaiting a (hba ▸ hb)
    · exact hk.notWaiting b hb
  · rw [h.procList] at hb
    rw [hp, Function.update_apply] at hnone ⊢
    split_ifs at hnone ⊢ with hba
    · rw [hstate]
      exact hk.finished a (hba ▸ hb) (hmain hnone)
    · exact hk.finished b hb hnone

theorem mapImage_frames {elf : ElfImage} (hX : Accountable G X)
    (h : mapImage X elf a k = some k') : Rewrites k k' a ∧
      Fills G a ((k.mem.resetRootPgtable a).releaseProcPages a) k'.mem := by
  unfold mapImage at h
  simp only [Kernel.resetProcessStack, setPcb_pcbs_self, setPcb_mem] at h
  obtain ⟨ms₁, hstack, h⟩ := Option.bind_eq_some_iff.mp h
  obtain ⟨ms₂, himage, h⟩ := Option.bind_eq_some_iff.mp h
  obtain ⟨ms₃, hheap, h⟩ := Option.bind_eq_some_iff.mp h
  obtain ⟨ms₄, hargs, h⟩ := Option.bind_eq_some_iff.mp h
  obtain rfl := Option.some.inj h
  refine ⟨⟨rfl, rfl, _, Function.update_idem .., rfl, rfl⟩, ?_⟩
  have h₁ := allocatePage_fills hX.freePage hstack
  have h₂ := h₁.trans (allocatePage_fills hX.freePage himage)
  have h₃ := h₂.trans (allocatePage_fills hX.freePage hheap)
  exact h₃.trans (allocatePage_fills hX.freePage hargs)

theorem placeArgsEnv_fills {argsEnv : ℕ} {envp : Option (List CStr)} {ret : Word}
    (h : placeArgsEnv X argsEnv envp k = some (k', ret)) :
    Rewrites k k' a ∧ Fills G a k.mem k'.mem := by
  unfold placeArgsEnv at h
  split_ifs at h
  · cases h
    exact ⟨.same rfl rfl rfl, .done _⟩
  · obtain ⟨bytes, _, hret⟩ := Option.bind_eq_some_iff.mp h
    cases hret
    exact ⟨.same rfl rfl rfl, .write bytes (.done _)⟩

theorem setup_frames {elf : ElfImage} {argv envp : Option (List CStr)} {args : ℕ} {ret : Word}
    (hX : Accountable G X)
    (h : setupProcImageReplace X elf a argv envp args k = some (k', ret)) :
    Rewrites k k' a ∧ ∃ bytes, Fills G a ((MemState.resetRootPgtable a
      { k.mem with bytes := bytes }).releaseProcPages a) k'.mem := by
  unfold setupProcImageReplace at h
  split_ifs at h
  simp only [Nat.not_lt_zero, if_false] at h
  generalize preserveCall X argv envp args a k = preserved at h
  obtain ⟨bytes, result⟩ := preserved
  obtain ⟨k₁, hmap, hplace⟩ := Option.bind_eq_some_iff.mp h
  obtain ⟨hplaced, hargs⟩ := placeArgsEnv_fills (a := a) hplace
  obtain ⟨hmapped, himage⟩ := mapImage_frames hX hmap
  -- an error of the arguments leaves its number, and nothing else
  cases result with
  | ok p =>
    have hstart : Rewrites k { k with mem := { k.mem with bytes := bytes } } a := .same rfl rfl rfl
    exact ⟨(hstart.trans hmapped).trans hplaced, bytes, himage.trans hargs⟩
  | error e =>
    have hstart : Rewrites k (Kernel.setErrno { k with mem := { k.mem with bytes := bytes } } e) a :=
      .same rfl rfl rfl
    exact ⟨(hstart.trans hmapped).trans hplaced, bytes, himage.trans hargs⟩

theorem startImage_frames (h : startImage X a k = .replaced k') :
    Rewrites k k' a ∧ k'.mem = k.mem ∧ (k'.pcbs a).mainThread ≠ none := by
  simp only [startImage] at h
  split at h
  · cases h
    exact ⟨⟨rfl, rfl, _, rfl, rfl, rfl⟩, rfl, by simp [Kernel.setPcb]⟩
  · split_ifs at h
    cases h
    exact ⟨⟨rfl, rfl, _, rfl, rfl, rfl⟩, rfl, by simp [Kernel.setPcb]⟩

theorem doExecve_frames {image : Option ElfImage} {filename : CStr}
    {argv envp : Option (List CStr)} {args : ℕ} (hX : Accountable G X) (hcaller : k.caller = some a)
    (h : doExecve X image filename argv envp args k = .replaced k') :
    image ≠ none ∧ Rewrites k k' a ∧ (k'.pcbs a).mainThread ≠ none ∧
      ∃ bytes, Fills G a ((MemState.resetRootPgtable a
        { k.mem with bytes := bytes }).releaseProcPages a) k'.mem := by
  rw [doExecve, hcaller] at h
  simp only at h
  split at h
  · cases h
  cases image with
  | none => cases h
  | some elf =>
    simp only at h
    split at h
    · cases h
    · rename_i k₁ ret hsetup
      split_ifs at h
      obtain ⟨hstart, hmem, hmain⟩ := startImage_frames h
      obtain ⟨hsetup, bytes, himage⟩ := setup_frames hX hsetup
      have hname : Rewrites k
          (k.localIrqSave.setPcb a { k.pcbs a with name := filename }) a :=
        ⟨rfl, rfl, _, rfl, rfl, rfl⟩
      have hload : Rewrites k₁
          { k₁ with mem := { k₁.mem with bytes := loadProcess elf k₁.mem.bytes } } a :=
        .same rfl rfl rfl
      refine ⟨Option.some_ne_none elf, ((hname.trans hsetup).trans hload).trans hstart, hmain, bytes,
        himage.trans (.write (loadProcess elf k₁.mem.bytes) ?_)⟩
      rw [hmem]
      exact .done _

/-! ### The requests -/

theorem user_caller {t : Tid} {f : Kernel → Option Kernel} (h : s.user t f = some s') :
    ∃ p, (s.enter t).caller = some p ∧ p ∈ s.kernel.live ∧
      ∃ k, f (s.enter t) = some k ∧ s' = { s with kernel := k } := by
  rw [Sys.user] at h
  split at h
  · cases h
  · rename_i p hp
    split_ifs at h with hlive
    obtain ⟨k, hk, rfl⟩ := Option.map_eq_some_iff.mp h
    exact ⟨p, hp, mem_live.mpr hlive, k, hk, rfl⟩

theorem Rewrites.sameLife {t : Tid} (h : Rewrites (s.enter t) k a) :
    SameLife s { s with kernel := k } :=
  ⟨h.procList, h.created, h.live, rfl⟩

theorem call_frames {t : Tid} {c : Call} (hX : Accountable G X) (hs : Settled s.kernel)
    (h : Sys.step X s ⟨t, c⟩ = some s') : FrameStep G s s' (s.unloads (t, .call c)) := by
  obtain ⟨p, hcaller, hp, hstate, hperform⟩ := step_perform h
  have hlive : p ∈ s.kernel.live := mem_live.mpr ⟨hp, hstate⟩
  cases c with
  | fork =>
    obtain ⟨⟨k', r⟩, hfork, rfl⟩ := Option.map_eq_some_iff.mp hperform
    rcases doFork_table hfork with htable | ⟨q, child, _, htable⟩
    · rcases doFork_mem hfork with ⟨_, hmem⟩ | ⟨hcreated, _⟩
      · exact .keeps ⟨htable.procList, htable.created, htable.live, rfl⟩ hmem
      · exact absurd (htable.created.symm.trans hcreated) (Nat.ne_of_lt (Nat.lt_succ_self _))
    · rcases doFork_mem hfork with ⟨hcreated, _⟩ | ⟨_, q', hmem⟩
      · exact absurd (hcreated.symm.trans htable.created) (Nat.ne_of_lt (Nat.lt_succ_self _))
      · refine .forks htable.procList htable.created (htable.live hs.enter) rfl ?_
        change Fills G _ _ k'.mem
        rw [hmem]
        exact hX.duplicate q' _ _
  | exit exitStatus =>
    obtain ⟨k', hexit, rfl⟩ := Option.map_eq_some_iff.mp hperform
    obtain ⟨q, hq, htable⟩ := doExit_table hexit
    obtain rfl := Option.some.inj (hcaller.symm.trans hq)
    obtain ⟨q', hq', _, hk'⟩ := doExit_cases hexit
    obtain rfl := Option.some.inj (hcaller.symm.trans hq')
    have hunloads : s.unloads (t, .call (.exit exitStatus)) = some p := hcaller
    rw [hunloads]
    refine .exits p hlive htable.procList htable.created htable.live rfl ?_
    rw [hk']
    rfl
  | waitpid pid wstatus options =>
    obtain ⟨r, hr, rfl⟩ := Option.map_eq_some_iff.mp hperform
    cases doWaitpid_step hX.join hs.enter hr with
    | unknown _ _ heffects htable =>
      rcases doWaitpid_mem hX hr with ⟨hmem, _⟩ | ⟨_, _, hreleased⟩
      · exact .keeps ⟨htable.procList, htable.created, htable.live, by simp [heffects]⟩ hmem
      · simp [heffects] at hreleased
    | alive _ _ _ _ _ heffects htable =>
      rcases doWaitpid_mem hX hr with ⟨hmem, _⟩ | ⟨_, _, hreleased⟩
      · exact .keeps ⟨htable.procList, htable.created, htable.live, by simp [heffects]⟩ hmem
      · simp [heffects] at hreleased
    | reaped child hchild _ _ hreleased _ _ htable =>
      have hmem := selectChild_mem (k := s.enter t) hchild
      have hzombie := htable.zombie hs.enter hmem
      rcases doWaitpid_mem hX hr with ⟨_, hnone⟩ | ⟨c, hreset, hc⟩
      · exact absurd (hreleased.symm.trans hnone) (List.cons_ne_nil _ _)
      · obtain rfl : child = c := List.singleton_inj.mp (hreleased.symm.trans hc)
        refine .reaps child (fun hlive => (mem_live.mp hlive).2 hzombie) (hs.fresh child hmem)
          (fun a ha => ?_) htable.created (htable.live hs.enter hmem) (by simp [hreleased]) hreset
        change a ∈ r.kernel.procList ↔ _
        rw [htable.procList]
        split_ifs
        · exact List.mem_erase_of_ne ha
        · rfl

theorem serve_frames {e : Tid × Request} (hX : Accountable G X) (hs : Settled s.kernel)
    (h : Sys.serve X s e = some s') :
    FrameStep G s s' (s.unloads e) ∧ Settled s'.kernel := by
  obtain ⟨t, request⟩ := e
  cases request with
  | call c =>
    obtain ⟨reaped, hstep⟩ := step_table hX.join hs h
    exact ⟨call_frames hX hs h, hs.step hstep.table⟩
  | execve image filename argv envp args =>
    simp only [Sys.serve] at h
    obtain ⟨p, hcaller, hlive, k, hexec, rfl⟩ := user_caller h
    cases hout : doExecve X image filename argv envp args (s.enter t) with
    | returned k' ret =>
      simp only [hout, Option.some.injEq] at hexec
      obtain ⟨rfl, _, _, rfl⟩ := doExecve_returned hcaller hout
      have hname : Rewrites (s.enter t) k p := by
        rw [← hexec]
        exact ⟨rfl, rfl, _, rfl, rfl, rfl⟩
      refine ⟨.keeps hname.sameLife (by rw [← hexec]; rfl), hname.settled hs.enter fun hnone => ?_⟩
      rw [← hexec] at hnone
      change ((s.enter t).setPcb p _ |>.pcbs p).mainThread = none at hnone
      rwa [setPcb_pcbs_self] at hnone
    | replaced k' =>
      simp only [hout, Option.some.injEq] at hexec
      subst hexec
      obtain ⟨hsome, hrewrites, hmain, bytes, hfills⟩ := doExecve_frames hX hcaller hout
      obtain ⟨elf, rfl⟩ := Option.ne_none_iff_exists'.mp hsome
      have hunloads : s.unloads (t, .execve (some elf) filename argv envp args) = some p := hcaller
      rw [hunloads]
      exact ⟨.replaces p bytes hlive hrewrites.sameLife hfills,
        hrewrites.settled hs.enter fun hnone => absurd hnone hmain⟩
    | stopped => simp [hout] at hexec
  | sbrk increment =>
    simp only [Sys.serve] at h
    obtain ⟨p, hcaller, hlive, k, hsbrk, rfl⟩ := user_caller h
    obtain rfl := Option.some.inj hsbrk
    have hmoved : Rewrites (s.enter t) (doSbrk X increment (s.enter t)).1 p ∧
        (doSbrk X increment (s.enter t)).1.mem = s.kernel.mem ∧
        ((doSbrk X increment (s.enter t)).1.pcbs p).mainThread =
          ((s.enter t).pcbs p).mainThread := by
      simp only [doSbrk, hcaller]
      split_ifs
      · exact ⟨.same rfl rfl rfl, rfl, rfl⟩
      · exact ⟨⟨rfl, rfl, _, rfl, rfl, rfl⟩, rfl, by rw [setPcb_pcbs_self]⟩
    exact ⟨.keeps hmoved.1.sameLife hmoved.2.1,
      hmoved.1.settled hs.enter fun hnone => hmoved.2.2.symm.trans hnone⟩

end SyeLabs.So3
