import SyeLabs.So3.Boot

/-!
# What one `waitpid` may reap

Whatever the table: neither lookup asks who the parent is, and a process that waits is
not joined before it is freed. `thread_join` is any function that comes back once the
process of the thread is a zombie; other processes may have run meanwhile.
-/

namespace SyeLabs.So3

variable (X : Platform)

def Platform.withJoin (join : Option Tid → Kernel → Option Kernel) : Platform :=
  { X with threadJoin := join }

/-- What a join does to the processes that are in the table when it is called. -/
structure Joins (join : Option Tid → Kernel → Option Kernel) : Prop where
  waits : ∀ t k k' c, join t k = some k' → c ∈ k.procList → (k.pcbs c).mainThread = t →
    (k'.pcbs c).state = .zombie
  parent : ∀ t k k' c, join t k = some k' → c ∈ k.procList →
    (k'.pcbs c).parent = (k.pcbs c).parent

/-- The page table or the PCB of `a` is freed, the PCB being `p` at that point. -/
def Effect.Frees (e : Effect) (a : PcbPtr) (p : Pcb) : Prop := e = .release a p ∨ e = .remove a p

def Effect.ResumesStopped (e : Effect) : Prop := ∃ a p, e = .resume a p ∧ p.Stopped

/-- The caller has a child the call can wait for: one with that pid, or a terminated one. -/
def HasChild (k : Kernel) (caller : PcbPtr) (pid : Word) : Prop :=
  ∃ a ∈ k.procList, (k.pcbs a).parent = some caller ∧
    if pid = -1 then (k.pcbs a).state = .zombie else (k.pcbs a).pid = pid

/-- Only terminated children of `caller` are freed; without one the call returns and
does no more than resume a stopped process. -/
def ReapsOwnChildren (k : Kernel) (caller : PcbPtr) (pid : Word) (wstatus : Option Word)
    (options : Word) : Prop :=
  ∀ join, Joins join →
    (∀ r, doWaitpid (X.withJoin join) pid wstatus options k = some r →
      ∀ e ∈ r.effects, ∀ a p, e.Frees a p → p.state = .zombie ∧ p.parent = some caller) ∧
    (¬ HasChild k caller pid →
      ∃ r, doWaitpid (X.withJoin join) pid wstatus options k = some r ∧
        ∀ e ∈ r.effects, e.ResumesStopped)

/-- The process selected is left alone, or is a child that does not wait unrequested, or
waits to be traced while the caller has another child to wait for. -/
def SelectsOwnChild (k : Kernel) (caller : PcbPtr) (pid options : Word) : Prop :=
  ∀ child, selectChild pid k = some child →
    (options &&& X.wnohang ≠ 0 ∧ (k.pcbs child).state ≠ .zombie) ∨
      ((k.pcbs child).parent = some caller ∧
        ¬ ((k.pcbs child).state = .waiting ∧ (k.pcbs child).ptracePendingReq = .noRequest)) ∨
      ((k.pcbs child).state = .waiting ∧ (k.pcbs child).ptracePendingReq = .traceme ∧
        HasChild k caller pid)

variable {X} {k k₁ : Kernel} {child : PcbPtr} {wstatus : Option Word} {status : Word}

/-! ### The effects of collecting -/

/- The table of processes loses at most the child. -/
theorem reapChild_kernel : (reapChild child status wstatus k).1 = { k with
    procList := if k.findProcByParent child = none then k.procList.erase child else k.procList
    mem := MemState.resetRootPgtable child k.mem } := by
  have hsame : ({ k with mem := MemState.resetRootPgtable child k.mem } : Kernel).findProcByParent
      child = k.findProcByParent child := rfl
  rw [reapChild, hsame]
  split_ifs <;> rfl

theorem reapChild_releases :
    .release child (k.pcbs child) ∈ (reapChild child status wstatus k).2.2 := by
  rw [reapChild]
  split_ifs <;> simp

theorem mem_reapChild {e : Effect} (h : e ∈ (reapChild child status wstatus k).2.2) :
    e = .release child (k.pcbs child) ∨ (e = .deliver child status ∧ wstatus.isSome) ∨
      e = .remove child (k.pcbs child) := by
  rw [reapChild] at h
  split_ifs at h with hparent hsome hsome
  · simpa [hsome] using h
  · simpa [hsome] using h
  · have hkept : e = .release child (k.pcbs child) ∨ e = .deliver child status := by simpa using h
    exact hkept.imp_right fun he => Or.inl ⟨he, hsome⟩
  · have hkept : e = .release child (k.pcbs child) := by simpa using h
    exact Or.inl hkept

theorem collectChild_traced (h : (k.pcbs child).ptracePendingReq ≠ .noRequest) :
    collectChild X child wstatus k =
      (k.setPcb child { k.pcbs child with ptracePendingReq := .noRequest },
        wstatus.map fun _ => 0x17f ||| statusBits X (k.pcbs child).exitStatus,
        [.untrace child (k.pcbs child)]) := by
  unfold collectChild
  simp [h]

theorem collectChild_untraced (h : (k.pcbs child).ptracePendingReq = .noRequest) :
    collectChild X child wstatus k = reapChild child
      (if (k.pcbs child).state = .zombie then statusBits X (k.pcbs child).exitStatus
        else ~~~0x7f ||| statusBits X (k.pcbs child).exitStatus) wstatus k := by
  unfold collectChild
  by_cases hzombie : (k.pcbs child).state = .zombie
  · simp [h, hzombie]
  · simp [h, hzombie]

/- What is freed is the child, without any request pending. -/
theorem collect_frees {e : Effect} {a : PcbPtr} {p : Pcb}
    (h : e ∈ (collectChild X child wstatus k).2.2) (hfrees : e.Frees a p) :
    p = k.pcbs child ∧ p.ptracePendingReq = .noRequest := by
  by_cases hreq : (k.pcbs child).ptracePendingReq = .noRequest
  · rw [collectChild_untraced hreq] at h
    have hp : p = k.pcbs child := by
      rcases mem_reapChild h with rfl | ⟨rfl, _⟩ | rfl <;> rcases hfrees with h | h <;> cases h <;> rfl
    exact ⟨hp, hp ▸ hreq⟩
  · rw [collectChild_traced hreq, List.mem_singleton] at h
    subst h
    rcases hfrees with h | h <;> cases h

theorem resume_not_frees {e : Effect} {a : PcbPtr} {p : Pcb} (h : e ∈ (resumeChild child k).2) :
    ¬ e.Frees a p := by
  unfold resumeChild at h
  split_ifs at h
  · rw [List.mem_singleton.mp h]
    rintro (h | h) <;> cases h
  · exact absurd h List.not_mem_nil

/-! ### Before the join -/

theorem resumeChild_stopped (h : (k.pcbs child).Stopped) :
    resumeChild child k = (k.setPcb child { k.pcbs child with state := .ready },
      [.resume child (k.pcbs child)]) := if_pos h

theorem resumeChild_unstopped (h : ¬ (k.pcbs child).Stopped) : resumeChild child k = (k, []) :=
  if_neg h

theorem resumeChild_parent :
    ((resumeChild child k).1.pcbs child).parent = (k.pcbs child).parent := by
  by_cases h : (k.pcbs child).Stopped
  · rw [resumeChild_stopped h, setPcb_pcbs_self]
  · rw [resumeChild_unstopped h]

theorem resumeChild_procList : (resumeChild child k).1.procList = k.procList := by
  unfold resumeChild
  split_ifs <;> rfl

/- A process that waits for the join is not one that was resumed. -/
theorem resumeChild_waiting (h : ((resumeChild child k).1.pcbs child).state = .waiting) :
    ¬ (k.pcbs child).Stopped ∧ (resumeChild child k).1 = k := by
  by_cases hstopped : (k.pcbs child).Stopped
  · rw [resumeChild_stopped hstopped, setPcb_pcbs_self] at h
    cases h
  · rw [resumeChild_unstopped hstopped]
    exact ⟨hstopped, rfl⟩

theorem joinChild_waiting (h : (k.pcbs child).state = .waiting) : joinChild X child k = some k :=
  if_neg (not_not_intro h)

theorem joinChild_joins (h : (k.pcbs child).state ≠ .waiting) :
    joinChild X child k = X.threadJoin (k.pcbs child).mainThread k := if_pos h

theorem joinChild_zombie (h : (k.pcbs child).state = .zombie) :
    joinChild X child k = X.threadJoin (k.pcbs child).mainThread k :=
  joinChild_joins fun hwaiting => nomatch h.symm.trans hwaiting

/-! ### Which processes are freed -/

section
variable {join : Option Tid → Kernel → Option Kernel} {caller : PcbPtr} {pid options : Word}

theorem own_child_frees (hjoin : Joins join) (hmem : child ∈ k.procList)
    (hparent : (k.pcbs child).parent = some caller)
    (hguard : ¬ ((k.pcbs child).state = .waiting ∧ (k.pcbs child).ptracePendingReq = .noRequest))
    (hk₁ : joinChild (X.withJoin join) child (resumeChild child k).1 = some k₁)
    (hreq : (k₁.pcbs child).ptracePendingReq = .noRequest) :
    (k₁.pcbs child).state = .zombie ∧ (k₁.pcbs child).parent = some caller := by
  by_cases hwaiting : ((resumeChild child k).1.pcbs child).state = .waiting
  · obtain ⟨_, hsame⟩ := resumeChild_waiting hwaiting
    rw [joinChild_waiting hwaiting, hsame] at hk₁
    obtain rfl := Option.some.inj hk₁
    rw [hsame] at hwaiting
    exact absurd ⟨hwaiting, hreq⟩ hguard
  · have hmem : child ∈ (resumeChild child k).1.procList := by rwa [resumeChild_procList]
    rw [joinChild_joins hwaiting] at hk₁
    refine ⟨hjoin.waits _ _ _ child hk₁ hmem rfl, ?_⟩
    rw [hjoin.parent _ _ _ child hk₁ hmem, resumeChild_parent, hparent]

theorem hasChild_of_selected (h : selectChild pid k = some child)
    (hparent : (k.pcbs child).parent = some caller) : HasChild k caller pid := by
  unfold selectChild at h
  split_ifs at h with hpid
  · obtain ⟨hmem, hzombie, _⟩ := findProcZombieToClean_some h
    exact ⟨child, hmem, hparent, by rw [if_pos hpid]; exact hzombie⟩
  · obtain ⟨hmem, hpid'⟩ := findProcByPid_some h
    exact ⟨child, hmem, hparent, by rw [if_neg hpid]; exact hpid'⟩

/- Other processes may end, and forget their request, while the caller waits. -/
def joinAny (t : Option Tid) (k : Kernel) : Option Kernel :=
  let ended (p : Pcb) : Pcb := { p with state := .zombie, ptracePendingReq := .noRequest }
  some { k with
    pcbs := fun c => if (k.pcbs c).mainThread = t then ended (k.pcbs c) else k.pcbs c }

theorem joinAny_joins : Joins joinAny := by
  refine ⟨fun t k k' c h _ ht => ?_, fun t k k' c h _ => ?_⟩
  · obtain rfl := Option.some.inj h
    simp [ht]
  · obtain rfl := Option.some.inj h
    dsimp only
    split_ifs <;> rfl

theorem waitpid_frees_zombie {r : WaitReturn} {e : Effect} {a : PcbPtr} {p : Pcb}
    (hown : SelectsOwnChild X k caller pid options) (hjoin : Joins join)
    (hr : doWaitpid (X.withJoin join) pid wstatus options k = some r) (he : e ∈ r.effects)
    (hfrees : e.Frees a p) : p.state = .zombie ∧ p.parent = some caller := by
  rcases doWaitpid_cases hr with ⟨_, _, hnil, _⟩ | ⟨child, hchild, ⟨_, _, rfl⟩ | ⟨hwait, k₁, hk₁, rfl⟩⟩
  · rw [hnil] at he
    exact absurd he List.not_mem_nil
  · exact absurd he List.not_mem_nil
  · have hcollect : e ∈ (collectChild (X.withJoin join) child wstatus k₁).2.2 :=
      (List.mem_append.mp he).resolve_left fun h => resume_not_frees h hfrees
    obtain ⟨rfl, hreq⟩ := collect_frees hcollect hfrees
    rcases hown child hchild with hnohang | ⟨hparent, hguard⟩ | ⟨hwaiting, htraceme, _⟩
    · exact absurd hnohang hwait
    · have hmem : child ∈ k.localIrqSave.procList := selectChild_mem hchild
      exact own_child_frees (k := k.localIrqSave) hjoin hmem hparent hguard hk₁ hreq
    · -- it is neither resumed nor joined, and is still to be traced
      have hrunning : ¬ (k.localIrqSave.pcbs child).Stopped := fun h => h.2 htraceme
      rw [resumeChild_unstopped hrunning, joinChild_waiting (k := k.localIrqSave) hwaiting] at hk₁
      obtain rfl := Option.some.inj hk₁
      exact nomatch htraceme.symm.trans hreq

theorem waitpid_returns_childless (join : Option Tid → Kernel → Option Kernel)
    (hown : SelectsOwnChild X k caller pid options) (hnone : ¬ HasChild k caller pid) :
    ∃ r, doWaitpid (X.withJoin join) pid wstatus options k = some r ∧ r.effects = [] := by
  cases hchild : selectChild pid k with
  | none =>
    have hselect : selectChild pid k.localIrqSave = none := hchild
    rw [doWaitpid, hselect]
    by_cases hpid : pid = -1
    · exact ⟨_, if_pos hpid, rfl⟩
    · exact ⟨_, if_neg hpid, rfl⟩
  | some child =>
    rcases hown child hchild with ⟨hnohang, hstate⟩ | ⟨hparent, _⟩ | ⟨_, _, hhas⟩
    · exact ⟨_, doWaitpid_nohang (X := X.withJoin join) hchild hnohang hstate, rfl⟩
    · exact absurd (hasChild_of_selected hchild hparent) hnone
    · exact absurd hhas hnone

theorem selectsOwn_of_reaps (h : ReapsOwnChildren X k caller pid wstatus options) :
    SelectsOwnChild X k caller pid options := by
  intro child hchild
  by_cases hnohang : options &&& X.wnohang ≠ 0 ∧ (k.pcbs child).state ≠ .zombie
  · exact Or.inl hnohang
  right
  have hreturns : ∀ k₁, joinChild (X.withJoin joinAny) child (resumeChild child k.localIrqSave).1 =
      some k₁ → doWaitpid (X.withJoin joinAny) pid wstatus options k = some _ :=
    fun k₁ => doWaitpid_joined hchild hnohang
  have hfreed : ∀ k₁, joinChild (X.withJoin joinAny) child (resumeChild child k.localIrqSave).1 =
      some k₁ → (k₁.pcbs child).ptracePendingReq = .noRequest →
      (k₁.pcbs child).state = .zombie ∧ (k₁.pcbs child).parent = some caller := by
    intro k₁ hk₁ hreq
    refine (h joinAny joinAny_joins).1 _ (hreturns k₁ hk₁) _ ?_ child _ (Or.inl rfl)
    rw [collectChild_untraced hreq]
    exact List.mem_append_right _ reapChild_releases
  by_cases hwaiting : ((resumeChild child k.localIrqSave).1.pcbs child).state = .waiting
  · obtain ⟨hrunning, hsame⟩ := resumeChild_waiting hwaiting
    have hk₁ := joinChild_waiting (X := X.withJoin joinAny) hwaiting
    have hunresumed := resumeChild_unstopped hrunning
    rw [hsame] at hwaiting hk₁
    have hreq : (k.pcbs child).ptracePendingReq ≠ .noRequest := fun hreq => by
      have hzombie := (hfreed k.localIrqSave (by rw [hsame]; exact hk₁) hreq).1
      exact nomatch hwaiting.symm.trans hzombie
    by_cases hparent : (k.pcbs child).parent = some caller
    · exact Or.inl ⟨hparent, fun hguard => hreq hguard.2⟩
    · refine Or.inr ⟨hwaiting, not_not.mp fun htraceme => hrunning ⟨hreq, htraceme⟩, ?_⟩
      by_contra hnone
      obtain ⟨r, hr, heffects⟩ := (h joinAny joinAny_joins).2 hnone
      rw [hreturns k.localIrqSave (by rw [hsame]; exact hk₁)] at hr
      obtain rfl := Option.some.inj hr
      obtain ⟨a, p, huntrace, _⟩ := heffects (.untrace child (k.pcbs child)) (by
        rw [collectChild_traced (k := k.localIrqSave) hreq]
        exact List.mem_append_right _ (List.mem_singleton.mpr rfl))
      cases huntrace
  · have hk₁ := joinChild_joins (X := X.withJoin joinAny) hwaiting
    refine Or.inl ⟨?_, fun hguard => hwaiting ?_⟩
    · have hparent := (hfreed _ hk₁ (by simp)).2
      have hmem : child ∈ (resumeChild child k.localIrqSave).1.procList := by
        rw [resumeChild_procList]
        exact selectChild_mem hchild
      rwa [joinAny_joins.parent _ _ _ child rfl hmem, resumeChild_parent] at hparent
    · rw [resumeChild_unstopped (k := k.localIrqSave) fun hstopped => hstopped.1 hguard.2]
      exact hguard.1

/-- Only terminated children of the caller are reaped exactly when the process that is
selected is one, or is left alone. -/
theorem reapsOwnChildren_iff (X : Platform) (k : Kernel) (caller : PcbPtr) (pid : Word)
    (wstatus : Option Word) (options : Word) :
    ReapsOwnChildren X k caller pid wstatus options ↔ SelectsOwnChild X k caller pid options := by
  refine ⟨selectsOwn_of_reaps, fun hown join hjoin => ⟨fun r hr e he a p hfrees => ?_, fun hnone => ?_⟩⟩
  · exact waitpid_frees_zombie hown hjoin hr he hfrees
  · obtain ⟨r, hr, hnil⟩ := waitpid_returns_childless join hown hnone
    exact ⟨r, hr, fun e he => absurd he (by rw [hnil]; exact List.not_mem_nil)⟩

end

/- The root process, its child, and the child of that one, which has ended. -/
def familyKernel : Kernel :=
  { rootKernel with
    pcbs := Function.update (Function.update rootKernel.pcbs 1
        { rootPcb with pid := 2, parent := some 0, mainThread := some 1 }) 2
      { rootPcb with pid := 3, parent := some 1, mainThread := some 2, state := .zombie }
    procList := [0, 1, 2]
    created := 3
    pidCurrent := 4 }

theorem grandchild_is_reaped : ¬ ReapsOwnChildren rootPlatform familyKernel 0 3 none 0 := by
  intro h
  rcases selectsOwn_of_reaps h 2 rfl with ⟨hnohang, _⟩ | ⟨hparent, _⟩ | ⟨hwaiting, _⟩
  · exact absurd hnohang (by decide)
  · exact absurd hparent (by decide)
  · exact absurd hwaiting (by decide)

end SyeLabs.So3
