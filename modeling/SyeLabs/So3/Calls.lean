import SyeLabs.So3.Process

/-!
# `fork`, `exit` and `waitpid` (`lab9/process.c`, lines 798-1016)

A call is a function of the state of the kernel. `none` stands for a call that does
not come back: a NULL pointer is followed, the kernel panics, or `thread_join` waits
for ever.
-/

namespace SyeLabs.So3
open ByteMemory

variable (X : Platform)

def ascii (s : String) : List Byte := s.toList.map fun c => BitVec.ofNat 8 c.toNat

/- `sprintf(newp->name, "%s_child_%d", parent->name, newp->pid)` -/
def childName (name : CStr) (pid : Word) : CStr :=
  CStr.ofBytes (name.val ++ ascii "_child_" ++ ascii (toString pid.toInt))

def doFork (k : Kernel) : Option (Kernel × Word) :=
  let flags := k.irqsOff
  let k := k.localIrqSave
  match k.caller with
  | none => none
  | some parent =>
    if some k.current ≠ (k.pcbs parent).mainThread then
      -- the flags are not restored here
      some (k, -1)
    else
      let (k, newp) := k.duplicateProcess parent
      let k := { k with mem := X.duplicateUserSpace parent newp k.mem }
      let k := k.setPcb newp
        { k.pcbs newp with name := childName (k.pcbs parent).name (k.pcbs newp).pid }
      let (thread, tcbs) := X.userThread newp k.tcbs
      let k := { k with tcbs := tcbs }
      let k := k.setPcb newp { k.pcbs newp with mainThread := some thread }
      let k := k.setPcb newp { k.pcbs newp with state := .ready }
      let k := k.localIrqRestore flags
      some (k, (k.pcbs newp).pid)

/- `lab4/lab4_1.patch`: the same, and a line on the console. -/
def doFork2 (k : Kernel) : Option (Kernel × Word) := doFork X k

def doExit (exitStatus : Word) (k : Kernel) : Option Kernel :=
  match k.caller with
  | none => none
  | some pcb =>
    if (k.pcbs pcb).parent = none then none
    else
      let k := k.localIrqSave
      let k := k.setPcb pcb { k.pcbs pcb with state := .zombie }
      let k := k.setPcb pcb { k.pcbs pcb with exitStatus := exitStatus }
      some { k with mem := MemState.releaseProcPages pcb k.mem }

/-! ### `do_waitpid` -/

/-- What the call does to a process, with its PCB at that point: `ready` on its thread,
the request forgotten, the page table freed, the status handed over, the PCB freed. -/
inductive Effect where
  | resume (child : PcbPtr) (p : Pcb)
  | untrace (child : PcbPtr) (p : Pcb)
  | release (child : PcbPtr) (p : Pcb)
  | deliver (child : PcbPtr) (status : Word)
  | remove (child : PcbPtr) (p : Pcb)
  deriving DecidableEq

/-- `wstatus` is the word at that address after the call, or NULL. -/
structure WaitReturn where
  kernel : Kernel
  ret : Word
  wstatus : Option Word
  effects : List Effect

/- `((char) child->exit_status) << 8` -/
def statusBits (exitStatus : Word) : Word :=
  (if X.charSigned then (exitStatus.setWidth 8).signExtend 32
    else (exitStatus.setWidth 8).setWidth 32) <<< 8

def selectChild (pid : Word) (k : Kernel) : Option PcbPtr :=
  if pid = -1 then k.findProcZombieToClean else k.findProcByPid pid

/- The pending request is one that stopped the process. -/
def Pcb.Stopped (p : Pcb) : Prop :=
  p.ptracePendingReq ≠ .noRequest ∧ p.ptracePendingReq ≠ .traceme

instance (p : Pcb) : Decidable p.Stopped := inferInstanceAs (Decidable (_ ∧ _))

/- Lines 951-959. -/
def resumeChild (child : PcbPtr) (k : Kernel) : Kernel × List Effect :=
  if (k.pcbs child).Stopped then
    (k.setPcb child { k.pcbs child with state := .ready }, [.resume child (k.pcbs child)])
  else (k, [])

/- Lines 961-963. -/
def joinChild (child : PcbPtr) (k : Kernel) : Option Kernel :=
  if (k.pcbs child).state ≠ .waiting then X.threadJoin (k.pcbs child).mainThread k else some k

/- The end of both branches that reap: lines 968-982 and 997-1009, with the status they store. -/
def reapChild (child : PcbPtr) (status : Word) (wstatus : Option Word) (k : Kernel) :
    Kernel × Option Word × List Effect :=
  let p := k.pcbs child
  let k := { k with mem := MemState.resetRootPgtable child k.mem }
  let delivered := if wstatus.isSome then [.deliver child status] else []
  if k.findProcByParent child = none then
    (k.removeProc child, wstatus.map fun _ => status,
      .release child p :: delivered ++ [.remove child p])
  else (k, wstatus.map fun _ => status, .release child p :: delivered)

/- Lines 965-1011, after the join. -/
def collectChild (child : PcbPtr) (wstatus : Option Word) (k : Kernel) :
    Kernel × Option Word × List Effect :=
  let p := k.pcbs child
  if p.state = .zombie ∧ p.ptracePendingReq = .noRequest then
    reapChild child (statusBits X p.exitStatus) wstatus k
  else if p.ptracePendingReq ≠ .noRequest then
    (k.setPcb child { p with ptracePendingReq := .noRequest },
      wstatus.map fun _ => 0x17f ||| statusBits X p.exitStatus, [.untrace child p])
  else reapChild child (~~~0x7f ||| statusBits X p.exitStatus) wstatus k

def doWaitpid (pid : Word) (wstatus : Option Word) (options : Word) (k : Kernel) :
    Option WaitReturn :=
  let flags := k.irqsOff
  let k := k.localIrqSave
  match selectChild pid k with
  | none =>
    if pid = -1 then some ⟨(k.setErrno .echild).localIrqRestore flags, -1, wstatus, []⟩
    -- here and below the flags are not restored
    else some ⟨k.setErrno .echild, -1, wstatus.map fun _ => ~~~0x7f, []⟩
  | some child =>
    let pid := if pid = -1 then (k.pcbs child).pid else pid
    if options &&& X.wnohang ≠ 0 ∧ (k.pcbs child).state ≠ .zombie then
      some ⟨k, 0, wstatus, []⟩
    else
      let (k, resumed) := resumeChild child k
      match joinChild X child k with
      | none => none
      | some k =>
        let (k, wstatus, effects) := collectChild X child wstatus k
        some ⟨k.localIrqRestore flags, pid, wstatus, resumed ++ effects⟩

/-! ### What each call does -/

variable {X} {k : Kernel}

theorem doFork_cases {k' : Kernel} {r : Word} (h : doFork X k = some (k', r)) :
    ∃ parent, k.caller = some parent ∧
      ((some k.current ≠ (k.pcbs parent).mainThread ∧ k' = k.localIrqSave ∧ r = -1) ∨
        (some k.current = (k.pcbs parent).mainThread ∧ r = k.pidCurrent ∧
          ∃ (child : Pcb) (tcbs : Tid → Tcb) (mem : MemState),
            k' = { k with
              pcbs := Function.update k.pcbs k.created child
              procList := k.procList ++ [k.created]
              created := k.created + 1
              pidCurrent := k.pidCurrent + 1
              tcbs := tcbs
              mem := mem } ∧
            child.pid = k.pidCurrent ∧ child.parent = some parent ∧ child.state = .ready ∧
            child.ptracePendingReq = .noRequest ∧ child.mainThread ≠ none)) := by
  have hcaller : k.localIrqSave.caller = k.caller := rfl
  rw [doFork, hcaller] at h
  cases hparent : k.caller with
  | none => simp [hparent] at h
  | some parent =>
    refine ⟨parent, rfl, ?_⟩
    by_cases hmain : some k.current = (k.pcbs parent).mainThread
    · right
      refine ⟨hmain, ?_⟩
      simp only [hparent, Kernel.localIrqSave, hmain, ne_eq, not_true_eq_false, if_false,
        Kernel.duplicateProcess, Kernel.newProcess, Kernel.setPcb, Kernel.localIrqRestore,
        Function.update_self, Function.update_idem, Option.some.injEq, Prod.mk.injEq] at h
      obtain ⟨rfl, rfl⟩ := h
      exact ⟨rfl, _, _, _, rfl, rfl, rfl, rfl, rfl, by simp⟩
    · left
      simp only [hparent, Kernel.localIrqSave, ne_eq, hmain, not_false_eq_true, if_true,
        Option.some.injEq, Prod.mk.injEq] at h
      exact ⟨hmain, h.1.symm, h.2.symm⟩

theorem doFork_refused {parent : PcbPtr} (hcaller : k.caller = some parent)
    (hmain : some k.current ≠ (k.pcbs parent).mainThread) :
    doFork X k = some (k.localIrqSave, -1) := by
  have hcaller' : k.localIrqSave.caller = some parent := hcaller
  rw [doFork, hcaller']
  exact if_pos hmain

theorem doExit_cases {status : Word} {k' : Kernel} (h : doExit status k = some k') :
    ∃ a, k.caller = some a ∧ (k.pcbs a).parent ≠ none ∧
      k' = { k with
        pcbs := Function.update k.pcbs a { k.pcbs a with state := .zombie, exitStatus := status }
        irqsOff := true
        mem := MemState.releaseProcPages a k.mem } := by
  unfold doExit at h
  cases ha : k.caller with
  | none => simp [ha] at h
  | some a =>
    by_cases hroot : (k.pcbs a).parent = none
    · simp [ha, hroot] at h
    · simp only [ha, hroot, if_false, Kernel.localIrqSave, Kernel.setPcb, Function.update_self,
        Function.update_idem, Option.some.injEq] at h
      exact ⟨a, rfl, hroot, h.symm⟩

@[simp] theorem localIrqSave_pcbs : k.localIrqSave.pcbs = k.pcbs := rfl

section
variable {pid options : Word} {wstatus : Option Word} {r : WaitReturn}

theorem selectChild_mem {child : PcbPtr} (h : selectChild pid k = some child) :
    child ∈ k.procList := by
  unfold selectChild at h
  split_ifs at h
  · exact (findProcZombieToClean_some h).1
  · exact (findProcByPid_some h).1

/- The value that is returned once the child is found. -/
theorem selectChild_pid {child : PcbPtr} (h : selectChild pid k = some child) :
    (if pid = -1 then (k.pcbs child).pid else pid) = (k.pcbs child).pid := by
  unfold selectChild at h
  split_ifs at h ⊢ with hany
  · rfl
  · exact (findProcByPid_some h).2.symm

/- The three ways back: nobody found, nothing to report yet, a process waited for. -/
theorem doWaitpid_cases (h : doWaitpid X pid wstatus options k = some r) :
    (selectChild pid k = none ∧ r.ret = -1 ∧ r.effects = [] ∧
        r.kernel = (k.setErrno .echild).localIrqRestore (if pid = -1 then k.irqsOff else true)) ∨
      ∃ child, selectChild pid k = some child ∧
        ((options &&& X.wnohang ≠ 0 ∧ (k.pcbs child).state ≠ .zombie ∧
            r = ⟨k.localIrqSave, 0, wstatus, []⟩) ∨
          (¬ (options &&& X.wnohang ≠ 0 ∧ (k.pcbs child).state ≠ .zombie) ∧
            ∃ k₁, joinChild X child (resumeChild child k.localIrqSave).1 = some k₁ ∧
              r = ⟨(collectChild X child wstatus k₁).1.localIrqRestore k.irqsOff,
                if pid = -1 then (k.pcbs child).pid else pid,
                (collectChild X child wstatus k₁).2.1,
                (resumeChild child k.localIrqSave).2 ++ (collectChild X child wstatus k₁).2.2⟩)) := by
  have hselect : selectChild pid k.localIrqSave = selectChild pid k := rfl
  rw [doWaitpid, hselect] at h
  cases hchild : selectChild pid k with
  | none =>
    left
    simp only [hchild] at h
    by_cases hany : pid = -1
    · rw [if_pos hany, Option.some.injEq] at h
      exact ⟨rfl, by rw [← h], by rw [← h], by rw [← h, if_pos hany]; rfl⟩
    · rw [if_neg hany, Option.some.injEq] at h
      exact ⟨rfl, by rw [← h], by rw [← h], by rw [← h, if_neg hany]; rfl⟩
  | some child =>
    right
    refine ⟨child, rfl, ?_⟩
    simp only [hchild] at h
    split at h
    case isTrue hnohang => exact Or.inl ⟨hnohang.1, hnohang.2, (Option.some.inj h).symm⟩
    case isFalse hwait =>
      cases hjoin : joinChild X child (resumeChild child k.localIrqSave).1 with
      | none => simp [hjoin] at h
      | some k₁ =>
        simp only [hjoin, Option.some.injEq] at h
        exact Or.inr ⟨hwait, k₁, rfl, h.symm⟩

theorem doWaitpid_unknown (hpid : pid ≠ -1) (h : k.findProcByPid pid = none) :
    doWaitpid X pid wstatus options k =
      some ⟨k.localIrqSave.setErrno .echild, -1, wstatus.map fun _ => ~~~0x7f, []⟩ := by
  have hselect : selectChild pid k.localIrqSave = none := by
    rw [selectChild, if_neg hpid]
    exact h
  rw [doWaitpid, hselect]
  exact if_neg hpid

theorem doWaitpid_nohang {child : PcbPtr} (hchild : selectChild pid k = some child)
    (hnohang : options &&& X.wnohang ≠ 0) (hstate : (k.pcbs child).state ≠ .zombie) :
    doWaitpid X pid wstatus options k = some ⟨k.localIrqSave, 0, wstatus, []⟩ := by
  have hselect : selectChild pid k.localIrqSave = some child := hchild
  rw [doWaitpid, hselect]
  exact if_pos ⟨hnohang, hstate⟩

theorem doWaitpid_joined {child : PcbPtr} {k₁ : Kernel} (hchild : selectChild pid k = some child)
    (hwait : ¬ (options &&& X.wnohang ≠ 0 ∧ (k.pcbs child).state ≠ .zombie))
    (hjoin : joinChild X child (resumeChild child k.localIrqSave).1 = some k₁) :
    doWaitpid X pid wstatus options k =
      some ⟨(collectChild X child wstatus k₁).1.localIrqRestore k.irqsOff,
        if pid = -1 then (k.pcbs child).pid else pid, (collectChild X child wstatus k₁).2.1,
        (resumeChild child k.localIrqSave).2 ++ (collectChild X child wstatus k₁).2.2⟩ := by
  have hselect : selectChild pid k.localIrqSave = some child := hchild
  rw [doWaitpid, hselect]
  refine (if_neg hwait).trans ?_
  simp only [hjoin]
  rfl

end

end SyeLabs.So3
