import SyeLabs.So3.ArgsPage
import Mathlib.Logic.Function.Basic

/-!
# The table of processes (`lab9/process.c`, lines 62-386)

A PCB is designated by its address; `pcbs` gives its contents and `procList` is the
list that `find_proc_by_pid` and the others walk. What a process owns in memory, its
pages and its page table, is kept apart in `Space`.
-/

namespace SyeLabs.So3
open ByteMemory

abbrev Word := BitVec 32
abbrev PcbPtr := ℕ
abbrev Tid := ℕ
abbrev Page := ℕ

inductive ProcState where
  | new
  | ready
  | running
  | waiting
  | zombie
  deriving DecidableEq

/- `ptrace_pending_req`: none, the request to be traced, or one that stopped the process. -/
inductive PtraceReq where
  | noRequest
  | traceme
  | other (request : ℕ)
  deriving DecidableEq

structure Pcb where
  pid : Word
  name : CStr
  state : ProcState
  ptracePendingReq : PtraceReq
  parent : Option PcbPtr
  exitStatus : Word
  mainThread : Option Tid
  pageCount : Word
  stackTop : Word
  heapBase : Word
  heapPointer : Word
  binImageEntry : Word
  deriving DecidableEq

structure Tcb where
  pcb : Option PcbPtr
  joinQueue : List Tid
  deriving DecidableEq

/-- The pages listed by a process, and the calls of `create_mapping` for its page table since
the table was made or reset: the address and the page of each. The tables themselves are kept
by code of the kernel that is not here. -/
structure Space where
  pageList : List Page
  pgtable : List (Word × Page)
  deriving DecidableEq

structure MemState where
  spaces : PcbPtr → Space
  refcount : Page → ℤ
  freed : List Page
  bytes : Memory

/-- `created` counts the calls of `new_process`. A PCB goes by the number of the call that made
it, so an address that `malloc` gives once more has a name of its own each time. -/
structure Kernel where
  pcbs : PcbPtr → Pcb
  procList : List PcbPtr
  created : ℕ
  pidCurrent : Word
  tcbs : Tid → Tcb
  current : Tid
  irqsOff : Bool
  errno : Option Errno
  mem : MemState

/-- The rest of the kernel: constants of the headers and functions of other files. -/
structure Platform where
  arch : Arch
  procStackSize : ℕ
  heapSize : ℕ
  argsBase : Word
  wnohang : Word
  charSigned : Bool
  duplicateUserSpace : PcbPtr → PcbPtr → MemState → MemState
  userThread : PcbPtr → (Tid → Tcb) → Tid × (Tid → Tcb)
  getFreePage : MemState → Option Page
  threadJoin : Option Tid → Kernel → Option Kernel

/- `ALIGN_UP(size, PAGE_SIZE) >> PAGE_SHIFT` -/
def Platform.pagesFor (X : Platform) (size : ℕ) : ℕ :=
  (size + X.arch.pageSize - 1) / X.arch.pageSize

variable (X : Platform)

namespace Kernel

/-- `current()->pcb` -/
def caller (k : Kernel) : Option PcbPtr := (k.tcbs k.current).pcb

def setPcb (k : Kernel) (a : PcbPtr) (p : Pcb) : Kernel :=
  { k with pcbs := Function.update k.pcbs a p }

def setErrno (k : Kernel) (e : Errno) : Kernel := { k with errno := some e }

def localIrqSave (k : Kernel) : Kernel := { k with irqsOff := true }

def localIrqRestore (k : Kernel) (flags : Bool) : Kernel := { k with irqsOff := flags }

def findProcByPid (k : Kernel) (pid : Word) : Option PcbPtr :=
  k.procList.find? fun a => (k.pcbs a).pid = pid

def findProcZombieToClean (k : Kernel) : Option PcbPtr :=
  k.procList.find? fun a => (k.pcbs a).state = .zombie ∧ (k.pcbs a).mainThread ≠ none

def findProcByParent (k : Kernel) (parent : PcbPtr) : Option PcbPtr :=
  k.procList.find? fun a => (k.pcbs a).parent = some parent

def removeProc (k : Kernel) (a : PcbPtr) : Kernel := { k with procList := k.procList.erase a }

/- `memset(pcb, 0, sizeof(pcb_t))`, the state and the pid. -/
def newProcess (k : Kernel) : Kernel × PcbPtr :=
  let pcb := k.created
  ({ k with
      pcbs := Function.update k.pcbs pcb
        { pid := k.pidCurrent, name := CStr.ofBytes [], state := .new,
          ptracePendingReq := .noRequest, parent := none, exitStatus := 0, mainThread := none,
          pageCount := 0, stackTop := 0, heapBase := 0, heapPointer := 0, binImageEntry := 0 }
      procList := k.procList ++ [pcb]
      created := k.created + 1
      pidCurrent := k.pidCurrent + 1
      mem := { k.mem with spaces := Function.update k.mem.spaces pcb ⟨[], []⟩ } }, pcb)

def resetProcessStack (k : Kernel) (a : PcbPtr) : Kernel :=
  k.setPcb a { k.pcbs a with
    pageCount := BitVec.ofNat 32 (X.pagesFor X.procStackSize), stackTop := X.argsBase }

/-- Copy all relevant fields of PCB. -/
def duplicateProcess (k : Kernel) (parent : PcbPtr) : Kernel × PcbPtr :=
  let (k, pcb) := k.newProcess
  (k.setPcb pcb { k.pcbs pcb with
    pageCount := (k.pcbs parent).pageCount
    parent := some parent
    stackTop := (k.pcbs parent).stackTop
    heapBase := (k.pcbs parent).heapBase
    heapPointer := (k.pcbs parent).heapPointer }, pcb)

end Kernel

namespace MemState

def setSpace (ms : MemState) (a : PcbPtr) (s : Space) : MemState :=
  { ms with spaces := Function.update ms.spaces a s }

def addPageToProc (a : PcbPtr) (page : Page) (ms : MemState) : MemState :=
  let ms := { ms with refcount := Function.update ms.refcount page (ms.refcount page + 1) }
  ms.setSpace a { ms.spaces a with pageList := (ms.spaces a).pageList ++ [page] }

/- The call, as it is recorded in the `Space` of the process. -/
def createMapping (a : PcbPtr) (virt : Word) (page : Page) (ms : MemState) : MemState :=
  ms.setSpace a { ms.spaces a with pgtable := (virt, page) :: (ms.spaces a).pgtable }

/- `none` is the `BUG_ON(!page)`. -/
def allocatePage (a : PcbPtr) (virt : Word) (nrPages : ℕ) (ms : MemState) : Option MemState :=
  (List.range nrPages).foldlM (fun ms i => do
    let page ← X.getFreePage ms
    some (addPageToProc a page
      (createMapping a (virt + BitVec.ofNat 32 (i * X.arch.pageSize)) page ms))) ms

/- One turn of the loop: the page leaves the list and is freed with its last reference. -/
def releasePage (ms : MemState) (page : Page) : MemState :=
  let count := ms.refcount page - 1
  { ms with
    refcount := Function.update ms.refcount page count
    freed := if count = 0 then ms.freed ++ [page] else ms.freed }

def releaseProcPages (a : PcbPtr) (ms : MemState) : MemState :=
  let pages := (ms.spaces a).pageList
  pages.foldl releasePage (ms.setSpace a { ms.spaces a with pageList := [] })

/- Nothing is mapped after it, so the record begins anew. -/
def resetRootPgtable (a : PcbPtr) (ms : MemState) : MemState :=
  ms.setSpace a { ms.spaces a with pgtable := [] }

end MemState

/-! ### Updating a PCB -/

section
variable (k : Kernel) (a : PcbPtr) (p : Pcb)

@[simp] theorem setPcb_pcbs_self : (k.setPcb a p).pcbs a = p := by
  simp [Kernel.setPcb]

@[simp] theorem setPcb_procList : (k.setPcb a p).procList = k.procList := rfl
@[simp] theorem setPcb_created : (k.setPcb a p).created = k.created := rfl
@[simp] theorem setPcb_pidCurrent : (k.setPcb a p).pidCurrent = k.pidCurrent := rfl
@[simp] theorem setPcb_tcbs : (k.setPcb a p).tcbs = k.tcbs := rfl
@[simp] theorem setPcb_current : (k.setPcb a p).current = k.current := rfl
@[simp] theorem setPcb_irqsOff : (k.setPcb a p).irqsOff = k.irqsOff := rfl
@[simp] theorem setPcb_mem : (k.setPcb a p).mem = k.mem := rfl

end

/-! ### Looking up the list -/

section
variable {k : Kernel} {a parent : PcbPtr} {pid : Word}

theorem findProcByPid_some (h : k.findProcByPid pid = some a) :
    a ∈ k.procList ∧ (k.pcbs a).pid = pid :=
  ⟨List.mem_of_find?_eq_some h, by simpa using List.find?_some h⟩

theorem findProcZombieToClean_some (h : k.findProcZombieToClean = some a) :
    a ∈ k.procList ∧ (k.pcbs a).state = .zombie ∧ (k.pcbs a).mainThread ≠ none :=
  ⟨List.mem_of_find?_eq_some h, by simpa using List.find?_some h⟩

theorem findProcByParent_none :
    k.findProcByParent parent = none ↔ ∀ a ∈ k.procList, (k.pcbs a).parent ≠ some parent := by
  simp [Kernel.findProcByParent]

end

end SyeLabs.So3
