import SyeLabs.So3.Calls

/-!
# The table after the boot

`Start` describes the table that holds only the root process, as `create_root_process`
leaves it (lines 316-361); `rootKernel` is one such table, on a platform where the
thread of a process has the number of its PCB.
-/

namespace SyeLabs.So3
open ByteMemory

/-- The root process is the first one created; nothing is asked of the threads. -/
structure Start (k : Kernel) : Prop where
  procList : k.procList = [0]
  created : k.created = 1
  pidCurrent : k.pidCurrent = 2
  pid : (k.pcbs 0).pid = 1
  parent : (k.pcbs 0).parent = none
  state : (k.pcbs 0).state = .ready
  request : (k.pcbs 0).ptracePendingReq = .noRequest
  mainThread : (k.pcbs 0).mainThread ≠ none

def rootPcb : Pcb :=
  { pid := 1, name := CStr.ofBytes [], state := .ready, ptracePendingReq := .noRequest,
    parent := none, exitStatus := 0, mainThread := some 0, pageCount := 0, stackTop := 0,
    heapBase := 0, heapPointer := 0, binImageEntry := 0 }

def rootKernel : Kernel :=
  { pcbs := fun _ => rootPcb, procList := [0], created := 1, pidCurrent := 2,
    tcbs := fun t => ⟨if t = 0 then some 0 else none, []⟩, current := 0, irqsOff := false,
    errno := none, mem := ⟨fun _ => ⟨[], []⟩, fun _ => 0, [], fun _ => 0⟩ }

theorem rootKernel_start : Start rootKernel :=
  ⟨rfl, rfl, rfl, rfl, rfl, rfl, rfl, by decide⟩

/-- The processes whose main thread is `t` have none any more. -/
def Kernel.dropThread (k : Kernel) (t : Option Tid) : PcbPtr → Pcb := fun c =>
  if (k.pcbs c).mainThread = t then { k.pcbs c with mainThread := none } else k.pcbs c

def Kernel.joined (k : Kernel) (t : Option Tid) : Kernel := { k with pcbs := k.dropThread t }

/- Joining a thread succeeds when its process is a zombie, which has no main thread any
more afterwards. -/
def joinFinished (t : Option Tid) (k : Kernel) : Option Kernel :=
  if ∀ c ∈ k.procList, (k.pcbs c).mainThread = t → (k.pcbs c).state = .zombie then
    some (k.joined t)
  else none

def rootPlatform : Platform :=
  { arch := ⟨4, 4096, by decide, by decide⟩, procStackSize := 4096, heapSize := 4096,
    argsBase := 0xc0000000, wnohang := 1, charSigned := false,
    duplicateUserSpace := fun _ _ ms => ms,
    userThread := fun a ts => (a, Function.update ts a ⟨some a, []⟩),
    getFreePage := fun ms => some ms.freed.length,
    threadJoin := joinFinished }

end SyeLabs.So3
