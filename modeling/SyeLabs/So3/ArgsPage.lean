import SyeLabs.Library.ByteMemory
import Mathlib.Data.Vector.Defs

/-!
# The page of arguments of `exec` (`lab9/process.c`, lines 388-536)

`preserve_args_and_env` builds a page with the number of arguments, a table of
pointers and the strings they designate; `post_setup_image` copies it to its final
place and moves the pointers along.
-/

namespace SyeLabs.So3
open ByteMemory

inductive Errno where
  | einval
  | enomem
  | enoent
  | echild
  deriving DecidableEq

/-- The target: the size of a pointer, and that of a page, which an `int` can hold. -/
structure Arch where
  w : ℕ
  pageSize : ℕ
  w_pos : 0 < w
  pageSize_lt : pageSize < 2 ^ 31

namespace Arch

variable (A : Arch)

def addrs : ℕ := 256 ^ A.w

def writePtr (m : Memory) (slot p : ℕ) : Memory := write m slot (toLE A.w p)

def readPtr (m : Memory) (slot : ℕ) : ℕ := ofLE (read m slot A.w)

end Arch

def sizeofInt : ℕ := 4

def writeInt (m : Memory) (a v : ℕ) : Memory := write m a (toLE sizeofInt v)

def readInt (m : Memory) (a : ℕ) : ℤ := (BitVec.ofNat 32 (ofLE (read m a sizeofInt))).toInt

variable (A : Arch)

/-- The body of both loops: `__args[i] = args_str_p`, then the string itself. -/
def placeString (slot str : ℕ) (s : CStr) (m : Memory) : Memory :=
  strcpy (A.writePtr m slot str) str s

/-- The two loops over strings, lines 460-475 and 484-502, from the next slot and the
next free byte on. `none` is the exit with `ENOMEM`. -/
def placeStrings (args : ℕ) : List CStr → ℕ → ℕ → Memory → Memory × Option ℕ
  | [], _, str, m => (m, some str)
  | s :: ss, slot, str, m =>
    let m := placeString A slot str s m
    let str := str + s.bytes.length
    if str - args > A.pageSize then (m, none) else placeStrings args ss (slot + A.w) str m

variable (args : ℕ) (name : CStr) (argc : ℕ) (argv : Option (List.Vector CStr argc))
  (envp : Option (List CStr))

/- Room for the addresses of the environment and the NULL after them. -/
def reserveEnv (argsP : ℕ) (m : Memory) : Memory × ℕ :=
  match envp with
  | none => (A.writePtr m argsP 0, argsP + A.w)
  | some es => (m, argsP + A.w * (es.length + 1))

/- Without arguments the name of the process is the only one. -/
def placeArgs (str : ℕ) (m : Memory) : Memory × Option ℕ :=
  let slots := args + sizeofInt
  let (m, str) :=
    if argc = 0 then (placeString A slots str name m, str + name.bytes.length) else (m, str)
  placeStrings A args (argv.elim [] List.Vector.toList) slots str m

def placeEnv (slots str : ℕ) (m : Memory) : Memory × Option ℕ :=
  match envp with
  | none => (m, some str)
  | some es => placeStrings A args es slots str m

/-- `args` is the page `malloc` returned, `name` the name of the current process, and
`argv` NULL or the first `argc` strings. -/
def preserveArgsAndEnv (m : Memory) : Memory × Except Errno ℕ :=
  if argc > 0 ∧ argv.isNone then (m, .error .einval)
  else
    let m := write m args (List.replicate A.pageSize 0#8)
    let i := if argc = 0 then 1 else argc
    let m := writeInt m args i
    let argsP := args + sizeofInt
    let argsP := if argc = 0 then argsP + A.w else argsP + A.w * argc
    let (m, argsP) := reserveEnv A envp argsP m
    match placeArgs A args name argc argv argsP m with
    | (m, none) => (m, .error .enomem)
    | (m, some str) =>
      match placeEnv A args envp (args + sizeofInt + A.w * (readInt m args).toNat) str m with
      | (m, none) => (m, .error .enomem)
      | (m, some _) => (m, .ok args)

/-- `((addr_t) p - (addr_t) args_env) + args_base` -/
def relocated (argsEnv base p : ℕ) : ℕ := (p + (A.addrs - argsEnv % A.addrs) + base) % A.addrs

def relocSlot (argsEnv base slot : ℕ) (m : Memory) : Memory :=
  A.writePtr m slot (relocated A argsEnv base (A.readPtr m slot))

def relocArgs (argsEnv base : ℕ) : ℕ → ℕ → Memory → Memory
  | 0, _, m => m
  | n + 1, slot, m => relocArgs argsEnv base n (slot + A.w) (relocSlot A argsEnv base slot m)

/-- Up to the NULL entry, looking at `fuel` entries at most. -/
def relocEnv (argsEnv base : ℕ) : ℕ → ℕ → Memory → Option Memory
  | 0, _, _ => none
  | fuel + 1, slot, m =>
    if A.readPtr m slot = 0 then some m
    else relocEnv argsEnv base fuel (slot + A.w) (relocSlot A argsEnv base slot m)

def postSetupImage (fuel argsEnv base : ℕ) (m : Memory) : Option Memory :=
  let m := copy m base argsEnv A.pageSize
  let argc := (readInt m base).toNat
  let m := relocArgs A argsEnv base argc (base + sizeofInt) m
  relocEnv A argsEnv base fuel (base + sizeofInt + argc * A.w) m

end SyeLabs.So3
