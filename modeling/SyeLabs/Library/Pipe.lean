import Mathlib.Data.Fintype.Basic
import Mathlib.Logic.Function.Basic

/-!
# A pipe and the descriptors that name it

A pipe is a bounded FIFO. Each process has some number of descriptors on either
end, and the end of the stream is reached when the buffer is empty and no process
has a write end.
-/

namespace SyeLabs

/-- The descriptors of one process. -/
structure Pipe.Ends where
  read : ℕ
  write : ℕ
  deriving DecidableEq

variable {P β : Type*}

structure Pipe (P β : Type*) where
  buffer : List β
  ends : P → Pipe.Ends

namespace Pipe

variable (q : Pipe P β)

def HasReader : Prop := ∃ p, 0 < (q.ends p).read

def HasWriter : Prop := ∃ p, 0 < (q.ends p).write

/-- A write waits for room as long as somebody may still read. -/
def WriteBlocks (capacity : ℕ) : Prop := capacity ≤ q.buffer.length ∧ q.HasReader

/-- A read waits for data as long as somebody may still write. -/
def ReadBlocks : Prop := q.buffer = [] ∧ q.HasWriter

instance [Fintype P] : Decidable q.HasReader := inferInstanceAs (Decidable (∃ _, _))
instance [Fintype P] : Decidable q.HasWriter := inferInstanceAs (Decidable (∃ _, _))

section
variable [DecidableEq P]

def setEnds (p : P) (e : Ends) : Pipe P β := {q with ends := Function.update q.ends p e}

/- `pipe()`, `fork()`, `close()`, `dup2()` and the end of a process. -/
def create (p : P) : Pipe P β := q.setEnds p ⟨1, 1⟩
def fork (p child : P) : Pipe P β := q.setEnds child (q.ends p)
def closeRead (p : P) : Pipe P β := q.setEnds p {q.ends p with read := (q.ends p).read - 1}
def closeWrite (p : P) : Pipe P β := q.setEnds p {q.ends p with write := (q.ends p).write - 1}
def dupRead (p : P) : Pipe P β := q.setEnds p {q.ends p with read := (q.ends p).read + 1}
def dupWrite (p : P) : Pipe P β := q.setEnds p {q.ends p with write := (q.ends p).write + 1}
def exit (p : P) : Pipe P β := q.setEnds p ⟨0, 0⟩

@[simp] theorem setEnds_buffer (p : P) (e : Ends) : (q.setEnds p e).buffer = q.buffer := rfl
@[simp] theorem setEnds_ends (p : P) (e : Ends) :
    (q.setEnds p e).ends = Function.update q.ends p e := rfl

end

def put (bs : List β) : Pipe P β := {q with buffer := q.buffer ++ bs}
def drop (k : ℕ) : Pipe P β := {q with buffer := q.buffer.drop k}

@[simp] theorem put_buffer (bs : List β) : (q.put bs).buffer = q.buffer ++ bs := rfl
@[simp] theorem drop_buffer (k : ℕ) : (q.drop k).buffer = q.buffer.drop k := rfl
@[simp] theorem put_ends (bs : List β) : (q.put bs).ends = q.ends := rfl
@[simp] theorem drop_ends (k : ℕ) : (q.drop k).ends = q.ends := rfl

end Pipe

end SyeLabs
