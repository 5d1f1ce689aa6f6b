import SyeLabs.Memreplace.PageTable
import Mathlib.Data.List.FinRange
import Mathlib.Data.List.Nodup

/-!
# Page replacement (`lab13/memreplace.c`, lines 32-115 and 183-206)

The functions of the simulator, loop by loop. `main`'s two branches are
`accessLRU` and `accessWSC`; `run` is the sequence of accesses of one session
in either mode.
-/

namespace SyeLabs.Memreplace

def noPage : String := "Error: no page to replace found\n"

/- Lines 53-54 and 95-96: VALID is cleared, then SWAP is set. -/
def Mem.evict (m : Mem) (i : Page) : Mem :=
  let m := m.setEntry i (m.pageTable i &&& ~~~validBitMask)
  m.setEntry i (m.pageTable i ||| swapBitMask)

/-- One turn of the loop of `replaceLRU`; `none` stands for `replace_index == -1`. -/
def lruCandidate (m : Mem) (replaceIndex : Option Page) (i : Page) : Option Page :=
  if m.pageTable i &&& validBitMask = 0#8 then replaceIndex
  else match replaceIndex with
    | none => some i
    | some r => if m.tdu i < m.tdu r then some i else some r

def replaceLRU (m : Mem) : Except Exit Mem :=
  match (List.finRange nbPages).foldl (lruCandidate m) none with
  | none => .error ⟨1, m.stderr ++ [noPage]⟩
  | some r => .ok (m.evict r)

/-- The range test of the source can never hold; `page_no` is an index here. -/
def incCompteur (m : Mem) (pageNo : Page) : Mem :=
  let m := {m with tvc := m.tvc + 1#8}
  {m with tdu := Function.update m.tdu pageNo m.tvc}

/-- `tvc - tdu[i] > DELTA`, computed in `int`. -/
def overDelta (m : Mem) (i : Page) : Prop := (m.tvc.toNat : ℤ) - (m.tdu i).toNat > delta

instance (m : Mem) (i : Page) : Decidable (overDelta m i) :=
  inferInstanceAs (Decidable ((m.tvc.toNat : ℤ) - (m.tdu i).toNat > delta))

/-- The loop of `replaceWSC` from index list `is` on, with the value of `replace_index`. -/
def wscLoop : List Page → Option Page → Mem → Option Page × Mem
  | [], r, m => (r, m)
  | i :: is, r, m =>
    if m.pageTable i &&& validBitMask = 0#8 then wscLoop is r m
    else
      let r := if r = none then some i else r
      if m.pageTable i &&& refBitMask ≠ 0#8 then
        wscLoop is r (m.setEntry i (m.pageTable i &&& ~~~refBitMask))
      else if overDelta m i then (some i, m)
      else wscLoop is r m

def replaceWSC (m : Mem) : Mem :=
  match wscLoop (List.finRange nbPages) none m with
  | (none, m) => {m with stderr := m.stderr ++ [noPage]}
  | (some r, m) => m.evict r

def updateTDU (m : Mem) : Mem :=
  let tdu := fun i =>
    if m.pageTable i &&& refBitMask &&& validBitMask ≠ 0#8 then m.tvc else m.tdu i
  {m with tdu}

def initPageTable (m : Mem) : Mem :=
  let pageTable := fun i : Page => m.pageTable i ||| BitVec.ofNat 8 ((i.val &&& 0xF) <<< 4)
  let m := {m with pageTable}
  let m := m.setEntry 0 (m.pageTable 0 ||| validBitMask)
  let m := m.setEntry 1 (m.pageTable 1 ||| validBitMask)
  let m := m.setEntry 2 (m.pageTable 2 ||| validBitMask)
  m.setEntry 3 (m.pageTable 3 ||| swapBitMask)

def zeroed : Mem := ⟨fun _ => 0#8, fun _ => 0#8, 0#8, []⟩

def accessLRU (m : Mem) (pageNo : Page) : Except Exit Mem := do
  let m ← if m.pageTable pageNo &&& validBitMask = 0#8 then do
      let m ← replaceLRU m
      let m := m.setEntry pageNo (m.pageTable pageNo ||| validBitMask)
      pure (m.setEntry pageNo (m.pageTable pageNo &&& ~~~swapBitMask))
    else pure m
  pure (incCompteur m pageNo)

def accessWSC (m : Mem) (pageNo : Page) : Mem :=
  let m := if m.pageTable pageNo &&& validBitMask = 0#8 then
      let m := replaceWSC m
      m.setEntry pageNo (m.pageTable pageNo &&& ~~~swapBitMask)
    else m
  let m := m.setEntry pageNo (m.pageTable pageNo ||| validBitMask)
  let m := m.setEntry pageNo (m.pageTable pageNo ||| refBitMask)
  updateTDU {m with tvc := m.tvc + 1#8}

def access (lruRun : Bool) (m : Mem) (pageNo : Page) : Except Exit Mem :=
  if lruRun then accessLRU m pageNo else .ok (accessWSC m pageNo)

/-- A session: `init_page_table`, then one access after the other. -/
def run (lruRun : Bool) (pages : List Page) : Except Exit Mem :=
  pages.foldlM (access lruRun) (initPageTable zeroed)

theorem run_snoc (lruRun : Bool) (pages : List Page) (p : Page) :
    run lruRun (pages ++ [p]) = (run lruRun pages).bind fun m => access lruRun m p := by
  simp only [run, List.foldlM_append, List.foldlM_cons, List.foldlM_nil]
  cases List.foldlM (access lruRun) (initPageTable zeroed) pages with
  | error e => rfl
  | ok m =>
    change (access lruRun m p).bind pure = access lruRun m p
    cases access lruRun m p <;> rfl

end SyeLabs.Memreplace
