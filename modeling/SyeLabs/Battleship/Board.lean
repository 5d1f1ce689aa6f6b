import Mathlib.Data.Fintype.Basic
import Mathlib.Data.Finset.Card
import Mathlib.Data.BitVec
import Mathlib.Logic.Function.Basic

/-!
# Grids (`lab8/battleship.c`)

A grid is an array of `GRID_SIZE` characters that hold a `gridState`. Cells are
addressed by a character, which may have come from the network, so an access is
checked against the bounds of the array.
-/

namespace SyeLabs.Battleship

abbrev Byte := BitVec 8

def FORFEIT : Byte := 127#8
def GRID_WIDTH : ℕ := 4
def GRID_SIZE : ℕ := GRID_WIDTH * GRID_WIDTH
def BOAT_NUM : ℕ := 3

inductive GridState where
  | default
  | boat
  | missedShot
  | sunkenBoat
  deriving DecidableEq

def GridState.toByte : GridState → Byte
  | default => 0#8
  | boat => 1#8
  | missedShot => 2#8
  | sunkenBoat => 3#8

abbrev Cell := Fin GRID_SIZE
instance : NeZero GRID_SIZE := ⟨by decide⟩

abbrev Grid := Cell → GridState

/-- The cell a character addresses, if it lies in the array. -/
def cell? (b : Byte) : Option Cell := if h : b.toNat < GRID_SIZE then some ⟨b.toNat, h⟩ else none

def cellByte (c : Cell) : Byte := BitVec.ofNat 8 c.val

theorem toNat_cellByte (c : Cell) : (cellByte c).toNat = c.val := by
  have hc : c.val < 16 := c.isLt
  simp only [cellByte, BitVec.toNat_ofNat]
  omega

@[simp] theorem cell?_cellByte (c : Cell) : cell? (cellByte c) = some c := by
  simp [cell?, toNat_cellByte]

theorem cell?_eq_some {b : Byte} {c : Cell} (h : cell? b = some c) : b = cellByte c := by
  simp only [cell?] at h
  split_ifs at h with hb
  cases h
  exact BitVec.eq_of_toNat_eq (toNat_cellByte ⟨b.toNat, hb⟩).symm

theorem cellByte_inj {c d : Cell} (h : cellByte c = cellByte d) : c = d := by
  have hval := congrArg BitVec.toNat h
  rw [toNat_cellByte, toNat_cellByte] at hval
  exact Fin.ext hval

theorem cellByte_ne_forfeit (c : Cell) : cellByte c ≠ FORFEIT := by
  intro h
  have hval := congrArg BitVec.toNat h
  rw [toNat_cellByte] at hval
  have hc : c.val < 16 := c.isLt
  have hf : FORFEIT.toNat = 127 := rfl
  omega

/-! ### Counting cells -/

def Grid.count (g : Grid) (s : GridState) : ℕ := (Finset.univ.filter fun c => g c = s).card

theorem Grid.count_update_same (g : Grid) {c : Cell} {s : GridState} (h : g c = s)
    {t : GridState} (hst : t ≠ s) : Grid.count (Function.update g c t) s + 1 = Grid.count g s := by
  have hset : (Finset.univ.filter fun d => Function.update g c t d = s) =
      (Finset.univ.filter fun d => g d = s).erase c := by
    ext d
    by_cases hd : d = c <;> simp [Function.update_apply, hd, hst]
  rw [Grid.count, hset]
  exact Finset.card_erase_add_one (by simpa using h)

theorem Grid.count_update_new (g : Grid) {c : Cell} {t : GridState} (h : g c ≠ t) :
    Grid.count (Function.update g c t) t = Grid.count g t + 1 := by
  have hset : (Finset.univ.filter fun d => Function.update g c t d = t) =
      insert c (Finset.univ.filter fun d => g d = t) := by
    ext d
    by_cases hd : d = c <;> simp [Function.update_apply, hd]
  rw [Grid.count, hset]
  exact Finset.card_insert_of_notMem (by simpa using h)

theorem Grid.count_update_other (g : Grid) {c : Cell} {s t : GridState} (h : g c ≠ s)
    (hst : t ≠ s) : Grid.count (Function.update g c t) s = Grid.count g s := by
  have hset : (Finset.univ.filter fun d => Function.update g c t d = s) =
      Finset.univ.filter fun d => g d = s := by
    ext d
    by_cases hd : d = c
    · subst hd
      simp [h, hst]
    · simp [hd]
  rw [Grid.count, hset, Grid.count]

theorem Grid.count_pos_iff (g : Grid) (s : GridState) : 0 < Grid.count g s ↔ ∃ c, g c = s := by
  rw [Grid.count, Finset.card_pos]
  constructor
  · rintro ⟨c, hc⟩
    exact ⟨c, by simpa using hc⟩
  · rintro ⟨c, hc⟩
    exact ⟨c, by simpa using hc⟩

theorem Grid.count_const (s t : GridState) (h : s ≠ t) : Grid.count (fun _ => s) t = 0 := by
  simp [Grid.count, h]

def Grid.shotAt (g : Grid) : ℕ := Grid.count g .missedShot + Grid.count g .sunkenBoat

theorem Grid.shotAt_lt (g : Grid) (h : 0 < Grid.count g .boat) : Grid.shotAt g < GRID_SIZE := by
  have hdisjoint : Disjoint (Finset.univ.filter fun c => g c = .missedShot)
      (Finset.univ.filter fun c => g c = .sunkenBoat) := by
    refine Finset.disjoint_filter.mpr fun c _ hm hs => ?_
    simp [hm] at hs
  have hcard : Grid.shotAt g = (Finset.univ.filter fun c => g c = .missedShot ∨
      g c = .sunkenBoat).card := by
    rw [Finset.filter_or, Finset.card_union_of_disjoint hdisjoint, Grid.shotAt, Grid.count,
      Grid.count]
  obtain ⟨c, hc⟩ := (Grid.count_pos_iff g _).mp h
  have hproper : (Finset.univ.filter fun d => g d = .missedShot ∨ g d = .sunkenBoat) ⊂
      (Finset.univ : Finset Cell) :=
    Finset.filter_ssubset.mpr ⟨c, Finset.mem_univ c, by simp [hc]⟩
  calc Grid.shotAt g = _ := hcard
    _ < (Finset.univ : Finset Cell).card := Finset.card_lt_card hproper
    _ = GRID_SIZE := Finset.card_fin GRID_SIZE

/-! ### Placing the boats -/

/-- `placeBoatsOnGrid`, on the cells `promptCell` returns in turn; `none` while
boats remain and no further cell was entered. -/
def placeBoatsOnGrid (grid : Grid) : ℕ → List Cell → Option Grid
  | 0, _ => some grid
  | _ + 1, [] => none
  | boats + 1, cell :: cells =>
    if grid cell ≠ .default then placeBoatsOnGrid grid (boats + 1) cells
    else placeBoatsOnGrid (Function.update grid cell .boat) boats cells

structure Grid.Placed (g : Grid) (n : ℕ) : Prop where
  boats : Grid.count g .boat = n
  water : ∀ c, g c ≠ .boat → g c = .default

theorem placeBoatsOnGrid_placed {grid g : Grid} {n boats : ℕ} {cells : List Cell}
    (hgrid : grid.Placed n) (h : placeBoatsOnGrid grid boats cells = some g) :
    g.Placed (n + boats) := by
  induction cells generalizing grid n boats with
  | nil =>
    cases boats with
    | zero =>
      cases h
      exact hgrid
    | succ boats => simp [placeBoatsOnGrid] at h
  | cons cell cells ih =>
    cases boats with
    | zero =>
      cases h
      exact hgrid
    | succ boats =>
      unfold placeBoatsOnGrid at h
      split_ifs at h with hfree
      · exact ih hgrid h
      · have hdefault : grid cell = .default := not_not.mp hfree
        have hnext : Grid.Placed (Function.update grid cell .boat) (n + 1) := by
          constructor
          · rw [Grid.count_update_new _ (by simp [hdefault]), hgrid.boats]
          · intro c hc
            by_cases hcell : c = cell
            · simp [hcell] at hc
            · rw [Function.update_of_ne hcell] at hc ⊢
              exact hgrid.water c hc
        have := ih hnext h
        rwa [Nat.add_assoc, Nat.add_comm 1 boats] at this

/- A board ready for the game: `BOAT_NUM` boats placed on water. -/
structure Board where
  grid : Grid
  cells : List Cell
  placed : placeBoatsOnGrid (fun _ => .default) BOAT_NUM cells = some grid

theorem Board.grid_placed (b : Board) : b.grid.Placed BOAT_NUM := by
  have hfresh : Grid.Placed (fun _ => .default) 0 :=
    ⟨Grid.count_const _ _ (by decide), fun _ _ => rfl⟩
  simpa using placeBoatsOnGrid_placed hfresh b.placed

theorem Grid.Placed.count_sunken {g : Grid} {n : ℕ} (h : g.Placed n) :
    Grid.count g .sunkenBoat = 0 := by
  refine Nat.eq_zero_of_not_pos fun hpos => ?_
  obtain ⟨c, hc⟩ := (Grid.count_pos_iff g _).mp hpos
  have hwater := h.water c (by simp [hc])
  simp [hc] at hwater

end SyeLabs.Battleship
