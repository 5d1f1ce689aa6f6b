import SyeLabs.Battleship.PromptCell
import SyeLabs.Library.FirstSeen

/-!
# Placing the boats (`lab8/battleship.c`, lines 225-250)

`placeBoatsOnGrid` with its counter, over the cells that `promptCell` returns in turn.
The forfeit flag stays clear.
-/

namespace SyeLabs.Battleship

inductive PlacementText where
  | boatPlace
  | invBoatStack
  | board (g : Grid)
  deriving DecidableEq

/-- The grid, `boatPlacements` and what has been printed. -/
structure Placing where
  grid : Grid
  boatPlacements : ℤ
  out : List PlacementText

/-- One turn of the loop, once `promptCell` has returned. -/
def placeBoat (s : Placing) (cell : Cell) : Placing :=
  if s.grid cell ≠ .default then {s with out := s.out ++ [.invBoatStack]}
  else {s with grid := Function.update s.grid cell .boat, boatPlacements := s.boatPlacements + 1}

/-- The loop; `none` while it waits for the next cell. -/
def placeLoop (boatNum : ℤ) : Placing → List Cell → Option (Placing × List Cell)
  | s, [] => if s.boatPlacements < boatNum then none else some (s, [])
  | s, cell :: cells =>
    if s.boatPlacements < boatNum then placeLoop boatNum (placeBoat s cell) cells
    else some (s, cell :: cells)

/- The board is printed at the end. -/
def Placing.printBoard (s : Placing) : Placing := {s with out := s.out ++ [.board s.grid]}

/-- The whole function, with the cells that are left for the next prompts. -/
def placeBoats (grid : Grid) (boatNum : ℤ) (cells : List Cell) : Option (Placing × List Cell) :=
  (placeLoop boatNum ⟨grid, 0, [.boatPlace]⟩ cells).map fun r => (r.1.printBoard, r.2)

def water : Grid := fun _ => .default

/-- After the prompts `cells`, on an empty grid. -/
def placed (cells : List Cell) : Placing := cells.foldl placeBoat ⟨water, 0, [.boatPlace]⟩

variable {boatNum : ℤ} {cells taken rest : List Cell} {s : Placing}

theorem placed_snoc (cells : List Cell) (cell : Cell) :
    placed (cells ++ [cell]) = placeBoat (placed cells) cell := by
  rw [placed, List.foldl_append]
  rfl

/-- The counter and the grid say which cells have been seen. -/
structure Placing.Counts (s : Placing) (cells : List Cell) : Prop where
  boats : ∀ c, s.grid c = if c ∈ cells then .boat else .default
  count : s.boatPlacements = (firstSeen cells).length

theorem Placing.Counts.step (h : s.Counts cells) (cell : Cell) :
    (placeBoat s cell).Counts (cells ++ [cell]) := by
  by_cases hmem : cell ∈ cells
  · have hused : s.grid cell ≠ .default := by
      rw [h.boats, if_pos hmem]
      decide
    rw [placeBoat, if_pos hused]
    refine ⟨fun c => ?_, ?_⟩
    · have hsame : c ∈ cells ++ [cell] ↔ c ∈ cells := by
        rw [List.mem_append, List.mem_singleton]
        exact ⟨fun hc => hc.elim id fun heq => heq ▸ hmem, Or.inl⟩
      simp only [hsame]
      exact h.boats c
    · rw [firstSeen_snoc, if_pos hmem]
      exact h.count
  · have hfree : ¬ s.grid cell ≠ .default := by
      rw [h.boats, if_neg hmem]
      decide
    rw [placeBoat, if_neg hfree]
    refine ⟨fun c => ?_, ?_⟩
    · by_cases hc : c = cell
      · subst hc
        simp
      · simp only [Function.update_of_ne hc, h.boats, List.mem_append, List.mem_singleton, hc,
          or_false]
    · rw [firstSeen_snoc, if_neg hmem, List.length_append]
      simp only [h.count, List.length_singleton, Nat.cast_add, Nat.cast_one]

theorem placed_counts (cells : List Cell) : (placed cells).Counts cells := by
  induction cells using List.reverseRecOn with
  | nil => exact ⟨fun c => by simp [placed, water], rfl⟩
  | append_singleton cells cell ih =>
    rw [placed_snoc]
    exact ih.step cell

/- A repeated cell. -/
theorem placed_again {cell : Cell} (h : cell ∈ cells) :
    placed (cells ++ [cell]) =
      {placed cells with out := (placed cells).out ++ [.invBoatStack]} := by
  have hused : (placed cells).grid cell ≠ .default := by
    rw [(placed_counts cells).boats, if_pos h]
    decide
  rw [placed_snoc, placeBoat, if_pos hused]

theorem placeLoop_full {cells before : List Cell}
    (h : boatNum ≤ (firstSeen before).length) :
    placeLoop boatNum (placed before) cells = some (placed before, cells) := by
  have hfull : ¬ (placed before).boatPlacements < boatNum := by
    rw [(placed_counts before).count]
    exact not_lt.mpr h
  cases cells with
  | nil => rw [placeLoop, if_neg hfull]
  | cons cell cells => rw [placeLoop, if_neg hfull]

theorem placeLoop_next {cell : Cell} {cells before : List Cell}
    (h : ((firstSeen before).length : ℤ) < boatNum) :
    placeLoop boatNum (placed before) (cell :: cells) =
      placeLoop boatNum (placed (before ++ [cell])) cells := by
  rw [placeLoop, (placed_counts before).count, if_pos h, placed_snoc]

theorem placeLoop_waits {before : List Cell} (h : ((firstSeen before).length : ℤ) < boatNum) :
    placeLoop boatNum (placed before) [] = none := by
  rw [placeLoop, (placed_counts before).count, if_pos h]

/-- The loop takes cells as long as too few have been seen, and no longer. -/
theorem placeLoop_some {cells before : List Cell}
    (h : boatNum ≤ (firstSeen (before ++ cells)).length) :
    ∃ taken rest, cells = taken ++ rest ∧
      placeLoop boatNum (placed before) cells = some (placed (before ++ taken), rest) ∧
      boatNum ≤ (firstSeen (before ++ taken)).length ∧
      ∀ front, front <+: taken → front ≠ taken →
        ((firstSeen (before ++ front)).length : ℤ) < boatNum := by
  induction cells generalizing before with
  | nil =>
    rw [List.append_nil] at h
    refine ⟨[], [], rfl, ?_, ?_, fun front hfront hne => absurd (List.prefix_nil.mp hfront) hne⟩
    · rw [List.append_nil]
      exact placeLoop_full h
    · rw [List.append_nil]
      exact h
  | cons cell cells ih =>
    by_cases hfull : boatNum ≤ (firstSeen before).length
    · refine ⟨[], cell :: cells, rfl, ?_, ?_, fun front hfront hne => ?_⟩
      · rw [List.append_nil]
        exact placeLoop_full hfull
      · rw [List.append_nil]
        exact hfull
      · exact absurd (List.prefix_nil.mp hfront) hne
    · have hfew := not_le.mp hfull
      rw [List.append_cons] at h
      obtain ⟨taken, rest, rfl, hloop, hcount, hfront⟩ := ih h
      refine ⟨cell :: taken, rest, rfl, ?_, ?_, fun front hpre hne => ?_⟩
      · rw [placeLoop_next hfew, hloop, List.append_assoc, List.singleton_append]
      · rw [List.append_cons]
        exact hcount
      · cases front with
        | nil =>
          rw [List.append_nil]
          exact hfew
        | cons c front =>
          obtain ⟨rfl, htail⟩ := List.cons_prefix_cons.mp hpre
          rw [List.append_cons]
          exact hfront front htail fun heq => hne (by rw [heq])

theorem placeLoop_none {cells before : List Cell}
    (h : ((firstSeen (before ++ cells)).length : ℤ) < boatNum) :
    placeLoop boatNum (placed before) cells = none := by
  induction cells generalizing before with
  | nil =>
    rw [List.append_nil] at h
    exact placeLoop_waits h
  | cons cell cells ih =>
    have hle := firstSeen_length_le before (cell :: cells)
    rw [placeLoop_next (by omega)]
    apply ih
    rw [← List.append_cons]
    exact h

/- The last cell that is taken is a new one. -/
theorem firstSeen_length_taken (hcount : boatNum ≤ (firstSeen taken).length)
    (hfront : ∀ front, front <+: taken → front ≠ taken →
      ((firstSeen front).length : ℤ) < boatNum) :
    (firstSeen taken).length = boatNum.toNat := by
  induction taken using List.reverseRecOn with
  | nil =>
    rw [firstSeen_nil, List.length_nil] at hcount ⊢
    omega
  | append_singleton front cell _ =>
    have hfew := hfront front (List.prefix_append ..) (by simp)
    have hone := firstSeen_length_snoc front cell
    omega

/-- What the function has done when it returns. -/
structure Placement (boatNum : ℤ) (cells taken : List Cell) (g : Grid) : Prop where
  distinct : (firstSeen taken).length = boatNum.toNat
  first : ∀ front, front <+: taken → front ≠ taken → ((firstSeen front).length : ℤ) < boatNum
  boats : ∀ c, g c = if c ∈ (firstSeen cells).take boatNum.toNat then .boat else .default

/-- The function returns once as many distinct cells have come as there are boats, with
boats on the first of them and nowhere else; before that it waits. A repeated cell leaves
the grid and the counter as they are. -/
theorem placeBoats_exact (boatNum : ℤ) (cells : List Cell) :
    (boatNum ≤ (firstSeen cells).length → ∃ taken rest, cells = taken ++ rest ∧
      placeBoats water boatNum cells = some ((placed taken).printBoard, rest) ∧
      Placement boatNum cells taken (placed taken).grid) ∧
    (((firstSeen cells).length : ℤ) < boatNum → placeBoats water boatNum cells = none) ∧
    ∀ before cell, cell ∈ before → (placed (before ++ [cell])).grid = (placed before).grid ∧
      (placed (before ++ [cell])).boatPlacements = (placed before).boatPlacements := by
  refine ⟨fun h => ?_, fun h => ?_, fun before cell hmem => ?_⟩
  · obtain ⟨taken, rest, rfl, hloop, hcount, hfront⟩ := @placeLoop_some boatNum cells [] h
    simp only [List.nil_append] at hloop hcount hfront
    have hlength := firstSeen_length_taken hcount hfront
    refine ⟨taken, rest, rfl, ?_, hlength, hfront, fun c => ?_⟩
    · rw [placeBoats]
      exact congrArg (Option.map _) hloop
    · rw [← hlength, firstSeen_take]
      simp only [mem_firstSeen]
      exact (placed_counts taken).boats c
  · rw [placeBoats]
    exact congrArg (Option.map _) (@placeLoop_none boatNum cells [] h)
  · rw [placed_again hmem]
    exact ⟨rfl, rfl⟩

/-! ### The other views of the same loop -/

theorem placeLoop_grid (s : Placing) (cells : List Cell) :
    (placeLoop boatNum s cells).map (fun r => r.1.grid) =
      placeBoatsOnGrid s.grid (boatNum - s.boatPlacements).toNat cells := by
  induction cells generalizing s with
  | nil =>
    rw [placeLoop]
    split_ifs with hfew
    · obtain ⟨n, hn⟩ : ∃ n, (boatNum - s.boatPlacements).toNat = n + 1 :=
        ⟨(boatNum - s.boatPlacements).toNat - 1, by omega⟩
      rw [hn, placeBoatsOnGrid]
      rfl
    · have hzero : (boatNum - s.boatPlacements).toNat = 0 := by omega
      rw [hzero, placeBoatsOnGrid]
      rfl
  | cons cell cells ih =>
    rw [placeLoop]
    split_ifs with hfew
    · obtain ⟨n, hn⟩ : ∃ n, (boatNum - s.boatPlacements).toNat = n + 1 :=
        ⟨(boatNum - s.boatPlacements).toNat - 1, by omega⟩
      rw [ih, hn, placeBoatsOnGrid, placeBoat]
      split_ifs with hused
      · rw [← hn]
      · have hrest : (boatNum - (s.boatPlacements + 1)).toNat = n := by omega
        rw [hrest]
    · have hzero : (boatNum - s.boatPlacements).toNat = 0 := by omega
      rw [hzero, placeBoatsOnGrid]
      rfl

/-- The grid is that of the function on natural numbers of boats. -/
theorem placeBoats_grid (grid : Grid) (boatNum : ℤ) (cells : List Cell) :
    (placeBoats grid boatNum cells).map (fun r => r.1.grid) =
      placeBoatsOnGrid grid boatNum.toNat cells := by
  have hloop := @placeLoop_grid boatNum ⟨grid, 0, [.boatPlace]⟩ cells
  rw [Int.sub_zero] at hloop
  rw [placeBoats, Option.map_map, ← hloop]
  rfl

/-- `grid[cell]`, if it is in the array. -/
def cellOf (value : ℤ) : Option Cell :=
  if h : 0 ≤ value ∧ value.toNat < GRID_SIZE then some ⟨value.toNat, h.2⟩ else none

@[simp] theorem cellOf_cast (cell : Cell) : cellOf (cell.val : ℤ) = some cell :=
  dif_pos ⟨Int.natCast_nonneg _, cell.isLt⟩

/-- The loop on the characters of the input. -/
def placeInput (boatNum : ℤ) (s : Placing) (input : List Byte) : Option (Placing × List Byte) :=
  if s.boatPlacements < boatNum then
    match _hprompt : promptCell input with
    | none => none
    | some p => (cellOf p.value).bind fun cell => placeInput boatNum (placeBoat s cell) p.input
  else some (s, input)
  termination_by lineCount input
  decreasing_by
    have hlines := promptCell_lines _hprompt
    omega

theorem hexDigit_lt {d : Byte} {v : ℕ} (h : HexDigit d v) : v < GRID_SIZE := by
  have hsize : GRID_SIZE = 16 := rfl
  cases h <;> omega

/- `promptCell` returns cells only. -/
theorem promptCell_value {input : List Byte} {p : Prompt} (h : promptCell input = some p) :
    ∃ cell : Cell, p.value = cell.val := by
  induction input using promptCell.induct generalizing p with
  | case1 =>
    rw [promptCell] at h
    cases h
  | case2 b rest hexValue =>
    rename_i hne
    obtain ⟨v, hv⟩ := hexDigit_of_charToHex hne
    rw [promptCell_digit hv] at h
    obtain rfl := Option.some.inj h
    exact ⟨⟨v, hexDigit_lt hv⟩, rfl⟩
  | case3 b rest hexValue =>
    rename_i hne ih
    rw [promptCell, if_neg hne] at h
    obtain ⟨q, hq, rfl⟩ := Option.map_eq_some_iff.mp h
    obtain ⟨cell, hcell⟩ := ih hq
    exact ⟨cell, hcell⟩

theorem placeInput_prompt {input : List Byte} {p : Prompt} {cell : Cell}
    (hfew : s.boatPlacements < boatNum) (hprompt : promptCell input = some p)
    (hvalue : p.value = cell.val) :
    placeInput boatNum s input = placeInput boatNum (placeBoat s cell) p.input := by
  rw [placeInput, if_pos hfew]
  split
  · rename_i hnone
    rw [hnone] at hprompt
    cases hprompt
  · rename_i q hq
    rw [hq] at hprompt
    obtain rfl := Option.some.inj hprompt
    rw [hvalue, cellOf_cast, Option.bind_some]

theorem placeInput_full {input : List Byte} (hfull : ¬ s.boatPlacements < boatNum) :
    placeInput boatNum s input = some (s, input) := by
  rw [placeInput, if_neg hfull]

theorem placeInput_waits {input : List Byte} (hfew : s.boatPlacements < boatNum)
    (hprompt : promptCell input = none) : placeInput boatNum s input = none := by
  rw [placeInput, if_pos hfew]
  split
  · rfl
  · rename_i q hq
    rw [hq] at hprompt
    cases hprompt

/- The characters the loop has read are those of the prompts for some cells. -/
theorem placeInput_cells {s' : Placing} {input after : List Byte}
    (h : placeInput boatNum s input = some (s', after)) :
    ∃ (cells : List Cell) (out : List Printed),
      promptCells cells.length input = some ⟨cells.map fun c => (c.val : ℤ), out, after⟩ ∧
      placeLoop boatNum s cells = some (s', []) := by
  -- each prompt takes a line
  induction hn : lineCount input using Nat.strong_induction_on generalizing s input with
  | _ n ih =>
    by_cases hfew : s.boatPlacements < boatNum
    · cases hprompt : promptCell input with
      | none =>
        rw [placeInput_waits hfew hprompt] at h
        cases h
      | some p =>
        obtain ⟨cell, hvalue⟩ := promptCell_value hprompt
        rw [placeInput_prompt hfew hprompt hvalue] at h
        have hlines := promptCell_lines hprompt
        obtain ⟨cells, out, hcells, hloop⟩ := ih (lineCount p.input) (by omega) h rfl
        refine ⟨cell :: cells, p.out ++ out, ?_, ?_⟩
        · rw [List.length_cons, promptCells, hprompt, Option.bind_some, hcells, hvalue]
          rfl
        · rw [placeLoop, if_pos hfew]
          exact hloop
    · rw [placeInput_full hfew] at h
      cases h
      exact ⟨[], [], rfl, by rw [placeLoop, if_neg hfew]⟩

theorem placeInput_of_cells {s' : Placing} {input after : List Byte} {cells : List Cell}
    {out : List Printed}
    (hcells : promptCells cells.length input = some ⟨cells.map fun c => (c.val : ℤ), out, after⟩)
    (hloop : placeLoop boatNum s cells = some (s', [])) :
    placeInput boatNum s input = some (s', after) := by
  induction cells generalizing s input out with
  | nil =>
    rw [placeLoop] at hloop
    split_ifs at hloop with hfew
    cases hloop
    cases hcells
    exact placeInput_full hfew
  | cons cell cells ih =>
    rw [placeLoop] at hloop
    split_ifs at hloop with hfew
    · obtain ⟨p, hprompt, hrest⟩ := Option.bind_eq_some_iff.mp hcells
      obtain ⟨ps, hps, heq⟩ := Option.map_eq_some_iff.mp hrest
      obtain ⟨values, out', after'⟩ := ps
      simp only [Prompts.mk.injEq, List.map_cons, List.cons.injEq] at heq
      obtain ⟨⟨hvalue, rfl⟩, -, rfl⟩ := heq
      rw [placeInput_prompt hfew hprompt hvalue]
      exact ih hps hloop
    · cases hloop

/-- On its characters the loop does what it does on the cells of the prompts. -/
theorem placeInput_iff {s' : Placing} {input after : List Byte} :
    placeInput boatNum s input = some (s', after) ↔
      ∃ (cells : List Cell) (out : List Printed),
        promptCells cells.length input = some ⟨cells.map fun c => (c.val : ℤ), out, after⟩ ∧
        placeLoop boatNum s cells = some (s', []) := by
  constructor
  · exact placeInput_cells
  · rintro ⟨cells, out, hcells, hloop⟩
    exact placeInput_of_cells hcells hloop

end SyeLabs.Battleship
