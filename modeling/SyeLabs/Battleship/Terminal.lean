import Mathlib.Data.Fintype.Basic
import SyeLabs.Battleship.Screen
import SyeLabs.Library.PrefixCode

/-!
# The text on the terminal (`lab8/battleship.c`)

`printBoard`, the table of texts and the formats of `main`. Each item that is printed can
be told from the others by its first characters, so the text gives back the items.
-/

namespace SyeLabs.Battleship

def symbols : List Char := ['~', '0', 'o', 'X']

/-- A character of the grid is printed by `printf("%c ", ...)`, and a line feed behind the last
one of a row. -/
def symbolText (i : Cell) (symbol : Char) : List Char :=
  symbol :: ' ' :: if (i.val + 1) % GRID_WIDTH = 0 then ['\n'] else []

/- A negative `char` is below `DEFAULT`, the others are compared with `SUNKEN_BOAT`. -/
def printCells (grid : Cell → Byte) : List Cell → List Char
  | [] => []
  | i :: cells =>
    if 3 < (grid i).toNat then
      "Error: Invalid symbol in grid.: ".toList ++ [Char.ofNat (grid i).toNat, '\n']
    else symbolText i (symbols.getD (grid i).toNat ' ') ++ printCells grid cells

/-- `printBoard`; it is never called with NULL. -/
def printBoard (grid : Cell → Byte) : List Char := printCells grid (List.finRange GRID_SIZE)

def boardText (g : Grid) : List Char := printBoard fun c => (g c).toByte

/-- The entries of `strings` that are printed in the loop. -/
def StringsIdx.text : StringsIdx → String
  | opponentWait => "Waiting for opponent..."
  | attackCell => "Please enter a grid cell to attack your opponent"
  | userAttack => "You attacked"
  | opponentAttack => "Your opponent attacked"
  | miss => "MISS"
  | hit => "HIT"
  | userGrid => "User grid"
  | opponentGrid => "Opponent grid"
  | userWon => "YOU WON ^_^"
  | userLost => "YOU LOST T_T"
  | invCellAttacked => "Invalid ! You already attacked this cell"
  | invCellVal => "Invalid ! Please enter a grid cell index between 0-F"
  | userForfeit => "You forfeited the game"
  | opponentForfeit => "Your opponent forfeited the game"
  | recvFail => "recv failed"
  | recvConnClosed => "No bytes received, the connection was closed"
  | sendFail => "Send failed"

/-- What its format puts behind a text. -/
def StringsIdx.behind : StringsIdx → String
  | userAttack | opponentAttack => " "
  | userForfeit | opponentForfeit => ": "
  | sendFail => " after 3 retries, aborting.\n"
  | _ => "\n"

/- `%X` of a character below 128. -/
def hexText (b : Byte) : List Char := (Nat.toDigits 16 b.toNat).map Char.toUpper

def Printed.chars : Printed → List Char
  | .text s => (s.text ++ s.behind).toList
  | .cell b => hexText b ++ [':', ' ']
  | .board g => boardText g

/-- What is on the terminal below the placing of the boats; `connecting` are the lines of
`server_create` or `client_connect`. -/
def terminal (userGrid : Grid) (connecting : List Char) (out : List Printed) : List Char :=
  boardText userGrid ++ connecting ++ out.flatMap Printed.chars

/-! ### Boards -/

def symbol : GridState → Char
  | .default => '~'
  | .boat => '0'
  | .missedShot => 'o'
  | .sunkenBoat => 'X'

variable {g g' : Grid} {cells : List Cell}

theorem symbols_toByte (s : GridState) :
    ¬ 3 < s.toByte.toNat ∧ symbols.getD s.toByte.toNat ' ' = symbol s := by
  cases s with
  | default => exact ⟨by decide, rfl⟩
  | boat => exact ⟨by decide, rfl⟩
  | missedShot => exact ⟨by decide, rfl⟩
  | sunkenBoat => exact ⟨by decide, rfl⟩

theorem symbol_inj {s t : GridState} (h : symbol s = symbol t) : s = t := by
  revert h
  cases s <;> cases t <;> decide

theorem printCells_states (g : Grid) (cells : List Cell) :
    printCells (fun c => (g c).toByte) cells =
      cells.flatMap fun i => symbolText i (symbol (g i)) := by
  induction cells with
  | nil => rfl
  | cons i cells ih =>
    obtain ⟨hvalid, hsymbol⟩ := symbols_toByte (g i)
    rw [printCells, if_neg hvalid, hsymbol, ih, List.flatMap_cons]

/-- The characters of a board that are symbols, in the order of the cells. -/
def readBoard (text : List Char) : List Char := text.filter (· ∈ symbols)

theorem readBoard_symbolText (i : Cell) (s : GridState) :
    readBoard (symbolText i (symbol s)) = [symbol s] := by
  unfold symbolText
  split_ifs
  · cases s <;> rfl
  · cases s <;> rfl

theorem readBoard_cells (g : Grid) (cells : List Cell) :
    readBoard (printCells (fun c => (g c).toByte) cells) = cells.map fun i => symbol (g i) := by
  rw [printCells_states]
  induction cells with
  | nil => rfl
  | cons i cells ih =>
    rw [List.flatMap_cons, List.map_cons, ← ih, ← List.singleton_append,
      ← readBoard_symbolText i (g i)]
    exact List.filter_append ..

theorem boardText_inj (h : boardText g = boardText g') : g = g' := by
  have hread := congrArg readBoard h
  rw [boardText, boardText, printBoard, printBoard, readBoard_cells, readBoard_cells] at hread
  funext c
  exact symbol_inj (List.map_inj_left.mp hread c (List.mem_finRange c))

theorem boardText_length (g g' : Grid) : (boardText g).length = (boardText g').length := by
  have hlength : ∀ g : Grid, (boardText g).length =
      ((List.finRange GRID_SIZE).map fun i => (symbolText i ' ').length).sum := by
    intro g
    rw [boardText, printBoard, printCells_states, List.length_flatMap]
    rfl
  rw [hlength, hlength]

theorem boardText_second (g : Grid) : (boardText g)[1]? = some ' ' := by
  obtain ⟨cells, hcells⟩ : ∃ cells, List.finRange GRID_SIZE = (0 : Cell) :: cells := ⟨_, rfl⟩
  rw [boardText, printBoard, printCells_states, hcells, List.flatMap_cons]
  rfl

/-! ### The items -/

instance : Fintype StringsIdx :=
  Fintype.ofList [.opponentWait, .attackCell, .userAttack, .opponentAttack, .miss, .hit, .userGrid,
    .opponentGrid, .userWon, .userLost, .invCellAttacked, .invCellVal, .userForfeit,
    .opponentForfeit, .recvFail, .recvConnClosed, .sendFail] fun s => by cases s <;> simp

theorem text_second (s : StringsIdx) :
    ∃ c, (Printed.text s).chars[1]? = some c ∧ c ≠ ':' ∧ c ≠ ' ' := by
  cases s <;> exact ⟨_, rfl, by decide, by decide⟩

theorem text_beginning : ∀ s t : StringsIdx,
    (Printed.text s).chars <+: (Printed.text t).chars → s = t := by
  decide +kernel

theorem cell_second : ∀ c : Cell, (Printed.cell (cellByte c)).chars[1]? = some ':' := by decide

theorem cell_beginning : ∀ c d : Cell,
    (Printed.cell (cellByte c)).chars <+: (Printed.cell (cellByte d)).chars → c = d := by
  decide

theorem second_of_beginning {u v : List Char} {c : Char} (huv : u <+: v) (hu : u[1]? = some c) :
    v[1]? = some c := by
  obtain ⟨rest, rfl⟩ := huv
  have hlength : 1 < u.length := by
    by_contra hshort
    rw [List.getElem?_eq_none (by omega)] at hu
    cases hu
  rw [List.getElem?_append_left hlength, hu]

/-- An item that is printed in a game. -/
def Printed.Known (i : Printed) : Prop := ∀ b, i = .cell b → ∃ c, b = cellByte c

/- The second character tells texts, cells and boards apart. -/
theorem chars_beginning {i j : Printed} (hi : i.Known) (hj : j.Known) (h : i.chars <+: j.chars) :
    i = j := by
  cases i with
  | text s =>
    obtain ⟨c, hc, hcolon, hspace⟩ := text_second s
    have hsecond := second_of_beginning h hc
    cases j with
    | text t => rw [text_beginning s t h]
    | cell b =>
      obtain ⟨d, rfl⟩ := hj b rfl
      rw [cell_second d] at hsecond
      exact absurd (Option.some.inj hsecond).symm hcolon
    | board g =>
      rw [Printed.chars, boardText_second g] at hsecond
      exact absurd (Option.some.inj hsecond).symm hspace
  | cell b =>
    obtain ⟨c, rfl⟩ := hi b rfl
    have hsecond := second_of_beginning h (cell_second c)
    cases j with
    | text t =>
      obtain ⟨d, hd, hcolon, _⟩ := text_second t
      rw [hd] at hsecond
      exact absurd (Option.some.inj hsecond) hcolon
    | cell b' =>
      obtain ⟨d, rfl⟩ := hj b' rfl
      rw [cell_beginning c d h]
    | board g =>
      rw [Printed.chars, boardText_second g] at hsecond
      cases hsecond
  | board g =>
    have hsecond := second_of_beginning h (boardText_second g)
    cases j with
    | text t =>
      obtain ⟨d, hd, _, hspace⟩ := text_second t
      rw [hd] at hsecond
      exact absurd (Option.some.inj hsecond) hspace
    | cell b' =>
      obtain ⟨d, rfl⟩ := hj b' rfl
      rw [cell_second d] at hsecond
      cases hsecond
    | board g' => rw [boardText_inj (h.eq_of_length (boardText_length g g'))]

theorem chars_ne_nil {i : Printed} (hi : i.Known) : i.chars ≠ [] := by
  intro hnil
  have hboard : Printed.chars (.board fun _ => .default) ≠ [] := fun h => by cases h
  have hbeginning : i.chars <+: Printed.chars (.board fun _ => .default) := hnil ▸ List.nil_prefix
  rw [chars_beginning hi (fun _ h => by cases h) hbeginning] at hnil
  exact hboard hnil

theorem terminal_inj {connecting : List Char} {out out' : List Printed}
    (hout : ∀ i ∈ out, i.Known) (hout' : ∀ i ∈ out', i.Known)
    (h : terminal g connecting out = terminal g' connecting out') : g = g' ∧ out = out' := by
  unfold terminal at h
  rw [List.append_assoc, List.append_assoc] at h
  obtain ⟨hboard, hrest⟩ := List.append_inj h (boardText_length g g')
  exact ⟨boardText_inj hboard, PrefixCode.flatMap_inj (S := {i : Printed | i.Known})
    (fun i hi => chars_ne_nil hi) (fun i hi j hj => chars_beginning hi hj) hout hout'
    (List.append_cancel_left hrest)⟩

namespace Screen

theorem Shows.known {p : Player} (h : Shows g p) : ∀ i ∈ p.out, i.Known := by
  rintro i hi b rfl
  exact h.cells b hi

end Screen

/-- Whatever was typed and received, two games that look the same are in the same state; an
access outside of the grids ends a game. -/
theorem terminal_boards {server server' : Bool} {errno errno' : ℕ} {es es' : List Act}
    {p p' : Player} (connecting : List Char)
    (hrun : Run.exec Player.step (Player.start g server errno) es = some p)
    (hrun' : Run.exec Player.step (Player.start g' server' errno') es' = some p')
    (hsame : terminal g connecting p.out = terminal g' connecting p'.out) :
    p.boards = p'.boards := by
  have hshows := Screen.shows_run hrun
  have hshows' := Screen.shows_run hrun'
  obtain ⟨rfl, hout⟩ := terminal_inj hshows.known hshows'.known hsame
  rw [← hshows.boards, ← hshows'.boards, hout]

/- A shot at cell A that was answered by this byte. -/
def missedA (digit : ℤ) (b : Byte) : List Act :=
  [.tau, .input digit, .tau, .input 10, .sendOk, .recv (.byte b)]

theorem terminal_boards_missedA : ∃ p p',
    Run.exec Player.step (Player.start (fun _ => .default) true 0) (missedA 65 2#8) = some p ∧
    Run.exec Player.step (Player.start (fun _ => .default) true 0) (missedA 97 0#8) = some p' ∧
    p.boards = p'.boards := by
  have hout : ∀ typed ∈ [missedA 65 2#8, missedA 97 0#8],
      (Run.exec Player.step (Player.start (fun _ => .default) true 0) typed).map Player.out =
        some [.text .attackCell, .text .userAttack, .cell 10#8, .text .miss, .text .opponentGrid,
          .board (Function.update (fun _ => .default) 10 .missedShot)] := by
    decide +kernel
  obtain ⟨p, hrun, hp⟩ := Option.map_eq_some_iff.mp (hout (missedA 65 2#8) (by simp))
  obtain ⟨p', hrun', hp'⟩ := Option.map_eq_some_iff.mp (hout (missedA 97 0#8) (by simp))
  exact ⟨p, p', hrun, hrun', terminal_boards [] hrun hrun' (by rw [hp, hp'])⟩

end SyeLabs.Battleship
