import PotatOS.Lib.Memory
import PotatOS.Lib.Word

/-!
# Drawing text (`renderfont.c`)

The cursor is a pixel position that `write_char` moves by one glyph and
`new_line` by one line. Where each glyph is drawn and whether a coordinate has
wrapped around are ghost; colours and the pixels' values are left out.
-/

namespace PotatOS.Drivers

open Memory

/-- The framebuffer's size and the font's height. -/
structure Screen where
  width : Nat
  height : Nat
  charSize : Nat
  fontAvaliable : Bool := true
  deriving DecidableEq, Repr

/-- `ch_X` and `ch_Y`, and ghost: the pixels `draw_char` drew and whether a coordinate wrapped. -/
structure Console where
  chX : Nat := 5
  chY : Nat := 5
  drawn : List (Nat × Nat) := []
  wrapped : Bool := false
  deriving DecidableEq, Repr

namespace Console

def moveRight (n : Nat) (s : Console) : Console :=
  { s with chX := add64 s.chX n, wrapped := s.wrapped || 2 ^ 64 ≤ s.chX + n }

def moveLeft (n : Nat) (s : Console) : Console :=
  { s with chX := sub64 s.chX n, wrapped := s.wrapped || s.chX < n }

def moveDown (n : Nat) (s : Console) : Console :=
  { s with chY := add64 s.chY n, wrapped := s.wrapped || 2 ^ 64 ≤ s.chY + n }

def moveUp (n : Nat) (s : Console) : Console :=
  { s with chY := sub64 s.chY n, wrapped := s.wrapped || s.chY < n }

end Console

variable (screen : Screen)

/-- The pixels of a glyph, row by row. -/
def drawChar (xCoord yCoord : Nat) (s : Console) : Console :=
  let pixels := (List.range screen.charSize).flatMap fun y =>
    (List.range 8).map fun x => (add64 xCoord x, add64 yCoord y)
  { s with drawn := s.drawn ++ pixels }

/-- The picture moves up with the cursor. -/
def scrollLine (s : Console) : Console := s.moveUp (screen.charSize + 1)

def newLine (s : Console) : Console :=
  let s := { s with chX := 5 }.moveDown (screen.charSize + 1)
  if sub64 screen.height screen.charSize ≤ s.chY then scrollLine screen s else s

/-- `'\n'` and `'\e'`. -/
def newline : UInt8 := 10
def escape : UInt8 := 27

def writeChar (ch : UInt8) (s : Console) : Console :=
  if ch = newline then newLine screen s
  else
    let s := (drawChar screen s.chX s.chY s).moveRight 8
    if sub64 screen.width 5 ≤ s.chX then newLine screen s else s

/-- The loop over the bytes at `str`, with a bound on its rounds. An escape stands for a colour and is
seven bytes long. -/
def writeString (m : Mem) : Nat → Nat → Console → Option Console
  | 0, _, _ => none
  | rounds + 1, str, s =>
    if m str = 0 then some s
    else if m str = escape then writeString m rounds (str + 7) s
    else writeString m rounds (str + 1) (writeChar screen (m str) s)

/-- The characters that it prints. -/
def printed (m : Mem) : Nat → Nat → List UInt8
  | 0, _ => []
  | rounds + 1, str =>
    if m str = 0 then []
    else if m str = escape then printed m rounds (str + 7)
    else m str :: printed m rounds (str + 1)

theorem writeString_eq {m : Mem} {rounds str : Nat} {s s' : Console}
    (h : writeString screen m rounds str s = some s') :
    s' = (printed m rounds str).foldl (fun s ch => writeChar screen ch s) s := by
  induction rounds generalizing str s with
  | zero => cases h
  | succ rounds ih =>
    rw [writeString] at h
    rw [printed]
    split at h
    · rw [if_pos ‹_›]
      exact (Option.some.inj h).symm
    · rw [if_neg ‹_›]
      split at h
      · rw [if_pos ‹_›]
        exact ih h
      · rw [if_neg ‹_›]
        exact ih h

/-! ### The grid of glyphs -/

/-- What `init_font` and the bootloader provide. -/
structure Screen.Valid : Prop where
  width : 32 ≤ screen.width ∧ screen.width < 2 ^ 64
  font : 1 ≤ screen.charSize ∧ screen.charSize < 2 ^ 8
  height : 2 * screen.charSize + 6 < screen.height ∧ screen.height < 2 ^ 64
  loaded : screen.fontAvaliable = true

def Screen.columns : Nat := (screen.width - 3) / 8

/-- Where the glyph of a column starts. -/
def columnX (column : Nat) : Nat := 5 + 8 * column

/-- A glyph in this column ends on the screen. Only the last column can hang over the edge. -/
def Screen.Fits (column : Nat) : Prop := columnX column + 8 ≤ screen.width

instance (column : Nat) : Decidable (screen.Fits column) := inferInstanceAs (Decidable (_ ≤ _))

/-- The cursor is at a column, on a line that ends above the lower edge, and everything so far was drawn
on the screen. -/
structure OnGrid (s : Console) (column : Nat) : Prop where
  inside : column < screen.columns
  chX : s.chX = columnX column
  chY : s.chY + screen.charSize < screen.height
  noWrap : s.wrapped = false
  drawn : ∀ p ∈ s.drawn, p.1 < screen.width ∧ p.2 < screen.height

/-- The column after a character. -/
def Screen.nextColumn (column : Nat) (ch : UInt8) : Nat :=
  if ch = newline ∨ column + 1 = screen.columns then 0 else column + 1

/-- The column after a text. -/
def Screen.columnAfter (column : Nat) (text : List UInt8) : Nat := text.foldl screen.nextColumn column

section grid

variable {screen : Screen} {s : Console} {column : Nat} (valid : screen.Valid)
include valid

theorem Screen.Valid.columns_iff : column < screen.columns ↔ columnX column + 5 < screen.width := by
  have := valid.width
  unfold Screen.columns columnX
  omega

theorem Screen.Valid.fits_inner (more : column + 1 < screen.columns) : screen.Fits column := by
  have room := valid.columns_iff.mp more
  unfold Screen.Fits columnX at *
  omega

theorem onGrid_start : OnGrid screen {} 0 := by
  have width := valid.width
  have height := valid.height
  exact ⟨valid.columns_iff.mpr (by unfold columnX; omega), rfl, by dsimp only; omega, rfl, fun p inside => by cases inside⟩

theorem OnGrid.newLine (chY : s.chY + screen.charSize < screen.height) (noWrap : s.wrapped = false)
    (drawn : ∀ p ∈ s.drawn, p.1 < screen.width ∧ p.2 < screen.height) :
    OnGrid screen (newLine screen s) 0 := by
  have height := valid.height
  have font := valid.font
  have start := onGrid_start valid
  have below : add64 s.chY (screen.charSize + 1) = s.chY + (screen.charSize + 1) := add64_of_lt (by omega)
  have edge : sub64 screen.height screen.charSize = screen.height - screen.charSize := sub64_of_le (by omega)
  have fits : ¬ 2 ^ 64 ≤ s.chY + (screen.charSize + 1) := by omega
  have moved : { s with chX := 5 }.moveDown (screen.charSize + 1) =
      { s with chX := 5, chY := s.chY + (screen.charSize + 1) } := by
    rw [Console.moveDown, below, noWrap, decide_eq_false fits]
    rfl
  unfold Drivers.newLine
  dsimp only
  rw [moved, edge]
  dsimp only
  split
  · have back : ¬ s.chY + (screen.charSize + 1) < screen.charSize + 1 := by omega
    have lifted : scrollLine screen { s with chX := 5, chY := s.chY + (screen.charSize + 1) } = { s with chX := 5 } := by
      rw [scrollLine, Console.moveUp, sub64_of_le (by dsimp only; omega), decide_eq_false back, Bool.or_false]
      dsimp only
      rw [Nat.add_sub_cancel]
    rw [lifted]
    exact ⟨start.inside, rfl, chY, noWrap, drawn⟩
  · exact ⟨start.inside, rfl, by dsimp only; omega, noWrap, drawn⟩

theorem OnGrid.writeChar {ch : UInt8} (grid : OnGrid screen s column) (fits : ch ≠ newline → screen.Fits column) :
    OnGrid screen (writeChar screen ch s) (screen.nextColumn column ch) := by
  have width := valid.width
  have height := valid.height
  have chX := grid.chX
  have chY := grid.chY
  unfold Drivers.writeChar Screen.nextColumn
  by_cases breaks : ch = newline
  · rw [if_pos breaks, if_pos (.inl breaks)]
    exact OnGrid.newLine valid grid.chY grid.noWrap grid.drawn
  · have fits := fits breaks
    unfold Screen.Fits at fits
    have right : add64 s.chX 8 = columnX (column + 1) := by
      rw [chX, add64_of_lt (by omega)]
      unfold columnX
      omega
    have drawn : ∀ p ∈ (drawChar screen s.chX s.chY s).drawn, p.1 < screen.width ∧ p.2 < screen.height := by
      intro p inside
      rcases List.mem_append.mp inside with old | new
      · exact grid.drawn p old
      · obtain ⟨y, row, inRow⟩ := List.mem_flatMap.mp new
        obtain ⟨x, inGlyph, rfl⟩ := List.mem_map.mp inRow
        have row := List.mem_range.mp row
        have inGlyph := List.mem_range.mp inGlyph
        rw [add64_of_lt (by omega), add64_of_lt (by omega)]
        exact ⟨by dsimp only; omega, by dsimp only; omega⟩
    have noWrap : ((drawChar screen s.chX s.chY s).moveRight 8).wrapped = false := by
      have small : ¬ 2 ^ 64 ≤ s.chX + 8 := by omega
      show (s.wrapped || decide (2 ^ 64 ≤ s.chX + 8)) = false
      rw [grid.noWrap, decide_eq_false small]
      rfl
    have edge : sub64 screen.width 5 = screen.width - 5 := sub64_of_le (by omega)
    have place : ((drawChar screen s.chX s.chY s).moveRight 8).chX = columnX (column + 1) := right
    have next : column + 1 < screen.columns ↔ columnX (column + 1) + 5 < screen.width := valid.columns_iff
    have inside := grid.inside
    rw [if_neg breaks]
    dsimp only
    rw [place, edge]
    split
    · rw [if_pos (.inr (by omega))]
      exact OnGrid.newLine valid chY noWrap drawn
    · rw [if_neg (by rintro (impossible | last); exacts [breaks impossible, by omega])]
      exact ⟨by omega, place, chY, noWrap, drawn⟩

omit valid in
theorem OnGrid.moveLeft {n : Nat} (grid : OnGrid screen s column) (enough : n ≤ column) :
    OnGrid screen (s.moveLeft (8 * n)) (column - n) := by
  have chX := grid.chX
  have inside := grid.inside
  unfold columnX at chX
  have room : ¬ s.chX < 8 * n := by omega
  refine ⟨by omega, ?_, grid.chY, ?_, grid.drawn⟩
  · show sub64 s.chX (8 * n) = columnX (column - n)
    rw [sub64_of_le (by omega)]
    unfold columnX
    omega
  · show (s.wrapped || decide (s.chX < 8 * n)) = false
    rw [grid.noWrap, decide_eq_false room]
    rfl

theorem OnGrid.text {text : List UInt8} (grid : OnGrid screen s column)
    (fits : ∀ before ch after, text = before ++ ch :: after → ch ≠ newline →
      screen.Fits (screen.columnAfter column before)) :
    OnGrid screen (text.foldl (fun s ch => Drivers.writeChar screen ch s) s) (screen.columnAfter column text) := by
  induction text generalizing s column with
  | nil => exact grid
  | cons ch text ih =>
    have first := grid.writeChar valid (fits [] ch text rfl)
    apply ih first
    intro before c after split
    exact fits (ch :: before) c after (by rw [split]; rfl)

end grid
end PotatOS.Drivers
