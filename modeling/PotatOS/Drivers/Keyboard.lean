import PotatOS.Drivers.Renderfont

/-!
# The keyboard (`keyboard.c`)

A key press moves the cursor through `printf` and by subtracting glyph widths
from `ch_X`. The subtractions assume that the cursor has not just moved to a
new line, so where the cursor stands in the line decides whether it survives.
-/

namespace PotatOS.Drivers

open Memory

def characterTable : List UInt8 :=
  [0,   0,  49,  50,  51,  52,  53,  54,  55,  56,  57,  48,
    45,  61,   0,   9, 113, 119, 101, 114, 116, 121, 117, 105,
   111, 112,  91,  93,   0,   0,  97, 115, 100, 102, 103, 104,
   106, 107, 108,  59,  39,  96,   0,  92, 122, 120,  99, 118,
    98, 110, 109,  44,  46,  47,   0,  42,   0,  32,   0,   0,
     0,   0,   0,   0,   0,   0,   0,   0,   0,   0,   0,   0,
     0,   0,   0,   0,   0,   0,   0,   0,  27,   0,   0,   0,
     0,   0,   0,   0,   0,   0,   0,  14,  28,   0,   0,   0,
     0,   0,   0,   0,   0,  47,   0,   0,   0,   0,   0,   0,
     0,   0,   0,   0,   0,   0,   0,   0,   0,   0,   0,   0,
    30,  31,  32,  33,  34,  35,  36,  37,  38,  39,  40,   0,
     0,   0,   0,   0,   0,   0,   0,  44]

def shiftedCharacterTable : List UInt8 :=
  [0,   0,  33,  64,  35,  36,  37,  94,  38,  42,  40,  41,
    95,  43,   0,   9,  81,  87,  69,  82,  84,  89,  85,  73,
    79,  80, 123, 125,   0,   0,  65,  83,  68,  70,  71,  72,
    74,  75,  76,  58,  34, 126,   0, 124,  90,  88,  67,  86,
    66,  78,  77,  60,  62,  63,   0,  42,   0,  32,   0,   0,
     0,   0,   0,   0,   0,   0,   0,   0,   0,   0,   0,   0,
     0,   0,   0,   0,   0,   0,   0,   0,  27,   0,   0,   0,
     0,   0,   0,   0,   0,   0,   0,  14,  28,   0,   0,   0,
     0,   0,   0,   0,   0,  63,   0,   0,   0,   0,   0,   0,
     0,   0,   0,   0,   0,   0,   0,   0,   0,   0,   0,   0,
    30,  31,  32,  33,  34,  35,  36,  37,  38,  39,  40,   0,
     0,   0,   0,   0,   0,   0,   0,  44]

structure KeyboardData where
  inputLen : Nat := 0
  currentlyReading : Bool := false
  shifted : Bool := false
  caps : Bool := false
  currentBuffer : Nat := 0
  bufferSize : Nat := 0
  deriving DecidableEq, Repr

/-- The console, `current_input_data` and the memory that holds the buffers. -/
structure Terminal where
  console : Console := {}
  data : Option KeyboardData := none
  memory : Mem := fun _ => 0

/-- `'a'` and `'z'`, between which the two tables differ by the case of a letter. -/
def isLetter (ch : UInt8) : Bool := 97 ≤ ch && ch ≤ 122

/-- The character of a key press. -/
def character (data : KeyboardData) (scancode : UInt8) : UInt8 :=
  let plain := characterTable.getD scancode.toNat 0
  let upper := shiftedCharacterTable.getD scancode.toNat 0
  if data.shifted && !data.caps then upper
  else if data.shifted && data.caps then (if isLetter plain then plain else upper)
  else if !data.shifted && data.caps then (if isLetter plain then upper else plain)
  else plain

section calls

variable (screen : Screen)

/-- `printf` of one character. -/
def printf (ch : UInt8) (s : Console) : Console :=
  if screen.fontAvaliable then writeChar screen ch s else s

def space : UInt8 := 32

def drawCursor (s : Console) : Console := (writeChar screen space s).moveLeft 8

/-- `current_buffer[i] = ch`. -/
def KeyboardData.put (data : KeyboardData) (i : Nat) (ch : UInt8) (m : Mem) : Mem :=
  store m (add64 data.currentBuffer i) 1 ch.toNat

/-- `outputFull` is the bit of the status register that says that a scancode has arrived. -/
def keyboardIsr (outputFull : Bool) (scancode : UInt8) (t : Terminal) : Terminal :=
  match t.data with
  | none => t
  | some data =>
    if !data.currentlyReading then t
    else if !outputFull then t
    else if scancode &&& 0x80 ≠ 0 then
      if scancode = 0xAA ∨ scancode = 0xB6 then { t with data := some { data with shifted := false } } else t
    else if scancode = 0x0E ∧ 0 < data.inputLen then
      let covered := printf screen space ((printf screen space t.console).moveLeft 16)
      { console := drawCursor screen (covered.moveLeft 8)
        data := some { data with inputLen := data.inputLen - 1 }
        memory := data.put (data.inputLen - 1) 0 t.memory }
    else if scancode = 0x3A then { t with data := some { data with caps := !data.caps } }
    else if scancode = 0x2A ∨ scancode = 0x36 then { t with data := some { data with shifted := true } }
    else if scancode = 0x1C ∨ data.bufferSize = data.inputLen then
      { console := (printf screen space t.console).moveLeft 8
        data := some { data with currentlyReading := false }
        memory := data.put data.inputLen 0 t.memory }
    else
      let ch := character data scancode
      { console := drawCursor screen (printf screen ch t.console)
        data := some { data with inputLen := add64 data.inputLen 1 }
        memory := data.put data.inputLen ch t.memory }

/-- What moves the cursor, and `read_ps2_kb` making a read active. -/
inductive Call where
  | writeChar (ch : UInt8)
  | writeString (rounds str : Nat)
  | drawCursor
  | keyboardIsr (outputFull : Bool) (scancode : UInt8)
  | reading (data : KeyboardData)

/-- The memory may change between two calls. -/
def Call.run (memory : Mem) : Call → Terminal → Option Terminal
  | .writeChar ch, t => some { t with console := Drivers.writeChar screen ch t.console, memory }
  | .writeString rounds str, t =>
    (Drivers.writeString screen memory rounds str t.console).map fun console => { t with console, memory }
  | .drawCursor, t => some { t with console := Drivers.drawCursor screen t.console, memory }
  | .keyboardIsr outputFull scancode, t => some (Drivers.keyboardIsr screen outputFull scancode { t with memory })
  | .reading data, t => some { t with data := some { data with currentlyReading := true }, memory }

/-- A run of calls, each of which is allowed in the state it finds. -/
inductive Calls (allowed : Mem → Call → Terminal → Prop) : Terminal → Terminal → Prop where
  | start {t : Terminal} : Calls allowed t t
  | step {t t' t'' : Terminal} (calls : Calls allowed t t') (memory : Mem) (call : Call)
      (ok : allowed memory call t') (run : call.run screen memory t' = some t'') : Calls allowed t t''

/-- No coordinate wrapped and every pixel is on the screen. -/
def OnScreen (s : Console) : Prop :=
  s.wrapped = false ∧ ∀ p ∈ s.drawn, p.1 < screen.width ∧ p.2 < screen.height

def column (s : Console) : Nat := (s.chX - 5) / 8

/-- When a call keeps the cursor on the grid. -/
def Call.Fits (memory : Mem) : Call → Terminal → Prop
  | .writeChar ch, t => ch ≠ newline → screen.Fits (column t.console)
  | .writeString rounds str, t => ∀ before ch after, printed memory rounds str = before ++ ch :: after →
      ch ≠ newline → screen.Fits (screen.columnAfter (column t.console) before)
  | .drawCursor, t => column t.console + 1 < screen.columns
  | .keyboardIsr outputFull scancode, t => ∀ data, t.data = some data → data.currentlyReading →
      outputFull → scancode &&& 0x80 = 0 →
      if scancode = 0x0E ∧ 0 < data.inputLen then
        1 ≤ column t.console ∧ column t.console + 1 < screen.columns
      else if scancode = 0x3A ∨ scancode = 0x2A ∨ scancode = 0x36 then True
      else if scancode = 0x1C ∨ data.bufferSize = data.inputLen then column t.console + 1 < screen.columns
      else screen.Fits (column t.console) ∧ column t.console + 2 ≠ screen.columns
  | .reading _, _ => True

end calls

section grid

variable {screen : Screen} {s : Console} {here : Nat} (valid : screen.Valid)

theorem OnGrid.column (grid : OnGrid screen s here) : Drivers.column s = here := by
  have chX := grid.chX
  unfold columnX at chX
  unfold Drivers.column
  omega

theorem OnGrid.onScreen (grid : OnGrid screen s here) : OnScreen screen s := ⟨grid.noWrap, grid.drawn⟩

theorem nextColumn_inner {ch : UInt8} (glyph : ch ≠ newline) (more : here + 1 < screen.columns) :
    screen.nextColumn here ch = here + 1 := by
  apply if_neg
  rintro (breaks | last)
  · exact glyph breaks
  · omega

include valid

/-- A glyph that is not the last of its line can be gone back over. -/
theorem OnGrid.writeChar_moveLeft {ch : UInt8} {n : Nat} (grid : OnGrid screen s here) (glyph : ch ≠ newline)
    (more : here + 1 < screen.columns) (enough : n ≤ here + 1) :
    OnGrid screen ((Drivers.writeChar screen ch s).moveLeft (8 * n)) (here + 1 - n) := by
  have written : OnGrid screen (Drivers.writeChar screen ch s) _ :=
    grid.writeChar valid fun _ => valid.fits_inner more
  rw [nextColumn_inner glyph more] at written
  exact written.moveLeft enough

theorem OnGrid.drawCursor (grid : OnGrid screen s here) (more : here + 1 < screen.columns) :
    OnGrid screen (Drivers.drawCursor screen s) here :=
  grid.writeChar_moveLeft valid (by decide) more (n := 1) (by omega)

theorem printf_eq (ch : UInt8) : printf screen ch s = writeChar screen ch s := if_pos valid.loaded

theorem OnGrid.cover (grid : OnGrid screen s here) (some : 1 ≤ here) (more : here + 1 < screen.columns) :
    OnGrid screen (Drivers.drawCursor screen
      ((printf screen space ((printf screen space s).moveLeft 16)).moveLeft 8)) (here - 1) := by
  rw [printf_eq valid, printf_eq valid]
  have glyph : space ≠ newline := by decide
  have back := grid.writeChar_moveLeft valid glyph more (n := 2) (by omega)
  have again := back.writeChar_moveLeft valid glyph (by omega) (n := 1) (by omega)
  have cursor := again.drawCursor valid (by omega)
  rwa [show here + 1 - 2 + 1 - 1 = here - 1 by omega] at cursor

theorem OnGrid.type {ch : UInt8} (grid : OnGrid screen s here) (fits : screen.Fits here)
    (more : here + 2 ≠ screen.columns) :
    OnGrid screen (Drivers.drawCursor screen (printf screen ch s)) (screen.nextColumn here ch) := by
  have wide := valid.width
  have inside := grid.inside
  rw [printf_eq valid]
  apply (grid.writeChar valid fun _ => fits).drawCursor valid
  unfold Screen.nextColumn
  unfold Screen.columns at *
  split <;> omega

theorem OnGrid.keyboardIsr {outputFull : Bool} {scancode : UInt8} (memory : Mem) (t : Terminal)
    (grid : OnGrid screen t.console here)
    (fits : (Call.keyboardIsr outputFull scancode).Fits screen memory t) :
    ∃ there, OnGrid screen (Drivers.keyboardIsr screen outputFull scancode t).console there := by
  unfold Call.Fits at fits
  unfold Drivers.keyboardIsr
  cases source : t.data with
  | none => exact ⟨here, grid⟩
  | some data =>
    dsimp only
    split
    · exact ⟨here, grid⟩
    next reading =>
    split
    · exact ⟨here, grid⟩
    next full =>
    split
    · split <;> exact ⟨here, grid⟩
    next press =>
    have fits := fits data source (by simpa using reading) (by simpa using full) (by simpa using press)
    rw [grid.column] at fits
    split
    · rw [if_pos ‹_›] at fits
      exact ⟨here - 1, grid.cover valid fits.1 fits.2⟩
    next notBackspace =>
    rw [if_neg notBackspace] at fits
    split
    · exact ⟨here, grid⟩
    next notCaps =>
    split
    · exact ⟨here, grid⟩
    next notShift =>
    rw [if_neg (by rintro (caps | shift); exacts [notCaps caps, notShift shift])] at fits
    split
    · rw [if_pos ‹_›] at fits
      rw [printf_eq valid]
      exact ⟨here, grid.drawCursor valid fits⟩
    next notEnter =>
    rw [if_neg notEnter] at fits
    exact ⟨_, grid.type valid fits.1 fits.2⟩

theorem OnGrid.call {memory : Mem} {call : Call} {t t' : Terminal} (grid : OnGrid screen t.console here)
    (fits : call.Fits screen memory t) (run : call.run screen memory t = some t') :
    ∃ there, OnGrid screen t'.console there := by
  cases call with
  | writeChar ch =>
    obtain rfl := Option.some.inj run
    rw [Call.Fits, grid.column] at fits
    exact ⟨_, grid.writeChar valid fits⟩
  | writeString rounds str =>
    obtain ⟨console, written, rfl⟩ := Option.map_eq_some_iff.mp run
    rw [Call.Fits, grid.column] at fits
    rw [writeString_eq screen written]
    exact ⟨_, grid.text valid fits⟩
  | drawCursor =>
    obtain rfl := Option.some.inj run
    rw [Call.Fits, grid.column] at fits
    exact ⟨here, grid.drawCursor valid fits⟩
  | keyboardIsr outputFull scancode =>
    obtain rfl := Option.some.inj run
    exact OnGrid.keyboardIsr valid memory { t with memory } grid fits
  | reading data =>
    obtain rfl := Option.some.inj run
    exact ⟨here, grid⟩

/-- The cursor stays on the screen in every run that keeps clear of the right edge. -/
theorem cursor_onScreen {data : Option KeyboardData} {memory : Mem} {t : Terminal}
    (calls : Calls screen (fun memory call t => call.Fits screen memory t) ⟨{}, data, memory⟩ t) :
    OnScreen screen t.console := by
  have grid : ∃ there, OnGrid screen t.console there := by
    induction calls with
    | start => exact ⟨0, onGrid_start valid⟩
    | step calls memory call fits run ih =>
      obtain ⟨here, grid⟩ := ih
      exact grid.call valid fits run
  obtain ⟨_, grid⟩ := grid
  exact grid.onScreen

end grid

/-- Seven glyphs a line: text, the cursor and a key press. -/
theorem cursor_onScreen_sevenColumns : ∃ t : Terminal, OnScreen ⟨64, 100, 16, true⟩ t.console ∧ t.console.chX = columnX 2 := by
  let screen : Screen := ⟨64, 100, 16, true⟩
  let memory : Mem := fun _ => 0
  have valid : screen.Valid := ⟨by decide, by decide, by decide, rfl⟩
  have calls : ∃ t, Calls screen (fun memory call t => call.Fits screen memory t) ⟨{}, none, memory⟩ t ∧
      t.console.chX = columnX 2 := by
    refine ⟨_, .step (.step (.step (.step .start memory (.writeChar 62) ?_ rfl) memory .drawCursor ?_ rfl)
      memory (.reading { bufferSize := 9 }) trivial rfl) memory (.keyboardIsr true 0x1E) ?_ rfl, by decide⟩
    · exact fun _ => by decide
    · show _ < _
      decide
    · intro data source _ _ _
      obtain rfl := Option.some.inj source
      decide
  obtain ⟨t, calls, place⟩ := calls
  exact ⟨t, cursor_onScreen valid calls, place⟩

/-- Three glyphs a line: the cursor drawn in the last column begins a new line and `ch_X` wraps. -/
theorem drawCursor_lastColumn : ¬ ∀ (screen : Screen), screen.Valid → ∀ (memory : Mem) (t : Terminal),
    Calls screen (fun _ _ _ => True) ⟨{}, none, memory⟩ t → OnScreen screen t.console := by
  intro onScreen
  let memory : Mem := fun _ => 0
  have calls : ∃ t, Calls ⟨32, 100, 1, true⟩ (fun _ _ _ => True) ⟨{}, none, memory⟩ t ∧ t.console.wrapped = true :=
    ⟨_, .step (.step (.step .start memory (.writeChar 62) trivial rfl) memory (.writeChar 62) trivial rfl)
      memory .drawCursor trivial rfl, by decide⟩
  obtain ⟨t, calls, wrapped⟩ := calls
  have kept := onScreen ⟨32, 100, 1, true⟩ ⟨by decide, by decide, by decide, rfl⟩ memory t calls
  rw [kept.1] at wrapped
  cases wrapped

end PotatOS.Drivers
