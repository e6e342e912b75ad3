import PotatOS.Drivers.KeyboardReads

/-!
# Editing a line

`Line` is the line as the person at the keyboard sees it: keys with a character
append it, backspace takes the last one away. The handler agrees with it as long
as no key reaches its last branch without having a character.
-/

namespace PotatOS.Drivers

open Memory

structure Line where
  text : List UInt8 := []
  shifted : Bool := false
  caps : Bool := false
  ended : Bool := false
  deriving DecidableEq, Repr

/-- The character of a key: caps lock turns the case of letters around, shift picks the other character. -/
def keyCharacter (shifted caps : Bool) (scancode : UInt8) : Option UInt8 :=
  let plain := characterTable.getD scancode.toNat 0
  let upper := shiftedCharacterTable.getD scancode.toNat 0
  let ch := if (if isLetter plain then shifted ^^ caps else shifted) then upper else plain
  if ch = 0 then none else some ch

/-- A key press; `room` is the number of characters that fit into the buffer. -/
def Line.press (room : Nat) (scancode : UInt8) (line : Line) : Line :=
  if scancode = 0x0E then { line with text := line.text.dropLast }
  else if scancode = 0x3A then { line with caps := !line.caps }
  else if scancode = 0x2A ∨ scancode = 0x36 then { line with shifted := true }
  else if scancode = 0x1C ∨ line.text.length = room then { line with ended := true }
  else match keyCharacter line.shifted line.caps scancode with
    | none => line
    | some ch => { line with text := line.text ++ [ch] }

def Line.key (room : Nat) (scancode : UInt8) (line : Line) : Line :=
  if line.ended then line
  else if scancode &&& 0x80 = 0 then line.press room scancode
  else if scancode = 0xAA ∨ scancode = 0xB6 then { line with shifted := false } else line

/-- The line after the keys. -/
def Line.keys (room : Nat) (codes : List UInt8) (line : Line) : Line := codes.foldl (fun line code => line.key room code) line

/-- The keys as the handler takes them. -/
def typeKeys (screen : Screen) (codes : List UInt8) (t : Terminal) : Terminal :=
  codes.foldl (fun t code => keyboardIsr screen true code t) t

/-- A key that changes the line's text while there is room has a character, or it is backspace and there is one to
take away. -/
def Typed (room : Nat) (line : Line) (scancode : UInt8) : Prop :=
  line.ended = false → scancode &&& 0x80 = 0 → isModifier scancode = false → scancode ≠ 0x1C →
    line.text.length ≠ room →
    (scancode = 0x0E ∧ line.text ≠ []) ∨ keyCharacter line.shifted line.caps scancode ≠ none

instance (room : Nat) (line : Line) (scancode : UInt8) : Decidable (Typed room line scancode) :=
  inferInstanceAs (Decidable (_ → _))

/-- Every key is typed so. -/
def AllTyped (room : Nat) : List UInt8 → Line → Prop
  | [], _ => True
  | code :: codes, line => Typed room line code ∧ AllTyped room codes (line.key room code)

instance decidableAllTyped (room : Nat) : ∀ codes line, Decidable (AllTyped room codes line)
  | [], _ => isTrue trivial
  | code :: codes, line =>
    have := decidableAllTyped room codes (line.key room code)
    inferInstanceAs (Decidable (Typed room line code ∧ AllTyped room codes (line.key room code)))

/-- The empty line under the shift and caps lock states that the record has when the read begins. -/
def startLine (t : Terminal) (reopened : Bool) : Line :=
  { shifted := (t.kbData reopened).shifted, caps := (t.kbData reopened).caps }

/-- The bytes at `buffer`. -/
def Stores (m : Mem) (buffer : Nat) (text : List UInt8) : Prop :=
  ∀ i (inside : i < text.length), m (add64 buffer i) = text[i]

/-- The string at `buffer`. -/
def HoldsLine (m : Mem) (buffer : Nat) (text : List UInt8) : Prop :=
  Stores m buffer text ∧ m (add64 buffer text.length) = 0

/-- The handler ends the read when the line ends, and then the buffer holds the line. -/
def ReadsLine (screen : Screen) (t : Terminal) (reopened : Bool) (buffer maxLen : Nat) (codes : List UInt8) : Prop :=
  let line := (startLine t reopened).keys (maxLen - 1) codes
  let t' := typeKeys screen codes (readPs2KbStart screen reopened buffer maxLen t)
  (∃ data ∈ t'.data, data.currentlyReading = !line.ended) ∧ (line.ended = true → HoldsLine t'.memory buffer line.text)

/-- The handler's record of the line. -/
structure RecordOf (buffer maxLen : Nat) (line : Line) (data : KeyboardData) : Prop where
  reading : data.currentlyReading = !line.ended
  shifted : data.shifted = line.shifted
  caps : data.caps = line.caps
  buffer : data.currentBuffer = buffer
  size : data.bufferSize = maxLen - 1
  length : data.inputLen = line.text.length

/-- The handler has stored the line. -/
structure Follows (buffer maxLen : Nat) (line : Line) (t : Terminal) : Prop where
  data : ∃ data ∈ t.data, RecordOf buffer maxLen line data
  room : line.text.length < maxLen
  stored : Stores t.memory buffer line.text
  terminated : line.ended = true → t.memory (add64 buffer line.text.length) = 0

section editing

variable {screen : Screen} {buffer maxLen : Nat} {line : Line} {t : Terminal} {data : KeyboardData} {scancode : UInt8}

theorem keyCharacter_eq (data : KeyboardData) (scancode : UInt8) : keyCharacter data.shifted data.caps scancode =
    if character data scancode = 0 then none else some (character data scancode) := by
  unfold keyCharacter character
  generalize characterTable.getD scancode.toNat 0 = plain
  generalize shiftedCharacterTable.getD scancode.toNat 0 = upper
  cases data.shifted <;> cases data.caps <;> cases letter : isLetter plain <;> simp [letter]

theorem character_of_key (same : data.shifted = line.shifted ∧ data.caps = line.caps) {ch : UInt8}
    (found : keyCharacter line.shifted line.caps scancode = some ch) : character data scancode = ch := by
  have eq := keyCharacter_eq data scancode
  rw [same.1, same.2, found] at eq
  split_ifs at eq
  exact (Option.some.inj eq).symm

theorem keyCharacter_backspace (shifted caps : Bool) : keyCharacter shifted caps 0x0E = none := by
  cases shifted <;> cases caps <;> decide

theorem Stores.put {text : List UInt8} {m : Mem} {k : Nat} (stored : Stores m buffer text)
    (fits : buffer + maxLen ≤ 2 ^ 64) (place : data.currentBuffer = buffer) (behind : text.length ≤ k)
    (room : k < maxLen) (ch : UInt8) : Stores (data.put k ch m) buffer text := by
  intro i inside
  have apart : add64 buffer i ≠ add64 buffer k := by
    rw [add64_of_lt (by omega), add64_of_lt (by omega)]
    omega
  subst place
  rw [put_other apart]
  exact stored i inside

theorem Stores.dropLast {text : List UInt8} {m : Mem} (stored : Stores m buffer text) : Stores m buffer text.dropLast := by
  intro i inside
  rw [List.getElem_dropLast]
  exact stored i (by rw [List.length_dropLast] at inside; omega)

theorem Stores.append {text : List UInt8} {m : Mem} {ch : UInt8} (stored : Stores m buffer text)
    (last : m (add64 buffer text.length) = ch) : Stores m buffer (text ++ [ch]) := by
  intro i inside
  rw [List.getElem_append]
  split
  next before => exact stored i before
  next behind =>
    obtain rfl : i = text.length := by
      rw [List.length_append, List.length_singleton] at inside
      omega
    simpa using last

theorem Line.key_press {room : Nat} (ended : line.ended = false) (press : scancode &&& 0x80 = 0) :
    line.key room scancode = line.press room scancode := by
  rw [Line.key, if_neg (by simp [ended]), if_pos press]

theorem Line.press_plain {room : Nat} (plain : isModifier scancode = false) (other : scancode ≠ 0x0E) :
    line.press room scancode =
      if scancode = 0x1C ∨ line.text.length = room then { line with ended := true }
      else match keyCharacter line.shifted line.caps scancode with
        | none => line
        | some ch => { line with text := line.text ++ [ch] } := by
  simp only [isModifier, Bool.or_eq_false_iff, decide_eq_false_iff_not] at plain
  rw [Line.press, if_neg other, if_neg plain.1.1, if_neg (by rintro (left | right); exacts [plain.1.2 left, plain.2 right])]

theorem Follows.key (follows : Follows buffer maxLen line t) (fits : buffer + maxLen ≤ 2 ^ 64) (long : 2 ≤ maxLen)
    (typed : Typed (maxLen - 1) line scancode) :
    Follows buffer maxLen (line.key (maxLen - 1) scancode) (keyboardIsr screen true scancode t) := by
  obtain ⟨⟨data, source, record⟩, room, stored, terminated⟩ := follows
  obtain ⟨data', result, memory, pressed⟩ := pressed_isr screen true scancode source
  have length := record.length
  generalize keyWrite data true scancode = write at memory pressed
  by_cases ended : line.ended = true
  · obtain ⟨rfl, rfl⟩ := pressed.idle_eq (by rw [record.reading, ended]; rfl)
    rw [Line.key, if_pos ended]
    exact ⟨⟨_, result, record⟩, room, memory ▸ stored, memory ▸ terminated⟩
  have going : line.ended = false := by simpa using ended
  cases pressed with
  | idle idle =>
    rw [record.reading, going] at idle
    simp at idle
  | release _ _ release =>
    rw [Line.key, if_neg ended, if_neg release]
    split
    next shift =>
      rw [if_pos shift] at result
      exact ⟨⟨_, result, { record with shifted := rfl }⟩, room, memory ▸ stored, memory ▸ terminated⟩
    next other =>
      rw [if_neg other] at result
      exact ⟨⟨_, result, record⟩, room, memory ▸ stored, memory ▸ terminated⟩
  | erase active key some_ =>
    rw [Line.key_press going active.press, Line.press, if_pos key]
    have shorter : data.inputLen - 1 = line.text.dropLast.length := by rw [List.length_dropLast, length]
    refine ⟨⟨_, result, { record with length := shorter }⟩, ?_, ?_, fun stopped => absurd stopped ended⟩
    · show line.text.dropLast.length < maxLen
      omega
    · rw [memory]
      exact stored.dropLast.put fits record.buffer shorter.ge (by omega) 0
  | capsLock active key =>
    rw [Line.key_press going active.press, Line.press, if_neg (by rw [key]; decide), if_pos key]
    exact ⟨⟨_, result, { record with caps := congrArg (!·) record.caps }⟩, room, memory ▸ stored, memory ▸ terminated⟩
  | shift active key =>
    rw [Line.key_press going active.press, Line.press, if_neg (by rcases key with rfl | rfl <;> decide),
      if_neg (by rcases key with rfl | rfl <;> decide), if_pos key]
    exact ⟨⟨_, result, { record with shifted := rfl }⟩, room, memory ▸ stored, memory ▸ terminated⟩
  | finish active plain kept ends =>
    have other : scancode ≠ 0x0E := by
      rintro rfl
      have size := record.size
      have empty := kept rfl
      rcases ends with enter | full
      · exact absurd enter (by decide)
      · omega
    rw [record.size, length] at ends
    rw [Line.key_press going active.press, Line.press_plain plain other, if_pos (ends.imp_right Eq.symm)]
    refine ⟨⟨_, result, { record with reading := rfl }⟩, room, ?_, fun _ => ?_⟩
    · rw [memory]
      exact stored.put fits record.buffer length.ge (by omega) 0
    · rw [memory, ← record.buffer, ← length]
      exact put_self data data.inputLen 0 t.memory
  | type active plain kept enter free =>
    rw [record.size, length] at free
    -- A key that comes this far has a character, because backspace has been dealt with.
    have found : keyCharacter line.shifted line.caps scancode ≠ none := by
      rcases typed going active.press plain enter (Ne.symm free) with ⟨key, nonempty⟩ | found
      · have empty := kept key
        rw [length] at empty
        exact absurd (List.length_eq_zero_iff.mp empty) nonempty
      · exact found
    have other : scancode ≠ 0x0E := by
      rintro rfl
      exact found (keyCharacter_backspace _ _)
    obtain ⟨ch, found⟩ := Option.ne_none_iff_exists'.mp found
    have same : character data scancode = ch := character_of_key ⟨record.shifted, record.caps⟩ found
    have longer : add64 data.inputLen 1 = data.inputLen + 1 := add64_of_lt (by omega)
    rw [Line.key_press going active.press, Line.press_plain plain other,
      if_neg (by rintro (stop | full); exacts [enter stop, free full.symm]), found]
    have appended : Stores (data.put data.inputLen ch t.memory) buffer (line.text ++ [ch]) := by
      apply (stored.put fits record.buffer length.ge (by omega) ch).append
      rw [← record.buffer, ← length]
      exact put_self data data.inputLen ch t.memory
    refine ⟨⟨_, result, { record with length := ?_ }⟩, ?_, ?_, fun stopped => absurd stopped ended⟩
    · rw [List.length_append, List.length_singleton, ← length]
      exact longer
    · simp only [List.length_append, List.length_singleton]
      omega
    · rw [memory, same]
      exact appended

theorem Follows.keys {codes : List UInt8} (follows : Follows buffer maxLen line t) (fits : buffer + maxLen ≤ 2 ^ 64)
    (long : 2 ≤ maxLen) (typed : AllTyped (maxLen - 1) codes line) :
    Follows buffer maxLen (line.keys (maxLen - 1) codes) (typeKeys screen codes t) := by
  induction codes generalizing line t with
  | nil => exact follows
  | cons code codes ih => exact ih (follows.key fits long typed.1) typed.2

theorem follows_start (screen : Screen) (long : 2 ≤ maxLen) (reopened : Bool)
    (rest : ∀ data ∈ t.data, data.inputLen = 0) :
    Follows buffer maxLen (startLine t reopened) (readPs2KbStart screen reopened buffer maxLen t) := by
  have size : sub64 maxLen 1 = maxLen - 1 := sub64_of_le (by omega)
  refine ⟨⟨_, rfl, rfl, rfl, rfl, rfl, size, t.kbData_inputLen rest reopened⟩, ?_, nofun, nofun⟩
  show 0 < maxLen
  omega

end editing

/-- A read ends with its line in the buffer, as long as every key that is typed has a character. -/
theorem read_holds_line (screen : Screen) (t : Terminal) (rest : ∀ data ∈ t.data, data.inputLen = 0) (reopened : Bool)
    (buffer maxLen : Nat) (long : 2 ≤ maxLen) (fits : buffer + maxLen ≤ 2 ^ 64) (codes : List UInt8)
    (typed : AllTyped (maxLen - 1) codes (startLine t reopened)) :
    ReadsLine screen t reopened buffer maxLen codes := by
  have follows : Follows buffer maxLen ((startLine t reopened).keys (maxLen - 1) codes)
      (typeKeys screen codes (readPs2KbStart screen reopened buffer maxLen t)) :=
    (follows_start screen long reopened rest).keys fits long typed
  obtain ⟨data, source, record⟩ := follows.data
  exact ⟨⟨data, source, record.reading⟩, fun ended => ⟨follows.stored, follows.terminated ended⟩⟩

/-- Shift and `a`, then `b` and backspace, then Enter. -/
theorem read_holds_line_capital : HoldsLine (typeKeys ⟨64, 100, 16, true⟩ [0x2A, 0x1E, 0xAA, 0x30, 0x0E, 0x1C]
    (readPs2KbStart ⟨64, 100, 16, true⟩ true 4096 8 {})).memory 4096 [65] := by
  exact (read_holds_line ⟨64, 100, 16, true⟩ {} nofun true 4096 8 (by decide) (by decide) _ (by decide)).2 (by decide)

/-- Escape has no character: it is stored as the end of the line in front of the `a`. -/
theorem escape_key_stored : ¬ ReadsLine ⟨64, 100, 16, true⟩ {} true 4096 8 [0x01, 0x1E, 0x1C] := by
  rintro ⟨-, holds⟩
  have first := (holds (by decide)).1 0 (by decide)
  revert first
  decide +kernel

end PotatOS.Drivers
