import PotatOS.Drivers.Keyboard
import PotatOS.Lib.Trace

/-!
# Reading lines (`read_ps2_kb`)

A read gives the handler a buffer and its size less one, and waits until the
handler ends it. Reads follow one another; keys may be pressed at any time.
-/

namespace PotatOS.Drivers

open Memory

/-! ### What a scancode does -/

/-- A key press that reaches a reader. -/
structure Active (data : KeyboardData) (outputFull : Bool) (scancode : UInt8) : Prop where
  reading : data.currentlyReading = true
  full : outputFull = true
  press : scancode &&& 0x80 = 0

instance (data : KeyboardData) (outputFull : Bool) (scancode : UInt8) : Decidable (Active data outputFull scancode) :=
  decidable_of_iff (data.currentlyReading = true ∧ outputFull = true ∧ scancode &&& 0x80 = 0)
    ⟨fun ⟨reading, full, press⟩ => ⟨reading, full, press⟩, fun ⟨reading, full, press⟩ => ⟨reading, full, press⟩⟩

/-- Caps lock and the two shift keys. -/
def isModifier (scancode : UInt8) : Bool := scancode = 0x3A || scancode = 0x2A || scancode = 0x36

/-- The index and the byte that `keyboard_isr` writes to the buffer. -/
def keyWrite (data : KeyboardData) (outputFull : Bool) (scancode : UInt8) : Option (Nat × UInt8) :=
  if Active data outputFull scancode then
    if scancode = 0x0E ∧ 0 < data.inputLen then some (data.inputLen - 1, 0)
    else if isModifier scancode then none
    else if scancode = 0x1C ∨ data.bufferSize = data.inputLen then some (data.inputLen, 0)
    else some (data.inputLen, character data scancode)
  else none

/-- The record after a scancode. -/
inductive Pressed (data : KeyboardData) (outputFull : Bool) (scancode : UInt8) : Option (Nat × UInt8) → KeyboardData → Prop where
  | idle (idle : data.currentlyReading = false ∨ outputFull = false) : Pressed data outputFull scancode none data
  | release (reading : data.currentlyReading = true) (full : outputFull = true) (release : scancode &&& 0x80 ≠ 0) :
      Pressed data outputFull scancode none
        { data with shifted := if scancode = 0xAA ∨ scancode = 0xB6 then false else data.shifted }
  | erase (active : Active data outputFull scancode) (key : scancode = 0x0E) (some_ : 0 < data.inputLen) :
      Pressed data outputFull scancode (some (data.inputLen - 1, 0)) { data with inputLen := data.inputLen - 1 }
  | capsLock (active : Active data outputFull scancode) (key : scancode = 0x3A) :
      Pressed data outputFull scancode none { data with caps := !data.caps }
  | shift (active : Active data outputFull scancode) (key : scancode = 0x2A ∨ scancode = 0x36) :
      Pressed data outputFull scancode none { data with shifted := true }
  | finish (active : Active data outputFull scancode) (plain : isModifier scancode = false)
      (kept : scancode = 0x0E → data.inputLen = 0) (ends : scancode = 0x1C ∨ data.bufferSize = data.inputLen) :
      Pressed data outputFull scancode (some (data.inputLen, 0)) { data with currentlyReading := false }
  | type (active : Active data outputFull scancode) (plain : isModifier scancode = false)
      (kept : scancode = 0x0E → data.inputLen = 0) (other : scancode ≠ 0x1C) (room : data.bufferSize ≠ data.inputLen) :
      Pressed data outputFull scancode (some (data.inputLen, character data scancode))
        { data with inputLen := add64 data.inputLen 1 }

/-- The memory after the write. -/
def KeyboardData.write (data : KeyboardData) (write : Option (Nat × UInt8)) (m : Mem) : Mem :=
  match write with
  | none => m
  | some (i, ch) => data.put i ch m

section isr

variable {screen : Screen} {t : Terminal} {data : KeyboardData} {outputFull : Bool} {scancode : UInt8}

theorem pressed_isr (screen : Screen) (outputFull : Bool) (scancode : UInt8) (source : t.data = some data) :
    ∃ data', (keyboardIsr screen outputFull scancode t).data = some data' ∧
      (keyboardIsr screen outputFull scancode t).memory = data.write (keyWrite data outputFull scancode) t.memory ∧
      Pressed data outputFull scancode (keyWrite data outputFull scancode) data' := by
  unfold keyboardIsr
  rw [source]
  dsimp only
  by_cases reading : data.currentlyReading = true
  swap
  · have idle : keyWrite data outputFull scancode = none := if_neg fun active => reading active.reading
    rw [if_pos (by simpa using reading), idle]
    exact ⟨data, source, rfl, .idle (.inl (by simpa using reading))⟩
  by_cases full : outputFull = true
  swap
  · have idle : keyWrite data outputFull scancode = none := if_neg fun active => full active.full
    rw [if_neg (by simpa using reading), if_pos (by simpa using full), idle]
    exact ⟨data, source, rfl, .idle (.inr (by simpa using full))⟩
  rw [if_neg (by simpa using reading), if_neg (by simpa using full)]
  by_cases press : scancode &&& 0x80 = 0
  swap
  · have none_ : keyWrite data outputFull scancode = none := if_neg fun active => press active.press
    rw [if_pos press, none_]
    refine ⟨_, ?_, ?_, .release reading full press⟩
    · split <;> simp [source]
    · split <;> rfl
  have active : Active data outputFull scancode := ⟨reading, full, press⟩
  rw [if_neg (not_not_intro press), keyWrite, if_pos active]
  by_cases erase : scancode = 0x0E ∧ 0 < data.inputLen
  · rw [if_pos erase, if_pos erase]
    exact ⟨_, rfl, rfl, .erase active erase.1 erase.2⟩
  have kept : scancode = 0x0E → data.inputLen = 0 := fun key => by
    by_contra positive
    exact erase ⟨key, by omega⟩
  rw [if_neg erase, if_neg erase]
  by_cases capsLock : scancode = 0x3A
  · rw [if_pos capsLock, if_pos (by simp [isModifier, capsLock])]
    exact ⟨_, rfl, rfl, .capsLock active capsLock⟩
  rw [if_neg capsLock]
  by_cases shift : scancode = 0x2A ∨ scancode = 0x36
  · rw [if_pos shift, if_pos (by rcases shift with left | right <;> simp [isModifier, *])]
    exact ⟨_, rfl, rfl, .shift active shift⟩
  have plain : isModifier scancode = false := by simpa [isModifier, capsLock] using shift
  rw [if_neg shift, if_neg (show ¬ isModifier scancode = true by simp [plain])]
  by_cases ends : scancode = 0x1C ∨ data.bufferSize = data.inputLen
  · rw [if_pos ends, if_pos ends]
    exact ⟨_, rfl, rfl, .finish active plain kept ends⟩
  · rw [if_neg ends, if_neg ends]
    rw [not_or] at ends
    exact ⟨_, rfl, rfl, .type active plain kept ends.1 ends.2⟩

theorem isr_none (source : t.data = none) : keyboardIsr screen outputFull scancode t = t := by
  unfold keyboardIsr
  rw [source]

theorem put_self (data : KeyboardData) (i : Nat) (ch : UInt8) (m : Mem) :
    data.put i ch m (add64 data.currentBuffer i) = ch := by
  rw [KeyboardData.put, store_inside ⟨by omega, by omega⟩]
  simp

theorem put_other {i : Nat} {ch : UInt8} {m : Mem} {x : Nat} (other : x ≠ add64 data.currentBuffer i) :
    data.put i ch m x = m x := store_outside (by unfold InRange; omega)

end isr

/-! ### Reads and keys -/

section reads

variable (screen : Screen)

/-- The record that `private` points to: a new one if the device was opened again since the last read. -/
def Terminal.kbData (t : Terminal) (reopened : Bool) : KeyboardData := if reopened then {} else t.data.getD {}

/-- `read_ps2_kb` up to its loop. -/
def readPs2KbStart (reopened : Bool) (buffer maxLen : Nat) (t : Terminal) : Terminal :=
  { t with
    console := drawCursor screen t.console
    data := some { t.kbData reopened with
      currentlyReading := true, currentBuffer := buffer, bufferSize := sub64 maxLen 1 } }

/-- `read_ps2_kb` behind its loop. -/
def readPs2KbEnd (t : Terminal) : Terminal :=
  { t with data := t.data.map fun kbData => { kbData with currentBuffer := 0, inputLen := 0 } }

/-- The arguments of a read. -/
structure Request where
  buffer : Nat
  maxLen : Nat
  deriving DecidableEq, Repr

/-- `active` is the read that waits for its line. -/
structure Reads where
  terminal : Terminal := {}
  active : Option Request := none

inductive KeyEvent where
  | read (reopened : Bool) (request : Request)
  | key (outputFull : Bool) (scancode : UInt8)
  | finish

/-- `syscall_read` passes any length on. A read ends once the handler has cleared `currently_reading`. -/
def KeyEvent.run : KeyEvent → Reads → Option Reads
  | .read reopened request, s =>
    if s.active = none ∧ request.buffer < 2 ^ 64 ∧ request.maxLen < 2 ^ 64 then
      some ⟨readPs2KbStart screen reopened request.buffer request.maxLen s.terminal, some request⟩
    else none
  | .key outputFull scancode, s => some { s with terminal := keyboardIsr screen outputFull scancode s.terminal }
  | .finish, s =>
    if s.active ≠ none ∧ ∀ data ∈ s.terminal.data, data.currentlyReading = false then
      some ⟨readPs2KbEnd s.terminal, none⟩
    else none

end reads

/-- Writes stay below `max_len`, the length stays below the size, and a line that is read is terminated. -/
structure Bounded (e : KeyEvent) (s s' : Reads) : Prop where
  index : ∀ outputFull scancode, e = .key outputFull scancode → ∀ data ∈ s.terminal.data,
    ∀ i ch, keyWrite data outputFull scancode = some (i, ch) → ∃ request ∈ s.active, i < request.maxLen
  length : ∀ data ∈ s'.terminal.data, data.inputLen ≤ data.bufferSize
  terminated : e = .finish → ∀ request ∈ s.active, 1 ≤ request.maxLen →
    ∃ n < request.maxLen, s'.terminal.memory (add64 request.buffer n) = 0

/-- No key other than caps lock and shift is pressed during a read of length 0. -/
def KeyEvent.Fits (e : KeyEvent) (s : Reads) : Prop :=
  ∀ outputFull scancode, e = .key outputFull scancode → ∀ data ∈ s.terminal.data,
    Active data outputFull scancode → isModifier scancode = false → ∀ request ∈ s.active, request.maxLen ≠ 0

/-- The record of the read that waits; without one the record is at rest. -/
structure Reading (s : Reads) : Prop where
  idle : s.active = none → ∀ data ∈ s.terminal.data, data.currentlyReading = false ∧ data.inputLen = 0
  active : ∀ request ∈ s.active, request.maxLen < 2 ^ 64 ∧ ∃ data ∈ s.terminal.data,
    data.currentBuffer = request.buffer ∧ data.bufferSize = sub64 request.maxLen 1 ∧
    data.inputLen ≤ data.bufferSize ∧
    (data.currentlyReading = false → s.terminal.memory (add64 request.buffer data.inputLen) = 0)

section bounds

variable {screen : Screen} {s s' : Reads} {data : KeyboardData} {request : Request}

theorem sub64_one_lt (n : Nat) (small : n < 2 ^ 64) : sub64 n 1 < 2 ^ 64 := by
  unfold sub64
  split <;> omega

theorem Pressed.waits {outputFull : Bool} {scancode : UInt8} {write : Option (Nat × UInt8)} {data' : KeyboardData} {m : Mem}
    (pressed : Pressed data outputFull scancode write data') (size : data.bufferSize < 2 ^ 64)
    (length : data.inputLen ≤ data.bufferSize)
    (ended : data.currentlyReading = false → m (add64 data.currentBuffer data.inputLen) = 0) :
    data'.currentBuffer = data.currentBuffer ∧ data'.bufferSize = data.bufferSize ∧
      data'.inputLen ≤ data'.bufferSize ∧
      (data'.currentlyReading = false → data.write write m (add64 data.currentBuffer data'.inputLen) = 0) := by
  cases pressed with
  | idle => exact ⟨rfl, rfl, length, ended⟩
  | release => exact ⟨rfl, rfl, length, ended⟩
  | erase active key some_ =>
    refine ⟨rfl, rfl, by dsimp only; omega, fun stopped => ?_⟩
    rw [active.reading] at stopped
    cases stopped
  | capsLock active key => exact ⟨rfl, rfl, length, fun stopped => by rw [active.reading] at stopped; cases stopped⟩
  | shift active key => exact ⟨rfl, rfl, length, fun stopped => by rw [active.reading] at stopped; cases stopped⟩
  | finish active plain kept ends => exact ⟨rfl, rfl, length, fun _ => put_self data data.inputLen 0 m⟩
  | type active plain kept other room =>
    have longer : add64 data.inputLen 1 = data.inputLen + 1 := add64_of_lt (by omega)
    refine ⟨rfl, rfl, by dsimp only; omega, fun stopped => ?_⟩
    rw [active.reading] at stopped
    cases stopped

theorem Pressed.idle_eq {outputFull : Bool} {scancode : UInt8} {write : Option (Nat × UInt8)} {data' : KeyboardData}
    (pressed : Pressed data outputFull scancode write data') (idle : data.currentlyReading = false) :
    data' = data ∧ write = none := by
  cases pressed with
  | idle => exact ⟨rfl, rfl⟩
  | release reading => simp [idle] at reading
  | erase active | capsLock active | shift active | finish active | type active =>
    have reading := active.reading
    simp [idle] at reading

theorem Terminal.kbData_inputLen {t : Terminal} (rest : ∀ data ∈ t.data, data.inputLen = 0) (reopened : Bool) :
    (t.kbData reopened).inputLen = 0 := by
  cases reopened with
  | true => rfl
  | false =>
    cases source : t.data with
    | none => simp [Terminal.kbData, source]
    | some data => simp [Terminal.kbData, source, rest data source]

theorem Reading.read (reading : Reading s) (free : s.active = none) (reopened : Bool) (small : request.maxLen < 2 ^ 64) :
    Reading ⟨readPs2KbStart screen reopened request.buffer request.maxLen s.terminal, some request⟩ := by
  refine ⟨nofun, fun other same => ?_⟩
  obtain rfl := Option.some.inj same
  have empty := Terminal.kbData_inputLen (fun data source => (reading.idle free data source).2) reopened
  exact ⟨small, _, rfl, rfl, rfl, by simp [empty], nofun⟩

theorem Reading.key (reading : Reading s) (outputFull : Bool) (scancode : UInt8) :
    Reading { s with terminal := keyboardIsr screen outputFull scancode s.terminal } := by
  refine ⟨fun free data' found => ?_, fun request wanted => ?_⟩
  · cases source : s.terminal.data with
    | none =>
      rw [isr_none source, source] at found
      cases found
    | some data =>
      obtain ⟨after, result, -, pressed⟩ := pressed_isr screen outputFull scancode source
      obtain rfl := Option.some.inj (result.symm.trans found)
      have rest := reading.idle free data source
      rwa [(pressed.idle_eq rest.1).1]
  · obtain ⟨small, data, source, buffer, size, length, ended⟩ := reading.active request wanted
    obtain ⟨data', result, memory, pressed⟩ := pressed_isr screen outputFull scancode source
    rw [← buffer] at ended
    obtain ⟨sameBuffer, sameSize, length', ended'⟩ :=
      pressed.waits (by rw [size]; exact sub64_one_lt _ small) length ended
    refine ⟨small, data', result, sameBuffer.trans buffer, sameSize.trans size, length', fun stopped => ?_⟩
    rw [memory, ← buffer]
    exact ended' stopped

theorem Reading.finish (ended : ∀ data ∈ s.terminal.data, data.currentlyReading = false) :
    Reading ⟨readPs2KbEnd s.terminal, none⟩ := by
  refine ⟨fun _ data' found => ?_, nofun⟩
  obtain ⟨data, source, rfl⟩ := Option.map_eq_some_iff.mp found
  exact ⟨ended data source, rfl⟩

theorem Reading.step (reading : Reading s) {e : KeyEvent} (run : e.run screen s = some s') : Reading s' := by
  cases e with
  | read reopened request =>
    obtain ⟨⟨free, -, small⟩, next⟩ := Option.ite_none_right_eq_some.mp run
    obtain rfl := Option.some.inj next
    exact reading.read free reopened small
  | key outputFull scancode =>
    obtain rfl := Option.some.inj run
    exact reading.key outputFull scancode
  | finish =>
    obtain ⟨⟨-, ended⟩, next⟩ := Option.ite_none_right_eq_some.mp run
    obtain rfl := Option.some.inj next
    exact .finish ended

theorem Reading.length (reading : Reading s) : ∀ data ∈ s.terminal.data, data.inputLen ≤ data.bufferSize := by
  intro data source
  cases free : s.active with
  | none =>
    rw [(reading.idle free data source).2]
    exact Nat.zero_le _
  | some request =>
    obtain ⟨-, other, source', -, -, length, -⟩ := reading.active request free
    obtain rfl := Option.some.inj (source.symm.trans source')
    exact length

/-- A write stays inside the buffer unless its size is zero. -/
theorem keyWrite_inside {outputFull : Bool} {scancode : UInt8} {i : Nat} {ch : UInt8}
    (write : keyWrite data outputFull scancode = some (i, ch)) (positive : request.maxLen ≠ 0)
    (size : data.bufferSize = sub64 request.maxLen 1) (length : data.inputLen ≤ data.bufferSize) :
    i < request.maxLen := by
  rw [sub64_of_le (by omega)] at size
  have place : i ≤ data.inputLen := by
    unfold keyWrite at write
    split_ifs at write <;>
    · cases write
      omega
  omega

theorem keyWrite_of_plain {outputFull : Bool} {scancode : UInt8} (active : Active data outputFull scancode)
    (plain : isModifier scancode = false) : ∃ i ch, keyWrite data outputFull scancode = some (i, ch) := by
  unfold keyWrite
  rw [if_pos active]
  split_ifs with erase modifier
  · exact ⟨_, _, rfl⟩
  · rw [plain] at modifier
    cases modifier
  · exact ⟨_, _, rfl⟩
  · exact ⟨_, _, rfl⟩

theorem plain_of_keyWrite {outputFull : Bool} {scancode : UInt8} {i : Nat} {ch : UInt8}
    (write : keyWrite data outputFull scancode = some (i, ch)) :
    Active data outputFull scancode ∧ isModifier scancode = false := by
  unfold keyWrite at write
  split_ifs at write with active erase modifier
  · refine ⟨active, ?_⟩
    rw [erase.1]
    decide
  · exact ⟨active, by simpa using modifier⟩
  · exact ⟨active, by simpa using modifier⟩

theorem Reading.terminated (reading : Reading s) (ended : ∀ data ∈ s.terminal.data, data.currentlyReading = false)
    (wanted : request ∈ s.active) (positive : 1 ≤ request.maxLen) :
    ∃ n < request.maxLen, (readPs2KbEnd s.terminal).memory (add64 request.buffer n) = 0 := by
  obtain ⟨-, data, source, -, size, length, last⟩ := reading.active request wanted
  rw [sub64_of_le positive] at size
  exact ⟨data.inputLen, by omega, last (ended data source)⟩

theorem Reading.bounded_iff (reading : Reading s) {e : KeyEvent} (run : e.run screen s = some s') :
    Bounded e s s' ↔ e.Fits s := by
  constructor
  · intro bounded outputFull scancode isKey data source active plain request wanted zero
    obtain ⟨i, ch, write⟩ := keyWrite_of_plain active plain
    obtain ⟨other, wanted', inside⟩ := bounded.index outputFull scancode isKey data source i ch write
    obtain rfl := Option.some.inj (wanted.symm.trans wanted')
    omega
  · intro fits
    refine ⟨fun outputFull scancode isKey data source i ch write => ?_, (reading.step run).length, ?_⟩
    · obtain ⟨active, plain⟩ := plain_of_keyWrite write
      -- A record that is being read belongs to the read that waits.
      cases free : s.active with
      | none =>
        have rest := reading.idle free data source
        have reads := active.reading
        simp [rest.1] at reads
      | some request =>
        obtain ⟨-, other, source', -, size, length, -⟩ := reading.active request free
        obtain rfl := Option.some.inj (source.symm.trans source')
        have positive := fits outputFull scancode isKey data source active plain request free
        exact ⟨request, rfl, keyWrite_inside write positive size length⟩
    · rintro rfl request wanted positive
      obtain ⟨⟨-, ended⟩, next⟩ := Option.ite_none_right_eq_some.mp run
      obtain rfl := Option.some.inj next
      exact reading.terminated ended wanted positive

end bounds

theorem reading_start : Reading {} := ⟨fun _ => nofun, nofun⟩

/-- Reads and keys in any order keep inside the buffers exactly when nothing is typed into a buffer of length 0. -/
theorem reads_bounded_iff (screen : Screen) (events : List KeyEvent) :
    Trace.Always (KeyEvent.run screen) Bounded events {} ↔
      Trace.Always (KeyEvent.run screen) (fun e s _ => e.Fits s) events {} :=
  Trace.always_iff Reading reading_start (fun _ _ _ reading next _ => reading.step next)
    fun _ _ _ reading next => reading.bounded_iff next

/-- Enter is pressed during a read of length 0: the terminator goes to a byte that is not the buffer's. -/
theorem enter_without_buffer :
    ¬ Trace.Always (KeyEvent.run ⟨64, 100, 16, true⟩) Bounded [.read false ⟨4096, 0⟩, .key true 0x1C] {} := by
  intro always
  have next := ((always _ rfl).2 _ rfl).1
  obtain ⟨request, wanted, inside⟩ := next.index true 0x1C rfl _ rfl 0 0 (by decide)
  obtain rfl := Option.some.inj wanted
  cases inside

end PotatOS.Drivers
