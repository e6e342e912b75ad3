import PotatOS.Drivers.Keyboard
import PotatOS.Utils.Console

/-!
# The keyboard interrupt on a core that prints (`keyboard.c`)

`keyboard_isr` prints what it draws, with the `printf` that takes `serial_lock`.
It has no look at what its core did before.
-/

namespace PotatOS.Drivers

open Memory Locks Threads
open Utils (ConsoleCall ConsoleLock ConsoleT console)

/-- Where `" "` and `"%c"` lie. -/
structure KeyFormats where
  m : Mem
  blank : Nat
  char : Nat

def KeyFormats.printBlank (formats : KeyFormats) : ConsoleCall := .printf formats.m formats.blank fun _ => 0

def KeyFormats.printChar (formats : KeyFormats) (ch : UInt8) : ConsoleCall := .printf formats.m formats.char fun _ => ch.toUInt64

/-- The calls of `printf` in `keyboard_isr`, branch by branch. -/
def isrPrints (formats : KeyFormats) (data : Option KeyboardData) (outputFull : Bool) (scancode : UInt8) : List ConsoleCall :=
  match data with
  | none => []
  | some data =>
    if !data.currentlyReading then []
    else if !outputFull then []
    else if scancode &&& 0x80 ≠ 0 then []
    else if scancode = 0x0E ∧ 0 < data.inputLen then [formats.printBlank, formats.printBlank]
    else if scancode = 0x3A then []
    else if scancode = 0x2A ∨ scancode = 0x36 then []
    else if scancode = 0x1C ∨ data.bufferSize = data.inputLen then [formats.printBlank]
    else [formats.printChar (character data scancode)]

/-- A reader waits, and the scancode is a press of a key other than shift and caps lock. -/
def Echoed (data : Option KeyboardData) (outputFull : Bool) (scancode : UInt8) : Prop :=
  (∃ d ∈ data, d.currentlyReading = true) ∧ outputFull = true ∧ scancode &&& 0x80 = 0 ∧
    scancode ≠ 0x3A ∧ scancode ≠ 0x2A ∧ scancode ≠ 0x36

theorem isrPrints_iff {formats : KeyFormats} {data : Option KeyboardData} {outputFull : Bool} {scancode : UInt8} :
    isrPrints formats data outputFull scancode ≠ [] ↔ Echoed data outputFull scancode := by
  cases data with
  | none => simp [isrPrints, Echoed]
  | some data =>
    by_cases covers : scancode = 0x0E ∧ 0 < data.inputLen
    · obtain ⟨rfl, some⟩ := covers
      cases reading : data.currentlyReading <;> cases outputFull <;> simp [isrPrints, Echoed, reading, some]
    · cases reading : data.currentlyReading <;> cases outputFull <;> simp [isrPrints, Echoed, reading, covers]
      split_ifs <;> simp_all

/-- An interrupt that prints nothing draws nothing. -/
theorem keyboardIsr_silent {screen : Screen} {formats : KeyFormats} {outputFull : Bool} {scancode : UInt8} {t : Terminal}
    (silent : isrPrints formats t.data outputFull scancode = []) :
    (keyboardIsr screen outputFull scancode t).console = t.console := by
  unfold isrPrints at silent
  unfold keyboardIsr
  cases source : t.data with
  | none => rfl
  | some data =>
    rw [source] at silent
    dsimp only at silent ⊢
    split_ifs at silent ⊢ <;> rfl

/-- What a core does when `keyboard_isr` interrupts it: the handler's calls, then what it was about to do. -/
def interrupted (rest : ConsoleT ConsoleCall) : List ConsoleCall → ConsoleT ConsoleCall
  | [] => rest
  | call :: calls => .aquire .serialLock (call.body >>= fun _ => interrupted rest calls)

section cores

variable {κ : Type} [DecidableEq κ] {start : List UInt8} {s s' : Config ConsoleLock κ (List UInt8) ConsoleCall (List ConsoleCall)}
  {c : κ} {rest : ConsoleT ConsoleCall}

/-- The interrupt on core `c`, which was about to do `rest`. -/
def consoleInterrupt (s : Config ConsoleLock κ (List UInt8) ConsoleCall (List ConsoleCall)) (c : κ) (rest : ConsoleT ConsoleCall)
    (prints : List ConsoleCall) : Config ConsoleLock κ (List UInt8) ConsoleCall (List ConsoleCall) :=
  { s with code := Function.update s.code c (some (interrupted rest prints)) }

/-- A key that is echoed while its core prints: nothing is printed any more, on any core. Any other interrupt leaves the
core where it was. -/
theorem keyboard_interrupt_blocks_console (formats : KeyFormats) (data : Option KeyboardData) (outputFull : Bool)
    (scancode : UInt8)
    (run : Run (console κ) start (fun _ => []) s) (printing : s.shared.holder .serialLock = some c)
    (here : s.code c = some rest) :
    (Echoed data outputFull scancode → ∀ s', Relation.ReflTransGen (Step (console κ))
        (consoleInterrupt s c rest (isrPrints formats data outputFull scancode)) s' →
      s'.shared = s.shared ∧ s'.settled (console κ) = s.settled (console κ)) ∧
    (¬ Echoed data outputFull scancode → consoleInterrupt s c rest (isrPrints formats data outputFull scancode) = s) := by
  have echoed : isrPrints formats data outputFull scancode ≠ [] ↔ Echoed data outputFull scancode := isrPrints_iff
  rw [← echoed]
  cases isrPrints formats data outputFull scancode with
  | nil =>
    refine ⟨fun prints => absurd rfl prints, fun _ => ?_⟩
    have same : Function.update s.code c (some rest) = s.code := by rw [← here, Function.update_eq_self]
    rw [consoleInterrupt, interrupted, same]
  | cons call calls =>
    refine ⟨fun _ s' later => ?_, fun silent => absurd (List.cons_ne_nil call calls) silent⟩
    obtain ⟨before, got, serial, now⟩ := Run.serial (Utils.console_sound start) run
    cases now with
    | between shared _ _ =>
      rw [shared] at printing
      cases printing
    | during d t inside outside _ _ =>
      obtain rfl : d = c := Option.some.inj (inside.held.symm.trans printing)
      obtain rfl := Option.some.inj (inside.code.symm.trans here)
      have waiting : SelfWait (console κ) (consoleInterrupt s d t (call :: calls)) d :=
        ⟨printing, ⟨_, Function.update_self ..⟩, fun e away => (outside e away).other away⟩
      obtain ⟨_, shared, settled⟩ := waiting.forever later
      refine ⟨shared, settled.trans (funext fun e => ?_)⟩
      by_cases own : e = d
      · subst own
        rw [settled_inside inside.code (inside.runs (Utils.console_sound start) serial),
          settled_inside (Function.update_self ..) fun a h => by cases h]
        rfl
      · exact settled_other own rfl

theorem enters_message (call : ConsoleCall) :
    ∃ s : Config ConsoleLock Nat (List UInt8) ConsoleCall (List ConsoleCall), Run (console Nat) [] (fun _ => []) s ∧
      s.shared.holder .serialLock = some 0 ∧ s.code 0 = some call.body ∧ s.code 1 = none := by
  obtain ⟨run, inside⟩ : Relation.ReflTransGen (Step (console Nat)) _ _ ∧ Inside (console Nat) _ _ _ 0 _ :=
    enters_call (s := ⟨⟨[], allFree⟩, fun _ => none, fun _ => []⟩) call.body_bracketed rfl rfl ⟨call, rfl⟩ trivial
  exact ⟨_, run, inside.held, inside.code, rfl⟩

/-- The two strings from address 0 on. -/
def keyFormats : KeyFormats := ⟨fun x => [32, 0, 37, 99, 0].getD x 0, 0, 2⟩

/-- `a` is pressed while core 0 prints " Ok!" and a reader waits, and another core starts a call. -/
theorem keyboard_interrupt_blocks_console_ok :
    ∃ s s' : Config ConsoleLock Nat (List UInt8) ConsoleCall (List ConsoleCall),
      Step (console Nat) (consoleInterrupt s 0 ConsoleCall.kOk.body
        (isrPrints keyFormats (some { currentlyReading := true, bufferSize := 9 }) true 0x1E)) s' ∧ s'.shared = s.shared := by
  obtain ⟨s, run, holds, code, idle⟩ := enters_message .kOk
  have next : Step (console Nat) (consoleInterrupt s 0 ConsoleCall.kOk.body
      (isrPrints keyFormats (some { currentlyReading := true, bufferSize := 9 }) true 0x1E)) _ := .begin 1 idle ⟨.kOk, rfl⟩
  exact ⟨s, _, next, ((keyboard_interrupt_blocks_console keyFormats _ true 0x1E run holds code).1
    ⟨⟨_, rfl, rfl⟩, rfl, by decide, by decide, by decide, by decide⟩ _ (.single next)).1⟩

end cores

end PotatOS.Drivers
