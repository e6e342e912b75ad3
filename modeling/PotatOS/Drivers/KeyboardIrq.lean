import PotatOS.Drivers.KeyboardReads

/-!
# Keyboard interrupts

The data port holds one scancode and the local APIC has the in-service bit of
the keyboard's vector: set when the interrupt is delivered, cleared by the end
of interrupt, and no further one is delivered while it is set.
-/

namespace PotatOS.Drivers

structure Board where
  reads : Reads := {}
  port : Option UInt8 := none
  inService : Bool := false

/-- The write to the end-of-interrupt register. -/
def endOfInterrupt (b : Board) : Board := { b with inService := false }

section board

variable (screen : Screen)

/-- `keyboard_isr` on the board. Each of its branches behind the read of the data port ends the interrupt. -/
def keyboardInterrupt (b : Board) : Board :=
  match b.reads.terminal.data with
  | none => b
  | some data =>
    if !data.currentlyReading then b
    else match b.port with
      | none => b
      | some scancode =>
        let reads := { b.reads with terminal := keyboardIsr screen true scancode b.reads.terminal }
        endOfInterrupt { b with reads, port := none }

/-- A scancode arrives when the port is empty; the keyboard holds later ones back. -/
inductive BoardEvent where
  | scancode (code : UInt8)
  | interrupt
  | read (reopened : Bool) (request : Request)
  | finish
  deriving DecidableEq

def BoardEvent.run : BoardEvent → Board → Option Board
  | .scancode code, b => if b.port = none then some { b with port := some code } else none
  | .interrupt, b => if b.inService then none else some (keyboardInterrupt screen { b with inService := true })
  | .read reopened request, b => ((KeyEvent.read reopened request).run screen b.reads).map fun reads => { b with reads }
  | .finish, b => (KeyEvent.finish.run screen b.reads).map fun reads => { b with reads }

end board

/-- The bit is clear after each event, and an interrupt has taken its scancode from the port. -/
structure Acknowledged (e : BoardEvent) (b' : Board) : Prop where
  clear : b'.inService = false
  taken : e = .interrupt → b'.port = none

/-- An interrupt comes while a reader waits for its line, with a scancode in the port. -/
def BoardEvent.Served (e : BoardEvent) (b : Board) : Prop :=
  e = .interrupt → (∃ data ∈ b.reads.terminal.data, data.currentlyReading = true) ∧ b.port ≠ none

section interrupts

variable {screen : Screen} {b b' : Board} {data : KeyboardData} {code : UInt8}

/-- To the reads an interrupt is a key. -/
theorem keyboardInterrupt_reads (screen : Screen) (b : Board) : (keyboardInterrupt screen b).reads =
    { b.reads with terminal := keyboardIsr screen b.port.isSome (b.port.getD 0) b.reads.terminal } := by
  unfold keyboardInterrupt
  cases source : b.reads.terminal.data with
  | none => simp [isr_none source]
  | some data =>
    by_cases reading : data.currentlyReading = true
    · cases b.port with
      | none => simp [keyboardIsr, source, reading]
      | some code => simp [reading, endOfInterrupt]
    · simp [keyboardIsr, source, reading]

theorem keyboardInterrupt_served (screen : Screen) (source : b.reads.terminal.data = some data)
    (reading : data.currentlyReading = true) (full : b.port = some code) :
    (keyboardInterrupt screen b).inService = false ∧ (keyboardInterrupt screen b).port = none := by
  simp [keyboardInterrupt, source, reading, full, endOfInterrupt]

theorem keyboardInterrupt_early
    (early : ¬ ((∃ data ∈ b.reads.terminal.data, data.currentlyReading = true) ∧ b.port ≠ none)) :
    keyboardInterrupt screen b = b := by
  unfold keyboardInterrupt
  cases source : b.reads.terminal.data with
  | none => rfl
  | some data =>
    dsimp only
    split
    · rfl
    next reading =>
    cases full : b.port with
    | none => rfl
    | some code => exact absurd ⟨⟨data, source, by simpa using reading⟩, by simp [full]⟩ early

theorem acknowledged_iff (clear : b.inService = false) {e : BoardEvent} (run : e.run screen b = some b') :
    Acknowledged e b' ↔ e.Served b := by
  cases e with
  | scancode code =>
    obtain ⟨-, next⟩ := Option.ite_none_right_eq_some.mp run
    obtain rfl := Option.some.inj next
    exact ⟨fun _ => nofun, fun _ => ⟨clear, nofun⟩⟩
  | interrupt =>
    obtain ⟨-, next⟩ := Option.ite_none_left_eq_some.mp run
    obtain rfl := Option.some.inj next
    constructor
    · intro acknowledged _
      by_contra early
      have bit := acknowledged.clear
      rw [keyboardInterrupt_early (b := { b with inService := true }) early] at bit
      cases bit
    · intro served
      obtain ⟨⟨data, source, reading⟩, full⟩ := served rfl
      obtain ⟨code, full⟩ := Option.ne_none_iff_exists'.mp full
      obtain ⟨bit, port⟩ := keyboardInterrupt_served (b := { b with inService := true }) screen source reading full
      exact ⟨bit, fun _ => port⟩
  | read reopened request =>
    obtain ⟨reads, -, rfl⟩ := Option.map_eq_some_iff.mp run
    exact ⟨fun _ => nofun, fun _ => ⟨clear, nofun⟩⟩
  | finish =>
    obtain ⟨reads, -, rfl⟩ := Option.map_eq_some_iff.mp run
    exact ⟨fun _ => nofun, fun _ => ⟨clear, nofun⟩⟩

theorem BoardEvent.run_reads {e : BoardEvent} (run : e.run screen b = some b') :
    b'.reads = b.reads ∨ ∃ key : KeyEvent, key.run screen b.reads = some b'.reads := by
  cases e with
  | scancode code =>
    obtain ⟨-, next⟩ := Option.ite_none_right_eq_some.mp run
    obtain rfl := Option.some.inj next
    exact .inl rfl
  | interrupt =>
    obtain ⟨-, next⟩ := Option.ite_none_left_eq_some.mp run
    obtain rfl := Option.some.inj next
    have reads := keyboardInterrupt_reads screen { b with inService := true }
    exact .inr ⟨.key b.port.isSome (b.port.getD 0), congrArg some reads.symm⟩
  | read reopened request =>
    obtain ⟨reads, next, rfl⟩ := Option.map_eq_some_iff.mp run
    exact .inr ⟨_, next⟩
  | finish =>
    obtain ⟨reads, next, rfl⟩ := Option.map_eq_some_iff.mp run
    exact .inr ⟨_, next⟩

/-- The reads on the board keep their invariant. -/
theorem reading_of_board {events : List BoardEvent} (reading : Reading b.reads)
    (run : Trace.after (BoardEvent.run screen) events b = some b') : Reading b'.reads := by
  refine Trace.after_inv (fun b => Reading b.reads) reading (fun e s s' held next => ?_) run
  rcases BoardEvent.run_reads next with same | ⟨key, next⟩
  · rwa [same]
  · exact held.step next

/-- Once an interrupt is left unacknowledged, no further one is delivered. -/
theorem blocked_forever {events : List BoardEvent} (set : b.inService = true)
    (run : Trace.after (BoardEvent.run screen) events b = some b') : b'.inService = true ∧ .interrupt ∉ events := by
  induction events generalizing b with
  | nil =>
    obtain rfl := Option.some.inj run
    exact ⟨set, by simp⟩
  | cons e events ih =>
    obtain ⟨c, next, rest⟩ := Option.bind_eq_some_iff.mp run
    have kept : c.inService = true ∧ e ≠ .interrupt := by
      cases e with
      | scancode code =>
        obtain ⟨-, next⟩ := Option.ite_none_right_eq_some.mp next
        obtain rfl := Option.some.inj next
        exact ⟨set, nofun⟩
      | interrupt => simp [BoardEvent.run, set] at next
      | read reopened request =>
        obtain ⟨reads, -, rfl⟩ := Option.map_eq_some_iff.mp next
        exact ⟨set, nofun⟩
      | finish =>
        obtain ⟨reads, -, rfl⟩ := Option.map_eq_some_iff.mp next
        exact ⟨set, nofun⟩
    obtain ⟨last, absent⟩ := ih kept.1 rest
    exact ⟨last, by simp [Ne.symm kept.2, absent]⟩

end interrupts

/-- Every interrupt is acknowledged exactly when each comes while a reader waits, with a scancode in the port. -/
theorem every_interrupt_acknowledged_iff (screen : Screen) (events : List BoardEvent) :
    Trace.Always (BoardEvent.run screen) (fun e _ b' => Acknowledged e b') events {} ↔
      Trace.Always (BoardEvent.run screen) (fun e b _ => e.Served b) events {} :=
  Trace.always_iff (fun b => b.inService = false) rfl
    (fun _ _ _ clear next served => ((acknowledged_iff clear next).mpr served).clear)
    fun _ _ _ clear next => acknowledged_iff clear next

/-- A key before the first read: its interrupt is never acknowledged. -/
theorem key_before_read : ¬ Trace.Always (BoardEvent.run ⟨64, 100, 16, true⟩) (fun e _ b' => Acknowledged e b')
    [.scancode 0x1E, .interrupt] {} := by
  intro always
  have bit := ((always _ rfl).2 _ rfl).1.clear
  cases bit

end PotatOS.Drivers
