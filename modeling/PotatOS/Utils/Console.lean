import PotatOS.Lib.Threads
import PotatOS.Utils.Printf

/-!
# The console between the cores (`printf.c`)

`printf`, `k_ok` and the status macros write byte by byte under `serial_lock`,
and every byte is a step of its own here. The messages that have been completed
stand in the output one behind the other; at most one is under way.
-/

namespace PotatOS.Utils

open Local Memory Fs Prog Locks Threads

/-! ### The calls, step by step -/

inductive ConsoleLock where
  | serialLock
  deriving DecidableEq, Repr

abbrev ConsoleT := Thread ConsoleLock (List UInt8)

namespace Steps

open Thread

/-- `write_serial_char`, for each byte. -/
def emit : List UInt8 → ConsoleT Unit
  | [] => return ()
  | ch :: rest => do
    write (· ++ [ch])
    emit rest

/-- `while (i < len)` of `printf_template`; nothing is said of what follows undefined behaviour. -/
def printfFrom (m : Mem) (format len : Nat) (args : Nat → UInt64) (i next : Nat) : ConsoleT Unit :=
  if i < len then
    if m (format + i) = percent then
      match conversion m (m (format + (i + 1))) (args next) [] with
      | .error _ => fault
      | .ok (out, taken) => do
        emit out
        printfFrom m format len args (i + 2) (next + taken)
    else do
      emit (writeCharacter (m (format + i)) [])
      printfFrom m format len args (i + 1) next
  else return ()
termination_by len - i

def printfTemplate (m : Mem) (format : Nat) (args : Nat → UInt64) : ConsoleT Unit :=
  match kuStrlen m format with
  | .error _ => fault
  | .ok len => do
    printfFrom m format len args 0 0
    drop .serialLock

end Steps

/-- The macros of `printf.h` that write a label ahead of the format. -/
inductive StatusMacro where
  | ktestf | kstatusf | kdebugf | kfailf
  deriving DecidableEq, Repr

/-- The label, `__FILE__` and `": "`, with their colours. -/
def StatusMacro.label (file : Name) : StatusMacro → Name
  | ktestf => "\x1b[1;36m[ TEST ] \x1b[0;30m".toUTF8.toList ++ file ++ ": \x1b[0;37m".toUTF8.toList
  | kstatusf => "\x1b[1;33m[STATUS] \x1b[0;30m".toUTF8.toList ++ file ++ ": \x1b[0;37m".toUTF8.toList
  | kdebugf => "\x1b[1;35m[KDEBUG] \x1b[0;30m".toUTF8.toList ++ file ++ ": \x1b[0;37m".toUTF8.toList
  | kfailf => "\x1b[1;31m[ FAIL ] \x1b[0;30m".toUTF8.toList ++ file ++ ": \x1b[0;37m".toUTF8.toList

def okText : Name := "\x1b[1;32m Ok!\n\x1b[0;37m".toUTF8.toList

inductive ConsoleCall where
  | printf (m : Mem) (format : Nat) (args : Nat → UInt64)
  | status (label : StatusMacro) (file : Name) (m : Mem) (format : Nat) (args : Nat → UInt64)
  | kOk

namespace ConsoleCall

open Thread

/-- What the call does behind `spinlock_aquire(&serial_lock)`. -/
def body (call : ConsoleCall) : ConsoleT ConsoleCall :=
  match call with
  | printf m format args => do
    Steps.printfTemplate m format args
    return call
  | status label file m format args => do
    Steps.emit (writeText (label.label file) [])
    Steps.printfTemplate m format args
    return call
  | kOk => do
    Steps.emit (writeText okText [])
    drop .serialLock
    return call

end ConsoleCall

/-- The call as `printf.c` has it, without the steps. -/
def ConsoleCall.printed (call : ConsoleCall) (serial : List UInt8) : Except Undefined (List UInt8) :=
  match call with
  | printf m format args => printfTemplate m format args serial
  | status label file m format args => printfTemplate m format args (writeText (label.label file) serial)
  | kOk => .ok (writeText okText serial)

/-- What a format sends, up to undefined behaviour. -/
def formatText (m : Mem) (format : Nat) (args : Nat → UInt64) : List UInt8 :=
  match cString m format (2 ^ 64) with
  | none => []
  | some fmt => (pieces fmt 0).flatMap (Piece.emitted m args)

def ConsoleCall.text : ConsoleCall → List UInt8
  | printf m format args => formatText m format args
  | status label file m format args => writeText (label.label file) [] ++ formatText m format args
  | kOk => writeText okText []

def ConsoleCall.Defined : ConsoleCall → Prop
  | printf m format args => FormatDefined m format args
  | status _ _ m format args => FormatDefined m format args
  | kOk => True

/-! ### What the steps of a call send -/

/-- The steps of the thread append `rest`, as far as they get. -/
def Sends {α : Type} : ConsoleT α → List UInt8 → Prop
  | .ret _, rest => rest = []
  | .fault, _ => True
  | .aquire _ _, _ => False
  | .release _ later, rest => Sends later rest
  | .act update later, rest =>
    ∃ ch left, rest = ch :: left ∧ ∀ data, update data = data ++ [ch] ∧ Sends (later data) left

section sends

variable {α β κ : Type} {t t' : ConsoleT α} {out rest : List UInt8}

theorem Sends.bind {f : α → ConsoleT β} (first : Sends t out) (later : ∀ a, Sends (f a) rest) :
    Sends (t >>= f) (out ++ rest) := by
  show Sends (t.bind f) _
  induction t generalizing out with
  | ret a =>
    obtain rfl := first
    exact later a
  | fault => trivial
  | aquire lock next ih => exact first.elim
  | release lock next ih => exact ih first
  | act update next ih =>
    obtain ⟨ch, left, rfl, each⟩ := first
    exact ⟨ch, left ++ rest, rfl, fun data => ⟨(each data).1, ih data (each data).2⟩⟩

theorem Sends.step [DecidableEq κ] {core : κ} {s s' : Locked ConsoleLock κ (List UInt8)} (sends : Sends t rest)
    (next : t.step core s = some (t', s')) :
    ∃ out left, rest = out ++ left ∧ s'.data = s.data ++ out ∧ Sends t' left := by
  cases t with
  | ret a => cases next
  | fault => cases next
  | aquire lock later => exact sends.elim
  | release lock later =>
    obtain ⟨rfl, rfl⟩ := Prod.mk.inj (Option.some.inj next)
    exact ⟨[], rest, rfl, (List.append_nil _).symm, sends⟩
  | act update later =>
    obtain ⟨rfl, rfl⟩ := Prod.mk.inj (Option.some.inj next)
    obtain ⟨ch, left, rfl, each⟩ := sends
    exact ⟨[ch], left, rfl, (each s.data).1, (each s.data).2⟩

theorem Sends.steps [DecidableEq κ] {core : κ} {s s' : Locked ConsoleLock κ (List UInt8)} (sends : Sends t rest)
    (steps : Thread.Steps core (t, s) (t', s')) :
    ∃ out left, rest = out ++ left ∧ s'.data = s.data ++ out ∧ Sends t' left := by
  generalize here : (t', s') = q at steps
  induction steps generalizing t' s' with
  | refl =>
    obtain ⟨rfl, rfl⟩ := Prod.mk.inj here
    exact ⟨[], rest, rfl, (List.append_nil _).symm, sends⟩
  | @tail p q _ next ih =>
    subst here
    obtain ⟨out, left, rfl, before, sends'⟩ := ih rfl
    obtain ⟨out', left', rfl, after, sends''⟩ := sends'.step next
    exact ⟨out ++ out', left', (List.append_assoc ..).symm, by rw [after, before, List.append_assoc], sends''⟩

theorem Sends.run {core : κ} {a : α} {s s' : Locked ConsoleLock κ (List UInt8)} (sends : Sends t rest)
    (run : t.run core s = .ok (a, s')) : s'.data = s.data ++ rest := by
  induction t generalizing rest s with
  | ret b =>
    obtain ⟨rfl, rfl⟩ := pure_ok run
    obtain rfl := sends
    exact (List.append_nil _).symm
  | fault => exact (stop_ok run).elim
  | aquire lock later ih => exact sends.elim
  | release lock later ih =>
    have behind : later.run core { s with holder := Function.update s.holder lock none } = .ok (a, s') := run
    have more := ih sends behind
    exact more
  | act update later ih =>
    obtain ⟨ch, left, rfl, each⟩ := sends
    have more := ih s.data (each s.data).2 run
    rw [more]
    dsimp only
    rw [(each s.data).1, List.append_assoc]
    rfl

end sends

theorem emit_sends (out : List UInt8) : Sends (Steps.emit out) out := by
  induction out with
  | nil => rfl
  | cons ch rest ih => exact ⟨ch, rest, rfl, fun data => ⟨rfl, ih⟩⟩

section format

variable {m : Mem} {args : Nat → UInt64}

theorem conversion_ok {ch : UInt8} {next taken : Nat} {serial out : List UInt8}
    (run : conversion m ch (args next) serial = .ok (out, taken)) :
    out = serial ++ (Piece.ofConversion ch next).emitted m args ∧ taken = (Piece.ofConversion ch next).takes := by
  by_cases known : (Piece.ofConversion ch next).Matches m args
  · by_cases large : (Piece.ofConversion ch next).Overruns args
    · rw [conversion_overruns large] at run
      cases run
    · rw [conversion_run ch next serial known large] at run
      obtain ⟨rfl, rfl⟩ := Prod.mk.inj (Except.ok.inj run)
      exact ⟨rfl, rfl⟩
  · rw [conversion_unterminated known] at run
    cases run

theorem printfFrom_stops {format len i next : Nat} (past : len ≤ i) :
    Steps.printfFrom m format len args i next = return () := by
  rw [Steps.printfFrom, if_neg (by omega)]

theorem printfFrom_sends (format : Nat) {len i next : Nat} (rest : Name) (spelled : Spells m (format + i) rest)
    (len_ : len = i + rest.length) :
    Sends (Steps.printfFrom m format len args i next) ((pieces rest next).flatMap (Piece.emitted m args)) := by
  induction rest, next using pieces.induct generalizing i with
  | case1 next =>
    rw [printfFrom_stops (by simp [len_])]
    rfl
  | case2 ch next =>
    have inside : i < len := by simp [len_]
    have past : len ≤ i + 1 := by simp [len_]
    rw [Steps.printfFrom, if_pos inside, spelled.1, pieces]
    by_cases conv : ch = percent
    · -- The terminator is taken for an unknown conversion.
      have terminator : m (format + (i + 1)) = 0 := spelled.2
      have nothing : conversion m 0 (args next) [] = .ok ([], 0) := rfl
      rw [if_pos conv, if_pos conv, terminator, nothing]
      show Sends (Steps.printfFrom m format len args (i + 2) (next + 0)) []
      rw [printfFrom_stops (by omega)]
      rfl
    · rw [if_neg conv, if_neg conv]
      refine (emit_sends [ch]).bind fun _ => ?_
      rw [printfFrom_stops past]
      rfl
  | case3 conv rest next ih =>
    obtain ⟨byte, char, later⟩ := spelled
    have char : m (format + (i + 1)) = conv := char
    simp only [List.length_cons] at len_
    rw [Steps.printfFrom, if_pos (by omega), if_pos byte, pieces, if_pos rfl, char, List.flatMap_cons]
    cases run : conversion m conv (args next) [] with
    | error e => trivial
    | ok r =>
      obtain ⟨out, taken⟩ := r
      obtain ⟨rfl, rfl⟩ := conversion_ok run
      exact (emit_sends _).bind fun _ => ih later (by omega)
  | case4 ch conv rest next plain ih =>
    have byte : m (format + i) = ch := spelled.1
    rw [Steps.printfFrom, if_pos (by simp [len_]), byte, if_neg plain, pieces, if_neg plain, List.flatMap_cons]
    exact (emit_sends _).bind fun _ => ih spelled.2 (by simp [len_]; omega)

theorem printfTemplate_sends (format : Nat) :
    Sends (Steps.printfTemplate m format args) (formatText m format args) := by
  unfold Steps.printfTemplate kuStrlen formatText
  cases terminated : cString m format (2 ^ 64) with
  | none => trivial
  | some fmt =>
    have sends : Sends (Steps.printfFrom m format fmt.length args 0 0) _ :=
      printfFrom_sends format fmt (spells_of_cString terminated).1 (Nat.zero_add _).symm
    have last : Sends (Thread.drop .serialLock) [] := rfl
    have whole := sends.bind fun _ => last
    rwa [List.append_nil] at whole

end format

theorem emit_drop_sends (out : List UInt8) (call : ConsoleCall) : Sends (do
    Steps.emit out
    Thread.drop .serialLock
    return call) out := by
  have returns : ∀ _ : Unit, Sends (.release .serialLock (.ret call)) [] := fun _ => rfl
  have sends := (emit_sends out).bind returns
  rwa [List.append_nil] at sends

namespace ConsoleCall

theorem body_sends (call : ConsoleCall) : Sends call.body call.text := by
  cases call with
  | printf m format args =>
    have returns : ∀ _ : Unit, Sends (.ret (printf m format args)) [] := fun _ => rfl
    have format_sends : Sends (Steps.printfTemplate m format args) _ := printfTemplate_sends format
    have sends := format_sends.bind returns
    rwa [List.append_nil] at sends
  | status label file m format args =>
    have returns : ∀ _ : Unit, Sends (.ret (status label file m format args)) [] := fun _ => rfl
    have format_sends : Sends (Steps.printfTemplate m format args) _ := printfTemplate_sends format
    have sends := format_sends.bind returns
    rw [List.append_nil] at sends
    rw [body, text]
    generalize writeText (label.label file) [] = out
    exact (emit_sends out).bind fun _ => sends
  | kOk =>
    rw [body, text]
    generalize writeText okText [] = out
    exact emit_drop_sends out kOk

end ConsoleCall

/-! ### A call alone -/

section alone

variable {κ : Type} {core : κ} {m : Mem} {args : Nat → UInt64} {serial : List UInt8}
  {holder : ConsoleLock → Option κ}

theorem conversion_append (serial : List UInt8) {ch : UInt8} {next : Nat} : conversion m ch (args next) serial =
    (conversion m ch (args next) []).map fun r => (serial ++ r.1, r.2) := by
  by_cases known : (Piece.ofConversion ch next).Matches m args
  · by_cases large : (Piece.ofConversion ch next).Overruns args
    · rw [conversion_overruns large, conversion_overruns large]
      rfl
    · rw [conversion_run ch next serial known large, conversion_run ch next [] known large]
      rfl
  · rw [conversion_unterminated known, conversion_unterminated known]
    rfl

theorem emit_run (out : List UInt8) :
    (Steps.emit out).run core ⟨serial, holder⟩ = .ok ((), ⟨serial ++ out, holder⟩) := by
  induction out generalizing serial with
  | nil => rw [List.append_nil]; rfl
  | cons ch rest ih =>
    rw [Steps.emit, Thread.bind_run (Thread.write_run _), ih, List.append_assoc]
    rfl

/-- Undefined behaviour is a fault of the thread. -/
def orFault {α : Type} (holder : ConsoleLock → Option κ) (a : α) :
    Except Undefined (List UInt8) → Except Stop (α × Locked ConsoleLock κ (List UInt8))
  | .error _ => .error .fault
  | .ok serial => .ok (a, ⟨serial, holder⟩)

theorem printfFrom_run_alone {format len i next : Nat} :
    (Steps.printfFrom m format len args i next).run core ⟨serial, holder⟩ =
      orFault holder () (printfFrom m format len args i next serial) := by
  induction i, next, serial using printfFrom.induct m format len with
  | case1 i next serial inside percent_ ih =>
    rw [Steps.printfFrom, if_pos inside, if_pos percent_, printfFrom, if_pos inside, if_pos percent_,
      conversion_append serial]
    cases run : conversion m (m (format + (i + 1))) (args next) [] with
    | error e => rfl
    | ok r =>
      dsimp only
      rw [Thread.bind_run (emit_run r.1), ih]
      rfl
  | case2 i next serial inside plain ih =>
    rw [Steps.printfFrom, if_pos inside, if_neg plain, printfFrom, if_pos inside, if_neg plain,
      Thread.bind_run (emit_run _), ← ih]
    rfl
  | case3 i next serial past =>
    rw [Steps.printfFrom, if_neg past, printfFrom, if_neg past]
    rfl

theorem printfTemplate_run_alone {format : Nat} {call : ConsoleCall} {c : Option κ}
    (taken : holder = Function.update allFree .serialLock c) :
    (do Steps.printfTemplate m format args; return call).run core ⟨serial, holder⟩ =
      orFault allFree call (printfTemplate m format args serial) := by
  unfold Steps.printfTemplate printfTemplate
  cases length : kuStrlen m format with
  | error e => rfl
  | ok len =>
    dsimp only
    rw [Thread.bind_assoc]
    cases run : printfFrom m format len args 0 0 serial with
    | error e =>
      have fault : (Steps.printfFrom m format len args 0 0).run core ⟨serial, holder⟩ = _ :=
        printfFrom_run_alone.trans (congrArg (orFault holder ()) run)
      rw [Thread.bind_run_error fault]
      exact congrArg (orFault allFree call) run.symm
    | ok out =>
      have ends : (Steps.printfFrom m format len args 0 0).run core ⟨serial, holder⟩ = _ :=
        printfFrom_run_alone.trans (congrArg (orFault holder ()) run)
      have freed : Function.update holder .serialLock none = allFree := by
        rw [taken, Function.update_idem]
        exact Function.update_eq_self ..
      rw [Thread.bind_run ends, Thread.bind_run Thread.drop_run, freed]
      exact congrArg (orFault allFree call) run.symm

/-- A call that no other core disturbs prints what `printf.c` says. -/
theorem ConsoleCall.body_run (call : ConsoleCall) {c : Option κ} (taken : holder = Function.update allFree .serialLock c) :
    call.body.run core ⟨serial, holder⟩ = orFault allFree call (call.printed serial) := by
  cases call with
  | printf m format args => exact printfTemplate_run_alone taken
  | status label file m format args =>
    rw [body, printed, Thread.bind_run (emit_run _), printfTemplate_run_alone taken]
    exact congrArg (fun out => orFault _ _ (printfTemplate m format args out)) (writeSerial_append _ serial).symm
  | kOk =>
    have freed : Function.update holder .serialLock none = allFree := by
      rw [taken, Function.update_idem]
      exact Function.update_eq_self ..
    rw [body, printed, Thread.bind_run (emit_run _), Thread.bind_run Thread.drop_run, freed]
    exact congrArg (fun out => orFault _ _ (.ok out)) (writeSerial_append _ serial).symm

end alone

/-! ### The serial lock around a call -/

section lock

open Thread

variable {m : Mem} {args : Nat → UInt64}

theorem emit_avoids (out : List UInt8) : (Steps.emit out).Avoids .serialLock := by
  induction out with
  | nil => trivial
  | cons ch rest ih => exact fun _ => ih

theorem printfFrom_avoids (format len i next : Nat) :
    (Steps.printfFrom m format len args i next).Avoids .serialLock := by
  induction i, next using Steps.printfFrom.induct m format len args with
  | case1 i next inside percent_ e undefined =>
    rw [Steps.printfFrom, if_pos inside, if_pos percent_, undefined]
    trivial
  | case2 i next inside percent_ out taken run ih =>
    rw [Steps.printfFrom, if_pos inside, if_pos percent_, run]
    exact (emit_avoids _).bind fun _ => ih
  | case3 i next inside plain ih =>
    rw [Steps.printfFrom, if_pos inside, if_neg plain]
    exact (emit_avoids _).bind fun _ => ih
  | case4 i next past =>
    rw [Steps.printfFrom, if_neg past]
    trivial

theorem printfTemplate_bracketed (format : Nat) (call : ConsoleCall) :
    (do Steps.printfTemplate m format args; return call : ConsoleT ConsoleCall).Bracketed .serialLock := by
  unfold Steps.printfTemplate
  split
  · trivial
  · rw [Thread.bind_assoc]
    exact Bracketed.bind (printfFrom_avoids format _ 0 0) fun _ => Bracketed.last call

theorem ConsoleCall.body_bracketed (call : ConsoleCall) : call.body.Bracketed .serialLock := by
  cases call with
  | printf m format args => exact printfTemplate_bracketed format _
  | status label file m format args =>
    rw [body]
    generalize writeText (label.label file) [] = out
    exact Bracketed.bind (emit_avoids out) fun _ => printfTemplate_bracketed format _
  | kOk =>
    rw [body]
    generalize writeText okText [] = out
    exact Bracketed.bind (emit_avoids out) fun _ => Bracketed.last _

end lock

theorem printfTemplate_defined {m : Mem} {args : Nat → UInt64} {format : Nat} (serial : List UInt8)
    (defined : FormatDefined m format args) :
    printfTemplate m format args serial = .ok (serial ++ formatText m format args) := by
  obtain ⟨fmt, terminated, each⟩ := defined
  have small : ¬ ∃ p ∈ pieces fmt 0, p.Overruns args := fun ⟨p, member, large⟩ => (each p member).2 large
  rw [printfTemplate_run terminated fun p member => (each p member).1, runOver_small small, formatText, terminated]

theorem ConsoleCall.printed_defined {call : ConsoleCall} (serial : List UInt8) (defined : call.Defined) :
    call.printed serial = .ok (serial ++ call.text) := by
  cases call with
  | printf m format args => exact printfTemplate_defined serial defined
  | status label file m format args =>
    rw [printed, text, writeText, writeSerial_append, printfTemplate_defined _ defined, List.append_assoc]
    rfl
  | kOk => exact congrArg Except.ok (writeSerial_append _ serial)

/-! ### Cores that print -/

section cores

variable {κ : Type}

/-- The calls of the console, and what each core has printed. -/
def console (κ : Type) : Calls ConsoleLock κ (List UInt8) ConsoleCall (List ConsoleCall) where
  lock := .serialLock
  body _ t := ∃ call : ConsoleCall, t = call.body
  note call before := before ++ [call]
  meets _ _ _ := True

def printedBy [DecidableEq κ] (log : List (κ × ConsoleCall)) (c : κ) : List ConsoleCall :=
  (log.filter (·.1 = c)).map (·.2)

def output (log : List (κ × ConsoleCall)) : List UInt8 := log.flatMap (·.2.text)

variable [DecidableEq κ] {start : List UInt8} {s : Config ConsoleLock κ (List UInt8) ConsoleCall (List ConsoleCall)}

/-- Core `c` is in `call`, behind the output `before`. -/
structure Printing (s : Config ConsoleLock κ (List UInt8) ConsoleCall (List ConsoleCall)) (before : List UInt8) (c : κ)
    (call : ConsoleCall) : Prop where
  holds : s.shared.holder .serialLock = some c
  sent : ∃ out, out <+: call.text ∧ s.shared.data = before ++ out
  completes : call.Defined → Relation.ReflTransGen (Step (console κ)) s
    ⟨⟨before ++ call.text, allFree⟩, Function.update s.code c (some (.ret call)), s.got⟩

theorem console_sound (start : List UInt8) : (console κ).Sound start fun _ => [] where
  bracketed := by
    rintro c t ⟨call, rfl⟩
    exact call.body_bracketed
  frees := by
    rintro data got c t a s serial ⟨call, rfl⟩ _ run
    have run := (call.body_run rfl).symm.trans run
    cases printed : call.printed data with
    | error e =>
      rw [printed] at run
      cases run
    | ok out =>
      rw [printed] at run
      obtain ⟨_, rfl⟩ := Prod.mk.inj (Except.ok.inj run)
      rfl

/-- Whole calls leave their texts one behind the other. -/
theorem output_of_serial {data : List UInt8} {got : κ → List ConsoleCall}
    (serial : SerialRun (console κ) start (fun _ => []) data got) :
    ∃ log : List (κ × ConsoleCall), (∀ c, printedBy log c = got c) ∧ data = start ++ output log := by
  induction serial with
  | start => exact ⟨[], fun _ => rfl, (List.append_nil _).symm⟩
  | @call data data' got c t a before known meets run ih =>
    obtain ⟨log, each, rfl⟩ := ih
    obtain ⟨call, rfl⟩ := known
    have sent : data' = _ ++ call.text := call.body_sends.run run
    have returned := (call.body_run rfl).symm.trans run
    cases printed : call.printed (start ++ output log) with
    | error e =>
      rw [printed] at returned
      cases returned
    | ok out =>
      rw [printed] at returned
      obtain ⟨rfl, _⟩ := Prod.mk.inj (Except.ok.inj returned)
      refine ⟨log ++ [(c, call)], fun d => ?_, ?_⟩
      · by_cases own : d = c
        · subst own
          simp [printedBy, console, ← each]
        · simp [printedBy, console, ← each, own, Ne.symm own]
      · simp [sent, output]

/-- However the cores' bytes interleave, the output is a row of whole messages, each core's own in the order of its
calls, and behind them a part of one message while a core has `serial_lock`; the core that has it completes a defined
call by its own steps. -/
theorem console_messages (run : Run (console κ) start (fun _ => []) s) :
    ∃ log : List (κ × ConsoleCall), (∀ c, printedBy log c = s.settled (console κ) c) ∧
      (s.shared = ⟨start ++ output log, allFree⟩ ∨ ∃ c call, Printing s (start ++ output log) c call) := by
  obtain ⟨data, got, before, serial⟩ := Run.serial (console_sound start) run
  obtain ⟨log, each, rfl⟩ := output_of_serial before
  refine ⟨log, fun c => ?_, ?_⟩
  · cases serial with
    | between _ _ settled => rw [each, settled]
    | during d t inside _ settled own =>
      by_cases here : c = d
      · subst here
        rw [each, settled_inside inside.code (inside.runs (console_sound start) before), own]
      · rw [each, settled c here]
  · cases serial with
    | between shared _ _ => exact .inl shared
    | during c t inside _ _ _ =>
      obtain ⟨_, ⟨call, rfl⟩, _, steps⟩ := inside.call
      obtain ⟨out, left, text, sent, _⟩ := call.body_sends.steps steps
      refine .inr ⟨c, call, inside.held, ⟨out, ⟨left, text.symm⟩, sent⟩, fun defined => inside.completes ?_⟩
      rw [← Thread.run_steps steps]
      refine (call.body_run rfl).trans ?_
      rw [call.printed_defined _ defined]
      rfl

/-- A defined call that finds the lock free. -/
theorem completes_message {c : κ} {call : ConsoleCall} {data : List UInt8} (defined : call.Defined) (idle : s.code c = none)
    (shared : s.shared = ⟨data, allFree⟩) : Relation.ReflTransGen (Step (console κ)) s
      ⟨⟨data ++ call.text, allFree⟩, Function.update s.code c (some (.ret call)), s.got⟩ := by
  have alone : call.body.run c ⟨data, held (console κ) c⟩ = .ok (call, ⟨data ++ call.text, allFree⟩) := by
    refine (call.body_run rfl).trans ?_
    rw [call.printed_defined data defined]
    rfl
  exact completes_call call.body_bracketed idle shared ⟨call, rfl⟩ trivial alone

/-- One core has printed its message, another waits for the lock. -/
theorem console_messages_two (call : ConsoleCall) (defined : call.Defined) :
    ∃ s : Config ConsoleLock Nat (List UInt8) ConsoleCall (List ConsoleCall), Run (console Nat) [] (fun _ => []) s ∧
      s.shared = ⟨call.text, allFree⟩ ∧ s.settled (console Nat) 0 = [call] := by
  have first : Run (console Nat) [] (fun _ => []) _ := completes_message (c := 0) defined rfl rfl
  exact ⟨_, first.tail (Step.begin 1 rfl ⟨call, rfl⟩), rfl, rfl⟩

theorem console_messages_ok : ∃ log : List (Nat × ConsoleCall), printedBy log 0 = [.kOk] ∧
    output log = ConsoleCall.kOk.text := by
  obtain ⟨s, run, shared, settled⟩ := console_messages_two .kOk trivial
  obtain ⟨log, each, whole | ⟨c, call, printing⟩⟩ := console_messages run
  · exact ⟨log, (each 0).trans settled, congrArg Locked.data (whole.symm.trans shared)⟩
  · have holds := printing.holds
    rw [shared] at holds
    cases holds

end cores

end PotatOS.Utils
