import PotatOS.Lib.Interrupts
import PotatOS.Tasks.Switch
import PotatOS.Tasks.Exit
import PotatOS.Kernel.StackTrace
import PotatOS.Utils.Convert

/-!
# Exceptions (`exceptions.asm`, `panic.c`)

Every exception runs `baseHandler`, which ends the current task first. Only an
exception of the kernel's own comes to `exception_handler`, with the registers
of the interrupted code behind each other on the stack.
-/

namespace PotatOS.Exceptions

open Memory Cpu Tasks Mem Prog

inductive ExceptionFn where
  | syscallExit | exceptionHandler
  deriving DecidableEq, Repr

/-- The instructions of `exceptions.asm`. A plain one calls nothing. -/
inductive Op where
  | plain (i : Instr Empty)
  | call (f : ExceptionFn) (next : Nat)
  | movFromCr2 (dest : Reg)
  | addRsp (n : Nat)
  | cld
  | sti

/-! ### The stubs -/

/-- `push 0; push vector; jmp baseHandler` -/
def stubWithoutCode (vector : Nat) : List Op := [.plain (.pushImm 0), .plain (.pushImm vector)]

/-- `push vector; jmp baseHandler`, below the error code that the processor pushed. -/
def stubWithCode (vector : Nat) : List Op := [.plain (.pushImm vector)]

def divideException := stubWithoutCode 0
def debugException := stubWithoutCode 1
def breakpointException := stubWithoutCode 3
def overflowException := stubWithoutCode 4
def boundRangeExceededException := stubWithoutCode 5
def invalidOpcodeException := stubWithoutCode 6
def deviceNotAvaliableException := stubWithoutCode 7
def doubleFaultException := stubWithCode 8
def coprocessorSegmentOverrunException := stubWithoutCode 9
def invalidTSSException := stubWithCode 10
def segmentNotPresentException := stubWithCode 11
def stackSegmentFaultException := stubWithCode 12
def generalProtectionFaultException := stubWithCode 13
def pageFaultException := stubWithCode 14
def floatingPointException := stubWithoutCode 16
def alignmentCheckException := stubWithCode 17
def machineCheckException := stubWithoutCode 18
def simdFloatingPointException := stubWithoutCode 19
def virtualisationException := stubWithoutCode 20

/-- The entries that `init_IDT` makes for them. -/
def exceptionEntries : List (Nat × List Op) :=
  [(0, divideException), (1, debugException), (3, breakpointException), (4, overflowException),
    (5, boundRangeExceededException), (6, invalidOpcodeException), (7, deviceNotAvaliableException),
    (8, doubleFaultException), (9, coprocessorSegmentOverrunException), (10, invalidTSSException),
    (11, segmentNotPresentException), (12, stackSegmentFaultException), (13, generalProtectionFaultException),
    (14, pageFaultException), (16, floatingPointException), (17, alignmentCheckException), (18, machineCheckException),
    (19, simdFloatingPointException), (20, virtualisationException)]

/-- The exceptions with an error code. -/
def hasErrorCode (vector : Nat) : Bool := vector ∈ [8, 10, 11, 12, 13, 14, 17, 21, 29, 30]

/-- Each stub pushes a code exactly where the processor does not. -/
theorem stub_of_entry {vector : Nat} {stub : List Op} (entry : (vector, stub) ∈ exceptionEntries) :
    stub = if hasErrorCode vector then stubWithCode vector else stubWithoutCode vector := by
  have all : ∀ e ∈ exceptionEntries, e.2 = if hasErrorCode e.1 then stubWithCode e.1 else stubWithoutCode e.1 := by
    simp only [exceptionEntries, List.forall_mem_cons]
    exact ⟨rfl, rfl, rfl, rfl, rfl, rfl, rfl, rfl, rfl, rfl, rfl, rfl, rfl, rfl, rfl, rfl, rfl, rfl, rfl, nofun⟩
  exact all _ entry

/-- From `mov rdi, rax` up to the `iretq`. -/
def handleException (next : ExceptionFn → Nat) : List Op :=
  [.plain (.mov .rdi .rax), .call .syscallExit (next .syscallExit), .movFromCr2 .rax, .plain (.push .rax), .cld,
    .plain (.movFromRsp .rdi), .call .exceptionHandler (next .exceptionHandler), .addRsp 8] ++
    allRegs.reverse.map (fun r => .plain (.pop r)) ++ [.addRsp 16, .sti]

def baseHandler (next : ExceptionFn → Nat) : List Op :=
  allRegs.map (fun r => .plain (.push r)) ++ handleException next

/-! ### Execution -/

/-- How a call ends that does not return. -/
inductive Ending (κ : Type) where
  | waits (data : κ)
  | halts (data : κ)
  | undefined

section run

variable {κ : Type} (cr2 : Nat) (ext : ExceptionFn → State κ → Except (Ending κ) (State κ))

def Op.step : Op → State κ → Except (Ending κ) (State κ)
  | .plain i, s => .ok (i.step (fun f : Empty => nomatch f) s)
  | .call f next, s => ext f (s.push next)
  | .movFromCr2 dest, s => .ok (s.set dest cr2)
  | .addRsp n, s => .ok { s with rsp := s.rsp + n }
  | .cld, s => .ok { s with rflags := s.rflags - (s.rflags &&& 1024) }
  | .sti, s => .ok { s with rflags := s.rflags ||| 512 }

def runOps : List Op → State κ → Except (Ending κ) (State κ)
  | [], s => .ok s
  | op :: rest, s => op.step cr2 ext s >>= runOps rest

end run

/-! ### `exception_handler` -/

/-- `struct IDTEFrame`. The general registers lie in the order `r15` to `rax`. -/
structure IDTEFrame where
  cr2 : Nat
  gpr : Reg → Nat
  type : Nat
  code : Nat
  rip : Nat
  cs : Nat
  flags : Nat
  rsp : Nat
  ss : Nat

def frameOfWords (word : Nat → Nat) : IDTEFrame :=
  { cr2 := word 0, gpr := fun r => word (1 + allRegs.reverse.idxOf r), type := word 16, code := word 17, rip := word 18
    cs := word 19, flags := word 20, rsp := word 21, ss := word 22 }

/-- The parameter of `exception_handler`, behind the return address. -/
def registersOf {κ : Type} (s : State κ) : IDTEFrame := frameOfWords fun i => s.word (s.rsp + 8 + 8 * i)

/-- What `kpanic` prints. -/
structure Panic where
  message : List UInt8
  code : Nat
  /-- In the order of the format. -/
  dump : List Nat
  cr3 : Nat
  cr2 : Nat
  trace : List Nat

structure KernelData where
  tasks : Tasklist
  inExceptionHandler : Bool
  panic : Option Panic

def exceptionLabel (type : Nat) : Except Undefined (List UInt8) :=
  if type = 14 then .ok "Page Fault".toUTF8.toList
  else if type = 13 then .ok "General Protection Fault".toUTF8.toList
  else do
    let label ← Utils.kuUint16ToString (UInt16.ofNat type) (List.replicate 30 (some 0))
    let label ← label.put 29 0
    label.text

/-- The registers that `register_dump` names in its first line. -/
def dumpOrder : List Reg := [.r8, .r9, .rax, .r10, .r11, .rbx, .r12, .r13, .rcx, .r14, .r15, .rdx]

section handlers

variable (cpu fuel cr2 : Nat)

/-- The trace has to end within `fuel` rounds. -/
def exceptionHandler (s : State KernelData) : Ending KernelData :=
  let registers := registersOf s
  if s.data.inExceptionHandler then .halts s.data
  else
    match exceptionLabel registers.type, Kernel.stackTrace s.mem fuel (registers.gpr .rbp) registers.rip with
    | .ok message, some trace =>
      .halts { s.data with
        inExceptionHandler := true
        panic := some
          { message, code := registers.code, dump := dumpOrder.map registers.gpr, cr3 := s.cr3, cr2, trace } }
    | _, _ => .undefined

/-- `syscall_exit` with this code. It returns if the current task is no user task. -/
def exitWith (code : Nat) (d : KernelData) : Except (Ending KernelData) Unit :=
  match getCurrentTask d.tasks cpu with
  | none => .ok ()
  | some task =>
    if task.isUser then
      match syscallExit cpu code d.tasks with
      | .ok (_, tasks) => .error (.waits { d with tasks })
      | .error _ => .error .undefined
    else .ok ()

/-- A function that returns at once, up to what the compiler may leave behind. -/
structure Returning where
  body : State KernelData → State KernelData
  sysV : SysV body
  data : ∀ s, (body s).data = s.data

def exceptionFn (w : Returning) : ExceptionFn → State KernelData → Except (Ending KernelData) (State KernelData)
  | .syscallExit, s => do
    exitWith cpu (s.gpr .rdi) s.data
    return w.body s
  | .exceptionHandler, s => .error (exceptionHandler fuel cr2 s)

end handlers

/-- What happens from the exception on. -/
def raise (cpu fuel cr2 : Nat) (w : Returning) (next : ExceptionFn → Nat) (gate : Gate) (rsp0 : Nat) (stub : List Op)
    (code : Option Nat) (s : State KernelData) : Except (Ending KernelData) (State KernelData) :=
  runOps cr2 (exceptionFn cpu fuel cr2 w) (stub ++ baseHandler next) (s.interrupt gate rsp0 code)

section raise

variable {cpu fuel cr2 : Nat} {w : Returning} {next : ExceptionFn → Nat} {gate : Gate} {rsp0 vector : Nat}
  {stub : List Op} {code : Option Nat} {s : State KernelData}

theorem ok_then {ε α β : Type} (a : α) (f : α → Except ε β) : (Except.ok a >>= f) = f a := rfl

theorem runOps_append {κ : Type} {ext : ExceptionFn → State κ → Except (Ending κ) (State κ)} (ops ops' : List Op) (s : State κ) :
    runOps cr2 ext (ops ++ ops') s = runOps cr2 ext ops s >>= runOps cr2 ext ops' := by
  induction ops generalizing s with
  | nil => rfl
  | cons op ops ih =>
    show (op.step cr2 ext s >>= runOps cr2 ext (ops ++ ops')) = (op.step cr2 ext s >>= runOps cr2 ext ops) >>= _
    cases op.step cr2 ext s with
    | error e => rfl
    | ok t => exact ih t

theorem runOps_pushes {κ : Type} {ext : ExceptionFn → State κ → Except (Ending κ) (State κ)} (regs : List Reg) (s : State κ) :
    runOps cr2 ext (regs.map fun r => .plain (.push r)) s = .ok (s.pushes (regs.map s.gpr)) := by
  induction regs generalizing s with
  | nil => rfl
  | cons r regs ih => exact ih (s.push (s.gpr r))

/-- The values on the stack when the registers are saved. -/
def savedValues (vector : Nat) (code : Option Nat) (s : State KernelData) : List Nat :=
  (if code.isSome then [vector] else [0, vector]) ++ allRegs.map s.gpr

theorem raise_eq (entry : (vector, stub) ∈ exceptionEntries) (coded : code.isSome = hasErrorCode vector) :
    raise cpu fuel cr2 w next gate rsp0 stub code s = runOps cr2 (exceptionFn cpu fuel cr2 w) (handleException next)
      ((s.interrupt gate rsp0 code).pushes (savedValues vector code s)) := by
  have regs := (interrupt_kept (s := s) gate code rsp0).1
  unfold raise
  generalize s.interrupt gate rsp0 code = t at regs
  have pushed : runOps cr2 (exceptionFn cpu fuel cr2 w) stub t =
      .ok (t.pushes (if code.isSome then [vector] else [0, vector])) := by
    rw [stub_of_entry entry, ← coded]
    split <;> rfl
  have same : (t.pushes (if code.isSome then [vector] else [0, vector])).gpr = s.gpr := (pushes_kept ..).1.trans regs
  rw [runOps_append, pushed, ok_then, baseHandler, runOps_append, runOps_pushes, ok_then, same, savedValues, pushes_append]

/-- At the entry of `exception_handler`, from the state in which `syscall_exit` came back. -/
def handlerEntry (cr2 next : Nat) (u : State KernelData) : State KernelData :=
  let pushed := (u.set .rax cr2).push cr2
  let cleared := { pushed with rflags := pushed.rflags - (pushed.rflags &&& 1024) }
  (cleared.set .rdi cleared.rsp).push next

theorem handleException_eq (t : State KernelData) :
    runOps cr2 (exceptionFn cpu fuel cr2 w) (handleException next) t = (do
      exitWith cpu (t.gpr .rax) t.data
      .error (exceptionHandler fuel cr2 (handlerEntry cr2 (next .exceptionHandler)
        (w.body ((t.set .rdi (t.gpr .rax)).push (next .syscallExit)))))) := by
  obtain ⟨rest, shape⟩ : ∃ rest, handleException next =
      .plain (.mov .rdi .rax) :: .call .syscallExit (next .syscallExit) :: .movFromCr2 .rax :: .plain (.push .rax) :: .cld ::
        .plain (.movFromRsp .rdi) :: .call .exceptionHandler (next .exceptionHandler) :: rest := ⟨_, rfl⟩
  rw [shape]
  show (exceptionFn cpu fuel cr2 w .syscallExit ((t.set .rdi (t.gpr .rax)).push (next .syscallExit)) >>= _) = _
  unfold exceptionFn
  show ((exitWith cpu (t.gpr .rax) t.data >>= _) >>= _) = _
  cases exitWith cpu (t.gpr .rax) t.data with
  | error e => rfl
  | ok _ =>
    generalize w.body ((t.set .rdi (t.gpr .rax)).push (next .syscallExit)) = u
    rfl

/-- An exception of a user task, in its own code or in a system call, is the exit call with what `rax` holds; nothing
is reported. -/
theorem raise_exits {task : Task} (entry : (vector, stub) ∈ exceptionEntries)
    (coded : code.isSome = hasErrorCode vector) (current : getCurrentTask s.data.tasks cpu = some task)
    (user : task.isUser = true) :
    raise cpu fuel cr2 w next gate rsp0 stub code s = .error
      (match syscallExit cpu (s.gpr .rax) s.data.tasks with
        | .ok (_, tasks) => .waits { s.data with tasks }
        | .error _ => .undefined) := by
  have kept := interrupt_kept (s := s) gate code rsp0
  have kept' := pushes_kept (s.interrupt gate rsp0 code) (savedValues vector code s)
  rw [raise_eq entry coded, handleException_eq, kept'.1, kept'.2.2.2.1, kept.1, kept.2.1, exitWith, current]
  dsimp only
  rw [if_pos user]
  cases syscallExit cpu (s.gpr .rax) s.data.tasks <;> rfl

/-! ### The report -/

theorem length_savedValues : (savedValues vector code s).length + code.toList.length = 17 := by
  rw [savedValues, List.length_append, List.length_map, show allRegs.length = 15 from rfl]
  cases code <;> rfl

variable (gate) in
/-- Frame, code, vector and registers are 22 words. -/
theorem saved_rsp : ((s.interrupt gate rsp0 code).pushes (savedValues vector code s)).rsp = s.frameTop rsp0 - 176 := by
  have length : (savedValues vector code s).length + code.toList.length = 17 := length_savedValues
  rw [(pushes_kept _ _).2.2.2.2, interrupt_rsp]
  omega

variable (gate) in
/-- The saved registers and the frame, from the top of the stack on. -/
theorem saved_stack (coded : code.isSome = hasErrorCode vector) (known : vector < 2 ^ 64) (words : Words s)
    (small : ∀ c ∈ code, c < 2 ^ 64) (room : 256 ≤ s.frameTop rsp0) :
    ((s.interrupt gate rsp0 code).pushes (savedValues vector code s)).stack 22 =
      allRegs.reverse.map s.gpr ++ [vector, code.getD 0, s.rip, s.cs, s.rflags, s.rsp, s.ss] := by
  have frame := interrupt_stack (s := s) gate code words small (Nat.le_trans (by decide) room)
  have values : ∀ v ∈ savedValues vector code s, v < 2 ^ 64 := by
    intro v listed
    rcases List.mem_append.mp listed with first | reg
    · cases code <;> simp at first <;> omega
    · obtain ⟨r, _, rfl⟩ := List.mem_map.mp reg
      exact words.gpr r
  have deep : 8 * (savedValues vector code s).length ≤ (s.interrupt gate rsp0 code).rsp := by
    have length : (savedValues vector code s).length + code.toList.length = 17 := length_savedValues
    rw [interrupt_rsp]
    omega
  have pushed := stack_pushes (n := code.toList.length + 5) deep values
  rw [frame] at pushed
  cases code with
  | none => exact pushed
  | some c => exact pushed

/-- The registers of the interrupted code, as the parameter of `exception_handler` has them. -/
def interruptedRegisters (cr2 vector : Nat) (code : Option Nat) (s : State KernelData) : IDTEFrame :=
  { cr2, gpr := s.gpr, type := vector, code := code.getD 0, rip := s.rip, cs := s.cs, flags := s.rflags, rsp := s.rsp
    ss := s.ss }

theorem frameOfWords_eq {word : Nat → Nat} (words : ∀ i v, (cr2 :: (allRegs.reverse.map s.gpr ++
      [vector, code.getD 0, s.rip, s.cs, s.rflags, s.rsp, s.ss]))[i]? = some v → word i = v) :
    frameOfWords word = interruptedRegisters cr2 vector code s := by
  have gpr : (fun r => word (1 + allRegs.reverse.idxOf r)) = s.gpr := by
    funext r
    cases r <;> exact words _ _ rfl
  rw [frameOfWords, gpr, words 0 _ rfl, words 16 _ rfl, words 17 _ rfl, words 18 _ rfl, words 19 _ rfl, words 20 _ rfl,
    words 21 _ rfl, words 22 _ rfl]
  rfl

theorem registersOf_handlerEntry {u : State KernelData} (next : Nat) (room : 16 ≤ u.rsp) (small : cr2 < 2 ^ 64)
    (stack : u.stack 22 = allRegs.reverse.map s.gpr ++ [vector, code.getD 0, s.rip, s.cs, s.rflags, s.rsp, s.ss]) :
    registersOf (handlerEntry cr2 next u) = interruptedRegisters cr2 vector code s := by
  have pushed : ((u.set .rax cr2).pushes [cr2]).stack 23 = _ := stack_pushes (n := 22) (by show 8 ≤ u.rsp; omega)
    (by simpa using small)
  have same : (u.set .rax cr2).stack 22 = u.stack 22 := rfl
  rw [same, stack] at pushed
  have top : ((u.set .rax cr2).push cr2).rsp = u.rsp - 8 := rfl
  refine frameOfWords_eq fun i v found => ?_
  have inside : i < 23 := (List.getElem?_eq_some_iff.mp found).1
  have word : ((u.set .rax cr2).push cr2).word (((u.set .rax cr2).push cr2).rsp + 8 * i) = v :=
    word_of_stack inside ((congrArg (·[i]?) pushed).trans found)
  unfold handlerEntry
  generalize (u.set .rax cr2).push cr2 = p at top word
  exact (word_push (by show 8 ≤ p.rsp; omega)).trans word

/-- The stack of `u` under what `mov rax, cr2` to the call of `exception_handler` push. -/
theorem handlerEntry_kept (cr2 : Nat) {u : State KernelData} (next : Nat) (room : 16 ≤ u.rsp) :
    (handlerEntry cr2 next u).data = u.data ∧ (handlerEntry cr2 next u).cr3 = u.cr3 ∧
      ∀ x, u.rsp ≤ x → (handlerEntry cr2 next u).mem x = u.mem x := by
  refine ⟨rfl, rfl, fun x above => ?_⟩
  have top : ((u.set .rax cr2).push cr2).rsp = u.rsp - 8 := rfl
  have mem : ((u.set .rax cr2).push cr2).mem x = u.mem x :=
    push_above (by show 8 ≤ u.rsp; omega) above
  unfold handlerEntry
  generalize (u.set .rax cr2).push cr2 = p at top mem
  exact (push_above (by show 8 ≤ p.rsp; omega) (by show p.rsp ≤ x; omega)).trans mem

variable (w) in
/-- `syscall_exit` called by the handler, when it comes back. -/
theorem returned_kept {t : State KernelData} (next : Nat) (room : 8 ≤ t.rsp) :
    let u := w.body ((t.set .rdi (t.gpr .rax)).push next)
    u.rsp = t.rsp ∧ u.data = t.data ∧ u.cr3 = t.cr3 ∧ ∀ x, t.rsp ≤ x → u.mem x = t.mem x := by
  have rsp : ((t.set .rdi (t.gpr .rax)).push next).rsp = t.rsp - 8 := rfl
  refine ⟨?_, w.data _, w.sysV.cr3 _, fun x above => ?_⟩
  · rw [w.sysV.rsp, rsp]
    omega
  · rw [w.sysV.stack _ x (by rw [rsp]; omega)]
    exact push_above room above

/-- The name of an exception in the report. -/
def exceptionText (vector : Nat) : List UInt8 :=
  if vector = 14 then "Page Fault".toUTF8.toList
  else if vector = 13 then "General Protection Fault".toUTF8.toList
  else Utils.numeral 10 vector

theorem exceptionLabel_eq (small : vector < 2 ^ 16) : exceptionLabel vector = .ok (exceptionText vector) := by
  have number : (UInt16.ofNat vector).toNat = vector := by
    rw [UInt16.toNat_ofNat']
    exact Nat.mod_eq_of_lt small
  have short : (Utils.numeral 10 vector).length ≤ 5 :=
    (Utils.length_numeral_le_iff _ (by decide) (by decide)).mpr (by omega)
  have run : Utils.kuUint16ToString (UInt16.ofNat vector) (List.replicate 30 (some 0)) = _ :=
    Utils.kuUint16ToString_run (by rw [number, List.length_replicate]; omega)
  rw [number] at run
  have noNul : (0 : UInt8) ∉ Utils.numeral 10 vector := Utils.numeral_ne (by decide) (by decide) (by decide)
  obtain ⟨str, put, text⟩ := Local.text_put noNul (show (Utils.numeral 10 vector).length ≤ 29 by omega)
    (show 29 < (Utils.numeral 10 vector).length + 1 +
      ((List.replicate 30 (some 0)).drop ((Utils.numeral 10 vector).length + 1)).length by
      rw [List.length_drop, List.length_replicate]; omega)
  unfold exceptionLabel exceptionText
  split
  · rfl
  · split
    · rfl
    · rw [run, Local.ok_bind, put, Local.ok_bind, text]

end raise

/-! ### A fault in the kernel -/

def returnAtOnce : Returning :=
  ⟨fun s => { s with rsp := s.rsp + 8 }, ⟨fun _ => rfl, fun _ _ _ => rfl, fun _ => rfl, fun _ => rfl, fun _ _ _ => rfl⟩,
    fun _ => rfl⟩

def faultingKernel : State KernelData :=
  { gpr := fun r => if r = .rax then 7 else 0
    rsp := 0xFFFFFFFFFFFFF000, rip := 0x400000, cs := 8, ss := 0x10, rflags := 0x202, carry := false, zero := false
    cr3 := 0x3000, space := fun _ _ => 0
    data := { tasks := initTasklist 4096 8192 1, inExceptionHandler := false, panic := none } }

theorem faultingKernel_own (task : Task) (found : getCurrentTask faultingKernel.data.tasks 0 = some task) :
    task.isUser = false := by
  obtain rfl := Option.some.inj (show some _ = some task from found)
  rfl

end PotatOS.Exceptions
