import PotatOS.Cpu.Exceptions
import PotatOS.Lib.Descriptors
import PotatOS.Mem.KheapRuns

/-!
# The interrupt descriptor table (`idt.c`)

`set_IDT_entry` leaves the byte with the stack number alone, so what the page
from `kmalloc` held there stays. A cleared page gives gates without a stack of
their own, and none for the vectors that nobody set.
-/

namespace PotatOS.Idt

open Memory Cpu Mem Tasks Exceptions

inductive Isr where
  | divideException | debugException | breakpointException | overflowException | boundRangeExceededException
  | invalidOpcodeException | deviceNotAvaliableException | doubleFaultException | coprocessorSegmentOverrunException
  | invalidTSSException | segmentNotPresentException | stackSegmentFaultException | generalProtectionFaultException
  | pageFaultException | floatingPointException | alignmentCheckException | machineCheckException
  | simdFloatingPointException | virtualisationException
  | spuriousIrq | timerIsr | keyboardIsr | syscallIsr
  deriving DecidableEq, Repr

/-- The first instructions of the handlers in `exceptions.asm`. -/
def Isr.stub : Isr → Option (List Op)
  | .divideException => some Exceptions.divideException
  | .debugException => some Exceptions.debugException
  | .breakpointException => some Exceptions.breakpointException
  | .overflowException => some Exceptions.overflowException
  | .boundRangeExceededException => some Exceptions.boundRangeExceededException
  | .invalidOpcodeException => some Exceptions.invalidOpcodeException
  | .deviceNotAvaliableException => some Exceptions.deviceNotAvaliableException
  | .doubleFaultException => some Exceptions.doubleFaultException
  | .coprocessorSegmentOverrunException => some Exceptions.coprocessorSegmentOverrunException
  | .invalidTSSException => some Exceptions.invalidTSSException
  | .segmentNotPresentException => some Exceptions.segmentNotPresentException
  | .stackSegmentFaultException => some Exceptions.stackSegmentFaultException
  | .generalProtectionFaultException => some Exceptions.generalProtectionFaultException
  | .pageFaultException => some Exceptions.pageFaultException
  | .floatingPointException => some Exceptions.floatingPointException
  | .alignmentCheckException => some Exceptions.alignmentCheckException
  | .machineCheckException => some Exceptions.machineCheckException
  | .simdFloatingPointException => some Exceptions.simdFloatingPointException
  | .virtualisationException => some Exceptions.virtualisationException
  | .spuriousIrq | .timerIsr | .keyboardIsr | .syscallIsr => none

/-- An entry of `struct IDTEntry` has 16 bytes: `offset1`, `segment_selector`, `rsvd`, `flags`, `offset2`, `offset3`
and `reserved`. -/
def setIDTEntry (vector isr flags idt : Nat) (m : Mem) : Mem :=
  let entry := idt + 16 * vector
  let m := store m entry 2 isr
  let m := store m (entry + 6) 2 (isr >>> 16)
  let m := store m (entry + 8) 4 (isr >>> 32)
  let m := store m (entry + 5) 1 flags
  store m (entry + 2) 2 0x08

/-- The calls of `init_IDT`: vector, handler and flags. -/
def initIDT : List (Nat × Isr × Nat) :=
  [(0xFF, .spuriousIrq, 0x8E), (40, .timerIsr, 0x8E), (0, .divideException, 0x8E), (1, .debugException, 0x8E),
    (3, .breakpointException, 0x8E), (4, .overflowException, 0x8E), (5, .boundRangeExceededException, 0x8E),
    (6, .invalidOpcodeException, 0x8E), (7, .deviceNotAvaliableException, 0x8E), (8, .doubleFaultException, 0x8E),
    (9, .coprocessorSegmentOverrunException, 0x8E), (10, .invalidTSSException, 0x8E),
    (11, .segmentNotPresentException, 0x8E), (12, .stackSegmentFaultException, 0x8E),
    (13, .generalProtectionFaultException, 0x8E), (14, .pageFaultException, 0x8E), (16, .floatingPointException, 0x8E),
    (17, .alignmentCheckException, 0x8E), (18, .machineCheckException, 0x8E), (19, .simdFloatingPointException, 0x8E),
    (20, .virtualisationException, 0x8E)]

/-- The calls up to the first task, in the order of `_start`. -/
def bootEntries : List (Nat × Isr × Nat) :=
  -- init_PIT, init_syscalls, init_ps2_keyboard
  initIDT ++ [(32, .timerIsr, 0x8F), (0x80, .syscallIsr, 0xEF), (33, .keyboardIsr, 0x8E)]

/-- `kernel.idtr.size` -/
def idtSize : Nat := 16 * 256 - 1

section table

variable (address : Isr → Nat) (idt : Nat)

def setEntries (m : Mem) (entries : List (Nat × Isr × Nat)) : Mem :=
  entries.foldl (fun m e => setIDTEntry e.1 (address e.2.1) e.2.2 idt m) m

/-- What the last call for a vector asked for. -/
def lastSet (entries : List (Nat × Isr × Nat)) (vector : Nat) : Option (Isr × Nat) :=
  (entries.reverse.find? fun e => e.1 = vector).map Prod.snd

/-- The gate that a call asks for, with the stack number that was there. -/
def gateFor (isr flags ist : Nat) : GateDescriptor where
  offset := isr
  selector := 0x08
  ist := ist
  kind := bits flags 0 5
  privilege := bits flags 5 2
  present := bits flags 7 1 == 1

end table

section entries

variable {address : Isr → Nat} {idt vector isr flags : Nat} {m : Mem}

theorem setIDTEntry_outside {x : Nat} (outside : ¬ InRange (idt + 16 * vector) 16 x) :
    setIDTEntry vector isr flags idt m x = m x := by
  unfold setIDTEntry
  unfold InRange at outside
  iterate 5 rw [store_outside (by unfold InRange; omega)]

theorem readGate_congr {m' : Mem} {a : Nat} (same : ∀ x, InRange a 16 x → m' x = m x) : readGate m' a = readGate m a := by
  have each : ∀ o n, o + n ≤ 16 → load m' (a + o) n = load m (a + o) n := fun o n fits =>
    load_congr fun x inside => same x (by unfold InRange at *; omega)
  have first : load m' a 2 = load m a 2 := each 0 2 (by decide)
  unfold readGate
  rw [first, each 6 2 (by decide), each 8 4 (by decide), each 2 2 (by decide), each 4 1 (by decide), each 5 1 (by decide)]

theorem readGate_setIDTEntry (small : isr < 2 ^ 64) (byte : flags < 2 ^ 8) :
    readGate (setIDTEntry vector isr flags idt m) (idt + 16 * vector) =
      gateFor isr flags (readGate m (idt + 16 * vector)).ist := by
  have byte_ : flags % 256 ^ 1 = flags := by omega
  have offset : isr % 256 ^ 2 + 2 ^ 16 * (isr >>> 16 % 256 ^ 2) + 2 ^ 32 * (isr >>> 32 % 256 ^ 4) = isr := by omega
  unfold setIDTEntry readGate gateFor
  simp (disch := (unfold Apart; omega)) only [load_store_self, load_store_apart]
  rw [byte_, offset, show 0x08 % 256 ^ 2 = 0x08 from by decide]

theorem readGate_setIDTEntry_other {vector' : Nat} (other : vector' ≠ vector) :
    readGate (setIDTEntry vector isr flags idt m) (idt + 16 * vector') = readGate m (idt + 16 * vector') := by
  apply readGate_congr
  intro x inside
  exact setIDTEntry_outside (by unfold InRange at *; omega)

/-- After any calls of `set_IDT_entry` a gate is the last one that was set, or the old one. -/
theorem readGate_setEntries (small : ∀ isr, address isr < 2 ^ 64) (entries : List (Nat × Isr × Nat))
    (bytes : ∀ e ∈ entries, e.2.2 < 2 ^ 8) : readGate (setEntries address idt m entries) (idt + 16 * vector) =
      match lastSet entries vector with
      | some (isr, flags) => gateFor (address isr) flags (readGate m (idt + 16 * vector)).ist
      | none => readGate m (idt + 16 * vector) := by
  induction entries using List.reverseRecOn with
  | nil => rfl
  | append_singleton entries e ih =>
    have before := ih fun e member => bytes e (List.mem_append_left _ member)
    obtain ⟨v, isr, flags⟩ := e
    have byte : flags < 2 ^ 8 := bytes (v, isr, flags) (by simp)
    have last : setEntries address idt m (entries ++ [(v, isr, flags)]) =
        setIDTEntry v (address isr) flags idt (setEntries address idt m entries) := List.foldl_append
    rw [last, lastSet, List.reverse_append, List.reverse_singleton, List.singleton_append]
    by_cases here : v = vector
    · subst here
      rw [readGate_setIDTEntry (small isr) byte, before, List.find?_cons_of_pos (by simp)]
      cases lastSet entries v <;> rfl
    · rw [readGate_setIDTEntry_other (Ne.symm here), before, List.find?_cons_of_neg (by simpa using here)]
      rfl

end entries

/-! ### After the boot -/

section boot

variable {A : PageAllocator} {address : Isr → Nat} {owner : Owner} {k k' : Kernel} {page vector : Nat}

/-- The table of a machine that started, on the page that `kmalloc` returned. -/
def bootTable (address : Isr → Nat) (k : Kernel) (page : Nat) : Mem := setEntries address (page + k.hhdm) k.mem bootEntries

theorem lastSet_mem {entries : List (Nat × Isr × Nat)} {isr : Isr} {flags : Nat}
    (set : lastSet entries vector = some (isr, flags)) : (vector, isr, flags) ∈ entries := by
  unfold lastSet at set
  obtain ⟨⟨v, rest⟩, found, rfl⟩ := Option.map_eq_some_iff.mp set
  obtain rfl : v = vector := by simpa using List.find?_some found
  exact List.mem_reverse.mp (List.mem_of_find?_eq_some found)

/-- All gates are for the kernel's code. Only the one for system calls is open to programs. -/
theorem bootEntries_flags : ∀ e ∈ bootEntries, e.2.2 < 2 ^ 8 ∧
    ¬ (bits e.2.2 0 5 ≠ 14 ∧ bits e.2.2 0 5 ≠ 15) ∧ (bits e.2.2 0 5 == 14) = (e.2.2 == 0x8E) ∧ bits e.2.2 7 1 = 1 ∧
    bits e.2.2 5 2 = (if e.1 = 0x80 then 3 else 0) ∧ (e.1 = 0x80 → e.2 = (.syscallIsr, 0xEF)) := by
  decide

theorem readGate_bootTable (alloc : Allocates k k' owner 1 page) (small : ∀ isr, address isr < 2 ^ 64) (known : vector < 256) :
    readGate (bootTable address k' page) (page + k'.hhdm + 16 * vector) =
      match lastSet bootEntries vector with
      | some (isr, flags) => gateFor (address isr) flags 0
      | none => ⟨0, 0, 0, 0, 0, false⟩ := by
  have blank : readGate k'.mem (page + k'.hhdm + 16 * vector) = ⟨0, 0, 0, 0, 0, false⟩ := by
    have zero : readGate k'.mem (page + k'.hhdm + 16 * vector) = readGate (fun _ => 0) (page + k'.hhdm + 16 * vector) := by
      refine readGate_congr fun x inside => ?_
      unfold InRange at inside
      have cleared := alloc.zero (x - k'.hhdm) (by unfold InRange; omega)
      rwa [Kernel.phys, Nat.sub_add_cancel (by omega)] at cleared
    have none : ∀ a n, load (fun _ => 0) a n = 0 := fun a n => load_zero fun _ _ => rfl
    rw [zero]
    simp [readGate, none, bits]
  rw [bootTable, readGate_setEntries small _ fun e member => (bootEntries_flags e member).1, blank]

/-- Programs may use the gate of `int 0x80` only, and there are no gates for other vectors than those of the boot. -/
theorem deliver_bootTable (alloc : Allocates k k' owner 1 page) (small : ∀ isr, address isr < 2 ^ 64)
    (known : vector < 256) :
    deliver (bootTable address k' page) (page + k'.hhdm) idtSize vector (some 3) =
        (if vector = 0x80 then .enters ⟨address .syscallIsr, 0x08, false⟩ 0 else .faults 13 (8 * vector + 2)) ∧
      deliver (bootTable address k' page) (page + k'.hhdm) idtSize vector none =
        match lastSet bootEntries vector with
        | some (isr, flags) => .enters ⟨address isr, 0x08, flags == 0x8E⟩ 0
        | none => .faults 13 (8 * vector + 3) := by
  have gate := readGate_bootTable alloc small known
  have limit : ¬ idtSize < 16 * vector + 15 := by
    unfold idtSize
    omega
  unfold deliver
  dsimp only
  rw [gate, if_neg limit, if_neg limit]
  cases set : lastSet bootEntries vector with
  | none =>
    have other : vector ≠ 0x80 := by
      rintro rfl
      exact absurd set (by decide)
    simp [other]
  | some last =>
    obtain ⟨isr, flags⟩ := last
    obtain ⟨_, kind, masks, present, privilege, call⟩ := bootEntries_flags _ (lastSet_mem set)
    dsimp only at kind masks present privilege call
    simp only [gateFor, GateDescriptor.gate, if_neg kind, present, privilege, masks]
    by_cases here : vector = 0x80
    · obtain ⟨rfl, rfl⟩ := Prod.mk.inj (call here)
      simp [here]
    · simp [here]

theorem handler_set {stub : List Op} (entry : (vector, stub) ∈ exceptionEntries) :
    ∃ isr, lastSet bootEntries vector = some (isr, 0x8E) ∧ isr.stub = some stub := by
  have all : ∀ e ∈ exceptionEntries, ∃ isr, lastSet bootEntries e.1 = some (isr, 0x8E) ∧ isr.stub = some e.2 := by
    simp only [exceptionEntries, List.forall_mem_cons]
    refine ⟨?_, ?_, ?_, ?_, ?_, ?_, ?_, ?_, ?_, ?_, ?_, ?_, ?_, ?_, ?_, ?_, ?_, ?_, ?_, List.forall_mem_nil _⟩ <;>
      exact ⟨_, rfl, rfl⟩
  exact all _ entry

/-- What `syscall_exit` makes of the kernel. -/
def exited (cpu : Nat) (s : State KernelData) : Ending KernelData :=
  match syscallExit cpu (s.gpr .rax) s.data.tasks with
  | .ok (_, tasks) => .waits { s.data with tasks }
  | .error _ => .undefined

variable (cpu fuel cr2 rsp0 : Nat) (w : Returning) (next : ExceptionFn → Nat) {s : State KernelData} {task : Task}

/-- A user task enters the kernel's code by `int 0x80`. One that faults, or that asks for any other interrupt, exits
with what `rax` holds. -/
theorem user_faults_exit (alloc : Allocates k k' owner 1 page) (small : ∀ isr, address isr < 2 ^ 64)
    (current : getCurrentTask s.data.tasks cpu = some task) (user : task.isUser = true) :
    deliver (bootTable address k' page) (page + k'.hhdm) idtSize 0x80 (some 3) = .enters ⟨address .syscallIsr, 0x08, false⟩ 0 ∧
    (∀ vector stub code, (vector, stub) ∈ exceptionEntries → code.isSome = hasErrorCode vector → ∃ isr gate,
      deliver (bootTable address k' page) (page + k'.hhdm) idtSize vector none = .enters gate 0 ∧
      gate.handler = address isr ∧ isr.stub = some stub ∧
      raise cpu fuel cr2 w next gate rsp0 stub code s = .error (exited cpu s)) ∧
    ∀ vector < 256, vector ≠ 0x80 → ∃ code gate,
      deliver (bootTable address k' page) (page + k'.hhdm) idtSize vector (some 3) = .faults 13 code ∧
      deliver (bootTable address k' page) (page + k'.hhdm) idtSize 13 none = .enters gate 0 ∧
      gate.handler = address .generalProtectionFaultException ∧
      raise cpu fuel cr2 w next gate rsp0 Exceptions.generalProtectionFaultException (some code) s = .error (exited cpu s) := by
  have gates : ∀ vector < 256, _ := fun vector known => (deliver_bootTable alloc small known).2
  refine ⟨(deliver_bootTable alloc small (by decide)).1, ?_, ?_⟩
  · intro vector stub code entry coded
    obtain ⟨isr, set, stubs⟩ := handler_set entry
    have known : vector < 256 := by
      have all : ∀ e ∈ exceptionEntries, e.1 < 256 := by
        simp only [exceptionEntries, List.forall_mem_cons]
        decide
      exact all _ entry
    refine ⟨isr, ⟨address isr, 0x08, true⟩, ?_, rfl, stubs, raise_exits entry coded current user⟩
    rw [gates vector known, set]
    rfl
  · intro vector known other
    have first := (deliver_bootTable alloc small known).1
    rw [if_neg other] at first
    have entry : (13, Exceptions.generalProtectionFaultException) ∈ exceptionEntries := by simp [exceptionEntries]
    refine ⟨_, ⟨address .generalProtectionFaultException, 0x08, true⟩, first, ?_, rfl, raise_exits entry rfl current user⟩
    rw [gates 13 (by decide)]
    rfl

end boot

def faultingProgram : State KernelData :=
  { gpr := fun r => if r = .rax then 7 else 0
    rsp := 0x6FFFFFFFFFF8, rip := 0x400000, cs := 0x1B, ss := 0x23, rflags := 0x202, carry := false, zero := false
    cr3 := 0x3000, space := fun _ _ => 0
    data := { tasks := childSelected, inExceptionHandler := false, panic := none } }

/-- An `int3` of the child is its exit with the 7 in `rax`. -/
theorem user_faults_exit_int3 : ∃ page k' code gate, pmm.kmalloc .pml4 1 smallMachineReady = .ok (page, k') ∧
    deliver (bootTable (fun _ => 0xFFFFFFFF80001000) k' page) (page + k'.hhdm) idtSize 3 (some 3) = .faults 13 code ∧
    raise 0 1 0 returnAtOnce (fun _ => 0) gate 0xFFFFFFFFFFFFF000 Exceptions.generalProtectionFaultException (some code)
      faultingProgram = .error (.waits { faultingProgram.data with tasks := childExited }) := by
  have check : Prog.returns (pmm.kmalloc .pml4 1) smallMachineReady (fun _ _ => true) = true := by decide +kernel
  obtain ⟨page, k', got, _⟩ := Prog.returns_iff.mp check
  have low : ∀ isr, (fun _ : Isr => 0xFFFFFFFF80001000) isr < 2 ^ 64 := fun _ => (by decide : 0xFFFFFFFF80001000 < 2 ^ 64)
  obtain ⟨_, _, others⟩ := user_faults_exit 0 1 0 0xFFFFFFFFFFFFF000 returnAtOnce (fun _ => 0) (s := faultingProgram)
    (pmm.allocates smallMachineReady_ready got) low (show getCurrentTask childSelected 0 = some _ from rfl) rfl
  obtain ⟨code, gate, faults, _, _, exits⟩ := others 3 (by decide) (by decide)
  exact ⟨page, k', code, gate, got, faults, exits⟩

end PotatOS.Idt
