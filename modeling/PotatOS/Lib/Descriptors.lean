import PotatOS.Lib.Interrupts

/-!
# Descriptor tables of the processor

How the processor reads segments, gates and the I/O permission map. Fields are
read with `bits`, which distributes over the `|` that code puts descriptors
together with.
-/

namespace PotatOS.Cpu

open Memory

/-! ### Bit fields -/

/-- The `n` bits of `x` from bit `low` on. -/
def bits (x low n : Nat) : Nat := (x >>> low) % 2 ^ n

section bits

variable {x y low n : Nat}

theorem bits_lt (x low n : Nat) : bits x low n < 2 ^ n := Nat.mod_lt _ (Nat.two_pow_pos n)

theorem bits_or (x y low n : Nat) : bits (x ||| y) low n = bits x low n ||| bits y low n := by
  rw [bits, Nat.shiftRight_or_distrib, Nat.or_mod_two_pow]
  rfl

theorem bits_eq_zero_iff : bits x low n = 0 ↔ ∀ i < n, x.testBit (low + i) = false := by
  constructor
  · intro zero i inField
    have bit : (bits x low n).testBit i = false := by
      rw [zero, Nat.zero_testBit]
    simpa [bits, Nat.testBit_mod_two_pow, inField] using bit
  · intro clear
    apply Nat.eq_of_testBit_eq
    intro i
    simp only [bits, Nat.testBit_mod_two_pow, Nat.testBit_shiftRight, Nat.zero_testBit]
    by_cases inField : i < n
    · simp [clear i inField]
    · simp [inField]

/-- The next field of a word. -/
theorem or_shift (below : x < 2 ^ n) : x ||| y <<< n = x + y * 2 ^ n := by
  rw [Nat.or_comm, ← Nat.shiftLeft_add_eq_or_of_lt below, Nat.shiftLeft_eq, Nat.add_comm]

end bits

/-! ### Segments -/

/-- What the processor reads from a segment descriptor. -/
structure Segment where
  base : Nat
  limit : Nat
  access : Nat
  flags : Nat
  deriving DecidableEq, Repr

/-- A descriptor of 8 bytes. -/
def readSegment (d : Nat) : Segment where
  base := bits d 16 16 + 2 ^ 16 * bits d 32 8 + 2 ^ 24 * bits d 56 8
  limit := bits d 0 16 + 2 ^ 16 * bits d 48 4
  access := bits d 40 8
  flags := bits d 52 4

/-- A descriptor of 16 bytes, as system segments have. -/
def readSystemSegment (d d' : Nat) : Segment :=
  { readSegment d with base := (readSegment d).base + 2 ^ 32 * bits d' 0 32 }

/-! ### The task register -/

/-- Type 9 is a task state segment that is not in use. -/
def isFreeTss (segment : Segment) : Bool := segment.access % 32 == 9 && segment.access / 128 == 1

/-- `ltr`: the descriptor is marked busy. -/
def loadTaskRegister (m : Mem) (gdt index : Nat) : Option (Segment × Mem) :=
  let d := load m (gdt + 8 * index) 8
  let segment := readSystemSegment d (load m (gdt + 8 * index + 8) 8)
  if isFreeTss segment then some (segment, store m (gdt + 8 * index) 8 (d ||| 2 <<< 40)) else none

/-- Whether code of privilege `cpl` may access the `size` ports from `port` on. The map lies in the task state
segment, from the offset that its last word holds. -/
def portsPermitted (m : Mem) (tss : Segment) (cpl iopl port size : Nat) : Bool :=
  let map := load m (tss.base + 102) 2
  cpl ≤ iopl || 103 ≤ tss.limit && map + port / 8 + 1 ≤ tss.limit &&
    bits (load m (tss.base + map + port / 8) 2) (port % 8) size == 0

section ports

variable {m m' : Mem} {tss : Segment} {cpl iopl port size : Nat}

theorem portsPermitted_iff (less : iopl < cpl) : portsPermitted m tss cpl iopl port size = true ↔
    103 ≤ tss.limit ∧ load m (tss.base + 102) 2 + port / 8 + 1 ≤ tss.limit ∧
      ∀ i < size, (load m (tss.base + load m (tss.base + 102) 2 + port / 8) 2).testBit (port % 8 + i) = false := by
  have denied : ¬ cpl ≤ iopl := by omega
  simp [portsPermitted, denied, bits_eq_zero_iff, and_assoc]

/-- Only the bytes of the segment count. -/
theorem portsPermitted_congr (less : iopl < cpl) (same : ∀ x, InRange tss.base (tss.limit + 1) x → m' x = m x) :
    portsPermitted m' tss cpl iopl port size = true ↔ portsPermitted m tss cpl iopl port size = true := by
  rw [portsPermitted_iff less, portsPermitted_iff less]
  refine and_congr_right fun limit => ?_
  have map : load m' (tss.base + 102) 2 = load m (tss.base + 102) 2 :=
    load_congr fun x inside => same x (by unfold InRange at *; omega)
  rw [map]
  refine and_congr_right fun fits => ?_
  have word : load m' (tss.base + load m (tss.base + 102) 2 + port / 8) 2 =
      load m (tss.base + load m (tss.base + 102) 2 + port / 8) 2 :=
    load_congr fun x inside => same x (by unfold InRange at *; omega)
  rw [word]

end ports

/-! ### Gates -/

structure GateDescriptor where
  offset : Nat
  selector : Nat
  /-- A stack of its own, zero for none. -/
  ist : Nat
  kind : Nat
  privilege : Nat
  present : Bool
  deriving DecidableEq, Repr

def readGate (m : Mem) (a : Nat) : GateDescriptor where
  offset := load m a 2 + 2 ^ 16 * load m (a + 6) 2 + 2 ^ 32 * load m (a + 8) 4
  selector := load m (a + 2) 2
  ist := bits (load m (a + 4) 1) 0 3
  kind := bits (load m (a + 5) 1) 0 5
  privilege := bits (load m (a + 5) 1) 5 2
  present := bits (load m (a + 5) 1) 7 1 == 1

/-- Kind 14 is an interrupt gate, kind 15 a trap gate. -/
def GateDescriptor.gate (g : GateDescriptor) : Gate := { handler := g.offset, selector := g.selector, masks := g.kind == 14 }

inductive Delivery where
  | enters (gate : Gate) (ist : Nat)
  | faults (vector code : Nat)

/-- What becomes of an interrupt. `cpl` is the privilege of an `int` instruction. -/
def deliver (m : Mem) (idt limit vector : Nat) (cpl : Option Nat) : Delivery :=
  let code := 8 * vector + if cpl.isSome then 2 else 3
  let g := readGate m (idt + 16 * vector)
  if limit < 16 * vector + 15 then .faults 13 code
  else if g.kind ≠ 14 ∧ g.kind ≠ 15 then .faults 13 code
  else if ∃ privilege ∈ cpl, g.privilege < privilege then .faults 13 code
  else if g.present then .enters g.gate g.ist
  else .faults 11 code

end PotatOS.Cpu
