import PotatOS.Kernel
import PotatOS.Lib.Descriptors
import PotatOS.Tasks.Tasklist

/-!
# Segments and the task state segment (`gdt.c`, `tss.c`, `smp.c`)

All processors share one descriptor table and one task state segment, whose
descriptor each of them writes anew before it loads its task register. The
segment ends with zeros, so its I/O permission map is the segment itself.
-/

namespace PotatOS.Descriptors

open Memory Cpu

/-- The parameters are `uint64_t`. -/
def createGdtEntry (base limit access flags : Nat) : Nat :=
  let base1 := base % 2 ^ 16
  let base2 := (base >>> 16) % 2 ^ 8
  let base3 := (base >>> 24) % 2 ^ 8
  let limit1 := limit % 2 ^ 16
  let limit2 := limit >>> 16
  limit1 ||| (limit2 <<< 48) % 2 ^ 64 ||| base1 <<< 16 ||| base2 <<< 32 ||| base3 <<< 56 |||
    (access <<< 40) % 2 ^ 64 ||| (flags <<< 52) % 2 ^ 64

/-- What `create_system_segment_descriptor` puts together in `GDT[idx]`. -/
def systemSegmentLow (base limit access flags : Nat) : Nat :=
  let limit1 := limit % 2 ^ 16
  let limit2 := (limit >>> 16) % 2 ^ 4
  let base1 := base % 2 ^ 16
  let base2 := (base >>> 16) % 2 ^ 8
  let base3 := (base >>> 24) % 2 ^ 8
  limit1 ||| base1 <<< 16 ||| base2 <<< 32 ||| (access <<< 40) % 2 ^ 64 ||| limit2 <<< 48 ||| (flags % 2 ^ 4) <<< 52 |||
    base3 <<< 56

def createSystemSegmentDescriptor (gdt idx base limit access flags : Nat) (m : Mem) : Mem :=
  let base4 := (base >>> 32) % 2 ^ 32
  store (store m (gdt + 8 * idx) 8 (systemSegmentLow base limit access flags)) (gdt + 8 * (idx + 1)) 8 base4

/-- `sizeof(struct TSS)` -/
def tssSize : Nat := 104

/-- `gdt` is the page from `kmalloc`, `tss` the address of `kernel.tss`. -/
def initGDT (gdt tss : Nat) (m : Mem) : Mem :=
  let m := store m gdt 8 (createGdtEntry 0 0 0 0)
  let m := store m (gdt + 8) 8 (createGdtEntry 0 0 0x9A 0x2)
  let m := store m (gdt + 16) 8 (createGdtEntry 0 0 0x92 0)
  let m := store m (gdt + 24) 8 (createGdtEntry 0 0 0xFA 0x2)
  let m := store m (gdt + 32) 8 (createGdtEntry 0 0 0xF2 0)
  createSystemSegmentDescriptor gdt 5 tss (tssSize - 1) 0x89 0 m

/-- `rsp0` comes behind a `uint32_t`. -/
def initTSS (tss : Nat) (m : Mem) : Mem := store m (tss + 4) 8 Tasks.kernelStackPtr

/-- `ap_entry` up to its `ltr`. -/
def apEntry (gdt tss : Nat) (m : Mem) : Option (Segment × Mem) :=
  loadTaskRegister (createSystemSegmentDescriptor gdt 5 tss (tssSize - 1) 0x89 0 m) gdt 5

/-- The task registers of the first processor and of `n` others that start after it, one at a time. -/
def taskRegisters (gdt tss : Nat) (m : Mem) : Nat → Option (List Segment × Mem)
  | 0 => do
    let (segment, m) ← loadTaskRegister (initGDT gdt tss m) gdt 5
    return ([segment], m)
  | n + 1 => do
    let (segments, m) ← taskRegisters gdt tss m n
    let (segment, m) ← apEntry gdt tss m
    return (segment :: segments, m)

/-! ### Descriptors -/

section descriptors

variable {base limit access flags gdt idx tss : Nat} {m : Mem}

/-- The fields in the order in which they lie in the word. -/
theorem readSegment_word {limit1 limit2 base1 base2 base3 : Nat}
    (bounds : limit1 < 2 ^ 16 ∧ base1 < 2 ^ 16 ∧ base2 < 2 ^ 8 ∧ access < 2 ^ 8 ∧ limit2 < 2 ^ 4 ∧ flags < 2 ^ 4 ∧
      base3 < 2 ^ 8) :
    readSegment (limit1 ||| base1 <<< 16 ||| base2 <<< 32 ||| access <<< 40 ||| limit2 <<< 48 ||| flags <<< 52 |||
      base3 <<< 56) = ⟨base1 + 2 ^ 16 * base2 + 2 ^ 24 * base3, limit1 + 2 ^ 16 * limit2, access, flags⟩ := by
  rw [or_shift (n := 16) (by omega), or_shift (n := 32) (by omega), or_shift (n := 40) (by omega),
    or_shift (n := 48) (by omega), or_shift (n := 52) (by omega), or_shift (n := 56) (by omega)]
  simp only [readSegment, bits, Segment.mk.injEq]
  omega

theorem or_order (a b c d e f g : Nat) : a ||| b ||| c ||| d ||| e ||| f ||| g = a ||| c ||| d ||| f ||| b ||| g ||| e := by
  ac_rfl

theorem createGdtEntry_fields (small : limit < 2 ^ 20 ∧ access < 2 ^ 8 ∧ flags < 2 ^ 4) :
    readSegment (createGdtEntry base limit access flags) = ⟨base % 2 ^ 32, limit, access, flags⟩ := by
  have order : createGdtEntry base limit access flags = limit % 2 ^ 16 ||| (base % 2 ^ 16) <<< 16 |||
      ((base >>> 16) % 2 ^ 8) <<< 32 ||| access <<< 40 ||| (limit >>> 16) <<< 48 ||| flags <<< 52 |||
      ((base >>> 24) % 2 ^ 8) <<< 56 := by
    have limit2 : (limit >>> 16) <<< 48 < 2 ^ 64 := by omega
    have access_ : access <<< 40 < 2 ^ 64 := by omega
    have flags_ : flags <<< 52 < 2 ^ 64 := by omega
    dsimp only [createGdtEntry]
    rw [Nat.mod_eq_of_lt limit2, Nat.mod_eq_of_lt access_, Nat.mod_eq_of_lt flags_]
    exact or_order ..
  rw [order, readSegment_word (by omega)]
  simp only [Segment.mk.injEq, and_true]
  omega

/-- The descriptor says what the code was given, when that fits the fields. -/
theorem createGdtEntry_iff : readSegment (createGdtEntry base limit access flags) = ⟨base, limit, access, flags⟩ ↔
    base < 2 ^ 32 ∧ limit < 2 ^ 20 ∧ access < 2 ^ 8 ∧ flags < 2 ^ 4 := by
  constructor
  · intro reads
    generalize createGdtEntry base limit access flags = d at reads
    have access_ := bits_lt d 40 8
    have flags_ := bits_lt d 52 4
    have base1 := bits_lt d 16 16
    have base2 := bits_lt d 32 8
    have base3 := bits_lt d 56 8
    have limit1 := bits_lt d 0 16
    have limit2 := bits_lt d 48 4
    simp only [readSegment, Segment.mk.injEq] at reads
    omega
  · rintro ⟨base_, small⟩
    rw [createGdtEntry_fields small, Nat.mod_eq_of_lt base_]

/-- `limit` and `flags` are cut to their fields; `access` is a byte. -/
theorem systemSegmentLow_fields (byte : access < 2 ^ 8) :
    readSegment (systemSegmentLow base limit access flags) = ⟨base % 2 ^ 32, limit % 2 ^ 20, access, flags % 2 ^ 4⟩ := by
  have inWord : access <<< 40 < 2 ^ 64 := by omega
  unfold systemSegmentLow
  dsimp only
  rw [Nat.mod_eq_of_lt inWord, readSegment_word (by omega)]
  simp only [Segment.mk.injEq, and_true]
  omega

theorem readSegment_mod (d : Nat) : readSegment (d % 256 ^ 8) = readSegment d := by
  simp only [readSegment, bits, Segment.mk.injEq]
  omega

theorem readSegment_busy (d : Nat) :
    readSegment (d ||| 2 <<< 40) = { readSegment d with access := (readSegment d).access ||| 2 } := by
  have there : bits (2 <<< 40) 40 8 = 2 := by decide
  have elsewhere : bits (2 <<< 40) 16 16 = 0 ∧ bits (2 <<< 40) 32 8 = 0 ∧ bits (2 <<< 40) 56 8 = 0 ∧
      bits (2 <<< 40) 0 16 = 0 ∧ bits (2 <<< 40) 48 4 = 0 ∧ bits (2 <<< 40) 52 4 = 0 := by decide
  simp only [readSegment, bits_or, there, elsewhere, Nat.or_zero]

end descriptors

/-! ### The table of all processors -/

/-- What the selectors of the code stand for. `access` is the task state segment's. -/
structure Table (gdt tss access : Nat) (m : Mem) : Prop where
  kernelCode : readSegment (load m (gdt + 8) 8) = ⟨0, 0, 0x9A, 2⟩
  kernelData : readSegment (load m (gdt + 16) 8) = ⟨0, 0, 0x92, 0⟩
  userCode : readSegment (load m (gdt + 24) 8) = ⟨0, 0, 0xFA, 2⟩
  userData : readSegment (load m (gdt + 32) 8) = ⟨0, 0, 0xF2, 0⟩
  task : readSystemSegment (load m (gdt + 40) 8) (load m (gdt + 48) 8) = ⟨tss, tssSize - 1, access, 0⟩

section table

variable {gdt tss access : Nat} {m : Mem}

theorem create_keeps {base limit access flags a n : Nat} (beside : a + n ≤ gdt + 40 ∨ gdt + 56 ≤ a) :
    load (createSystemSegmentDescriptor gdt 5 base limit access flags m) a n = load m a n := by
  unfold createSystemSegmentDescriptor
  rw [load_store_apart (by unfold Apart; omega), load_store_apart (by unfold Apart; omega)]

theorem create_task (address : tss < 2 ^ 64) (byte : access < 2 ^ 8) :
    readSystemSegment (load (createSystemSegmentDescriptor gdt 5 tss (tssSize - 1) access 0 m) (gdt + 40) 8)
      (load (createSystemSegmentDescriptor gdt 5 tss (tssSize - 1) access 0 m) (gdt + 48) 8) =
        ⟨tss, tssSize - 1, access, 0⟩ := by
  have low : load (createSystemSegmentDescriptor gdt 5 tss (tssSize - 1) access 0 m) (gdt + 40) 8 =
      systemSegmentLow tss (tssSize - 1) access 0 % 256 ^ 8 := by
    unfold createSystemSegmentDescriptor
    rw [load_store_apart (by unfold Apart; omega)]
    exact load_store_self ..
  have high : load (createSystemSegmentDescriptor gdt 5 tss (tssSize - 1) access 0 m) (gdt + 48) 8 =
      (tss >>> 32) % 2 ^ 32 % 256 ^ 8 := load_store_self ..
  rw [low, high, readSystemSegment, readSegment_mod, systemSegmentLow_fields byte]
  simp only [Segment.mk.injEq, bits, tssSize, true_and]
  omega

theorem Table.create (table : Table gdt tss access m) (address : tss < 2 ^ 64) :
    Table gdt tss 0x89 (createSystemSegmentDescriptor gdt 5 tss (tssSize - 1) 0x89 0 m) := by
  refine ⟨?_, ?_, ?_, ?_, create_task address (by decide)⟩
  · rw [create_keeps (by omega), table.kernelCode]
  · rw [create_keeps (by omega), table.kernelData]
  · rw [create_keeps (by omega), table.userCode]
  · rw [create_keeps (by omega), table.userData]

variable (gdt m) in
theorem initGDT_table (address : tss < 2 ^ 64) : Table gdt tss 0x89 (initGDT gdt tss m) := by
  have entry : ∀ access flags, access < 2 ^ 8 → flags < 2 ^ 4 →
      readSegment (createGdtEntry 0 0 access flags % 256 ^ 8) = ⟨0, 0, access, flags⟩ := by
    intro access flags access_ flags_
    rw [readSegment_mod, createGdtEntry_fields ⟨by decide, access_, flags_⟩, Nat.zero_mod]
  unfold initGDT
  refine ⟨?_, ?_, ?_, ?_, create_task address (by decide)⟩
  · rw [create_keeps (by omega), load_store_apart (by unfold Apart; omega), load_store_apart (by unfold Apart; omega),
      load_store_apart (by unfold Apart; omega), load_store_self]
    exact entry _ _ (by decide) (by decide)
  · rw [create_keeps (by omega), load_store_apart (by unfold Apart; omega), load_store_apart (by unfold Apart; omega),
      load_store_self]
    exact entry _ _ (by decide) (by decide)
  · rw [create_keeps (by omega), load_store_apart (by unfold Apart; omega), load_store_self]
    exact entry _ _ (by decide) (by decide)
  · rw [create_keeps (by omega), load_store_self]
    exact entry _ _ (by decide) (by decide)

/-- A free segment is loaded and then in use. -/
theorem Table.taken (table : Table gdt tss 0x89 m) : ∃ m', loadTaskRegister m gdt 5 = some (⟨tss, tssSize - 1, 0x89, 0⟩, m') ∧
    Table gdt tss 0x8B m' ∧ ∀ x, ¬ InRange gdt 56 x → m' x = m x := by
  refine ⟨store m (gdt + 40) 8 (load m (gdt + 40) 8 ||| 2 <<< 40), ?_, ?_,
    fun x outside => store_outside fun inside => outside ?_⟩
  · have free : isFreeTss ⟨tss, tssSize - 1, 0x89, 0⟩ = true := by simp [isFreeTss]
    show (if isFreeTss (readSystemSegment (load m (gdt + 40) 8) (load m (gdt + 48) 8)) = true then _ else _) = _
    rw [table.task, if_pos free]
  · refine ⟨?_, ?_, ?_, ?_, ?_⟩
    · rw [load_store_apart (by unfold Apart; omega), table.kernelCode]
    · rw [load_store_apart (by unfold Apart; omega), table.kernelData]
    · rw [load_store_apart (by unfold Apart; omega), table.userCode]
    · rw [load_store_apart (by unfold Apart; omega), table.userData]
    · have task := table.task
      rw [load_store_apart (a := gdt + 48) (by unfold Apart; omega), load_store_self]
      unfold readSystemSegment at *
      rw [readSegment_mod, readSegment_busy]
      generalize readSegment (load m (gdt + 40) 8) = segment at *
      cases segment
      simp only [Segment.mk.injEq] at *
      obtain ⟨base, limit, rfl, flags⟩ := task
      exact ⟨base, limit, by decide, flags⟩
  · unfold InRange at *
    omega

/-- A segment in use cannot be loaded again. -/
theorem Table.busy (table : Table gdt tss 0x8B m) : loadTaskRegister m gdt 5 = none := by
  have used : ¬ isFreeTss ⟨tss, tssSize - 1, 0x8B, 0⟩ = true := by simp [isFreeTss]
  show (if isFreeTss (readSystemSegment (load m (gdt + 40) 8) (load m (gdt + 48) 8)) = true then _ else _) = _
  rw [table.task, if_neg used]

theorem create_outside {base limit access flags x : Nat} (outside : ¬ InRange gdt 56 x) :
    createSystemSegmentDescriptor gdt 5 base limit access flags m x = m x := by
  unfold createSystemSegmentDescriptor
  unfold InRange at outside
  rw [store_outside (by unfold InRange; omega), store_outside (by unfold InRange; omega)]

theorem initGDT_outside {x : Nat} (outside : ¬ InRange gdt 56 x) : initGDT gdt tss m x = m x := by
  unfold initGDT
  rw [create_outside outside]
  unfold InRange at outside
  iterate 5 rw [store_outside (by unfold InRange; omega)]

variable (gdt m) in
theorem taskRegisters_table (address : tss < 2 ^ 64) (n : Nat) : ∃ m',
    taskRegisters gdt tss m n = some (List.replicate (n + 1) ⟨tss, tssSize - 1, 0x89, 0⟩, m') ∧
      Table gdt tss 0x8B m' ∧ ∀ x, ¬ InRange gdt 56 x → m' x = m x := by
  induction n with
  | zero =>
    obtain ⟨m₁, loads, table, outside⟩ := (initGDT_table gdt m address).taken
    refine ⟨m₁, ?_, table, fun x far => (outside x far).trans (initGDT_outside far)⟩
    simp [taskRegisters, loads]
  | succ n ih =>
    obtain ⟨m₁, run, table, outside⟩ := ih
    obtain ⟨m₂, loads, table', outside'⟩ := (table.create address).taken
    refine ⟨m₂, ?_, table', fun x far => ?_⟩
    · simp [taskRegisters, run, apEntry, loads, List.replicate_succ]
    · rw [outside' x far, create_outside far, outside x far]

variable (gdt m) in
/-- Every processor that starts writes the descriptor anew, so its `ltr` finds a free segment. Behind it the table
is complete, and the segment in use. -/
theorem processors_share_table (address : tss < 2 ^ 64) (n : Nat) : ∃ m',
    taskRegisters gdt tss m n = some (List.replicate (n + 1) ⟨tss, tssSize - 1, 0x89, 0⟩, m') ∧
      Table gdt tss 0x8B m' ∧ loadTaskRegister m' gdt 5 = none := by
  obtain ⟨m', run, table, _⟩ := taskRegisters_table gdt m address n
  exact ⟨m', run, table, table.busy⟩

theorem processors_share_table_two : ∃ m', taskRegisters 0x1000 0x2000 (fun _ => 0) 1 =
    some (List.replicate 2 ⟨0x2000, 103, 0x89, 0⟩, m') ∧ loadTaskRegister m' 0x1000 5 = none := by
  obtain ⟨m', run, _, busy⟩ := processors_share_table 0x1000 (fun _ => 0) (show 0x2000 < 2 ^ 64 by decide) 1
  exact ⟨m', run, busy⟩

end table

/-! ### I/O ports -/

section ports

variable {gdt tss : Nat} {m : Mem}

/-- Two bytes of the segment. `rsp0` has ones from its bit 12 on. -/
theorem tss_bit {i : Nat} (cleared : ∀ x, InRange tss tssSize x → m x = 0) (inside : i < 8 * tssSize) :
    (initTSS tss m (tss + i / 8)).toNat.testBit (i % 8) = decide (44 ≤ i ∧ i < 96) := by
  unfold tssSize at *
  have zero : m (tss + i / 8) = 0 := cleared _ (by unfold InRange; omega)
  by_cases there : InRange (tss + 4) 8 (tss + i / 8)
  · rw [initTSS, store_inside there]
    unfold InRange at there
    have lower : 32 ≤ i := by omega
    have upper : i < 96 := by omega
    have each : ∀ i < 96, 32 ≤ i → (UInt8.ofNat (Tasks.kernelStackPtr / 256 ^ (i / 8 - 4))).toNat.testBit (i % 8) =
        decide (44 ≤ i ∧ i < 96) := by
      decide
    have place : tss + i / 8 - (tss + 4) = i / 8 - 4 := by omega
    rw [place]
    exact each i upper lower
  · rw [initTSS, store_outside there, zero]
    unfold InRange at there
    have out : ¬ (44 ≤ i ∧ i < 96) := by omega
    simp [out]

/-- The bits that the processor reads for a port. -/
theorem tss_word_bit {port i : Nat} (cleared : ∀ x, InRange tss tssSize x → m x = 0) (fits : port / 8 + 1 < tssSize)
    (near : port % 8 + i < 16) :
    (load (initTSS tss m) (tss + port / 8) 2).testBit (port % 8 + i) = decide (44 ≤ port + i ∧ port + i < 96) := by
  have word : load (initTSS tss m) (tss + port / 8) 2 =
      2 ^ 8 * (initTSS tss m (tss + port / 8 + 1)).toNat + (initTSS tss m (tss + port / 8)).toNat := by
    simp only [load]
    omega
  have byte : (initTSS tss m (tss + port / 8)).toNat < 2 ^ 8 := UInt8.toNat_lt _
  have bit := tss_bit (i := port + i) cleared (by omega)
  rw [word, Nat.testBit_two_pow_mul_add _ byte]
  split
  · rename_i first
    rw [show port + i = 8 * (port / 8) + (port % 8 + i) by omega] at bit ⊢
    rw [show (8 * (port / 8) + (port % 8 + i)) / 8 = port / 8 by omega,
      show (8 * (port / 8) + (port % 8 + i)) % 8 = port % 8 + i by omega] at bit
    exact bit
  · rename_i second
    rw [show (port + i) / 8 = port / 8 + 1 by omega, show (port + i) % 8 = port % 8 + i - 8 by omega, ← Nat.add_assoc] at bit
    exact bit

/-- The map starts at the segment itself, since the last word of the segment is zero. -/
theorem portsPermitted_tss {port size : Nat} (cleared : ∀ x, InRange tss tssSize x → m x = 0) (small : size ≤ 4) :
    portsPermitted (initTSS tss m) ⟨tss, tssSize - 1, 0x89, 0⟩ 3 0 port size = true ↔
      port < 824 ∧ ∀ i < size, ¬ (44 ≤ port + i ∧ port + i < 96) := by
  have map : load (initTSS tss m) (tss + 102) 2 = 0 := by
    refine load_zero fun x inside => ?_
    unfold InRange at inside
    rw [initTSS, store_outside (by unfold InRange; omega)]
    exact cleared x (by unfold InRange tssSize; omega)
  have fits : port / 8 + 1 ≤ tssSize - 1 ↔ port < 824 := by
    unfold tssSize
    omega
  rw [portsPermitted_iff (by decide)]
  simp only [map, Nat.add_zero, Nat.zero_add, fits, show 103 ≤ tssSize - 1 from by decide, true_and]
  refine and_congr_right fun inside => forall_congr' fun i => forall_congr' fun less => ?_
  rw [tss_word_bit cleared (by unfold tssSize; omega) (by omega), decide_eq_false_iff_not]

end ports

/-- User tasks run with I/O privilege 0. On every processor they may nevertheless make the accesses that start below
port 824, but for those that the bits of `rsp0` close: the keyboard controller and the disk are open to them. -/
theorem user_ports_iff (gdt tss : Nat) (m : Mem) (cleared : ∀ x, InRange tss tssSize x → m x = 0)
    (address : tss < 2 ^ 64) (beside : Apart tss tssSize gdt 56) (n : Nat) : ∃ segments m',
    taskRegisters gdt tss (initTSS tss m) n = some (segments, m') ∧ segments.length = n + 1 ∧
      ∀ segment ∈ segments, ∀ port size, size ≤ 4 → (portsPermitted m' segment 3 0 port size = true ↔
        port < 824 ∧ ∀ i < size, ¬ (44 ≤ port + i ∧ port + i < 96)) := by
  obtain ⟨m', run, _, outside⟩ := taskRegisters_table gdt (initTSS tss m) address n
  refine ⟨_, m', run, List.length_replicate, fun segment listed port size small => ?_⟩
  obtain rfl := List.eq_of_mem_replicate listed
  rw [portsPermitted_congr (m := initTSS tss m) (by decide), portsPermitted_tss cleared small]
  exact fun x inside => outside x (not_inRange_of_apart beside inside)

/-- Two processors: the keyboard controller is open to user tasks, the serial port is not. -/
theorem user_ports_iff_twoProcessors : ∃ segments m',
    taskRegisters 0x1000 0x2000 (initTSS 0x2000 fun _ => 0) 1 = some (segments, m') ∧ segments.length = 2 ∧ ∀ segment ∈ segments,
      portsPermitted m' segment 3 0 0x60 1 = true ∧ ¬ portsPermitted m' segment 3 0 0x3F8 1 = true := by
  obtain ⟨segments, m', run, length, permitted⟩ := user_ports_iff 0x1000 0x2000 (fun _ => 0) (fun _ _ => rfl)
    (by decide) (by unfold Apart; decide) 1
  refine ⟨segments, m', run, length, fun segment listed => ?_⟩
  rw [permitted segment listed 0x60 1 (by decide), permitted segment listed 0x3F8 1 (by decide)]
  decide

end PotatOS.Descriptors
