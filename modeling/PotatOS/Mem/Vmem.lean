import PotatOS.Mem.MapPages

/-!
# Writing through a page tree (`write_vmem`, `push_vmem`)

`virt_to_phys` answers `0xDEAD` for an address that is not mapped, and the same
number is a physical address. `write_vmem` asks it once for each chunk of up to
4096 bytes, from the address where the chunk starts, wherever that lies in its
page.
-/

namespace PotatOS.Mem

open Memory Prog

/-- One round of `write_vmem`: the number of bytes that it copied. `data` is the
bytes behind the pointer. -/
def writeChunk (pml4Addr virtAddr : Nat) (data : List UInt8) : KernelM Nat := do
  let k ← get
  let kernelAddr := virtToPhys k pml4Addr virtAddr
  if kernelAddr = 0xDEAD then Prog.stop .halt
  else
    let bytesToCopy := if data.length < 4096 then data.length else 4096
    modify fun k => k.setMem (writeBytes k.mem (add64 kernelAddr k.hhdm) (data.take bytesToCopy))
    return bytesToCopy

/-- At most `n` rounds with what is left of the bytes. -/
def writeRounds (pml4Addr : Nat) : Nat → Nat → List UInt8 → KernelM Unit
  | 0, _, _ => return
  | n + 1, virtAddr, data => do
    if data.length = 0 then return
    else
      let bytesToCopy ← writeChunk pml4Addr virtAddr data
      writeRounds pml4Addr n (add64 virtAddr bytesToCopy) (data.drop bytesToCopy)

/-- `len` is the number of the bytes; each round takes at least one of them. -/
def writeVmem (pml4Addr virtAddr : Nat) (data : List UInt8) : KernelM Unit :=
  writeRounds pml4Addr data.length virtAddr data

def pushVmem (pml4Addr rsp : Nat) (data : List UInt8) : KernelM Unit :=
  writeVmem pml4Addr (sub64 rsp data.length) data

/-! ### Translation -/

/-- The frame behind the page of an address. -/
def frameOf (k : Kernel) (root virtAddr : Nat) : Nat := pageAlignDown (slot k root 3 (pageOf virtAddr))

/-- Some entry on the walk is zero. -/
def Unmapped (k : Kernel) (root virtAddr : Nat) : Prop :=
  ∃ d ≤ 3, slot k root d (pageOf virtAddr / 512 ^ (3 - d)) = 0

/-- The address is mapped to physical byte `0xDEAD`. -/
def LooksUnmapped (k : Kernel) (root virtAddr : Nat) : Prop :=
  slot k root 3 (pageOf virtAddr) ≠ 0 ∧ frameOf k root virtAddr = 0xD000 ∧ virtAddr % 4096 = 0xEAD

instance (k : Kernel) (root virtAddr : Nat) : Decidable (Unmapped k root virtAddr) :=
  inferInstanceAs (Decidable (∃ d ≤ 3, _))

instance (k : Kernel) (root virtAddr : Nat) : Decidable (LooksUnmapped k root virtAddr) :=
  inferInstanceAs (Decidable (_ ∧ _))

section translation

variable {k k' : Kernel} {root v w : Nat}

theorem unmapped_iff : Unmapped k root v ↔ slot k root 3 (pageOf v) = 0 := by
  constructor
  · rintro ⟨d, depth, zero⟩
    have below := slot_zero_of_above zero
    rwa [Nat.add_sub_cancel' depth] at below
  · intro zero
    exact ⟨3, Nat.le_refl 3, by simpa using zero⟩

theorem virtToPhys_mapped (mapped : slot k root 3 (pageOf v) ≠ 0) :
    virtToPhys k root v = frameOf k root v + v % 4096 := by
  have small := slot_lt k root 3 (pageOf v)
  rw [virtToPhys_eq, if_neg mapped, frameOf]
  refine add64_of_lt ?_
  unfold pageAlignDown
  omega

/-- An address is told apart from the unmapped ones unless it leads to `0xDEAD`. -/
theorem virtToPhys_dead_iff :
    virtToPhys k root v = 0xDEAD ↔ Unmapped k root v ∨ LooksUnmapped k root v := by
  rw [unmapped_iff]
  unfold LooksUnmapped
  by_cases mapped : slot k root 3 (pageOf v) = 0
  · simp [virtToPhys_eq, mapped]
  · have frame : frameOf k root v % 4096 = 0 := by
      unfold frameOf pageAlignDown
      omega
    rw [virtToPhys_mapped mapped]
    simp only [mapped, false_or, ne_eq, not_false_eq_true, true_and]
    omega

theorem writeChunk_halts {data : List UInt8} {e : Stop} (h : writeChunk root v data k = .error e) :
    virtToPhys k root v = 0xDEAD := by
  by_contra mapped
  unfold writeChunk at h
  rw [bind_eq run_get, if_neg mapped, bind_eq (run_modify _)] at h
  cases h

end translation

/-- `virt_to_phys` tells the address from an unmapped one, and so does each round
of `write_vmem`, unless the address leads to the byte `0xDEAD`. -/
theorem virtToPhys_separates_iff (k : Kernel) (root v : Nat) :
    ((virtToPhys k root v = 0xDEAD ↔ Unmapped k root v) ↔ ¬ LooksUnmapped k root v) ∧
      ((∀ data e, writeChunk root v data k = .error e → Unmapped k root v) ↔ ¬ LooksUnmapped k root v) := by
  have hidden : LooksUnmapped k root v → ¬ Unmapped k root v := fun looks none => looks.1 (unmapped_iff.mp none)
  refine ⟨⟨fun same looks => ?_, fun other => ?_⟩, fun halts looks => ?_, fun other data e h => ?_⟩
  · exact hidden looks (same.mp (virtToPhys_dead_iff.mpr (.inr looks)))
  · rw [virtToPhys_dead_iff, or_iff_left other]
  · have dead : virtToPhys k root v = 0xDEAD := virtToPhys_dead_iff.mpr (.inr looks)
    refine hidden looks (halts [] .halt ?_)
    unfold writeChunk
    rw [bind_eq run_get, if_pos dead]
    rfl
  · exact (virtToPhys_dead_iff.mp (writeChunk_halts h)).resolve_right other

/-- The direct map of `map_sections` contains the byte. -/
theorem directMap_looks_unmapped :
    ∃ k', mapSections pmm.kmalloc (4096 + 2 ^ 47) treeMachine.memmap treeMachine = .ok ((), k') ∧
      virtToPhys k' (4096 + 2 ^ 47) (2 ^ 47 + 0xDEAD) = 0xDEAD ∧
      ¬ Unmapped k' (4096 + 2 ^ 47) (2 ^ 47 + 0xDEAD) ∧
      writeVmem (4096 + 2 ^ 47) (2 ^ 47 + 0xDEAD) [1] k' = .error .halt := by
  have check : returns (mapSections pmm.kmalloc (4096 + 2 ^ 47) treeMachine.memmap) treeMachine (fun _ k' =>
      decide (virtToPhys k' (4096 + 2 ^ 47) (2 ^ 47 + 0xDEAD) = 0xDEAD) &&
        decide (slot k' (4096 + 2 ^ 47) 3 (pageOf (2 ^ 47 + 0xDEAD)) ≠ 0)) = true := by
    decide +kernel
  obtain ⟨_, k', run, facts⟩ := returns_iff.mp check
  simp only [Bool.and_eq_true, decide_eq_true_eq] at facts
  refine ⟨k', run, facts.1, fun none => facts.2 (unmapped_iff.mp none), ?_⟩
  show writeRounds _ 1 _ [1] k' = .error .halt
  unfold writeRounds writeChunk
  rw [if_neg (by decide)]
  refine bind_error ?_
  rw [bind_eq run_get, if_pos facts.1]
  rfl

/-! ### Writing -/

/-- The bytes from `v` on are mapped, different pages to different frames. The
frames are seen through the direct map and hold no table of the tree. -/
structure RangeMapped (k : Kernel) (root v len : Nat) : Prop where
  space : len ≤ 2 ^ 48
  mapped : ∀ i < len, slot k root 3 (pageOf (v + i)) ≠ 0
  distinct : ∀ i < len, ∀ j < len, frameOf k root (v + i) = frameOf k root (v + j) → pageOf (v + i) = pageOf (v + j)
  direct : ∀ i < len, frameOf k root (v + i) + 4096 + k.hhdm ≤ 2 ^ 64
  noTable : ∀ i < len, ∀ d ≤ 3, ∀ n < 512 ^ d, ∀ t, table k root d n = some t →
    Apart t 4096 (frameOf k root (v + i) + k.hhdm) 4096

/-- The call returns, each byte is at the translation of its address, and no other
physical byte has changed. -/
def WritesThrough (k : Kernel) (root v len : Nat) (write : List UInt8 → KernelM Unit) : Prop :=
  ∀ data : List UInt8, data.length = len → ∃ k', write data k = .ok ((), k') ∧
    (∀ i < len, k'.phys (virtToPhys k root (v + i)) = data.getD i 0) ∧
    ∀ p, (∀ i < len, p ≠ virtToPhys k root (v + i)) → k'.phys p = k.phys p

/-- The first chunk of the `len` bytes from `v` on starts at an address that does
not look unmapped. If it leaves its page, it goes on in the next frame. -/
structure ChunkFits (k : Kernel) (root v len : Nat) : Prop where
  seen : ¬ LooksUnmapped k root v
  next : 4096 < v % 4096 + min 4096 len → frameOf k root (v + 4096) = frameOf k root v + 4096

def ChunksFit (k : Kernel) (root v len : Nat) : Prop :=
  ∀ c, 4096 * c < len → ChunkFits k root (v + 4096 * c) (len - 4096 * c)

section write

variable {k k' : Kernel} {root v w len n : Nat} {data : List UInt8}

/-- The bits above the lower 48 do not matter. -/
theorem virtToPhys_congr (same : w % 2 ^ 48 = v % 2 ^ 48) : virtToPhys k root w = virtToPhys k root v := by
  have page : pageOf w = pageOf v := by rw [pageOf, same, pageOf]
  have offset : w % 4096 = v % 4096 := by omega
  rw [virtToPhys_eq, virtToPhys_eq, page, offset]

namespace RangeMapped

theorem drop (range : RangeMapped k root v len) {b : Nat} (part : b ≤ len) :
    RangeMapped k root (v + b) (len - b) := by
  have space := range.space
  refine ⟨by omega, fun i inside => ?_, fun i inside j inside' => ?_, fun i inside => ?_, fun i inside => ?_⟩
  · rw [Nat.add_assoc]
    exact range.mapped (b + i) (by omega)
  · rw [Nat.add_assoc, Nat.add_assoc]
    exact range.distinct (b + i) (by omega) (b + j) (by omega)
  · rw [Nat.add_assoc v]
    exact range.direct (b + i) (by omega)
  · rw [Nat.add_assoc]
    exact range.noTable (b + i) (by omega)

theorem setMem (range : RangeMapped k root v len) {m : Mem}
    (tables : ∀ d ≤ 3, ∀ n < 512 ^ d, table (k.setMem m) root d n = table k root d n)
    (slots : ∀ u < 512 ^ 4, slot (k.setMem m) root 3 u = slot k root 3 u) : RangeMapped (k.setMem m) root v len := by
  have frames : ∀ x, frameOf (k.setMem m) root x = frameOf k root x := by
    intro x
    rw [frameOf, slots _ (pageOf_lt x), frameOf]
  refine ⟨range.space, fun i inside => ?_, fun i inside j inside' => ?_, fun i inside => ?_, fun i inside d depth n bound => ?_⟩
  · rw [slots _ (pageOf_lt _)]
    exact range.mapped i inside
  · rw [frames, frames]
    exact range.distinct i inside j inside'
  · rw [frames]
    exact range.direct i inside
  · rw [frames, tables d depth n bound]
    exact range.noTable i inside d depth n bound

theorem injective (range : RangeMapped k root v len) {i j : Nat} (inside : i < len) (inside' : j < len)
    (same : virtToPhys k root (v + i) = virtToPhys k root (v + j)) : i = j := by
  have space := range.space
  have frames : frameOf k root (v + i) % 4096 = 0 ∧ frameOf k root (v + j) % 4096 = 0 := by
    unfold frameOf pageAlignDown
    omega
  rw [virtToPhys_mapped (range.mapped i inside), virtToPhys_mapped (range.mapped j inside')] at same
  have page := range.distinct i inside j inside' (by omega)
  unfold pageOf at page
  omega

/-- Through a chunk that fits, the physical addresses run along. -/
theorem along (range : RangeMapped k root v len) (fits : ChunkFits k root v len) {i : Nat} (inside : i < min 4096 len) :
    virtToPhys k root (v + i) = virtToPhys k root v + i := by
  have first := range.mapped 0 (by omega)
  rw [Nat.add_zero] at first
  rw [virtToPhys_mapped (range.mapped i (by omega)), virtToPhys_mapped first]
  by_cases here : v % 4096 + i < 4096
  · have page : pageOf (v + i) = pageOf v := by
      unfold pageOf
      omega
    rw [frameOf, page, ← frameOf]
    omega
  · have page : pageOf (v + i) = pageOf (v + 4096) := by
      unfold pageOf
      omega
    have next := fits.next (by omega)
    rw [frameOf, page, ← frameOf, next]
    omega

end RangeMapped

theorem ChunksFit.drop (fit : ChunksFit k root v len) : ChunksFit k root (v + min 4096 len) (len - min 4096 len) := by
  intro c inside
  have later := fit (c + 1) (by omega)
  have start : v + min 4096 len + 4096 * c = v + 4096 * (c + 1) := by omega
  have left : len - min 4096 len - 4096 * c = len - 4096 * (c + 1) := by omega
  rwa [start, left]

theorem ChunksFit.setMem (fit : ChunksFit k root v len) {m : Mem}
    (slots : ∀ u < 512 ^ 4, slot (k.setMem m) root 3 u = slot k root 3 u) : ChunksFit (k.setMem m) root v len := by
  intro c inside
  obtain ⟨seen, next⟩ := fit c inside
  unfold LooksUnmapped frameOf at *
  refine ⟨?_, fun leaves => ?_⟩
  · unfold LooksUnmapped frameOf
    rwa [slots _ (pageOf_lt _)]
  · unfold frameOf
    rw [slots _ (pageOf_lt _), slots _ (pageOf_lt _)]
    exact next leaves

theorem writeChunk_ok (range : RangeMapped k root v data.length) (some : 0 < data.length)
    (seen : ¬ LooksUnmapped k root v) (same : w % 2 ^ 48 = v % 2 ^ 48) :
    writeChunk root w data k = .ok (min 4096 data.length,
      k.setMem (writeBytes k.mem (virtToPhys k root v + k.hhdm) (data.take 4096))) := by
  have first := range.mapped 0 some
  have direct := range.direct 0 some
  simp only [Nat.add_zero] at first direct
  have live : virtToPhys k root v ≠ 0xDEAD := fun dead => by
    rcases virtToPhys_dead_iff.mp dead with none | looks
    · exact first (unmapped_iff.mp none)
    · exact seen looks
  have place : add64 (virtToPhys k root v) k.hhdm = virtToPhys k root v + k.hhdm := by
    rw [virtToPhys_mapped first]
    exact add64_of_lt (by omega)
  have count : (if data.length < 4096 then data.length else 4096) = min 4096 data.length := by
    split <;> omega
  have bytes : data.take (min 4096 data.length) = data.take 4096 := by
    rw [List.take_eq_take_iff]
    omega
  unfold writeChunk
  rw [bind_eq run_get, virtToPhys_congr same, if_neg live, count, bind_eq (run_modify _), place, bytes]
  rfl

theorem writeRounds_nil (n w : Nat) : writeRounds root n w [] k = .ok ((), k) := by
  cases n <;> rfl

theorem writeRounds_succ {b : Nat} (some : 0 < data.length) (chunk : writeChunk root w data k = .ok (b, k')) :
    writeRounds root (n + 1) w data k = writeRounds root n (add64 w b) (data.drop b) k' := by
  unfold writeRounds
  rw [if_neg (by omega), bind_eq chunk]
  cases n <;> rfl

/-- A round leaves a byte alone or sets it to one of its own bytes. -/
theorem writeRounds_byte (h : writeRounds root n w data k = .ok ((), k')) (x : Nat) :
    k'.hhdm = k.hhdm ∧ (k'.mem x = k.mem x ∨ k'.mem x ∈ data) := by
  induction n generalizing w data k with
  | zero =>
    obtain ⟨_, rfl⟩ := pure_ok h
    exact ⟨rfl, .inl rfl⟩
  | succ n ih =>
    unfold writeRounds at h
    split at h
    · obtain ⟨_, rfl⟩ := pure_ok h
      exact ⟨rfl, .inl rfl⟩
    · obtain ⟨b, k₁, chunk, h⟩ := bind_ok h
      unfold writeChunk at chunk
      rw [bind_eq run_get] at chunk
      split at chunk
      · exact (stop_ok chunk).elim
      · rw [bind_eq (run_modify _)] at chunk
        obtain ⟨_, rfl⟩ := pure_ok chunk
        obtain ⟨hhdm, byte⟩ := ih h
        refine ⟨hhdm, byte.elim (fun kept => ?_) fun later => .inr (List.mem_of_mem_drop later)⟩
        rw [kept, Kernel.setMem_mem]
        exact (writeBytes_byte _ _ _ x).imp id List.mem_of_mem_take

theorem chunk_written (range : RangeMapped k root v data.length) (fits : ChunkFits k root v data.length) :
    (∀ i < min 4096 data.length, writeBytes k.mem (virtToPhys k root v + k.hhdm) (data.take 4096)
      (virtToPhys k root (v + i) + k.hhdm) = data.getD i 0) ∧
      ∀ x, (∀ i < min 4096 data.length, x ≠ virtToPhys k root (v + i) + k.hhdm) →
        writeBytes k.mem (virtToPhys k root v + k.hhdm) (data.take 4096) x = k.mem x := by
  have size : (data.take 4096).length = min 4096 data.length := List.length_take
  refine ⟨fun i inside => ?_, fun x other => ?_⟩
  · have index : virtToPhys k root v + i + k.hhdm - (virtToPhys k root v + k.hhdm) = i := by omega
    rw [range.along fits inside, writeBytes_inside ⟨by omega, by omega⟩, index, List.getD_eq_getElem?_getD,
      List.getElem?_take_of_lt (by omega), ← List.getD_eq_getElem?_getD]
  · refine writeBytes_outside fun inside => ?_
    have here := other (x - (virtToPhys k root v + k.hhdm)) (by unfold InRange at *; omega)
    rw [range.along fits (by unfold InRange at *; omega)] at here
    unfold InRange at *
    omega

theorem writeRounds_ok (range : RangeMapped k root v data.length) (fit : ChunksFit k root v data.length)
    (enough : data.length ≤ n) (same : w % 2 ^ 48 = v % 2 ^ 48) :
    ∃ k', writeRounds root n w data k = .ok ((), k') ∧
      (∀ i < data.length, k'.phys (virtToPhys k root (v + i)) = data.getD i 0) ∧
      ∀ p, (∀ i < data.length, p ≠ virtToPhys k root (v + i)) → k'.phys p = k.phys p := by
  induction n generalizing k v w data with
  | zero =>
    obtain rfl := List.length_eq_zero_iff.mp (Nat.le_zero.mp enough)
    exact ⟨k, rfl, by simp, fun _ _ => rfl⟩
  | succ n ih =>
    rcases Nat.eq_zero_or_pos data.length with none | positive
    · obtain rfl := List.length_eq_zero_iff.mp none
      exact ⟨k, writeRounds_nil .., by simp, fun _ _ => rfl⟩
    have fits : ChunkFits k root v data.length := fit 0 positive
    have run := writeRounds_succ (n := n) positive (writeChunk_ok range positive fits.seen same)
    obtain ⟨written, outside⟩ := chunk_written range fits
    generalize writeBytes k.mem (virtToPhys k root v + k.hhdm) (data.take 4096) = m at *
    -- The bytes of the chunk lie in frames, not in tables.
    have same' : ∀ d ≤ 3, ∀ n < 512 ^ d, ∀ t, table k root d n = some t → ∀ x, InRange t 4096 x → m x = k.mem x := by
      intro d depth n bound t place x inside
      refine outside x fun i part => ?_
      have apart := range.noTable i (by omega) d depth n bound t place
      rw [virtToPhys_mapped (range.mapped i (by omega))]
      unfold Apart InRange at *
      omega
    obtain ⟨tables, slots⟩ := slots_congr (Kernel.setMem_hhdm k m) same'
    have leaves := slots 3 (by omega)
    have translation : ∀ x, virtToPhys (k.setMem m) root x = virtToPhys k root x := by
      intro x
      rw [virtToPhys_eq, virtToPhys_eq, leaves _ (pageOf_lt x)]
    have rest : (data.drop (min 4096 data.length)).length = data.length - min 4096 data.length := List.length_drop
    have range' := (range.drop (Nat.min_le_right 4096 _)).setMem tables leaves
    have fit' := fit.drop.setMem leaves
    rw [← rest] at range' fit'
    obtain ⟨k', later, placed, others⟩ :=
      ih range' fit' (by omega) (w := add64 w (min 4096 data.length)) (by unfold add64; omega)
    simp only [rest, translation, Nat.add_assoc v] at placed others
    refine ⟨k', run.trans later, fun i inside => ?_, fun p other => ?_⟩
    · by_cases here : i < min 4096 data.length
      · rw [others _ fun j inside' same => by have equal := range.injective inside (by omega) same; omega]
        exact written i here
      · have value := placed (i - min 4096 data.length) (by omega)
        rwa [Nat.add_sub_cancel' (by omega), List.getD_eq_getElem?_getD, List.getElem?_drop,
          Nat.add_sub_cancel' (by omega), ← List.getD_eq_getElem?_getD] at value
    · rw [others p fun j inside => other _ (by omega)]
      exact outside _ fun i inside same => other i (by omega) (Nat.add_right_cancel same)

/-! ### The chunks have to fit -/

/-- The first chunk of a call that writes through. If the chunk went on behind its
frame, the byte at the start of the next page would not arrive: it is given the
one value that its place does not have. -/
theorem WritesThrough.first_fits (range : RangeMapped k root v len) (some : 0 < len) (same : w % 2 ^ 48 = v % 2 ^ 48)
    (through : WritesThrough k root v len (writeRounds root (n + 1) w)) : ChunkFits k root v len := by
  have seen : ¬ LooksUnmapped k root v := fun looks => by
    obtain ⟨k', run, _⟩ := through (List.replicate len 0) List.length_replicate
    unfold writeRounds writeChunk at run
    rw [if_neg (by rw [List.length_replicate]; omega)] at run
    obtain ⟨b, k₁, chunk, _⟩ := bind_ok run
    rw [bind_eq run_get, virtToPhys_congr same, if_pos (virtToPhys_dead_iff.mpr (.inr looks))] at chunk
    exact stop_ok chunk
  refine ⟨seen, fun leaves => ?_⟩
  by_contra other
  -- The first byte of the next page.
  have first := range.mapped 0 some
  rw [Nat.add_zero] at first
  generalize index : 4096 - v % 4096 = i
  have inside : i < min 4096 len := by omega
  have page : pageOf (v + i) = pageOf (v + 4096) := by
    unfold pageOf
    omega
  have place : virtToPhys k root (v + i) = frameOf k root (v + 4096) := by
    rw [virtToPhys_mapped (range.mapped i (by omega)), frameOf, page, ← frameOf]
    omega
  generalize old : k.phys (virtToPhys k root (v + i)) = m₀
  have size : ((List.replicate len m₀).set i (m₀ + 1)).length = len := by simp
  obtain ⟨k', run, placed, _⟩ := through _ size
  have value := placed i (by omega)
  rw [List.getD_eq_getElem?_getD, List.getElem?_set_self (by simp; omega), Option.getD_some] at value
  have range' := range
  rw [← size] at range' some
  rw [writeRounds_succ some (writeChunk_ok range' some seen same)] at run
  obtain ⟨hhdm, byte⟩ := writeRounds_byte run (virtToPhys k root (v + i) + k.hhdm)
  have now : k'.phys (virtToPhys k root (v + i)) = m₀ := by
    rw [Kernel.phys, hhdm, Kernel.setMem_hhdm]
    rcases byte with kept | later
    · rw [kept, Kernel.setMem_mem, writeBytes]
      split
      · rename_i hit
        have away : virtToPhys k root (v + i) + k.hhdm - (virtToPhys k root v + k.hhdm) ≠ i := by
          rw [place, virtToPhys_mapped first]
          omega
        rw [List.length_take, size] at hit
        rw [List.getD_eq_getElem?_getD, List.getElem?_take_of_lt (by unfold InRange at hit; omega),
          List.getElem?_set_ne away.symm, List.getElem?_replicate, if_pos (by unfold InRange at hit; omega)]
        rfl
      · exact old
    · rw [size, List.drop_set_of_lt inside, List.drop_replicate] at later
      exact List.eq_of_mem_replicate later
  have absurdly : m₀ + 1 = m₀ := value.symm.trans now
  simp at absurdly

/-- A call that writes through also does so from its second chunk on: the first
chunk may write what is there. -/
theorem WritesThrough.rest (range : RangeMapped k root v len) (whole : 4096 < len) (same : w % 2 ^ 48 = v % 2 ^ 48)
    (fits : ChunkFits k root v len) (through : WritesThrough k root v len (writeRounds root (n + 1) w)) :
    WritesThrough k root (v + 4096) (len - 4096) (writeRounds root n (add64 w 4096)) := by
  intro data size
  generalize now : (List.range 4096).map (fun i => k.phys (virtToPhys k root (v + i))) = front
  have frontSize : front.length = 4096 := by rw [← now]; simp
  have whole' : (front ++ data).length = len := by rw [List.length_append]; omega
  obtain ⟨k', run, placed, others⟩ := through (front ++ data) whole'
  have range' := range
  rw [← whole'] at range' fits
  have front_at : ∀ i < 4096, (front ++ data).getD i 0 = k.phys (virtToPhys k root (v + i)) := by
    intro i inside
    rw [List.getD_eq_getElem?_getD, List.getElem?_append_left (by omega), ← now]
    simp [inside]
  have quiet : writeBytes k.mem (virtToPhys k root v + k.hhdm) ((front ++ data).take 4096) = k.mem := by
    obtain ⟨written, outside⟩ := chunk_written range' fits
    funext x
    by_cases hit : ∃ i < min 4096 (front ++ data).length, x = virtToPhys k root (v + i) + k.hhdm
    · obtain ⟨i, inside, place⟩ := hit
      rw [place, written i inside, front_at i (by omega), Kernel.phys]
    · exact outside x fun i inside equal => hit ⟨i, inside, equal⟩
  have count : min 4096 (front ++ data).length = 4096 := by omega
  rw [writeRounds_succ (by omega) (writeChunk_ok range' (by omega) fits.seen same), quiet, count,
    List.drop_left' frontSize] at run
  refine ⟨k', run, fun i inside => ?_, fun p other => ?_⟩
  · have value := placed (4096 + i) (by omega)
    rwa [← Nat.add_assoc, List.getD_eq_getElem?_getD, List.getElem?_append_right (by omega), frontSize,
      Nat.add_sub_cancel_left, ← List.getD_eq_getElem?_getD] at value
  · by_cases hit : ∃ i < 4096, p = virtToPhys k root (v + i)
    · obtain ⟨i, inside, place⟩ := hit
      rw [place, placed i (by omega), front_at i inside]
    · refine others p fun i inside equal => ?_
      by_cases here : i < 4096
      · exact hit ⟨i, here, equal⟩
      · refine other (i - 4096) (by omega) ?_
        rwa [Nat.add_assoc, Nat.add_sub_cancel' (by omega)]

theorem WritesThrough.chunksFit (range : RangeMapped k root v len) (enough : len ≤ n)
    (same : w % 2 ^ 48 = v % 2 ^ 48) (through : WritesThrough k root v len (writeRounds root n w)) :
    ChunksFit k root v len := by
  induction n generalizing v w len with
  | zero => exact fun c inside => absurd inside (by omega)
  | succ n ih =>
    intro c inside
    have fits := through.first_fits range (by omega) same
    cases c with
    | zero => exact fits
    | succ c =>
      have later := ih (range.drop (by omega)) (by omega) (by unfold add64; omega)
        (through.rest range (by omega) same fits) c (by omega)
      have start : v + 4096 + 4096 * c = v + 4096 * (c + 1) := by omega
      have left : len - 4096 - 4096 * c = len - 4096 * (c + 1) := by omega
      rwa [start, left] at later

end write

/-- `write_vmem` and `push_vmem` write through the page tree exactly when every
chunk fits: it is not taken for unmapped, and it lies in frames that follow each other. -/
theorem writeVmem_through_iff {k : Kernel} {root v len : Nat} (range : RangeMapped k root v len) :
    (WritesThrough k root v len (writeVmem root v) ↔ ChunksFit k root v len) ∧
      ∀ rsp, sub64 rsp len = v → (WritesThrough k root v len (pushVmem root rsp) ↔ ChunksFit k root v len) := by
  have push : ∀ rsp, sub64 rsp len = v →
      (WritesThrough k root v len (pushVmem root rsp) ↔ WritesThrough k root v len (writeVmem root v)) := by
    intro rsp start
    refine forall_congr' fun data => forall_congr' fun size => ?_
    rw [pushVmem, size, start]
  have write : WritesThrough k root v len (writeVmem root v) ↔ WritesThrough k root v len (writeRounds root len v) := by
    refine forall_congr' fun data => forall_congr' fun size => ?_
    rw [writeVmem, size]
  have iff : WritesThrough k root v len (writeVmem root v) ↔ ChunksFit k root v len := by
    rw [write]
    refine ⟨fun through => through.chunksFit range (Nat.le_refl _) rfl, fun fit data size => ?_⟩
    subst size
    exact writeRounds_ok range fit (Nat.le_refl _) rfl
  exact ⟨iff, fun rsp start => (push rsp start).trans iff⟩

/-! ### Two pages -/

/-- Two pages of `treeMachine` from `0x400000` on, behind them these two frames. -/
def twoPages (first second : Nat) : KernelM Unit := do
  mapPages pmm.kmalloc (4096 + 2 ^ 47) 0x400000 first 1 7
  mapPages pmm.kmalloc (4096 + 2 ^ 47) 0x401000 second 1 7

/-- The frames of the two pages, both behind every run that was handed out. -/
def twoFrames (first second : Nat) (k : Kernel) : Bool :=
  decide (slot k (4096 + 2 ^ 47) 3 0x400 ≠ 0) && decide (slot k (4096 + 2 ^ 47) 3 0x401 ≠ 0) &&
    decide (pageAlignDown (slot k (4096 + 2 ^ 47) 3 0x400) = first) &&
    decide (pageAlignDown (slot k (4096 + 2 ^ 47) 3 0x401) = second) && decide (k.hhdm = 2 ^ 47) &&
    k.granted.all fun g => decide (g.addr + g.pages * 4096 ≤ 0x20000)

theorem twoPages_mapped {k : Kernel} {first second : Nat} (run : twoPages first second treeMachine = .ok ((), k))
    (facts : twoFrames first second k = true) (differ : first ≠ second) (low : 0x20000 ≤ first ∧ first < 0x40000)
    (low' : 0x20000 ≤ second ∧ second < 0x40000) : RangeMapped k (4096 + 2 ^ 47) 0x400FFF 2 := by
  obtain ⟨_, k₁, maps, maps'⟩ := bind_ok run
  have grows := (mapPages_ok treeMachine_ready treeMachine_tree (fun _ => trivial) (fun _ own => own) (by decide)
    (by decide) maps).2.2.1
  have tree := (mapPages_ok grows.touches.ready grows.ok (fun _ => trivial) (fun _ own => own) (by decide)
    (by decide) maps').2.2.1.ok
  simp only [twoFrames, Bool.and_eq_true, decide_eq_true_eq, List.all_eq_true] at facts
  obtain ⟨⟨⟨⟨⟨some, some'⟩, here⟩, here'⟩, hhdm⟩, below⟩ := facts
  have each : ∀ i < 2, (pageOf (0x400FFF + i) = 0x400 ∧ frameOf k (4096 + 2 ^ 47) (0x400FFF + i) = first) ∨
      pageOf (0x400FFF + i) = 0x401 ∧ frameOf k (4096 + 2 ^ 47) (0x400FFF + i) = second := by
    intro i inside
    have page : pageOf (0x400FFF + i) = 0x400 ∨ pageOf (0x400FFF + i) = 0x401 := by
      unfold pageOf
      omega
    rcases page with page | page
    · exact .inl ⟨page, by rw [frameOf, page, here]⟩
    · exact .inr ⟨page, by rw [frameOf, page, here']⟩
  refine ⟨by decide, fun i inside => ?_, fun i inside j inside' same => ?_, fun i inside => ?_,
    fun i inside d depth n bound t place => ?_⟩
  · rcases each i inside with ⟨page, _⟩ | ⟨page, _⟩
    · rw [page]
      exact some
    · rw [page]
      exact some'
  · have one := each i inside
    have two := each j inside'
    omega
  · have one := each i inside
    omega
  · obtain ⟨g, taken, _, lower, upper⟩ := tree.owned d depth n bound t place
    have old := below g taken
    have one := each i inside
    unfold Apart
    omega

theorem writeVmem_through_twoPages : ∃ k, twoPages 0x20000 0x21000 treeMachine = .ok ((), k) ∧
    WritesThrough k (4096 + 2 ^ 47) 0x400FFF 2 (writeVmem (4096 + 2 ^ 47) 0x400FFF) := by
  have check : returns (twoPages 0x20000 0x21000) treeMachine (fun _ k => twoFrames 0x20000 0x21000 k) = true := by
    decide +kernel
  obtain ⟨_, k, run, facts⟩ := returns_iff.mp check
  have range := twoPages_mapped run facts (by decide) (by decide) (by decide)
  refine ⟨k, run, (writeVmem_through_iff range).1.mpr fun c inside => ?_⟩
  simp only [twoFrames, Bool.and_eq_true, decide_eq_true_eq] at facts
  obtain ⟨⟨⟨⟨_, here⟩, here'⟩, _⟩, _⟩ := facts
  obtain rfl : c = 0 := by omega
  exact ⟨fun looks => absurd looks.2.2 (by decide), fun _ => here'.trans (congrArg (· + 4096) here.symm)⟩

/-- The second byte goes to the frame behind the first one, not to its own. -/
theorem writeVmem_leaves_page : ∃ k, twoPages 0x20000 0x22000 treeMachine = .ok ((), k) ∧
    RangeMapped k (4096 + 2 ^ 47) 0x400FFF 2 ∧
    ¬ WritesThrough k (4096 + 2 ^ 47) 0x400FFF 2 (writeVmem (4096 + 2 ^ 47) 0x400FFF) ∧
    ¬ WritesThrough k (4096 + 2 ^ 47) 0x400FFF 2 (pushVmem (4096 + 2 ^ 47) 0x401001) := by
  have check : returns (twoPages 0x20000 0x22000) treeMachine (fun _ k => twoFrames 0x20000 0x22000 k) = true := by
    decide +kernel
  obtain ⟨_, k, run, facts⟩ := returns_iff.mp check
  have range := twoPages_mapped run facts (by decide) (by decide) (by decide)
  have fails : ¬ WritesThrough k (4096 + 2 ^ 47) 0x400FFF 2 (writeRounds (4096 + 2 ^ 47) 2 0x400FFF) := by
    intro through
    have fits := (through.chunksFit range (Nat.le_refl 2) rfl 0 (by decide)).next (by decide)
    simp only [twoFrames, Bool.and_eq_true, decide_eq_true_eq] at facts
    obtain ⟨⟨⟨⟨_, here⟩, here'⟩, _⟩, _⟩ := facts
    have frames : (0x22000 : Nat) = 0x20000 + 4096 := here'.symm.trans (fits.trans (congrArg (· + 4096) here))
    exact absurd frames (by decide)
  refine ⟨k, run, range, fun through => fails fun data size => ?_, fun through => fails fun data size => ?_⟩
  · have wrote := through data size
    rwa [writeVmem, size] at wrote
  · have wrote := through data size
    rwa [pushVmem, writeVmem, size] at wrote

end PotatOS.Mem
