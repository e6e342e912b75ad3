import PotatOS.Tasks.SpawnTree

/-!
# The loader

A file is a list of bytes. Its headers are read from `fileMem`, the memory in
which it starts at address 0; `Holds` says that the buffer of `spawn` shows the
same bytes. `loggedSpawn` is `spawn` up to the end of the copy loop, together
with the ranges of bytes that the code reads from the buffer and writes for the
segments.
-/

namespace PotatOS.Tasks

open Memory Mem Prog

/-! ### The file -/

def fileMem (bytes : List UInt8) : Mem := fun x => bytes.getD x 0

def headersAt (bytes : List UInt8) : Nat := programHeaderOffset (fileMem bytes) 0

def entryCount (bytes : List UInt8) : Nat := programHeaderEntryCount (fileMem bytes) 0

/-- Program header `i` of the file. -/
def segment (bytes : List UInt8) (i : Nat) : ProgramHeader := programHeader (fileMem bytes) (headersAt bytes) i

/-- The image that the file asks for. -/
def fileImage (bytes : List UInt8) : Image := imageOf (fileMem bytes) 0 0

def firstIndex (bytes : List UInt8) : Nat := firstLoadableSegment (fileMem bytes) (headersAt bytes) (entryCount bytes)

def lastIndex (bytes : List UInt8) : Nat := lastLoadableSegment (fileMem bytes) (headersAt bytes) (entryCount bytes)

def IsElf (bytes : List UInt8) : Prop := validateElf (fileMem bytes) 0 = true

instance (bytes : List UInt8) : Decidable (IsElf bytes) := inferInstanceAs (Decidable (_ = true))

/-- Header `i` is `PT_LOAD`. -/
def Loads (bytes : List UInt8) (i : Nat) : Prop := i < entryCount bytes ∧ (segment bytes i).type = 1

instance (bytes : List UInt8) (i : Nat) : Decidable (Loads bytes i) := inferInstanceAs (Decidable (_ ∧ _))

/-- What the selection of the first and the last segment reads lies in the file. -/
structure TableInFile (bytes : List UInt8) : Prop where
  types : ∀ i < entryCount bytes, headersAt bytes + 56 * i + 4 ≤ bytes.length
  addresses : ∀ i, Loads bytes i → headersAt bytes + 56 * i + 24 ≤ bytes.length
  first : headersAt bytes + 56 * firstIndex bytes + 56 ≤ bytes.length
  last : headersAt bytes + 56 * lastIndex bytes + 56 ≤ bytes.length

/-- The header of a segment and its bytes lie in the file, and their places in the image. -/
structure SegmentInBounds (bytes : List UInt8) (i : Nat) : Prop where
  header : headersAt bytes + 56 * i + 40 ≤ bytes.length
  source : (segment bytes i).sizeInFile = 0 ∨
    (segment bytes i).offset + (segment bytes i).sizeInFile ≤ bytes.length
  target : (segment bytes i).sizeInFile = 0 ∨
    sub64 (segment bytes i).virtualAddress (fileImage bytes).first.virtualAddress + (segment bytes i).sizeInFile ≤
      (fileImage bytes).pagesToMap * 4096

structure InBounds (bytes : List UInt8) : Prop where
  header : 58 ≤ bytes.length
  table : IsElf bytes → TableInFile bytes
  segments : IsElf bytes → ∀ i, Loads bytes i → SegmentInBounds bytes i

/-- The file lies in memory from `buffer` on. -/
structure Holds (m : Mem) (buffer : Nat) (bytes : List UInt8) : Prop where
  fits : buffer + bytes.length ≤ 2 ^ 64
  small : bytes.length < 2 ^ 63
  byte : ∀ i < bytes.length, m (buffer + i) = bytes.getD i 0

theorem Holds.congr {m m' : Mem} {buffer : Nat} {bytes : List UInt8} (holds : Holds m buffer bytes)
    (same : ∀ x, InRange buffer bytes.length x → m' x = m x) : Holds m' buffer bytes := by
  refine ⟨holds.fits, holds.small, fun i inside => ?_⟩
  rw [same (buffer + i) ⟨by omega, by omega⟩]
  exact holds.byte i inside

theorem Holds.load {m : Mem} {buffer a n : Nat} {bytes : List UInt8} (holds : Holds m buffer bytes)
    (inside : a + n ≤ bytes.length) : load m (buffer + a) n = load (fileMem bytes) a n := by
  induction n generalizing a with
  | zero => rfl
  | succ n ih =>
    have head : m (buffer + a) = fileMem bytes a := holds.byte a (by omega)
    have tail := ih (a := a + 1) (by omega)
    rw [Memory.load, Memory.load, head, Nat.add_assoc, tail]

/-! ### Where the headers are -/

theorem add64_add64 (a b c : Nat) : add64 (add64 a b) c = (a + b + c) % 2 ^ 64 := by
  unfold add64
  omega

section table

variable {m : Mem} {buffer i : Nat} {bytes : List UInt8}

theorem headersAt_lt (bytes : List UInt8) : headersAt bytes < 2 ^ 64 := load_lt ..

theorem entryCount_lt (bytes : List UInt8) : entryCount bytes < 2 ^ 16 := load_lt ..

theorem fileHeader_at (small : headersAt bytes + 56 * i < 2 ^ 64) :
    add64 (headersAt bytes) (56 * i) = headersAt bytes + 56 * i := add64_of_lt small

theorem header_at (holds : Holds m buffer bytes) (inside : headersAt bytes + 56 * i + 4 ≤ bytes.length) :
    add64 (add64 buffer (headersAt bytes)) (56 * i) = buffer + (headersAt bytes + 56 * i) := by
  have fits := holds.fits
  rw [add64_add64, Nat.mod_eq_of_lt (by omega), Nat.add_assoc]

theorem type_eq (holds : Holds m buffer bytes) (inside : headersAt bytes + 56 * i + 4 ≤ bytes.length) :
    (programHeader m (add64 buffer (headersAt bytes)) i).type = (segment bytes i).type := by
  have small := holds.small
  unfold segment programHeader
  dsimp only
  rw [header_at holds inside, fileHeader_at (by omega), holds.load (by omega)]

theorem address_eq (holds : Holds m buffer bytes) (inside : headersAt bytes + 56 * i + 24 ≤ bytes.length) :
    (programHeader m (add64 buffer (headersAt bytes)) i).virtualAddress = (segment bytes i).virtualAddress := by
  have small := holds.small
  unfold segment programHeader
  dsimp only
  rw [header_at holds (by omega), fileHeader_at (by omega), Nat.add_assoc buffer, holds.load (by omega)]

/-- The fields of a loadable segment that the copy loop reads. -/
theorem fields_eq (holds : Holds m buffer bytes) (inside : headersAt bytes + 56 * i + 40 ≤ bytes.length) :
    (programHeader m (add64 buffer (headersAt bytes)) i).offset = (segment bytes i).offset ∧
      (programHeader m (add64 buffer (headersAt bytes)) i).virtualAddress = (segment bytes i).virtualAddress ∧
      (programHeader m (add64 buffer (headersAt bytes)) i).sizeInFile = (segment bytes i).sizeInFile := by
  have small := holds.small
  refine ⟨?_, address_eq holds (by omega), ?_⟩ <;> unfold segment programHeader <;> dsimp only
  · rw [header_at holds (by omega), fileHeader_at (by omega), Nat.add_assoc buffer, holds.load (by omega)]
  · rw [header_at holds (by omega), fileHeader_at (by omega), Nat.add_assoc buffer, holds.load (by omega)]

theorem header_eq (holds : Holds m buffer bytes) (inside : headersAt bytes + 56 * i + 56 ≤ bytes.length) :
    programHeader m (add64 buffer (headersAt bytes)) i = segment bytes i := by
  have small := holds.small
  have type := type_eq holds (i := i) (by omega)
  obtain ⟨offset, address, size⟩ := fields_eq holds (i := i) (by omega)
  have memory : (programHeader m (add64 buffer (headersAt bytes)) i).sizeInMemory = (segment bytes i).sizeInMemory := by
    unfold segment programHeader
    dsimp only
    rw [header_at holds (by omega), fileHeader_at (by omega), Nat.add_assoc buffer, holds.load (by omega)]
  generalize programHeader m (add64 buffer (headersAt bytes)) i = h at *
  generalize segment bytes i = h' at *
  cases h
  cases h'
  simp_all

theorem count_eq (holds : Holds m buffer bytes) (header : 58 ≤ bytes.length) :
    programHeaderOffset m buffer = headersAt bytes ∧ programHeaderEntryCount m buffer = entryCount bytes := by
  constructor
  · exact (holds.load (a := 32) (by omega)).trans (by rw [headersAt, programHeaderOffset])
  · exact (holds.load (a := 56) (by omega)).trans (by rw [entryCount, programHeaderEntryCount])

theorem validateElf_eq (holds : Holds m buffer bytes) (header : 58 ≤ bytes.length) :
    validateElf m buffer = validateElf (fileMem bytes) 0 := by
  have byte : ∀ i < 20, m (buffer + i) = fileMem bytes (0 + i) := by
    intro i small
    rw [Nat.zero_add]
    exact holds.byte i (by omega)
  have magic : (List.range 4).map (fun i => m (buffer + i)) = (List.range 4).map fun i => fileMem bytes (0 + i) :=
    List.map_congr_left fun i listed => byte i (by have := List.mem_range.mp listed; omega)
  have machine : load m (buffer + 18) 2 = load (fileMem bytes) (0 + 18) 2 := holds.load (by omega)
  rw [validateElf, validateElf, magic, byte 5 (by decide), byte 4 (by decide), machine]

end table

/-! ### The two selection loops -/

/-- The loops look at the types and at the addresses of loadable segments. -/
structure SameLoads (m m' : Mem) (headers headers' n : Nat) : Prop where
  type : ∀ i < n, (programHeader m headers i).type = (programHeader m' headers' i).type
  address : ∀ i < n, (programHeader m' headers' i).type = 1 →
    (programHeader m headers i).virtualAddress = (programHeader m' headers' i).virtualAddress

theorem firstLoadableSegment_congr {m m' : Mem} {headers headers' n : Nat} (same : SameLoads m m' headers headers' n) :
    firstLoadableSegment m headers n = firstLoadableSegment m' headers' n := by
  unfold firstLoadableSegment
  dsimp only
  rw [List.foldl_ext]
  intro best i listed
  have small := List.mem_range.mp listed
  rw [same.type i small]
  by_cases loads : (programHeader m' headers' i).type = 1
  · rw [same.address i small loads]
  · rw [if_neg loads, if_neg loads]

theorem lastLoadableSegment_congr {m m' : Mem} {headers headers' n : Nat} (same : SameLoads m m' headers headers' n) :
    lastLoadableSegment m headers n = lastLoadableSegment m' headers' n := by
  unfold lastLoadableSegment
  rw [List.foldl_ext]
  intro best i listed
  have small := List.mem_range.mp listed
  dsimp only
  rw [same.type i small]
  by_cases loads : (programHeader m' headers' i).type = 1
  · rw [same.address i small loads]
  · rw [if_neg (fun both => loads both.1), if_neg (fun both => loads both.1)]

/-- The pair so far is the lowest loadable one of the first `n` headers. -/
def Lowest (m : Mem) (headers n : Nat) : Option (Nat × Nat) → Prop
  | none => ∀ j < n, (programHeader m headers j).type ≠ 1
  | some (i, a) => i < n ∧ (programHeader m headers i).type = 1 ∧ (programHeader m headers i).virtualAddress = a ∧
      ∀ j < n, (programHeader m headers j).type = 1 → a ≤ (programHeader m headers j).virtualAddress

/-- One round of `first_loadable_segment`. -/
def lowerLoad (m : Mem) (headers : Nat) (best : Option (Nat × Nat)) (i : Nat) : Option (Nat × Nat) :=
  if (programHeader m headers i).type = 1 then
    match best with
    | none => some (i, (programHeader m headers i).virtualAddress)
    | some (_, smallestAddr) =>
      if (programHeader m headers i).virtualAddress < smallestAddr then
        some (i, (programHeader m headers i).virtualAddress)
      else best
  else best

theorem Lowest.next {m : Mem} {headers n : Nat} {best : Option (Nat × Nat)} (lowest : Lowest m headers n best) :
    Lowest m headers (n + 1) (lowerLoad m headers best n) := by
  unfold lowerLoad
  by_cases loads : (programHeader m headers n).type = 1
  · rw [if_pos loads]
    cases best with
    | none =>
      refine ⟨by omega, loads, rfl, fun j small other => ?_⟩
      rcases Nat.lt_succ_iff_lt_or_eq.mp small with less | rfl
      · exact absurd other (lowest j less)
      · exact Nat.le_refl _
    | some pair =>
      obtain ⟨i, a⟩ := pair
      obtain ⟨bound, type, address, least⟩ := lowest
      dsimp only
      by_cases lower : (programHeader m headers n).virtualAddress < a
      · rw [if_pos lower]
        refine ⟨by omega, loads, rfl, fun j small other => ?_⟩
        rcases Nat.lt_succ_iff_lt_or_eq.mp small with less | rfl
        · have := least j less other
          omega
        · exact Nat.le_refl _
      · rw [if_neg lower]
        refine ⟨by omega, type, address, fun j small other => ?_⟩
        rcases Nat.lt_succ_iff_lt_or_eq.mp small with less | rfl
        · exact least j less other
        · omega
  · rw [if_neg loads]
    cases best with
    | none =>
      intro j small
      rcases Nat.lt_succ_iff_lt_or_eq.mp small with less | rfl
      · exact lowest j less
      · exact loads
    | some pair =>
      obtain ⟨i, a⟩ := pair
      obtain ⟨bound, type, address, least⟩ := lowest
      refine ⟨by omega, type, address, fun j small other => ?_⟩
      rcases Nat.lt_succ_iff_lt_or_eq.mp small with less | rfl
      · exact least j less other
      · exact absurd other loads

theorem lowest_loads (m : Mem) (headers n : Nat) :
    Lowest m headers n ((List.range n).foldl (lowerLoad m headers) none) := by
  induction n with
  | zero => exact fun j small => absurd small (Nat.not_lt_zero j)
  | succ n ih =>
    rw [List.range_succ, List.foldl_append]
    exact ih.next

theorem firstLoadableSegment_spec (m : Mem) (headers n : Nat) :
    (∀ j < n, (programHeader m headers j).type ≠ 1) ∧ firstLoadableSegment m headers n = 0 ∨
      firstLoadableSegment m headers n < n ∧ (programHeader m headers (firstLoadableSegment m headers n)).type = 1 ∧
        ∀ j < n, (programHeader m headers j).type = 1 →
          (programHeader m headers (firstLoadableSegment m headers n)).virtualAddress ≤
            (programHeader m headers j).virtualAddress := by
  have inv := lowest_loads m headers n
  have found : firstLoadableSegment m headers n =
      (((List.range n).foldl (lowerLoad m headers) none).map Prod.fst).getD 0 := rfl
  rw [found]
  generalize (List.range n).foldl (lowerLoad m headers) none = best at inv ⊢
  cases best with
  | none => exact .inl ⟨inv, rfl⟩
  | some pair =>
    obtain ⟨bound, type, address, least⟩ := inv
    refine .inr ⟨bound, type, ?_⟩
    show ∀ j < n, _ → (programHeader m headers pair.1).virtualAddress ≤ _
    rw [address]
    exact least

theorem lastLoadableSegment_spec (m : Mem) (headers n : Nat) :
    (∀ j < n, (programHeader m headers j).type = 1 → (programHeader m headers j).virtualAddress = 0) ∧
        lastLoadableSegment m headers n = 0 ∨
      lastLoadableSegment m headers n < n ∧ (programHeader m headers (lastLoadableSegment m headers n)).type = 1 ∧
        ∀ j < n, (programHeader m headers j).type = 1 → (programHeader m headers j).virtualAddress ≤
          (programHeader m headers (lastLoadableSegment m headers n)).virtualAddress := by
  unfold lastLoadableSegment
  generalize search : (fun (best : Nat × Nat) i =>
    let header := programHeader m headers i
    if header.type = 1 ∧ header.virtualAddress > best.2 then (i, header.virtualAddress) else best) = step
  have inv : (∀ j < n, (programHeader m headers j).type = 1 → (programHeader m headers j).virtualAddress = 0) ∧
        (List.range n).foldl step (0, 0) = (0, 0) ∨
      ((List.range n).foldl step (0, 0)).1 < n ∧
        (programHeader m headers ((List.range n).foldl step (0, 0)).1).type = 1 ∧
        (programHeader m headers ((List.range n).foldl step (0, 0)).1).virtualAddress =
          ((List.range n).foldl step (0, 0)).2 ∧
        ∀ j < n, (programHeader m headers j).type = 1 → (programHeader m headers j).virtualAddress ≤
          ((List.range n).foldl step (0, 0)).2 := by
    induction n with
    | zero => exact .inl ⟨fun j small => absurd small (Nat.not_lt_zero j), rfl⟩
    | succ n ih =>
      rw [List.range_succ, List.foldl_append, List.foldl_cons, List.foldl_nil]
      generalize (List.range n).foldl step (0, 0) = best at ih
      have round : step best n = if (programHeader m headers n).type = 1 ∧
          (programHeader m headers n).virtualAddress > best.2 then (n, (programHeader m headers n).virtualAddress)
          else best := by rw [← search]
      rw [round]
      by_cases higher : (programHeader m headers n).type = 1 ∧ (programHeader m headers n).virtualAddress > best.2
      · rw [if_pos higher]
        refine .inr ⟨by omega, higher.1, rfl, fun j small other => ?_⟩
        dsimp only
        rcases Nat.lt_succ_iff_lt_or_eq.mp small with less | rfl
        · rcases ih with ⟨zero, _⟩ | ⟨_, _, _, most⟩
          · have := zero j less other
            omega
          · have := most j less other
            omega
        · exact Nat.le_refl _
      · rw [if_neg higher]
        rcases ih with ⟨zero, rfl⟩ | ⟨bound, type, address, most⟩
        · refine .inl ⟨fun j small other => ?_, rfl⟩
          rcases Nat.lt_succ_iff_lt_or_eq.mp small with less | rfl
          · exact zero j less other
          · by_contra positive
            exact higher ⟨other, Nat.pos_of_ne_zero positive⟩
        · refine .inr ⟨by omega, type, address, fun j small other => ?_⟩
          rcases Nat.lt_succ_iff_lt_or_eq.mp small with less | rfl
          · exact most j less other
          · by_contra above
            exact higher ⟨other, by omega⟩
  rcases inv with ⟨zero, start⟩ | ⟨bound, type, address, most⟩
  · exact .inl ⟨zero, by rw [start]⟩
  · refine .inr ⟨bound, type, ?_⟩
    rw [address]
    exact most

/-! ### What the code reads and writes -/

/-- Bytes read from the buffer of the file, or written for a segment. -/
inductive Access where
  | read (addr size : Nat)
  | write (addr size : Nat)
  deriving DecidableEq, Repr

/-- Reads stay in the buffer, writes in the frames. -/
def Access.Inside (buffer flength copyTo pages : Nat) : Access → Prop
  | .read a n => ∀ x, InRange a n x → InRange buffer flength x
  | .write a n => ∀ x, InRange a n x → InRange copyTo (pages * 4096) x

/-- `ku_memcmp` stops at the first byte that differs. -/
def magicReads (m : Mem) (header : Nat) : List UInt8 → Nat → List Access
  | [], _ => []
  | b :: rest, i => .read (header + i) 1 :: if m (header + i) = b then magicReads m header rest (i + 1) else []

/-- The fields of the file header that `spawn` and `validate_elf` read, with the
bytes that the messages print. -/
def headerReads (m : Mem) (header : Nat) : List Access :=
  [.read (header + 32) 8, .read (header + 56) 2] ++ magicReads m header [0x7F, 0x45, 0x4C, 0x46] 0 ++
    if (List.range 4).map (fun i => m (header + i)) ≠ [0x7F, 0x45, 0x4C, 0x46] then [.read header 1]
    else if m (header + 5) ≠ 1 then [.read (header + 5) 1]
    else [.read (header + 5) 1, .read (header + 4) 1] ++
      if m (header + 4) ≠ 2 then [] else [.read (header + 18) 2]

/-- The header table as the two selection loops and the two copies of a header read it. -/
def tableReads (m : Mem) (programHeaders numEntries : Nat) : List Access :=
  ((List.range numEntries).flatMap fun i =>
    .read (add64 programHeaders (56 * i)) 4 ::
      if (programHeader m programHeaders i).type = 1 then [.read (add64 programHeaders (56 * i) + 16) 8] else []) ++
    [.read (add64 programHeaders (56 * firstLoadableSegment m programHeaders numEntries)) 56,
      .read (add64 programHeaders (56 * lastLoadableSegment m programHeaders numEntries)) 56]

section copying

variable (buffer programHeaders copyTo firstAddr : Nat)

/-- One round of the copy loop. -/
def placeSegment (m : Mem) (s : Nat) : Mem :=
  let header := programHeader m programHeaders s
  if header.type = 1 then
    copy m (add64 copyTo (sub64 header.virtualAddress firstAddr)) (add64 header.offset buffer) header.sizeInFile
  else m

def placeSegments : Nat → Nat → Mem → Mem
  | 0, _, m => m
  | n + 1, s, m => placeSegments n (s + 1) (placeSegment buffer programHeaders copyTo firstAddr m s)

theorem copySegments_run (k : Kernel) (n s : Nat) : copySegments buffer programHeaders copyTo firstAddr n s k =
    .ok ((), k.setMem (placeSegments buffer programHeaders copyTo firstAddr n s k.mem)) := by
  induction n generalizing k s with
  | zero => rfl
  | succ n ih =>
    rw [copySegments, bind_eq run_get, placeSegments, placeSegment]
    dsimp only
    split
    · rw [bind_eq (run_modify _), ih, Kernel.setMem_mem, Kernel.setMem_setMem]
    · exact ih k (s + 1)

def roundLog (m : Mem) (s : Nat) : List Access :=
  let header := programHeader m programHeaders s
  let a := add64 programHeaders (56 * s)
  if header.type = 1 then
    [.read a 4, .read (a + 8) 8, .read (a + 16) 8, .read (a + 32) 8,
      .read (add64 header.offset buffer) header.sizeInFile,
      .write (add64 copyTo (sub64 header.virtualAddress firstAddr)) header.sizeInFile]
  else [.read a 4]

/-- The accesses of the copy loop, each round in the memory that the rounds before it left. -/
def copyLog : Nat → Nat → Mem → List Access
  | 0, _, _ => []
  | n + 1, s, m => roundLog buffer programHeaders copyTo firstAddr m s ++
      copyLog n (s + 1) (placeSegment buffer programHeaders copyTo firstAddr m s)

end copying

structure SpawnLog where
  buffer : Nat
  flength : Nat
  copyTo : Nat
  pages : Nat
  accesses : List Access
  deriving DecidableEq, Repr

/-- `spawn` up to the end of the copy loop. The entry point is read from the
file header once more when the task is created. -/
def loggedSpawn {φ : Type} (kmalloc : Owner → Nat → KernelM Nat) (fs : FileAccess φ) (cpu : Nat)
    (path : List UInt8) : SysM φ (Option SpawnLog) := do
  match ← openAt fs cpu path 0 modeReadonly with
  | none => return none
  | some f =>
    let flength := fs.fileLength (← get).files f
    let (buffer, status) ← readProgram kmalloc fs f
    if status ≠ 0 then return some ⟨buffer, flength, 0, 0, []⟩
    else
      let m := (← get).kernel.mem
      if ¬ validateElf m buffer then return some ⟨buffer, flength, 0, 0, headerReads m buffer⟩
      else
        let programHeaders := add64 buffer (programHeaderOffset m buffer)
        let num := programHeaderEntryCount m buffer
        let image := imageOf m buffer 0
        let copytoPages ← onKernel (kmalloc (.image (← get).tasks.list.length) image.pagesToMap)
        let k := (← get).kernel
        let copyTo := add64 copytoPages k.hhdm
        return some ⟨buffer, flength, copyTo, image.pagesToMap,
          headerReads m buffer ++ tableReads m programHeaders num ++
            copyLog buffer programHeaders copyTo image.first.virtualAddress num 0 k.mem ++ [.read (buffer + 24) 8]⟩

/-! ### When the accesses stay inside -/

section bounds

variable {m : Mem} {buffer copyTo pages : Nat} {bytes : List UInt8}

theorem fileImage_first (bytes : List UInt8) : (fileImage bytes).first = segment bytes (firstIndex bytes) := by
  have start : add64 0 (programHeaderOffset (fileMem bytes) 0) = headersAt bytes := by
    rw [add64, Nat.zero_add]
    exact Nat.mod_eq_of_lt (headersAt_lt bytes)
  unfold fileImage imageOf segment firstIndex
  dsimp only
  rw [start, entryCount]

theorem fileImage_last (bytes : List UInt8) : (fileImage bytes).last = segment bytes (lastIndex bytes) := by
  have start : add64 0 (programHeaderOffset (fileMem bytes) 0) = headersAt bytes := by
    rw [add64, Nat.zero_add]
    exact Nat.mod_eq_of_lt (headersAt_lt bytes)
  unfold fileImage imageOf segment lastIndex
  dsimp only
  rw [start, entryCount]

theorem fileImage_pages (bytes : List UInt8) : (fileImage bytes).pagesToMap =
    pageAlignUp (sub64 (add64 (fileImage bytes).last.virtualAddress (fileImage bytes).last.sizeInMemory)
      (fileImage bytes).first.virtualAddress) / 4096 := rfl

theorem sameLoads (holds : Holds m buffer bytes)
    (types : ∀ i < entryCount bytes, headersAt bytes + 56 * i + 4 ≤ bytes.length)
    (addresses : ∀ i, Loads bytes i → headersAt bytes + 56 * i + 24 ≤ bytes.length) :
    SameLoads m (fileMem bytes) (add64 buffer (headersAt bytes)) (headersAt bytes) (entryCount bytes) :=
  ⟨fun i small => type_eq holds (types i small), fun i small loads => address_eq holds (addresses i ⟨small, loads⟩)⟩

theorem imageOf_eq (holds : Holds m buffer bytes) (header : 58 ≤ bytes.length) (table : TableInFile bytes) (c : Nat) :
    imageOf m buffer c = { fileImage bytes with copytoPages := c } := by
  obtain ⟨offset, count⟩ := count_eq holds header
  have start : add64 0 (programHeaderOffset (fileMem bytes) 0) = headersAt bytes := by
    rw [add64, Nat.zero_add]
    exact Nat.mod_eq_of_lt (headersAt_lt bytes)
  have same := sameLoads holds table.types table.addresses
  have first := header_eq holds table.first
  have last := header_eq holds table.last
  unfold fileImage imageOf
  dsimp only
  rw [offset, count, start, firstLoadableSegment_congr same, lastLoadableSegment_congr same]
  unfold firstIndex at first
  unfold lastIndex at last
  rw [first, last]
  rfl

/-- A read at a header, once the table starts inside the file. -/
theorem header_read_iff (holds : Holds m buffer bytes) (start : headersAt bytes + 4 ≤ bytes.length) {i d n : Nat}
    (few : i < 2 ^ 16) (near : d < 56) (some : 0 < n) :
    (∀ x, InRange (add64 (add64 buffer (headersAt bytes)) (56 * i) + d) n x → InRange buffer bytes.length x) ↔
      headersAt bytes + 56 * i + d + n ≤ bytes.length := by
  have fits := holds.fits
  have small := holds.small
  rw [inRange_subset_iff, add64_add64]
  omega

theorem start_read_iff (holds : Holds m buffer bytes) (start : headersAt bytes + 4 ≤ bytes.length) {i n : Nat}
    (few : i < 2 ^ 16) (some : 0 < n) :
    (∀ x, InRange (add64 (add64 buffer (headersAt bytes)) (56 * i)) n x → InRange buffer bytes.length x) ↔
      headersAt bytes + 56 * i + n ≤ bytes.length := by
  have whole := header_read_iff holds start few (show 0 < 56 by decide) some
  rwa [Nat.add_zero, Nat.add_zero] at whole

theorem first_read_iff (holds : Holds m buffer bytes) {n : Nat} (some : 0 < n) :
    (∀ x, InRange (add64 (add64 buffer (headersAt bytes)) (56 * 0)) n x → InRange buffer bytes.length x) ↔
      headersAt bytes + n ≤ bytes.length := by
  have fits := holds.fits
  have small := holds.small
  have below := headersAt_lt bytes
  rw [inRange_subset_iff, add64_add64]
  omega

theorem firstLoadableSegment_lt (m : Mem) (headers n : Nat) : firstLoadableSegment m headers n < n ∨
    firstLoadableSegment m headers n = 0 :=
  (firstLoadableSegment_spec m headers n).symm.imp And.left And.right

theorem lastLoadableSegment_lt (m : Mem) (headers n : Nat) : lastLoadableSegment m headers n < n ∨
    lastLoadableSegment m headers n = 0 :=
  (lastLoadableSegment_spec m headers n).symm.imp And.left And.right

/-- The table is read inside the file when it lies there. -/
theorem tableReads_iff (holds : Holds m buffer bytes) :
    (∀ a ∈ tableReads m (add64 buffer (headersAt bytes)) (entryCount bytes),
      a.Inside buffer bytes.length copyTo pages) ↔ TableInFile bytes := by
  have few := entryCount_lt bytes
  have index : firstIndex bytes < 2 ^ 16 ∧ lastIndex bytes < 2 ^ 16 := by
    have first := firstLoadableSegment_lt (fileMem bytes) (headersAt bytes) (entryCount bytes)
    have last := lastLoadableSegment_lt (fileMem bytes) (headersAt bytes) (entryCount bytes)
    unfold firstIndex lastIndex
    omega
  unfold tableReads
  constructor
  · intro inside
    simp only [List.mem_append, List.mem_flatMap, List.mem_range, List.mem_cons, List.not_mem_nil, or_false] at inside
    -- The first header is read in any case, so the sums below do not wrap.
    have start : headersAt bytes + 4 ≤ bytes.length := by
      rcases Nat.eq_zero_or_pos (entryCount bytes) with none | some
      · have whole := inside _ (.inr (.inl rfl))
        rw [none, show firstLoadableSegment m (add64 buffer (headersAt bytes)) 0 = 0 from rfl] at whole
        have bound := (first_read_iff holds (by decide)).mp whole
        omega
      · exact (first_read_iff holds (by decide)).mp (inside _ (.inl ⟨0, some, .inl rfl⟩))
    have types : ∀ i < entryCount bytes, headersAt bytes + 56 * i + 4 ≤ bytes.length := fun i small =>
      (start_read_iff holds start (by omega) (by decide)).mp (inside _ (.inl ⟨i, small, .inl rfl⟩))
    have addresses : ∀ i, Loads bytes i → headersAt bytes + 56 * i + 24 ≤ bytes.length := by
      intro i loads
      have here := type_eq holds (types i loads.1)
      have read := inside (.read (add64 (add64 buffer (headersAt bytes)) (56 * i) + 16) 8)
        (.inl ⟨i, loads.1, .inr (by rw [if_pos (here.trans loads.2)]; exact List.mem_singleton.mpr rfl)⟩)
      have few : i < 2 ^ 16 := by
        have := loads.1
        omega
      exact (header_read_iff holds start (d := 16) (n := 8) few (by decide) (by decide)).mp read
    have same := sameLoads holds types addresses
    refine ⟨types, addresses, ?_, ?_⟩
    · have whole := inside _ (.inr (.inl rfl))
      rw [firstLoadableSegment_congr same] at whole
      exact (start_read_iff holds start index.1 (by decide)).mp whole
    · have whole := inside _ (.inr (.inr rfl))
      rw [lastLoadableSegment_congr same] at whole
      exact (start_read_iff holds start index.2 (by decide)).mp whole
  · intro table a listed
    have start : headersAt bytes + 4 ≤ bytes.length := by
      have := table.first
      omega
    have same := sameLoads holds table.types table.addresses
    rw [firstLoadableSegment_congr same, lastLoadableSegment_congr same] at listed
    simp only [List.mem_append, List.mem_flatMap, List.mem_range, List.mem_cons, List.not_mem_nil, or_false] at listed
    rcases listed with ⟨i, small, rfl | address⟩ | rfl | rfl
    · exact (start_read_iff holds start (by omega) (by decide)).mpr (table.types i small)
    · split at address
      · rename_i type
        obtain rfl := List.mem_singleton.mp address
        have here := type_eq holds (table.types i small)
        have bound := table.addresses i ⟨small, here.symm.trans type⟩
        exact (header_read_iff holds start (d := 16) (by omega) (by decide) (by decide)).mpr bound
      · exact absurd address List.not_mem_nil
    · exact (start_read_iff holds start index.1 (by decide)).mpr table.first
    · exact (start_read_iff holds start index.2 (by decide)).mpr table.last

theorem magicReads_near {header i : Nat} {magic : List UInt8} {a : Access} (listed : a ∈ magicReads m header magic i) :
    ∃ d, a = .read (header + d) 1 ∧ d < i + magic.length := by
  induction magic generalizing i with
  | nil => exact absurd listed List.not_mem_nil
  | cons b rest ih =>
    rw [List.length_cons]
    rcases List.mem_cons.mp listed with rfl | later
    · exact ⟨i, rfl, by omega⟩
    · split at later
      · obtain ⟨d, same, near⟩ := ih later
        exact ⟨d, same, by omega⟩
      · exact absurd later List.not_mem_nil

theorem headerReads_near {header : Nat} {a : Access} (listed : a ∈ headerReads m header) :
    ∃ d n, a = .read (header + d) n ∧ d + n ≤ 58 := by
  unfold headerReads at listed
  rcases List.mem_append.mp listed with front | back
  · rcases List.mem_append.mp front with fields | magic
    · simp only [List.mem_cons, List.not_mem_nil, or_false] at fields
      rcases fields with rfl | rfl
      · exact ⟨32, 8, rfl, by decide⟩
      · exact ⟨56, 2, rfl, by decide⟩
    · obtain ⟨d, rfl, near⟩ := magicReads_near magic
      exact ⟨d, 1, rfl, by simp at near; omega⟩
  · split at back
    · obtain rfl := List.mem_singleton.mp back
      exact ⟨0, 1, rfl, by decide⟩
    · split at back
      · obtain rfl := List.mem_singleton.mp back
        exact ⟨5, 1, rfl, by decide⟩
      · rcases List.mem_append.mp back with bytes | machine
        · simp only [List.mem_cons, List.not_mem_nil, or_false] at bytes
          rcases bytes with rfl | rfl
          · exact ⟨5, 1, rfl, by decide⟩
          · exact ⟨4, 1, rfl, by decide⟩
        · split at machine
          · exact absurd machine List.not_mem_nil
          · obtain rfl := List.mem_singleton.mp machine
            exact ⟨18, 2, rfl, by decide⟩

theorem read_near_inside {length d n : Nat} (near : d + n ≤ length) :
    (Access.read (buffer + d) n).Inside buffer length copyTo pages := by
  intro x inside
  unfold InRange at *
  omega

theorem headerReads_iff {length : Nat} :
    (∀ a ∈ headerReads m buffer, a.Inside buffer length copyTo pages) ↔ 58 ≤ length := by
  constructor
  · intro inside
    have count := inRange_subset_iff.mp (inside (.read (buffer + 56) 2) (by simp [headerReads]))
    omega
  · intro long a listed
    obtain ⟨d, n, rfl, near⟩ := headerReads_near listed
    exact read_near_inside (by omega)

/-- What the copy loop works on: the file in its buffer and the frames, apart from each other. -/
structure Window (m : Mem) (buffer copyTo : Nat) (bytes : List UInt8) : Prop where
  holds : Holds m buffer bytes
  table : TableInFile bytes
  frames : copyTo + (fileImage bytes).pagesToMap * 4096 ≤ 2 ^ 64
  apart : Apart buffer bytes.length copyTo ((fileImage bytes).pagesToMap * 4096)

/-- The place of a segment in the frames. -/
def placeOf (bytes : List UInt8) (i : Nat) : Nat :=
  sub64 (segment bytes i).virtualAddress (fileImage bytes).first.virtualAddress

theorem segment_lt (bytes : List UInt8) (i : Nat) :
    (segment bytes i).offset < 2 ^ 64 ∧ (segment bytes i).virtualAddress < 2 ^ 64 ∧
      (segment bytes i).sizeInFile < 2 ^ 64 ∧ (segment bytes i).sizeInMemory < 2 ^ 64 :=
  ⟨load_lt .., load_lt .., load_lt .., load_lt ..⟩

theorem placeOf_lt (bytes : List UInt8) (i : Nat) : placeOf bytes i < 2 ^ 64 := by
  have small := (segment_lt bytes i).2.1
  unfold placeOf sub64
  split <;> omega

/-- A range at an offset from a base, when the sum may wrap. -/
theorem offset_inside_iff {base len offset n : Nat} (fits : base + len ≤ 2 ^ 64) (small : offset < 2 ^ 64) :
    (∀ x, InRange (add64 base offset) n x → InRange base len x) ↔ n = 0 ∨ offset + n ≤ len := by
  rw [inRange_subset_iff, add64]
  omega

theorem add64_comm (a b : Nat) : add64 a b = add64 b a := by rw [add64, add64, Nat.add_comm]

theorem round_iff (window : Window m buffer copyTo bytes) {s : Nat} (bound : s < entryCount bytes) :
    (∀ a ∈ roundLog buffer (add64 buffer (headersAt bytes)) copyTo (fileImage bytes).first.virtualAddress m s,
      a.Inside buffer bytes.length copyTo (fileImage bytes).pagesToMap) ↔
      (Loads bytes s → SegmentInBounds bytes s) := by
  have holds := window.holds
  have few := entryCount_lt bytes
  have here := window.table.types s bound
  have start : headersAt bytes + 4 ≤ bytes.length := by omega
  have type := type_eq holds here
  unfold roundLog
  dsimp only
  rw [type]
  by_cases loads : (segment bytes s).type = 1
  · rw [if_pos loads]
    have few' : s < 2 ^ 16 := by omega
    have read : ∀ d < 56, (∀ x, InRange (add64 (add64 buffer (headersAt bytes)) (56 * s) + d) 8 x →
        InRange buffer bytes.length x) ↔ headersAt bytes + 56 * s + d + 8 ≤ bytes.length :=
      fun d near => header_read_iff holds start few' near (by decide)
    have source := offset_inside_iff (n := (segment bytes s).sizeInFile) holds.fits (segment_lt bytes s).1
    have target := offset_inside_iff (n := (segment bytes s).sizeInFile) window.frames (placeOf_lt bytes s)
    rw [add64_comm buffer] at source
    constructor
    · intro inside _
      have last : headersAt bytes + 56 * s + 32 + 8 ≤ bytes.length := (read 32 (by decide)).mp (inside (.read _ _) (by simp))
      obtain ⟨offset, address, size⟩ := fields_eq holds last
      rw [offset, address, size] at inside
      exact ⟨last, source.mp (inside (.read _ _) (by simp)), target.mp (inside (.write _ _) (by simp [placeOf]))⟩
    · intro bounds a listed
      obtain ⟨header, file, frames⟩ := bounds ⟨bound, loads⟩
      obtain ⟨offset, address, size⟩ := fields_eq holds header
      rw [offset, address, size] at listed
      simp only [List.mem_cons, List.not_mem_nil, or_false] at listed
      rcases listed with rfl | rfl | rfl | rfl | rfl | rfl
      · exact (start_read_iff holds start few' (by decide)).mpr here
      · exact (read 8 (by decide)).mpr (by omega)
      · exact (read 16 (by decide)).mpr (by omega)
      · exact (read 32 (by decide)).mpr header
      · exact source.mpr file
      · exact target.mpr frames
  · rw [if_neg loads]
    refine ⟨fun _ both => absurd both.2 loads, fun _ a listed => ?_⟩
    obtain rfl := List.mem_singleton.mp listed
    exact (start_read_iff holds start (by omega) (by decide)).mpr here

theorem placeSegment_outside (window : Window m buffer copyTo bytes) {s : Nat} (bound : s < entryCount bytes)
    (inside : Loads bytes s → SegmentInBounds bytes s) {x : Nat}
    (far : ¬ InRange copyTo ((fileImage bytes).pagesToMap * 4096) x) :
    placeSegment buffer (add64 buffer (headersAt bytes)) copyTo (fileImage bytes).first.virtualAddress m s x = m x := by
  have type := type_eq window.holds (window.table.types s bound)
  unfold placeSegment
  rw [type]
  by_cases loads : (segment bytes s).type = 1
  · rw [if_pos loads]
    obtain ⟨header, _, frames⟩ := inside ⟨bound, loads⟩
    obtain ⟨offset, address, size⟩ := fields_eq window.holds header
    rw [offset, address, size]
    have target := (offset_inside_iff window.frames (placeOf_lt bytes s)).mpr frames
    exact copy_outside fun here => far (target x here)
  · rw [if_neg loads]

theorem Window.congr {m' : Mem} (window : Window m buffer copyTo bytes)
    (same : ∀ x, ¬ InRange copyTo ((fileImage bytes).pagesToMap * 4096) x → m' x = m x) :
    Window m' buffer copyTo bytes :=
  ⟨window.holds.congr fun x here => same x (not_inRange_of_apart window.apart here), window.table, window.frames,
    window.apart⟩

theorem copyLog_iff (window : Window m buffer copyTo bytes) {n s : Nat} (rounds : s + n = entryCount bytes) :
    (∀ a ∈ copyLog buffer (add64 buffer (headersAt bytes)) copyTo (fileImage bytes).first.virtualAddress n s m,
      a.Inside buffer bytes.length copyTo (fileImage bytes).pagesToMap) ↔
      ∀ i, s ≤ i → Loads bytes i → SegmentInBounds bytes i := by
  induction n generalizing m s with
  | zero =>
    refine ⟨fun _ i above loads => ?_, fun _ a listed => absurd listed List.not_mem_nil⟩
    have := loads.1
    omega
  | succ n ih =>
    have round := round_iff window (s := s) (by omega)
    rw [copyLog]
    simp only [List.mem_append]
    constructor
    · intro inside i above loads
      have first := round.mp fun a listed => inside a (.inl listed)
      have next := window.congr fun x far => placeSegment_outside window (s := s) (by omega) first far
      rcases Nat.eq_or_lt_of_le above with rfl | later
      · exact first loads
      · exact (ih next (by omega)).mp (fun a listed => inside a (.inr listed)) i later loads
    · intro bounds a listed
      have first : Loads bytes s → SegmentInBounds bytes s := bounds s (Nat.le_refl s)
      have next := window.congr fun x far => placeSegment_outside window (s := s) (by omega) first far
      rcases listed with here | there
      · exact round.mpr first a here
      · exact (ih next (by omega)).mpr (fun i above => bounds i (by omega)) a there

theorem placeSegments_outside (window : Window m buffer copyTo bytes)
    (bounds : ∀ i, Loads bytes i → SegmentInBounds bytes i) {n s : Nat} (rounds : s + n = entryCount bytes) {x : Nat}
    (far : ¬ InRange copyTo ((fileImage bytes).pagesToMap * 4096) x) :
    placeSegments buffer (add64 buffer (headersAt bytes)) copyTo (fileImage bytes).first.virtualAddress n s m x = m x := by
  induction n generalizing m s with
  | zero => rfl
  | succ n ih =>
    have round : ∀ x, ¬ InRange copyTo ((fileImage bytes).pagesToMap * 4096) x → placeSegment buffer
        (add64 buffer (headersAt bytes)) copyTo (fileImage bytes).first.virtualAddress m s x = m x :=
      fun x far => placeSegment_outside window (by omega) (bounds s) far
    rw [placeSegments, ih (window.congr round) (by omega), round x far]

end bounds

end PotatOS.Tasks
