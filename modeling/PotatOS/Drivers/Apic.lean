import PotatOS.Lib.Memory
import Mathlib.Logic.Function.Iterate

/-!
# Reading the MADT (`apic.c`)

The loop of `init_apic` keeps a pointer into the table and a byte counter. After
each entry the counter grows by the length of the entry that comes next, not of
the one just read, so a round reads a length byte past the entry it handles.
`map_pages` and the messages do not touch the table and are left out.
-/

namespace PotatOS.Drivers

open Memory

/-- `sizeof(MADT)`: the 36 bytes of `ISDTHeader` and two words. -/
def sizeofMadt : Nat := 44

/-- The entry types that the loop tells apart. -/
def localApic : UInt8 := 0
def ioapic : UInt8 := 1

/-- `madt->header.length`. -/
def headerLength (m : Mem) (madt : Nat) : Nat := load m (madt + 4) 4

def entryType (m : Mem) (entry : Nat) : UInt8 := m entry

def recordLength (m : Mem) (entry : Nat) : Nat := (m (entry + 1)).toNat

structure IoApic where
  ioapicId : UInt8
  ioapicAddr : Nat
  globalSystemInterruptBase : Nat
  deriving DecidableEq, Repr

/-- `*(IOApic*) entry`. -/
def ioApicAt (m : Mem) (entry : Nat) : IoApic :=
  ⟨m (entry + 2), load m (entry + 4) 4, load m (entry + 8) 4⟩

/-- The variables of the loop. The entries handled and the ranges read are ghost. -/
structure Enumeration where
  entry : Nat
  incremented : Nat
  ioapicDevice : Option IoApic := none
  visited : List Nat := []
  reads : List (Nat × Nat) := []

/-- Before the loop, which reads `header.length` in its test. -/
def startEnumeration (madt : Nat) : Enumeration :=
  { entry := madt + sizeofMadt, incremented := sizeofMadt, reads := [(madt + 4, 4)] }

/-- The ranges that the round for `entry` reads: the type, the fields of an I/O APIC or a local APIC,
and the length bytes of this entry and of the next. -/
def entryReads (m : Mem) (entry : Nat) : List (Nat × Nat) :=
  (entry, 1) ::
    (if entryType m entry = ioapic then [(entry, 12)]
    else if entryType m entry = localApic then [(entry + 2, 1), (entry + 3, 1)] else []) ++
    [(entry + 1, 1), (entry + recordLength m entry + 1, 1)]

def enumerateEntry (m : Mem) (e : Enumeration) : Enumeration :=
  let next := e.entry + recordLength m e.entry
  { entry := next
    incremented := e.incremented + recordLength m next
    ioapicDevice := if entryType m e.entry = ioapic then some (ioApicAt m e.entry) else e.ioapicDevice
    visited := e.visited ++ [e.entry]
    reads := e.reads ++ entryReads m e.entry }

/-- The loop, with a bound on its rounds. -/
def enumerateMadt (m : Mem) (madt : Nat) : Nat → Enumeration → Option Enumeration
  | 0, _ => none
  | rounds + 1, e =>
    if e.incremented < headerLength m madt then enumerateMadt m madt rounds (enumerateEntry m e) else some e

/-! ### Tables -/

/-- Records of the given lengths from `a` on. -/
def RecordsAt (m : Mem) : Nat → List Nat → Prop
  | _, [] => True
  | a, n :: rest => recordLength m a = n ∧ 2 ≤ n ∧ RecordsAt m (a + n) rest

/-- Where they start. -/
def entriesAt : Nat → List Nat → List Nat
  | _, [] => []
  | a, n :: rest => a :: entriesAt (a + n) rest

/-- A well-formed MADT whose entries have the given lengths. -/
structure MadtAt (m : Mem) (madt : Nat) (lengths : List Nat) : Prop where
  length : headerLength m madt = sizeofMadt + lengths.sum
  records : RecordsAt m (madt + sizeofMadt) lengths

/-- The last I/O APIC among the entries. -/
def lastIoApic (m : Mem) (entries : List Nat) : Option IoApic :=
  ((entries.filter fun entry => entryType m entry = ioapic).getLast?).map (ioApicAt m)

/-- The loop ends after it handled the entries of the table in order and read bytes of the table only,
and `ioapic_device` is the last I/O APIC. -/
def EnumeratesTable (m : Mem) (madt : Nat) (lengths : List Nat) : Prop :=
  ∃ rounds e, enumerateMadt m madt rounds (startEnumeration madt) = some e ∧
    e.visited = entriesAt (madt + sizeofMadt) lengths ∧
    (∀ r ∈ e.reads, madt ≤ r.1 ∧ r.1 + r.2 ≤ madt + headerLength m madt) ∧
    e.ioapicDevice = lastIoApic m (entriesAt (madt + sizeofMadt) lengths)

variable {m : Mem} {madt a first rounds : Nat} {lengths : List Nat} {e last : Enumeration}

/-- What the loop handled and read stays recorded. -/
theorem enumerateMadt_grows (h : enumerateMadt m madt rounds e = some last) :
    (∃ more, last.visited = e.visited ++ more) ∧ ∀ r ∈ e.reads, r ∈ last.reads := by
  induction rounds generalizing e with
  | zero => cases h
  | succ rounds ih =>
    rw [enumerateMadt] at h
    split at h
    · obtain ⟨⟨more, visited⟩, reads⟩ := ih h
      refine ⟨⟨e.entry :: more, ?_⟩, fun r inside => reads r (List.mem_append_left _ inside)⟩
      rw [visited, enumerateEntry, List.append_assoc]
      rfl
    · obtain rfl := Option.some.inj h
      exact ⟨⟨[], (List.append_nil _).symm⟩, fun r inside => inside⟩

theorem enumerateMadt_more {more : Nat} (h : enumerateMadt m madt rounds e = some last) :
    enumerateMadt m madt (more + rounds) e = some last := by
  induction rounds generalizing e with
  | zero => cases h
  | succ rounds ih =>
    rw [← Nat.add_assoc, enumerateMadt]
    rw [enumerateMadt] at h
    split at h
    · rw [if_pos ‹_›]
      exact ih h
    · rw [if_neg ‹_›]
      exact h

/-- A loop that handles the rest of the table reads the second byte after it. -/
theorem reads_past_table (records : RecordsAt m a lengths) (entry : e.entry = a) (some : lengths ≠ [])
    (h : enumerateMadt m madt rounds e = .some last) (visits : last.visited = e.visited ++ entriesAt a lengths) :
    (a + lengths.sum + 1, 1) ∈ last.reads := by
  induction lengths generalizing a e rounds with
  | nil => exact absurd rfl some
  | cons n rest ih =>
    obtain ⟨here, -, later⟩ := records
    subst a
    cases rounds with
    | zero => cases h
    | succ rounds =>
      rw [enumerateMadt] at h
      split at h
      · have next : (enumerateEntry m e).entry = e.entry + n := by rw [enumerateEntry, here]
        cases rest with
        | nil =>
          apply (enumerateMadt_grows h).2
          simp [enumerateEntry, entryReads, here]
        | cons n' rest =>
          have visits' : last.visited = (enumerateEntry m e).visited ++ entriesAt (e.entry + n) (n' :: rest) := by
            rw [visits, enumerateEntry, List.append_assoc]
            rfl
          have read := ih later next (List.cons_ne_nil _ _) h visits'
          rwa [List.sum_cons, ← Nat.add_assoc]
      · obtain rfl := Option.some.inj h
        have lengths := congrArg List.length visits
        simp [entriesAt] at lengths

/-- The loop meets its purpose on the table without entries only. -/
theorem enumeratesTable_iff (table : MadtAt m madt lengths) : EnumeratesTable m madt lengths ↔ lengths = [] := by
  constructor
  · rintro ⟨rounds, e, run, visits, inside, -⟩
    by_contra some
    have read := reads_past_table table.records rfl some run visits
    have bound := (inside _ read).2
    rw [table.length] at bound
    dsimp only at bound
    omega
  · rintro rfl
    have length := table.length
    rw [List.sum_nil, Nat.add_zero] at length
    refine ⟨1, startEnumeration madt, ?_, rfl, ?_, rfl⟩
    · rw [enumerateMadt, if_neg (by rw [length]; exact Nat.lt_irrefl _)]
    · intro r inside
      obtain rfl := List.mem_singleton.mp inside
      rw [length]
      exact ⟨Nat.le_add_right .., by unfold sizeofMadt; dsimp only; omega⟩

/-! ### What does hold -/

theorem lastIoApic_cons (entry : Nat) (entries : List Nat) : lastIoApic m (entry :: entries) =
    (lastIoApic m entries).or (if entryType m entry = ioapic then some (ioApicAt m entry) else none) := by
  unfold lastIoApic
  by_cases isIoapic : entryType m entry = ioapic
  · rw [List.filter_cons_of_pos (by simpa using isIoapic), if_pos isIoapic, List.getLast?_cons]
    cases (entries.filter fun entry => entryType m entry = ioapic).getLast? <;> rfl
  · rw [List.filter_cons_of_neg (by simpa using isIoapic), if_neg isIoapic, Option.or_none]

/-- The counter runs ahead of the pointer by the length of the entry there, less that of the first entry:
the loop goes through the whole table. -/
theorem enumerateMadt_records (records : RecordsAt m a lengths) (entry : e.entry = a) (positive : 0 < first)
    (ahead : e.incremented + first + madt = a + recordLength m a)
    (length : headerLength m madt + madt = a + lengths.sum) : ∃ e',
      enumerateMadt m madt (lengths.length + rounds) e = enumerateMadt m madt rounds e' ∧
      e'.entry = a + lengths.sum ∧
      e'.incremented + first = headerLength m madt + recordLength m (a + lengths.sum) ∧
      e'.visited = e.visited ++ entriesAt a lengths ∧
      e'.ioapicDevice = (lastIoApic m (entriesAt a lengths)).or e.ioapicDevice := by
  induction lengths generalizing a e with
  | nil =>
    refine ⟨e, by rw [List.length_nil, Nat.zero_add], entry, ?_, (List.append_nil _).symm, rfl⟩
    rw [List.sum_nil, Nat.add_zero] at *
    omega
  | cons n rest ih =>
    obtain ⟨here, -, later⟩ := records
    subst a
    rw [List.sum_cons] at length
    have next : (enumerateEntry m e).entry = e.entry + n := by rw [enumerateEntry, here]
    have ahead' : (enumerateEntry m e).incremented + first + madt =
        e.entry + n + recordLength m (e.entry + n) := by
      rw [enumerateEntry, here]
      dsimp only
      omega
    obtain ⟨e', run, last, counter, visited, device⟩ := ih later next ahead' (by omega)
    refine ⟨e', ?_, ?_, ?_, ?_, ?_⟩
    · rw [List.length_cons, Nat.add_right_comm, enumerateMadt, if_pos (by omega), run]
    · rw [last, List.sum_cons, Nat.add_assoc]
    · rw [counter, List.sum_cons, Nat.add_assoc]
    · rw [visited, enumerateEntry, List.append_assoc]
      rfl
    · rw [device, entriesAt, lastIoApic_cons, Option.or_assoc, enumerateEntry]
      split <;> rfl

/-- The loop stops behind the last entry exactly when the second byte after the table is not less than the
length of the first entry. Then it has recorded the last I/O APIC. -/
theorem visitsTable_iff (table : MadtAt m madt (first :: lengths)) :
    (∃ rounds e, enumerateMadt m madt rounds (startEnumeration madt) = some e ∧
      e.visited = entriesAt (madt + sizeofMadt) (first :: lengths) ∧
      e.ioapicDevice = lastIoApic m (entriesAt (madt + sizeofMadt) (first :: lengths))) ↔
      first ≤ recordLength m (madt + headerLength m madt) := by
  obtain ⟨length, records⟩ := table
  have here := records.1
  have long := records.2.1
  have ends : madt + sizeofMadt + (first :: lengths).sum = madt + headerLength m madt := by omega
  have ahead : (startEnumeration madt).incremented + first + madt =
      madt + sizeofMadt + recordLength m (madt + sizeofMadt) := by
    rw [here, startEnumeration]
    dsimp only
    omega
  have through {rounds : Nat} := @enumerateMadt_records m madt _ first rounds _ _ records rfl (by omega) ahead (by omega)
  rw [ends] at through
  constructor
  · rintro ⟨rounds, e, run, visits, -⟩
    by_contra short
    obtain ⟨e', same, -, counter, visited, -⟩ := @through rounds
    rw [enumerateMadt_more run] at same
    -- The loop handles one more entry behind the table.
    cases rounds with
    | zero => cases run
    | succ rounds =>
      rw [enumerateMadt, if_pos (by omega)] at same
      obtain ⟨more, grown⟩ := (enumerateMadt_grows same.symm).1
      have count := congrArg List.length (visits.symm.trans grown)
      simp [enumerateEntry, visited, startEnumeration] at count
  · intro stops
    obtain ⟨e, run, -, counter, visited, device⟩ := @through 1
    refine ⟨_, e, run.trans ?_, visited, by rw [device]; exact Option.or_none⟩
    rw [enumerateMadt, if_neg (by omega)]

/-- A table at 0 with one I/O APIC, followed by bytes that are zero. -/
def zeroTail : Mem := fun x => if x = 4 then 56 else if x = 44 then 1 else if x = 45 then 12 else 0

theorem zeroTail_madt : MadtAt zeroTail 0 [12] := ⟨by decide, by decide, by decide, trivial⟩

/-- Behind the table the loop stays on an entry of length 0 forever. -/
theorem zeroTail_hangs (rounds : Nat) : enumerateMadt zeroTail 0 rounds (startEnumeration 0) = none := by
  have stuck : ∀ rounds (e : Enumeration), e.entry = 56 → e.incremented = 44 →
      enumerateMadt zeroTail 0 rounds e = none := by
    intro rounds
    induction rounds with
    | zero => exact fun _ _ _ => rfl
    | succ rounds ih =>
      intro e entry counter
      have zero : recordLength zeroTail 56 = 0 := by decide
      have length : headerLength zeroTail 0 = 56 := by decide
      rw [enumerateMadt, counter, length, if_pos (by decide)]
      apply ih
      · rw [enumerateEntry, entry, zero]
      · rw [enumerateEntry, entry, counter, zero, Nat.add_zero, zero]
  cases rounds with
  | zero => rfl
  | succ rounds =>
    rw [enumerateMadt, if_pos (by decide)]
    exact stuck rounds _ rfl rfl

/-- The loop does not end on that table, which is well formed. -/
theorem madt_followed_by_zeros :
    MadtAt zeroTail 0 [12] ∧ ¬ EnumeratesTable zeroTail 0 [12] := by
  refine ⟨zeroTail_madt, ?_⟩
  rintro ⟨rounds, e, run, -⟩
  rw [zeroTail_hangs] at run
  cases run

/-- A table without entries. -/
def emptyTable : Mem := fun x => if x = 4 then 44 else 0

theorem enumeratesTable_iff_emptyTable : EnumeratesTable emptyTable 0 [] :=
  (@enumeratesTable_iff emptyTable 0 [] ⟨by decide, trivial⟩).mpr rfl

end PotatOS.Drivers
