import Mathlib.Tactic.IntervalCases
import PotatOS.Kernel

/-!
# Redirection entries (`map_ioapic`, `mask_ioapic`, `unmask_ioapic`)

The registers of the I/O APIC are reached through an index register of eight
bits. Two of them hold the redirection entry of an interrupt; which two depends
on the first interrupt that the device serves.
-/

namespace PotatOS.Drivers

/-- `accessed` is ghost: the registers that were read or written. -/
structure Redirections where
  select : Nat := 0
  regs : Nat → BitVec 32
  accessed : List Nat := []

/-- `ioapic[0] = (reg & 0xff)` -/
def Redirections.index (reg : BitVec 32) (io : Redirections) : Redirections := { io with select := (reg &&& 0xFF).toNat }

def readIoapic (reg : BitVec 32) (io : Redirections) : BitVec 32 × Redirections :=
  let io := io.index reg
  (io.regs io.select, { io with accessed := io.select :: io.accessed })

def writeIoapic (reg value : BitVec 32) (io : Redirections) : Redirections :=
  let io := io.index reg
  { io with regs := Function.update io.regs io.select value, accessed := io.select :: io.accessed }

/-- The low word that `map_ioapic` writes. -/
def mappedLow (vec : BitVec 8) (polarity trigger : Bool) (old : BitVec 32) : BitVec 32 :=
  let entry := (old &&& ~~~0xFF) ||| vec.setWidth 32
  let entry := entry &&& ~~~0x700
  let entry := entry &&& ~~~0x800
  let entry := if polarity then entry ||| 0x2000 else entry &&& ~~~0x2000
  let entry := if trigger then entry ||| 0x8000 else entry &&& ~~~0x8000
  entry &&& ~~~0x10000

/-- The high word that `map_ioapic` writes. -/
def mappedHigh (lapicId : BitVec 32) : BitVec 32 := (lapicId &&& 0xF) <<< 28

section calls

variable (gsiBase : BitVec 32)

def mapIoapic (vec : BitVec 8) (irq lapicId : BitVec 32) (polarity trigger : Bool) (io : Redirections) : Redirections :=
  let entryNum := gsiBase + irq * 2
  let first := readIoapic (0x10 + entryNum) io
  let second := readIoapic (0x11 + entryNum) first.2
  let io := writeIoapic (0x10 + entryNum) (mappedLow vec polarity trigger first.1) second.2
  writeIoapic (0x11 + entryNum) (mappedHigh lapicId) io

/-- `irq` is a `uint8_t` here. -/
def maskIoapic (irq : BitVec 8) (io : Redirections) : Redirections :=
  let regNum := 0x10 + (gsiBase + irq.setWidth 32 * 2)
  let redirectionEntry := readIoapic regNum io
  writeIoapic regNum (redirectionEntry.1 ||| 0x10000) redirectionEntry.2

def unmaskIoapic (irq : BitVec 8) (io : Redirections) : Redirections :=
  let regNum := 0x10 + (gsiBase + irq.setWidth 32 * 2)
  let redirectionEntry := readIoapic regNum io
  writeIoapic regNum (redirectionEntry.1 &&& ~~~0x10000) redirectionEntry.2

/-- What `map_ioapic` is asked to route. -/
structure Route where
  vec : BitVec 8
  lapicId : BitVec 32
  polarity : Bool
  trigger : Bool
  deriving DecidableEq, Repr

/-- A call on an interrupt. -/
inductive Routing where
  | map (irq : BitVec 32) (route : Route)
  | mask (irq : BitVec 32)
  | unmask (irq : BitVec 32)
  deriving DecidableEq, Repr

def Routing.irq : Routing → BitVec 32
  | .map irq _ | .mask irq | .unmask irq => irq

def Routing.run : Routing → Redirections → Redirections
  | .map irq route, io => mapIoapic gsiBase route.vec irq route.lapicId route.polarity route.trigger io
  | .mask irq, io => maskIoapic gsiBase (irq.setWidth 8) io
  | .unmask irq, io => unmaskIoapic gsiBase (irq.setWidth 8) io

def routings (calls : List Routing) (io : Redirections) : Redirections := calls.foldl (fun io call => call.run gsiBase io) io

/-- The interrupts that the device serves. -/
def Serves (irq : BitVec 32) : Prop := gsiBase.toNat ≤ irq.toNat ∧ irq.toNat < gsiBase.toNat + 120

/-- The first register of an interrupt's redirection entry. -/
def entryRegister (irq : BitVec 32) : Nat := 0x10 + 2 * (irq.toNat - gsiBase.toNat)

end calls

/-! ### What the calls ask for -/

/-- The mask bit and the route that the calls on an interrupt have set. -/
structure Setting where
  masked : Option Bool := none
  route : Option Route := none
  deriving DecidableEq, Repr

def Routing.onto (irq : BitVec 32) (s : Setting) : Routing → Setting
  | .map other route => if other = irq then ⟨some false, some route⟩ else s
  | .mask other => if other = irq then { s with masked := some true } else s
  | .unmask other => if other = irq then { s with masked := some false } else s

/-- The last call decides the mask bit, the last `map_ioapic` the route. -/
def settingAfter (irq : BitVec 32) (calls : List Routing) : Setting := calls.foldl (Routing.onto irq) {}

/-- Bit `i` of the low word: vector, delivery and destination mode, polarity, trigger and mask are bits 0 to 7, 8 to 11,
13, 15 and 16. -/
def Setting.lowBit (s : Setting) (old : BitVec 32) (i : Nat) : Bool :=
  if i = 16 then s.masked.getD (old.getLsbD 16)
  else match s.route with
    | none => old.getLsbD i
    | some route =>
      if i < 8 then route.vec.getLsbD i
      else if i < 12 then false
      else if i = 13 then route.polarity
      else if i = 15 then route.trigger
      else old.getLsbD i

def Setting.high (s : Setting) (old : BitVec 32) : BitVec 32 :=
  match s.route with
  | none => old
  | some route => mappedHigh route.lapicId

/-- A call touches the two registers of its interrupt and no others. -/
structure TouchesEntry (r : Nat) (io io' : Redirections) : Prop where
  accessed : ∀ a ∈ io'.accessed, a ∈ io.accessed ∨ a = r ∨ a = r + 1
  kept : ∀ n, n ≠ r → n ≠ r + 1 → io'.regs n = io.regs n

/-- The two words of an entry are what the calls have set, on top of the words at the start. -/
structure Entry (r : Nat) (s : Setting) (start io : Redirections) : Prop where
  low : ∀ i < 32, (io.regs r).getLsbD i = s.lowBit (start.regs r) i
  high : io.regs (r + 1) = s.high (start.regs (r + 1))

section registers

variable {gsiBase irq irq' : BitVec 32} {io start : Redirections} {call : Routing} {s : Setting} {r : Nat}

theorem and_255_toNat (reg : BitVec 32) : (reg &&& 0xFF).toNat = reg.toNat % 256 := by
  rw [BitVec.toNat_and]
  exact Nat.and_two_pow_sub_one_eq_mod reg.toNat 8

/-- Modulo 256 the three computations agree with the place of the entry if the base vanishes there. -/
theorem entry_registers (base : gsiBase.toNat % 256 = 0) (served : Serves gsiBase irq) :
    ((0x10 + (gsiBase + irq * 2)) &&& 0xFF).toNat = entryRegister gsiBase irq ∧
      ((0x11 + (gsiBase + irq * 2)) &&& 0xFF).toNat = entryRegister gsiBase irq + 1 ∧
      ((0x10 + (gsiBase + (irq.setWidth 8).setWidth 32 * 2)) &&& 0xFF).toNat = entryRegister gsiBase irq := by
  obtain ⟨low, high⟩ := served
  have sixteen : (0x10 : BitVec 32).toNat = 16 := rfl
  have seventeen : (0x11 : BitVec 32).toNat = 17 := rfl
  have two : (2 : BitVec 32).toNat = 2 := rfl
  simp only [and_255_toNat, BitVec.toNat_add, BitVec.toNat_mul, BitVec.toNat_setWidth, sixteen, seventeen, two]
  unfold entryRegister
  omega

/-- With any other base some interrupt is given the entry of another. -/
theorem entry_register_iff : (∀ irq, Serves gsiBase irq →
    ((0x10 + (gsiBase + irq * 2)) &&& 0xFF).toNat = entryRegister gsiBase irq) ↔ gsiBase.toNat % 256 = 0 := by
  refine ⟨fun right => ?_, fun base irq served => (entry_registers base served).1⟩
  have first := right gsiBase ⟨le_rfl, by omega⟩
  have sixteen : (0x10 : BitVec 32).toNat = 16 := rfl
  have two : (2 : BitVec 32).toNat = 2 := rfl
  simp only [and_255_toNat, BitVec.toNat_add, BitVec.toNat_mul, sixteen, two] at first
  unfold entryRegister at first
  omega

theorem entryRegister_apart (served : Serves gsiBase irq) (served' : Serves gsiBase irq') (other : irq' ≠ irq) :
    entryRegister gsiBase irq ≠ entryRegister gsiBase irq' ∧ entryRegister gsiBase irq ≠ entryRegister gsiBase irq' + 1 ∧
      entryRegister gsiBase irq + 1 ≠ entryRegister gsiBase irq' := by
  have different : irq'.toNat ≠ irq.toNat := fun same => other (BitVec.eq_of_toNat_eq same)
  unfold Serves at served served'
  unfold entryRegister
  omega

/-! ### The low word -/

/-- The bits of the low word that `map_ioapic` writes. -/
theorem mappedLow_getLsbD (route : Route) (old : BitVec 32) {i : Nat} (bit : i < 32) :
    (mappedLow route.vec route.polarity route.trigger old).getLsbD i = Setting.lowBit ⟨some false, some route⟩ old i := by
  unfold mappedLow
  cases polarity : route.polarity <;> cases trigger : route.trigger <;> interval_cases i <;>
    simp [Setting.lowBit, polarity, trigger]

theorem masked_getLsbD (old : BitVec 32) {i : Nat} (bit : i < 32) :
    (old ||| 0x10000).getLsbD i = if i = 16 then true else old.getLsbD i := by
  interval_cases i <;> simp

theorem unmasked_getLsbD (old : BitVec 32) {i : Nat} (bit : i < 32) :
    (old &&& ~~~0x10000).getLsbD i = if i = 16 then false else old.getLsbD i := by
  interval_cases i <;> simp

/-- A route overrides what was set before, bit by bit. -/
theorem Setting.lowBit_route (route : Route) {old now : BitVec 32} {i : Nat} (bits : now.getLsbD i = s.lowBit old i) :
    Setting.lowBit ⟨some false, some route⟩ now i = Setting.lowBit ⟨some false, some route⟩ old i := by
  unfold Setting.lowBit at bits ⊢
  dsimp only
  split_ifs at bits ⊢ <;> first | rfl | skip
  cases set : s.route <;> simp_all

/-! ### One call -/

theorem mapIoapic_eq (io : Redirections) (base : gsiBase.toNat % 256 = 0) (served : Serves gsiBase irq) (route : Route) :
    (mapIoapic gsiBase route.vec irq route.lapicId route.polarity route.trigger io).regs =
        Function.update (Function.update io.regs (entryRegister gsiBase irq)
          (mappedLow route.vec route.polarity route.trigger (io.regs (entryRegister gsiBase irq))))
          (entryRegister gsiBase irq + 1) (mappedHigh route.lapicId) ∧
      (mapIoapic gsiBase route.vec irq route.lapicId route.polarity route.trigger io).accessed =
        [entryRegister gsiBase irq + 1, entryRegister gsiBase irq, entryRegister gsiBase irq + 1,
          entryRegister gsiBase irq] ++ io.accessed := by
  obtain ⟨first, second, -⟩ := entry_registers base served
  simp only [mapIoapic, writeIoapic, readIoapic, Redirections.index, first, second]
  exact ⟨trivial, rfl⟩

theorem maskIoapic_eq (io : Redirections) (base : gsiBase.toNat % 256 = 0) (served : Serves gsiBase irq) :
    (maskIoapic gsiBase (irq.setWidth 8) io).regs = Function.update io.regs (entryRegister gsiBase irq)
        (io.regs (entryRegister gsiBase irq) ||| 0x10000) ∧
      (maskIoapic gsiBase (irq.setWidth 8) io).accessed =
        [entryRegister gsiBase irq, entryRegister gsiBase irq] ++ io.accessed := by
  obtain ⟨-, -, first⟩ := entry_registers base served
  simp only [maskIoapic, writeIoapic, readIoapic, Redirections.index, first]
  exact ⟨trivial, rfl⟩

theorem unmaskIoapic_eq (io : Redirections) (base : gsiBase.toNat % 256 = 0) (served : Serves gsiBase irq) :
    (unmaskIoapic gsiBase (irq.setWidth 8) io).regs = Function.update io.regs (entryRegister gsiBase irq)
        (io.regs (entryRegister gsiBase irq) &&& ~~~0x10000) ∧
      (unmaskIoapic gsiBase (irq.setWidth 8) io).accessed =
        [entryRegister gsiBase irq, entryRegister gsiBase irq] ++ io.accessed := by
  obtain ⟨-, -, first⟩ := entry_registers base served
  simp only [unmaskIoapic, writeIoapic, readIoapic, Redirections.index, first]
  exact ⟨trivial, rfl⟩

theorem touchesEntry_of_regs {touched : List Nat} {r : Nat} {io io' : Redirections} {low : BitVec 32}
    (regs : (∃ high, io'.regs = Function.update (Function.update io.regs r low) (r + 1) high) ∨
      io'.regs = Function.update io.regs r low)
    (accessed : io'.accessed = touched ++ io.accessed) (inside : ∀ a ∈ touched, a = r ∨ a = r + 1) :
    TouchesEntry r io io' := by
  refine ⟨fun a found => ?_, fun n first second => ?_⟩
  · rw [accessed] at found
    exact (List.mem_append.mp found).symm.imp_right (inside a)
  · rcases regs with ⟨high, both⟩ | one
    · rw [both, Function.update_of_ne second, Function.update_of_ne first]
    · rw [one, Function.update_of_ne first]

theorem touchesEntry (base : gsiBase.toNat % 256 = 0) (call : Routing) (served : Serves gsiBase call.irq)
    (io : Redirections) : TouchesEntry (entryRegister gsiBase call.irq) io (call.run gsiBase io) := by
  cases call with
  | map irq route =>
    obtain ⟨regs, accessed⟩ := mapIoapic_eq io base served route
    exact touchesEntry_of_regs (.inl ⟨_, regs⟩) accessed (by simp [Routing.irq])
  | mask irq =>
    obtain ⟨regs, accessed⟩ := maskIoapic_eq io base served
    exact touchesEntry_of_regs (.inr regs) accessed (by simp [Routing.irq])
  | unmask irq =>
    obtain ⟨regs, accessed⟩ := unmaskIoapic_eq io base served
    exact touchesEntry_of_regs (.inr regs) accessed (by simp [Routing.irq])

theorem Entry.other (entry : Entry (entryRegister gsiBase irq) s start io) (base : gsiBase.toNat % 256 = 0)
    (served : Serves gsiBase irq) (called : Serves gsiBase call.irq) (other : call.irq ≠ irq) :
    Entry (entryRegister gsiBase irq) s start (call.run gsiBase io) := by
  have kept := (touchesEntry base call called io).kept
  obtain ⟨apart, above, below⟩ := entryRegister_apart served called other
  refine ⟨?_, ?_⟩
  · rw [kept _ apart above]
    exact entry.low
  · rw [kept _ below (by omega)]
    exact entry.high

theorem Entry.map (entry : Entry (entryRegister gsiBase irq) s start io) (base : gsiBase.toNat % 256 = 0)
    (served : Serves gsiBase irq) (route : Route) :
    Entry (entryRegister gsiBase irq) ⟨some false, some route⟩ start ((Routing.map irq route).run gsiBase io) := by
  have eq := (mapIoapic_eq io base served route).1
  refine ⟨fun i bit => ?_, ?_⟩
  · rw [Routing.run, eq, Function.update_of_ne (by omega), Function.update_self, mappedLow_getLsbD route _ bit]
    exact Setting.lowBit_route route (entry.low i bit)
  · rw [Routing.run, eq, Function.update_self]
    rfl

theorem Entry.mask (entry : Entry (entryRegister gsiBase irq) s start io) (base : gsiBase.toNat % 256 = 0)
    (served : Serves gsiBase irq) :
    Entry (entryRegister gsiBase irq) { s with masked := some true } start ((Routing.mask irq).run gsiBase io) := by
  have eq := (maskIoapic_eq io base served).1
  refine ⟨fun i bit => ?_, ?_⟩
  · rw [Routing.run, eq, Function.update_self, masked_getLsbD _ bit, entry.low i bit]
    unfold Setting.lowBit
    split <;> rfl
  · rw [Routing.run, eq, Function.update_of_ne (by omega)]
    exact entry.high

theorem Entry.unmask (entry : Entry (entryRegister gsiBase irq) s start io) (base : gsiBase.toNat % 256 = 0)
    (served : Serves gsiBase irq) :
    Entry (entryRegister gsiBase irq) { s with masked := some false } start ((Routing.unmask irq).run gsiBase io) := by
  have eq := (unmaskIoapic_eq io base served).1
  refine ⟨fun i bit => ?_, ?_⟩
  · rw [Routing.run, eq, Function.update_self, unmasked_getLsbD _ bit, entry.low i bit]
    unfold Setting.lowBit
    split <;> rfl
  · rw [Routing.run, eq, Function.update_of_ne (by omega)]
    exact entry.high

theorem Entry.step (entry : Entry (entryRegister gsiBase irq) s start io) (base : gsiBase.toNat % 256 = 0)
    (served : Serves gsiBase irq) (called : Serves gsiBase call.irq) :
    Entry (entryRegister gsiBase irq) (Routing.onto irq s call) start (call.run gsiBase io) := by
  by_cases same : call.irq = irq
  · cases call with
    | map other route =>
      obtain rfl : other = irq := same
      rw [Routing.onto, if_pos rfl]
      exact entry.map base served route
    | mask other =>
      obtain rfl : other = irq := same
      rw [Routing.onto, if_pos rfl]
      exact entry.mask base served
    | unmask other =>
      obtain rfl : other = irq := same
      rw [Routing.onto, if_pos rfl]
      exact entry.unmask base served
  · have untouched : Routing.onto irq s call = s := by
      cases call <;> exact if_neg same
    rw [untouched]
    exact entry.other base served called same

theorem Entry.calls {calls : List Routing} (entry : Entry (entryRegister gsiBase irq) s start io)
    (base : gsiBase.toNat % 256 = 0) (served : Serves gsiBase irq) (called : ∀ call ∈ calls, Serves gsiBase call.irq) :
    Entry (entryRegister gsiBase irq) (calls.foldl (Routing.onto irq) s) start (routings gsiBase calls io) := by
  induction calls generalizing s io with
  | nil => exact entry
  | cons call calls ih =>
    exact ih (entry.step base served (called call (List.mem_cons_self ..))) fun other inside =>
      called other (List.mem_cons_of_mem _ inside)

theorem entry_start (r : Nat) (io : Redirections) : Entry r {} io io := by
  refine ⟨fun i _ => ?_, rfl⟩
  unfold Setting.lowBit
  dsimp only
  split
  next bit => rw [bit]; rfl
  next => rfl

end registers

/-- Where the base is a multiple of 256, each call touches the entry of its interrupt only, and after any calls an entry
is what the calls on its interrupt have set. -/
theorem routings_set_entries (gsiBase : BitVec 32) (base : gsiBase.toNat % 256 = 0) (io : Redirections)
    (calls : List Routing) (called : ∀ call ∈ calls, Serves gsiBase call.irq) :
    (∀ call ∈ calls, ∀ now, TouchesEntry (entryRegister gsiBase call.irq) now (call.run gsiBase now)) ∧
      ∀ irq, Serves gsiBase irq →
        Entry (entryRegister gsiBase irq) (settingAfter irq calls) io (routings gsiBase calls io) :=
  ⟨fun call inside now => touchesEntry base call (called call inside) now,
    fun irq served => (entry_start (entryRegister gsiBase irq) io).calls base served called⟩

/-- Interrupt 33 is routed and masked, interrupt 34 is left alone. -/
theorem routings_set_entries_masked :
    ((routings 0 [.map 33 ⟨33, 1, false, false⟩, .mask 33] { regs := fun _ => 0xFFFFFFFF }).regs 82).getLsbD 16 = true ∧
      (routings 0 [.map 33 ⟨33, 1, false, false⟩, .mask 33] { regs := fun _ => 0xFFFFFFFF }).regs 85 = 0xFFFFFFFF := by
  obtain ⟨-, entries⟩ := routings_set_entries 0 (by decide) { regs := fun _ => 0xFFFFFFFF }
    [.map 33 ⟨33, 1, false, false⟩, .mask 33] (by simp only [Serves]; decide)
  exact ⟨(entries 33 (by unfold Serves; decide)).low 16 (by decide), (entries 34 (by unfold Serves; decide)).high⟩

/-- A delivery mode is not preserved, and with base 24 the entry of interrupt 24 is not the one that is touched. -/
theorem map_clears_delivery_mode :
    ((routings 0 [.map 1 ⟨33, 0, false, false⟩] { regs := fun _ => 0x700 }).regs (entryRegister 0 1)).getLsbD 8 ≠
        (0x700 : BitVec 32).getLsbD 8 ∧
      ¬ TouchesEntry (entryRegister 24 24) { regs := fun _ => 0x700 } ((Routing.mask 24).run 24 { regs := fun _ => 0x700 }) := by
  refine ⟨by decide, fun touches => ?_⟩
  have inside := touches.accessed 88 (by decide)
  revert inside
  decide

end PotatOS.Drivers
