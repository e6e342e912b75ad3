import PotatOS.Lib.Memory

/-!
# The stack trace of a panic (`panic.c`)

The kernel is compiled with frame pointers: a call leaves its return address
and the caller's `rbp` on the stack. `stack_trace` follows these records.
-/

namespace PotatOS.Kernel

open Memory

/-- `while (stack)`: the addresses that it prints, if it ends within `fuel` tests. -/
def stackFrom (m : Mem) : Nat → Nat → Option (List Nat)
  | 0, _ => none
  | _ + 1, 0 => some []
  | fuel + 1, stack => (stackFrom m fuel (load m stack 8)).map (load m (stack + 8) 8 :: ·)

def stackTrace (m : Mem) (fuel rbp rip : Nat) : Option (List Nat) := (stackFrom m fuel rbp).map (rip :: ·)

/-! ### Calls with frame pointers -/

/-- Where a call keeps its record, and its return address. -/
structure Record where
  place : Nat
  ret : Nat

structure Machine where
  mem : Mem
  rsp : Nat
  rbp : Nat
  rip : Nat

/-- What compiled code does to its stack, with the records of the calls that
have not returned, the last one first. -/
inductive Step : Machine → List Record → Machine → List Record → Prop where
  /-- `call target`, `push rbp`, `mov rbp, rsp` -/
  | call {m : Machine} {records : List Record} (target next : Nat) (room : 16 < m.rsp) (address : next < 2 ^ 64) :
      Step m records
        { mem := store (store m.mem (m.rsp - 8) 8 next) (m.rsp - 16) 8 m.rbp
          rsp := m.rsp - 16, rbp := m.rsp - 16, rip := target }
        (⟨m.rsp - 16, next⟩ :: records)
  /-- `leave`, `ret` -/
  | ret {m : Machine} {record : Record} {records : List Record} :
      Step m (record :: records)
        { m with rsp := m.rbp + 16, rbp := load m.mem m.rbp 8, rip := load m.mem (m.rbp + 8) 8 } records
  /-- A store, which keeps off the records. -/
  | write {m : Machine} {records : List Record} {x rip : Nat} {v : UInt8}
      (off : ∀ r ∈ records, ¬ InRange r.place 16 x) :
      Step m records { m with mem := Function.update m.mem x v, rip := rip } records
  /-- The stack pointer moves below the records. -/
  | move {m : Machine} {records : List Record} {rsp rip : Nat} (below : ∀ r ∈ records, rsp ≤ r.place)
      (small : rsp < 2 ^ 64) :
      Step m records { m with rsp := rsp, rip := rip } records

inductive Run (start : Machine) (records : List Record) : Machine → List Record → Prop where
  | start : Run start records start records
  | step {m m' : Machine} {active active' : List Record} (before : Run start records m active)
      (next : Step m active m' active') : Run start records m' active'

/-- The records hang together by their saved `rbp`, up to the null pointer. -/
def Chain (m : Mem) : Nat → List Record → Prop
  | rbp, [] => rbp = 0
  | rbp, record :: rest =>
    rbp = record.place ∧ 0 < rbp ∧ load m (rbp + 8) 8 = record.ret ∧ Chain m (load m rbp 8) rest

structure Stacked (m : Machine) (records : List Record) : Prop where
  chain : Chain m.mem m.rbp records
  small : m.rsp < 2 ^ 64
  below : ∀ r ∈ records, m.rsp ≤ r.place ∧ r.place + 16 < 2 ^ 64
  apart : records.Pairwise fun r s => r.place + 16 ≤ s.place

section chain

variable {m m' : Mem} {rbp : Nat} {records : List Record}

theorem chain_congr (chain : Chain m rbp records) (same : ∀ r ∈ records, ∀ x, InRange r.place 16 x → m' x = m x) :
    Chain m' rbp records := by
  induction records generalizing rbp with
  | nil => exact chain
  | cons record rest ih =>
    obtain ⟨here, nonzero, returns, behind⟩ := chain
    have words : ∀ k, k + 8 ≤ 16 → load m' (rbp + k) 8 = load m (rbp + k) 8 := by
      intro k inside
      refine load_congr fun x there => same record List.mem_cons_self x ?_
      unfold InRange at there ⊢
      omega
    refine ⟨here, nonzero, (words 8 (by decide)).trans returns, ?_⟩
    rw [show load m' rbp 8 = load m rbp 8 from words 0 (by decide)]
    exact ih behind fun r listed => same r (List.mem_cons_of_mem _ listed)

/-- The trace of a chain ends, and has the return addresses of its records. -/
theorem stackFrom_chain (chain : Chain m rbp records) {fuel : Nat} (enough : records.length < fuel) :
    stackFrom m fuel rbp = some (records.map Record.ret) := by
  induction records generalizing rbp fuel with
  | nil =>
    obtain ⟨fuel, rfl⟩ := Nat.exists_eq_succ_of_ne_zero (Nat.ne_of_gt enough)
    obtain rfl : rbp = 0 := chain
    rfl
  | cons record rest ih =>
    obtain ⟨_, nonzero, returns, behind⟩ := chain
    obtain ⟨rbp, rfl⟩ := Nat.exists_eq_succ_of_ne_zero nonzero.ne'
    obtain ⟨fuel, rfl⟩ := Nat.exists_eq_succ_of_ne_zero (Nat.ne_of_gt (Nat.zero_lt_of_lt enough))
    rw [stackFrom, ih behind (Nat.lt_of_succ_lt_succ enough), returns]
    · rfl
    · exact Nat.succ_ne_zero rbp

end chain

section runs

variable {m m' start : Machine} {records active active' base : List Record}

theorem Stacked.rbp_small (stacked : Stacked m records) : m.rbp < 2 ^ 64 := by
  cases records with
  | nil =>
    have root : m.rbp = 0 := stacked.chain
    omega
  | cons record rest =>
    have here : m.rbp = record.place := stacked.chain.1
    have top := (stacked.below record List.mem_cons_self).2
    omega

theorem Stacked.step (stacked : Stacked m records) (next : Step m records m' active) : Stacked m' active := by
  cases next with
  | @call _ target next room address =>
    -- The record of the call lies below the others.
    have clear : ∀ r ∈ records, ∀ x, InRange r.place 16 x →
        store (store m.mem (m.rsp - 8) 8 next) (m.rsp - 16) 8 m.rbp x = m.mem x := by
      intro r listed x inside
      have above := stacked.below r listed
      unfold InRange at inside
      rw [store_outside (by unfold InRange; omega), store_outside (by unfold InRange; omega)]
    have top := stacked.small
    refine ⟨⟨rfl, by show 0 < m.rsp - 16; omega, ?_, ?_⟩, by show m.rsp - 16 < _; omega, ?_, ?_⟩
    · have place : m.rsp - 16 + 8 = m.rsp - 8 := by omega
      show load _ (m.rsp - 16 + 8) 8 = next
      rw [place, load_store_apart (by unfold Apart; omega), load_store_same address]
    · show Chain _ (load _ (m.rsp - 16) 8) records
      rw [load_store_same stacked.rbp_small]
      exact chain_congr stacked.chain clear
    · intro r listed
      show m.rsp - 16 ≤ r.place ∧ _
      rcases List.mem_cons.mp listed with rfl | older
      · exact ⟨Nat.le_refl _, by show m.rsp - 16 + 16 < _; omega⟩
      · have above := stacked.below r older
        omega
    · refine List.pairwise_cons.mpr ⟨fun r older => ?_, stacked.apart⟩
      have above := stacked.below r older
      show m.rsp - 16 + 16 ≤ r.place
      omega
  | @ret record =>
    obtain ⟨here, nonzero, returns, behind⟩ := stacked.chain
    obtain ⟨older, apart⟩ := List.pairwise_cons.mp stacked.apart
    have top := stacked.below record List.mem_cons_self
    refine ⟨behind, by show m.rbp + 16 < _; omega, fun r listed => ?_, apart⟩
    have above := older r listed
    have high := stacked.below r (List.mem_cons_of_mem _ listed)
    show m.rbp + 16 ≤ r.place ∧ _
    omega
  | @write _ x rip v off =>
    refine ⟨chain_congr stacked.chain fun r listed y inside => ?_, stacked.small, stacked.below, stacked.apart⟩
    refine Function.update_of_ne ?_ ..
    rintro rfl
    exact off r listed inside
  | move below small =>
    exact ⟨stacked.chain, small, fun r listed => ⟨below r listed, (stacked.below r listed).2⟩, stacked.apart⟩

theorem Run.stacked (run : Run start base m active) (fresh : Stacked start base) : Stacked m active := by
  induction run with
  | start => exact fresh
  | step before next ih => exact ih.step next

/-- At any point of a run the trace ends. It has the current address and behind it, the last call first, where the calls
that have not returned will return to. -/
theorem stackTrace_lists_calls (run : Run start base m active) (fresh : Stacked start base) {fuel : Nat}
    (enough : active.length < fuel) :
    stackTrace m.mem fuel m.rbp m.rip = some (m.rip :: active.map Record.ret) ∧
      ∀ record rest, active = record :: rest → ∃ m', Step m active m' rest ∧ m'.rip = record.ret ∧
        stackTrace m'.mem fuel m'.rbp m'.rip = some (active.map Record.ret) := by
  have stacked := run.stacked fresh
  refine ⟨?_, fun record rest last => ?_⟩
  · rw [stackTrace, stackFrom_chain stacked.chain enough]
    rfl
  · subst last
    obtain ⟨_, _, returns, behind⟩ := stacked.chain
    refine ⟨_, .ret, returns, ?_⟩
    rw [stackTrace, stackFrom_chain behind (Nat.lt_of_succ_lt enough), List.map_cons, ← returns]
    rfl

end runs

/-! ### Two calls -/

def bootMachine : Machine := { mem := fun _ => 0, rsp := 0xFFFFFFFFFFFFF000, rbp := 0, rip := 0xFFFFFFFF80000000 }

theorem bootMachine_stacked : Stacked bootMachine [] := ⟨rfl, by decide, fun _ absent => (by cases absent), List.Pairwise.nil⟩

theorem stackTrace_lists_calls_two : ∃ m active, Run bootMachine [] m active ∧ m.rip = 0xFFFFFFFF80002000 ∧
    stackTrace m.mem 3 m.rbp m.rip = some [0xFFFFFFFF80002000, 0xFFFFFFFF80001010, 0xFFFFFFFF80000010] := by
  have first := Run.step (.start : Run bootMachine [] bootMachine [])
    (Step.call (m := bootMachine) 0xFFFFFFFF80001000 0xFFFFFFFF80000010 (by decide)
    (by decide))
  have second := Run.step first (Step.call 0xFFFFFFFF80002000 0xFFFFFFFF80001010 (by decide) (by decide))
  exact ⟨_, _, second, rfl, (stackTrace_lists_calls second bootMachine_stacked (by decide)).1⟩

end PotatOS.Kernel
