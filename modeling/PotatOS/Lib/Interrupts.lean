import PotatOS.Lib.Cpu

/-!
# Interrupts of the processor

What the processor pushes when it enters a handler through a gate, and what a
handler finds on its stack after pushes of its own.
-/

namespace PotatOS.Cpu

open Memory

/-- The part of a gate that delivery reads. An interrupt gate turns interrupts
off, a trap gate leaves them. -/
structure Gate where
  handler : Nat
  selector : Nat
  masks : Bool

variable {κ : Type}

namespace State

def pushes (s : State κ) (values : List Nat) : State κ := values.foldl push s

/-- The top `n` words of the stack, the last one pushed first. -/
def stack (s : State κ) (n : Nat) : List Nat := (List.range n).map fun i => s.word (s.rsp + 8 * i)

/-- Code of another ring is interrupted on the stack of the task state segment.
Some exceptions push an error code. -/
def interrupt (s : State κ) (gate : Gate) (rsp0 : Nat) (code : Option Nat) : State κ :=
  let top := if s.privilege = 0 then s.rsp else rsp0
  { ({ s with rsp := top - top % 16 }).pushes ([s.ss, s.rsp, s.rflags, s.cs, s.rip] ++ code.toList) with
    rip := gate.handler
    cs := gate.selector
    ss := if s.privilege = 0 then s.ss else 0
    rflags := if gate.masks then s.rflags - (s.rflags &&& 512) else s.rflags }

end State

section stack

variable {s t : State κ} {values : List Nat} {n : Nat}

theorem pushes_append (s : State κ) (first second : List Nat) :
    s.pushes (first ++ second) = (s.pushes first).pushes second := List.foldl_append

theorem pushes_kept (s : State κ) (values : List Nat) :
    (s.pushes values).gpr = s.gpr ∧ (s.pushes values).cs = s.cs ∧ (s.pushes values).cr3 = s.cr3 ∧
      (s.pushes values).data = s.data ∧ (s.pushes values).rsp = s.rsp - 8 * values.length := by
  induction values generalizing s with
  | nil => exact ⟨rfl, rfl, rfl, rfl, rfl⟩
  | cons v values ih =>
    obtain ⟨gpr, cs, cr3, data, rsp⟩ := ih (s.push v)
    refine ⟨gpr, cs, cr3, data, ?_⟩
    show ((s.push v).pushes values).rsp = _
    rw [rsp, push_rsp, List.length_cons]
    omega

theorem pushAll_eq_pushes (regs : List Reg) (s : State κ) : pushAll regs s = s.pushes (regs.map s.gpr) := by
  induction regs generalizing s with
  | nil => rfl
  | cons r regs ih =>
    rw [pushAll_cons, ih]
    rfl

theorem push_above {v x : Nat} (room : 8 ≤ s.rsp) (above : s.rsp ≤ x) : (s.push v).mem x = s.mem x := by
  rw [push_mem]
  exact store_outside (by unfold InRange; omega)

/-- Pushes only write between the new and the old top. -/
theorem pushes_above {x : Nat} (room : 8 * values.length ≤ s.rsp) (above : s.rsp ≤ x) :
    (s.pushes values).mem x = s.mem x := by
  induction values generalizing s with
  | nil => rfl
  | cons v values ih =>
    rw [List.length_cons] at room
    show ((s.push v).pushes values).mem x = _
    rw [ih (by rw [push_rsp]; omega) (by rw [push_rsp]; omega)]
    exact push_above (by omega) above

theorem word_congr {a : Nat} (same : ∀ x, a ≤ x → t.mem x = s.mem x) : t.word a = s.word a :=
  load_congr fun x inside => same x inside.1

/-- What a callee that keeps the stack above it leaves there. -/
theorem stack_congr (top : t.rsp = s.rsp) (same : ∀ x, s.rsp ≤ x → t.mem x = s.mem x) : t.stack n = s.stack n := by
  refine List.map_congr_left fun i _ => ?_
  rw [top]
  exact word_congr fun x above => same x (by omega)

theorem stack_push {v : Nat} (room : 8 ≤ s.rsp) (small : v < 2 ^ 64) : (s.push v).stack (n + 1) = v :: s.stack n := by
  have first : (s.push v).word (s.push v).rsp = v := by
    have fits : v < 256 ^ 8 := small
    rw [State.word, push_mem, push_rsp, load_store_same fits]
  have behind : ∀ i, (s.push v).word ((s.push v).rsp + 8 * (i + 1)) = s.word (s.rsp + 8 * i) := by
    intro i
    have place : (s.push v).rsp + 8 * (i + 1) = s.rsp + 8 * i := by
      rw [push_rsp]
      omega
    rw [place]
    exact word_congr fun x above => push_above room (by omega)
  rw [State.stack, List.range_succ_eq_map, List.map_cons, List.map_map, Nat.mul_zero, Nat.add_zero, first, State.stack]
  exact congrArg _ (List.map_congr_left fun i _ => behind i)

/-- The words that were pushed, and behind them the stack from before. -/
theorem stack_pushes (room : 8 * values.length ≤ s.rsp) (small : ∀ v ∈ values, v < 2 ^ 64) :
    (s.pushes values).stack (values.length + n) = values.reverse ++ s.stack n := by
  induction values generalizing s n with
  | nil => simp [State.pushes]
  | cons v values ih =>
    rw [List.length_cons] at room
    have count : (v :: values).length + n = values.length + (n + 1) := by
      rw [List.length_cons]
      omega
    rw [count, List.reverse_cons, List.append_assoc, List.singleton_append,
      ← stack_push (by omega) (small v List.mem_cons_self)]
    exact ih (by rw [push_rsp]; omega) fun w listed => small w (List.mem_cons_of_mem _ listed)

theorem word_of_stack {i v : Nat} (inside : i < n) (found : (s.stack n)[i]? = some v) : s.word (s.rsp + 8 * i) = v := by
  have there : (s.stack n)[i]? = some (s.word (s.rsp + 8 * i)) := by simp [State.stack, inside]
  exact Option.some.inj (there.symm.trans found)

/-- Behind a return address. -/
theorem word_push {v i : Nat} (room : 8 ≤ s.rsp) : (s.push v).word ((s.push v).rsp + 8 + 8 * i) = s.word (s.rsp + 8 * i) := by
  have place : (s.push v).rsp + 8 + 8 * i = s.rsp + 8 * i := by
    rw [push_rsp]
    omega
  rw [place]
  exact word_congr fun x above => push_above room (by omega)

/-! ### Delivery -/

variable (s) in
/-- A state with words of the machine in the registers that delivery saves. -/
structure Words : Prop where
  rip : s.rip < 2 ^ 64
  cs : s.cs < 2 ^ 64
  rflags : s.rflags < 2 ^ 64
  rsp : s.rsp < 2 ^ 64
  ss : s.ss < 2 ^ 64
  gpr : ∀ r, s.gpr r < 2 ^ 64

/-- The stack that a handler starts on, before the frame. -/
def State.frameTop (s : State κ) (rsp0 : Nat) : Nat :=
  let top := if s.privilege = 0 then s.rsp else rsp0
  top - top % 16

variable (gate : Gate) {rsp0 : Nat} (code : Option Nat)

variable (s) in
/-- The values that delivery pushes. -/
def frameValues : List Nat := [s.ss, s.rsp, s.rflags, s.cs, s.rip] ++ code.toList

theorem length_frameValues : (frameValues s code).length = code.toList.length + 5 := by
  rw [frameValues, List.length_append, Nat.add_comm]
  rfl

/-- Delivery pushes its values, then it only changes where the code goes on. -/
theorem interrupt_pushes (rsp0 : Nat) : ∃ t : State κ, t = ({ s with rsp := s.frameTop rsp0 }).pushes (frameValues s code) ∧
    (s.interrupt gate rsp0 code).gpr = t.gpr ∧ (s.interrupt gate rsp0 code).data = t.data ∧
      (s.interrupt gate rsp0 code).cr3 = t.cr3 ∧ (s.interrupt gate rsp0 code).rsp = t.rsp ∧
        (s.interrupt gate rsp0 code).mem = t.mem := by
  unfold State.interrupt
  exact ⟨_, rfl, rfl, rfl, rfl, rfl, rfl⟩

theorem interrupt_kept (rsp0 : Nat) : (s.interrupt gate rsp0 code).gpr = s.gpr ∧
    (s.interrupt gate rsp0 code).data = s.data ∧ (s.interrupt gate rsp0 code).cr3 = s.cr3 := by
  obtain ⟨t, rfl, gpr, data, cr3, _, _⟩ := interrupt_pushes (s := s) gate code rsp0
  obtain ⟨gpr', _, cr3', data', _⟩ := pushes_kept { s with rsp := s.frameTop rsp0 } (frameValues s code)
  exact ⟨gpr.trans gpr', data.trans data', cr3.trans cr3'⟩

theorem interrupt_rsp (rsp0 : Nat) :
    (s.interrupt gate rsp0 code).rsp = s.frameTop rsp0 - 8 * (code.toList.length + 5) := by
  obtain ⟨t, rfl, _, _, _, rsp, _⟩ := interrupt_pushes (s := s) gate code rsp0
  rw [rsp, (pushes_kept _ _).2.2.2.2, length_frameValues]

/-- The interrupt frame, with the error code on top if there is one. -/
theorem interrupt_stack (words : Words s) (small : ∀ c ∈ code, c < 2 ^ 64) (room : 48 ≤ s.frameTop rsp0) :
    (s.interrupt gate rsp0 code).stack (code.toList.length + 5) = code.toList ++ [s.rip, s.cs, s.rflags, s.rsp, s.ss] := by
  have values : ∀ v ∈ frameValues s code, v < 2 ^ 64 := by
    intro v listed
    simp only [frameValues, List.mem_append, List.mem_cons, List.not_mem_nil, or_false, Option.mem_toList] at listed
    rcases listed with (rfl | rfl | rfl | rfl | rfl) | coded
    · exact words.ss
    · exact words.rsp
    · exact words.rflags
    · exact words.cs
    · exact words.rip
    · exact small v coded
  have short : code.toList.length ≤ 1 := by cases code <;> simp
  have length : (frameValues s code).length = code.toList.length + 5 := length_frameValues code
  obtain ⟨t, pushed, _, _, _, rsp, mem⟩ := interrupt_pushes (s := s) gate code rsp0
  have stack : t.stack ((frameValues s code).length + 0) = (frameValues s code).reverse ++ [] := by
    rw [pushed, stack_pushes (by rw [length]; show _ ≤ s.frameTop rsp0; omega) values]
    rfl
  rw [stack_congr rsp fun x _ => congrFun mem x, ← length, ← Nat.add_zero (frameValues s code).length, stack]
  cases code <;> rfl

theorem interrupt_above {x : Nat} (room : 48 ≤ s.frameTop rsp0) (above : s.frameTop rsp0 ≤ x) :
    (s.interrupt gate rsp0 code).mem x = s.mem x := by
  have short : code.toList.length ≤ 1 := by cases code <;> simp
  have length : (frameValues s code).length = code.toList.length + 5 := length_frameValues code
  obtain ⟨t, rfl, _, _, _, _, mem⟩ := interrupt_pushes (s := s) gate code rsp0
  rw [mem, pushes_above (by rw [length]; show _ ≤ s.frameTop rsp0; omega) above]
  rfl

theorem iretq_kept (t : State κ) : t.iretq.gpr = t.gpr ∧ t.iretq.cr3 = t.cr3 ∧ t.iretq.data = t.data := by
  unfold State.iretq
  exact ⟨rfl, rfl, rfl⟩

theorem iretq_of_stack {rip cs rflags rsp ss : Nat} (frame : t.stack 5 = [rip, cs, rflags, rsp, ss]) :
    t.iretq.rip = rip ∧ t.iretq.cs = cs ∧ t.iretq.rflags = rflags ∧ t.iretq.rsp = rsp ∧ t.iretq.ss = ss := by
  have words : ∀ i v, [rip, cs, rflags, rsp, ss][i]? = some v → t.word (t.rsp + 8 * i) = v := by
    intro i v found
    have inside := (List.getElem?_eq_some_iff.mp found).1
    refine word_of_stack (n := 5) inside ?_
    rw [frame]
    exact found
  exact ⟨words 0 _ rfl, words 1 _ rfl, words 2 _ rfl, words 3 _ rfl, words 4 _ rfl⟩

end stack

end PotatOS.Cpu
