import PotatOS.Lib.Memory

/-!
# A processor for straight-line assembly

Registers, a stack in byte memory and code without backward jumps: a
conditional jump holds the code of its target. Functions called from the code
are parameters. Each page tree has a view of memory of its own; `cr3` names
the active one.
-/

namespace PotatOS.Cpu

open Memory

inductive Reg where
  | rax | rbx | rcx | rdx | rsi | rdi | rbp | r8 | r9 | r10 | r11 | r12 | r13 | r14 | r15
  deriving DecidableEq, Repr

/-- `data` is what the called functions work on. -/
structure State (κ : Type) where
  gpr : Reg → Nat
  rsp : Nat
  rip : Nat
  cs : Nat
  ss : Nat
  rflags : Nat
  carry : Bool
  zero : Bool
  cr3 : Nat
  space : Nat → Mem
  data : κ

variable {κ Fn : Type}

namespace State

def mem (s : State κ) : Mem := s.space s.cr3

def word (s : State κ) (a : Nat) : Nat := load s.mem a 8

def set (s : State κ) (r : Reg) (v : Nat) : State κ :=
  { s with gpr := fun r' => if r' = r then v else s.gpr r' }

def push (s : State κ) (v : Nat) : State κ :=
  { s with
    rsp := s.rsp - 8
    space := fun tree => if tree = s.cr3 then store s.mem (s.rsp - 8) 8 v else s.space tree }

def pop (s : State κ) (r : Reg) : State κ := { s.set r (s.word s.rsp) with rsp := s.rsp + 8 }

/-- The ring that the code segment stands for. -/
def privilege (s : State κ) : Nat := s.cs % 4

/-- `iretq`: the five words of the interrupt frame. -/
def iretq (s : State κ) : State κ :=
  { s with
    rip := s.word s.rsp
    cs := s.word (s.rsp + 8)
    rflags := s.word (s.rsp + 16)
    rsp := s.word (s.rsp + 24)
    ss := s.word (s.rsp + 32) }

def ret (s : State κ) : State κ := { s with rip := s.word s.rsp, rsp := s.rsp + 8 }

end State

/-- A call names the function and the address behind the call. `clear r` is
`xor r, r`. -/
inductive Instr (Fn : Type) where
  | cli
  | cmp (r : Reg) (n : Nat)
  | test (r : Reg)
  | and (r : Reg) (n : Nat)
  | or (r : Reg) (n : Nat)
  | clear (r : Reg)
  | push (r : Reg)
  | pushImm (n : Nat)
  | pop (r : Reg)
  | mov (dest source : Reg)
  | movImm (dest : Reg) (n : Nat)
  | movFromRsp (dest : Reg)
  | movToRsp (source : Reg)
  | movToCr3 (source : Reg)
  | call (f : Fn) (next : Nat)
  | callTable (table : Nat → Fn) (r : Reg) (next : Nat)

inductive Code (Fn : Type) where
  | seq (i : Instr Fn) (rest : Code Fn)
  | jae (target rest : Code Fn)
  | jz (target rest : Code Fn)
  | jnz (target rest : Code Fn)
  | iretq
  | ret

/-- A list of instructions in front of more code. -/
def Code.block (instrs : List (Instr Fn)) (rest : Code Fn) : Code Fn := instrs.foldr .seq rest

section run

variable (ext : Fn → State κ → State κ)

/-- The interrupt flag is bit 9. -/
def Instr.step : Instr Fn → State κ → State κ
  | .cli, s => { s with rflags := s.rflags - (s.rflags &&& 512) }
  | .cmp r n, s => { s with carry := decide (s.gpr r < n), zero := decide (s.gpr r = n) }
  | .test r, s => { s with carry := false, zero := decide (s.gpr r = 0) }
  | .and r n, s => { s.set r (s.gpr r &&& n) with carry := false, zero := decide (s.gpr r &&& n = 0) }
  | .or r n, s => s.set r (s.gpr r ||| n)
  | .clear r, s => s.set r 0
  | .push r, s => s.push (s.gpr r)
  | .pushImm n, s => s.push n
  | .pop r, s => s.pop r
  | .mov dest source, s => s.set dest (s.gpr source)
  | .movImm dest n, s => s.set dest n
  | .movFromRsp dest, s => s.set dest s.rsp
  | .movToRsp source, s => { s with rsp := s.gpr source }
  | .movToCr3 source, s => { s with cr3 := s.gpr source }
  | .call f next, s => ext f (s.push next)
  | .callTable table r next, s => ext (table (s.gpr r)) (s.push next)

/-- The state in which control leaves the code. -/
def Code.run : Code Fn → State κ → State κ
  | .seq i rest, s => rest.run (i.step ext s)
  | .jae target rest, s => if s.carry then rest.run s else target.run s
  | .jz target rest, s => if s.zero then target.run s else rest.run s
  | .jnz target rest, s => if s.zero then rest.run s else target.run s
  | .iretq, s => s.iretq
  | .ret, s => s.ret

/-- The functions called, each with the state it is entered in. -/
def Code.calls : Code Fn → State κ → List (Fn × State κ)
  | .seq i rest, s =>
    let later := rest.calls (i.step ext s)
    match i with
    | .call f next => (f, s.push next) :: later
    | .callTable table r next => (table (s.gpr r), s.push next) :: later
    | _ => later
  | .jae target rest, s => if s.carry then rest.calls s else target.calls s
  | .jz target rest, s => if s.zero then target.calls s else rest.calls s
  | .jnz target rest, s => if s.zero then rest.calls s else target.calls s
  | .iretq, _ => []
  | .ret, _ => []

theorem run_block (instrs : List (Instr Fn)) (rest : Code Fn) (s : State κ) :
    (Code.block instrs rest).run ext s = rest.run ext (instrs.foldl (fun s i => i.step ext s) s) := by
  induction instrs generalizing s with
  | nil => rfl
  | cons i instrs ih => exact ih (i.step ext s)

/-- The instructions of the code, those behind its jumps as well. -/
def Code.instrs : Code Fn → List (Instr Fn)
  | .seq i rest => i :: rest.instrs
  | .jae target rest | .jz target rest | .jnz target rest => target.instrs ++ rest.instrs
  | .iretq | .ret => []

/-- What every instruction keeps and leaving the code keeps, a run keeps. -/
theorem run_keeps {P : State κ → Prop} (code : Code Fn) {s : State κ} (step : ∀ i ∈ code.instrs, ∀ s, P s → P (i.step ext s))
    (leave : ∀ s, P s → P s.iretq ∧ P s.ret) (start : P s) : P (code.run ext s) := by
  induction code generalizing s with
  | seq i rest ih =>
    exact ih (fun j listed => step j (List.mem_cons_of_mem _ listed)) (step i List.mem_cons_self s start)
  | jae target rest there here | jz target rest there here | jnz target rest there here =>
    have first := there (fun j listed => step j (List.mem_append_left _ listed)) start
    have second := here (fun j listed => step j (List.mem_append_right _ listed)) start
    unfold Code.run
    split
    · assumption
    · assumption
  | iretq => exact (leave s start).1
  | ret => exact (leave s start).2

end run

/-! ### The System V calling convention -/

def calleeSaved : List Reg := [.rbx, .rbp, .r12, .r13, .r14, .r15]

/-- A function that returns, entered with its return address on top of the
stack: it pops that address and leaves the stack above it and the callee-saved
registers as they were. -/
structure SysV (body : State κ → State κ) : Prop where
  rsp : ∀ s, (body s).rsp = s.rsp + 8
  saved : ∀ s, ∀ r ∈ calleeSaved, (body s).gpr r = s.gpr r
  cs : ∀ s, (body s).cs = s.cs
  cr3 : ∀ s, (body s).cr3 = s.cr3
  stack : ∀ s x, s.rsp + 8 ≤ x → (body s).mem x = s.mem x

/-! ### Saving and restoring registers -/

def pushAll (regs : List Reg) (s : State κ) : State κ := regs.foldl (fun s r => s.push (s.gpr r)) s

def popAll (regs : List Reg) (s : State κ) : State κ := regs.foldl State.pop s

section stack

variable {s t : State κ} {regs : List Reg}

@[simp] theorem push_mem (s : State κ) (v : Nat) : (s.push v).mem = store s.mem (s.rsp - 8) 8 v := if_pos rfl

@[simp] theorem push_gpr (s : State κ) (v : Nat) : (s.push v).gpr = s.gpr := rfl

@[simp] theorem push_rsp (s : State κ) (v : Nat) : (s.push v).rsp = s.rsp - 8 := rfl

@[simp] theorem pop_mem (s : State κ) (r : Reg) : (s.pop r).mem = s.mem := rfl

@[simp] theorem pop_rsp (s : State κ) (r : Reg) : (s.pop r).rsp = s.rsp + 8 := rfl

@[simp] theorem iretq_mem (s : State κ) : s.iretq.mem = s.mem := by
  unfold State.mem State.iretq
  rfl

theorem pushAll_cons (r : Reg) (regs : List Reg) (s : State κ) :
    pushAll (r :: regs) s = pushAll regs (s.push (s.gpr r)) := rfl

theorem pushAll_kept (regs : List Reg) (s : State κ) :
    (pushAll regs s).gpr = s.gpr ∧ (pushAll regs s).cs = s.cs ∧ (pushAll regs s).cr3 = s.cr3 := by
  induction regs generalizing s with
  | nil => exact ⟨rfl, rfl, rfl⟩
  | cons r regs ih => exact ih (s.push (s.gpr r))

theorem pushAll_rsp (regs : List Reg) (s : State κ) : (pushAll regs s).rsp = s.rsp - 8 * regs.length := by
  induction regs generalizing s with
  | nil => rfl
  | cons r regs ih =>
    rw [pushAll_cons, ih, push_rsp, List.length_cons]
    omega

theorem popAll_mem (regs : List Reg) (s : State κ) :
    (popAll regs s).mem = s.mem ∧ (popAll regs s).cs = s.cs ∧ (popAll regs s).cr3 = s.cr3 := by
  induction regs generalizing s with
  | nil => exact ⟨rfl, rfl, rfl⟩
  | cons r regs ih => exact ih (s.pop r)

theorem popAll_append (regs regs' : List Reg) (s : State κ) :
    popAll (regs ++ regs') s = popAll regs' (popAll regs s) := List.foldl_append

/-- Popping in the opposite order gives back the registers that were pushed,
from any state that kept the stack. -/
theorem popAll_pushAll (regs : List Reg) (room : 8 * regs.length ≤ s.rsp) (small : ∀ r, s.gpr r < 2 ^ 64) (distinct : regs.Nodup)
    (top : t.rsp = (pushAll regs s).rsp) (kept : ∀ x, t.rsp ≤ x → t.mem x = (pushAll regs s).mem x) :
    (popAll regs.reverse t).rsp = s.rsp ∧ (∀ x, s.rsp ≤ x → (popAll regs.reverse t).mem x = s.mem x) ∧
      ∀ r, (popAll regs.reverse t).gpr r = if r ∈ regs then s.gpr r else t.gpr r := by
  induction regs generalizing s with
  | nil => exact ⟨top, fun x above => kept x (by rw [top]; exact above), fun r => rfl⟩
  | cons first rest ih =>
    rw [List.length_cons] at room
    rw [List.nodup_cons] at distinct
    rw [pushAll_cons] at top kept
    have first_rsp : (s.push (s.gpr first)).rsp = s.rsp - 8 := rfl
    obtain ⟨below, memory, others⟩ := ih (s := s.push (s.gpr first)) (by rw [first_rsp]; omega) small distinct.2 top kept
    rw [List.reverse_cons, popAll_append]
    have last : popAll [first] (popAll rest.reverse t) = (popAll rest.reverse t).pop first := rfl
    have popped : (popAll rest.reverse t).word (popAll rest.reverse t).rsp = s.gpr first := by
      rw [State.word, below, first_rsp]
      have same : load (popAll rest.reverse t).mem (s.rsp - 8) 8 = load (s.push (s.gpr first)).mem (s.rsp - 8) 8 :=
        load_congr fun x inside => memory x inside.1
      rw [same, push_mem]
      exact load_store_same (small first)
    rw [last]
    refine ⟨?_, ?_, ?_⟩
    · rw [pop_rsp, below, first_rsp]
      omega
    · intro x above
      rw [pop_mem, memory x (by rw [first_rsp]; omega), push_mem]
      exact store_outside (by unfold InRange; omega)
    · intro r
      show (if r = first then (popAll rest.reverse t).word (popAll rest.reverse t).rsp
        else (popAll rest.reverse t).gpr r) = _
      by_cases same : r = first
      · rw [if_pos same, popped, if_pos (by rw [same]; exact List.mem_cons_self), same]
      · rw [if_neg same, others, push_gpr]
        simp [same]

/-- Popping reads the words from the top of the stack on. -/
theorem popAll_get (distinct : regs.Nodup) : (popAll regs s).rsp = s.rsp + 8 * regs.length ∧
    (∀ (i : Nat) r, regs[i]? = some r → (popAll regs s).gpr r = s.word (s.rsp + 8 * i)) ∧
      ∀ r, r ∉ regs → (popAll regs s).gpr r = s.gpr r := by
  induction regs generalizing s with
  | nil => exact ⟨rfl, fun _ _ found => by simp at found, fun _ _ => rfl⟩
  | cons first rest ih =>
    rw [List.nodup_cons] at distinct
    obtain ⟨top, values, others⟩ := ih (s := s.pop first) distinct.2
    refine ⟨?_, ?_, ?_⟩
    · show (popAll rest (s.pop first)).rsp = _
      rw [top, pop_rsp, List.length_cons]
      omega
    · intro i r found
      show (popAll rest (s.pop first)).gpr r = _
      cases i with
      | zero =>
        obtain rfl := Option.some.inj found
        rw [others _ distinct.1]
        exact if_pos rfl
      | succ i =>
        rw [values i r found, State.word, pop_mem, pop_rsp, State.word, Nat.mul_succ]
        congr 1
        omega
    · intro r absent
      rw [List.mem_cons, not_or] at absent
      show (popAll rest (s.pop first)).gpr r = _
      rw [others r absent.2]
      exact if_neg absent.1

end stack

end PotatOS.Cpu
