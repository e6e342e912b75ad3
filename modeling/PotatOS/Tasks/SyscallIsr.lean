import PotatOS.Lib.Cpu

/-!
# System call entry (`syscall_handler.asm`, `libc/impl/syscalls.c`)

`syscallIsr` is the interrupt handler instruction by instruction. The handlers
it calls are parameters that follow the System V convention. The wrappers of
libc put their arguments into the registers that their inline assembly names.
-/

namespace PotatOS.Tasks

open Memory Cpu

inductive Syscall where
  | read | write | open | close | spawn | getCwd | poll | peek | getErrno | exit | mmap
  /-- `syscall_invalid`, which is not in the table. -/
  | invalid
  deriving DecidableEq, Repr

def syscallLookup : List Syscall :=
  [.read, .write, .open, .close, .spawn, .getCwd, .poll, .peek, .getErrno, .exit, .mmap]

/-- `[syscall_lookup + rax * 8]`. -/
def syscallEntry (rax : Nat) : Syscall := syscallLookup.getD rax .invalid

/-- In the order of the pushes. -/
def savedRegs : List Reg :=
  [.rbx, .rcx, .rdx, .rsi, .rdi, .rbp, .r8, .r9, .r10, .r11, .r12, .r13, .r14, .r15]

section isr

-- The addresses behind the two calls.
variable (afterCall afterInvalid : Nat)

def invalidSyscall : Code Syscall := .seq (.call .invalid afterInvalid) .ret

def syscallIsr : Code Syscall :=
  .seq .cli <| .seq (.cmp .rax syscallLookup.length) <| .jae (invalidSyscall afterInvalid) <|
    .block (savedRegs.map .push) <| .seq (.callTable syscallEntry .rax afterCall) <|
      .block (savedRegs.reverse.map .pop) .iretq

end isr

section correct

variable {κ : Type} {ext : Syscall → State κ → State κ} {entry : State κ} {afterCall afterInvalid : Nat}

/-- Back in ring 3 with the interrupt frame that `entry` had on its stack, and
with the registers of `entry` except for the result. -/
structure ResumesUser (entry exit : State κ) : Prop where
  ring : exit.privilege = 3
  rip : exit.rip = entry.word entry.rsp
  cs : exit.cs = entry.word (entry.rsp + 8)
  rflags : exit.rflags = entry.word (entry.rsp + 16)
  rsp : exit.rsp = entry.word (entry.rsp + 24)
  ss : exit.ss = entry.word (entry.rsp + 32)
  gpr : ∀ r, r ≠ .rax → exit.gpr r = entry.gpr r

theorem foldl_push (regs : List Reg) (s : State κ) :
    (regs.map Instr.push).foldl (fun s i => i.step ext s) s = pushAll regs s := List.foldl_map

theorem foldl_pop (regs : List Reg) (s : State κ) :
    (regs.map Instr.pop).foldl (fun s i => i.step ext s) s = popAll regs s := List.foldl_map

/-- The state after `cli` and `cmp`. -/
def checkedState (entry : State κ) : State κ :=
  { entry with
    rflags := entry.rflags - (entry.rflags &&& 512)
    carry := decide (entry.gpr .rax < 11)
    zero := decide (entry.gpr .rax = 11) }

theorem run_valid (valid : entry.gpr .rax < 11) : (syscallIsr afterCall afterInvalid).run ext entry =
    (popAll savedRegs.reverse (ext (syscallEntry (entry.gpr .rax))
      ((pushAll savedRegs (checkedState entry)).push afterCall))).iretq := by
  have carry : (checkedState entry).carry = true := decide_eq_true valid
  have jump : (syscallIsr afterCall afterInvalid).run ext entry = if (checkedState entry).carry then
      (Code.block (savedRegs.map .push) (.seq (.callTable syscallEntry .rax afterCall)
        (.block (savedRegs.reverse.map .pop) .iretq))).run ext (checkedState entry)
      else (invalidSyscall afterInvalid).run ext (checkedState entry) := rfl
  rw [jump, if_pos carry, run_block, foldl_push]
  have call : ∀ (s : State κ) (rest : Code Syscall), (Code.seq (.callTable syscallEntry .rax afterCall) rest).run ext s =
      rest.run ext (ext (syscallEntry (s.gpr .rax)) (s.push afterCall)) := fun _ _ => rfl
  rw [call, run_block, foldl_pop, (pushAll_kept _ _).1]
  rfl

theorem run_invalid (invalid : ¬ entry.gpr .rax < 11) : (syscallIsr afterCall afterInvalid).run ext entry =
    (ext .invalid ((checkedState entry).push afterInvalid)).ret := by
  have carry : ¬ (checkedState entry).carry = true := fun yes => invalid (of_decide_eq_true yes)
  have jump : (syscallIsr afterCall afterInvalid).run ext entry = if (checkedState entry).carry then
      (Code.block (savedRegs.map .push) (.seq (.callTable syscallEntry .rax afterCall)
        (.block (savedRegs.reverse.map .pop) .iretq))).run ext (checkedState entry)
      else (invalidSyscall afterInvalid).run ext (checkedState entry) := rfl
  rw [jump, if_neg carry]
  rfl

theorem savedRegs_nodup : savedRegs.Nodup := by decide

theorem mem_savedRegs {r : Reg} (other : r ≠ .rax) : r ∈ savedRegs := by
  cases r <;> first | exact (other rfl).elim | decide

/-- A call through the table comes back to the user. -/
theorem resumes_of_valid (convention : ∀ f, SysV (ext f)) (room : 128 ≤ entry.rsp)
    (small : ∀ r, entry.gpr r < 2 ^ 64) (user : entry.word (entry.rsp + 8) % 4 = 3) (valid : entry.gpr .rax < 11) :
    ResumesUser entry ((syscallIsr afterCall afterInvalid).run ext entry) := by
  rw [run_valid valid]
  have stack : (checkedState entry).rsp = entry.rsp ∧ (checkedState entry).mem = entry.mem ∧
      (checkedState entry).gpr = entry.gpr := ⟨rfl, rfl, rfl⟩
  generalize checkedState entry = checked at *
  have depth : (pushAll savedRegs checked).rsp = checked.rsp - 112 := pushAll_rsp savedRegs checked
  generalize handled : ext (syscallEntry (entry.gpr .rax)) ((pushAll savedRegs checked).push afterCall) = after
  have top : after.rsp = (pushAll savedRegs checked).rsp := by
    rw [← handled, (convention _).rsp, push_rsp]
    omega
  have kept : ∀ x, after.rsp ≤ x → after.mem x = (pushAll savedRegs checked).mem x := by
    intro x above
    rw [← handled, (convention _).stack _ _ (by rw [push_rsp]; omega), push_mem]
    exact store_outside (by unfold InRange; omega)
  obtain ⟨restored, memory, registers⟩ := popAll_pushAll (s := checked) (t := after) savedRegs
    (by show 112 ≤ checked.rsp; omega) (by rw [stack.2.2]; exact small) savedRegs_nodup top kept
  generalize popAll savedRegs.reverse after = last at *
  have frame : ∀ a, entry.rsp ≤ a → last.word a = entry.word a := by
    intro a above
    unfold State.word
    refine load_congr fun x inside => ?_
    rw [memory x (by have := inside.1; omega), stack.2.1]
  rw [stack.1] at restored
  refine ⟨?_, ?_, ?_, ?_, ?_, ?_, ?_⟩
  · show last.word (last.rsp + 8) % 4 = 3
    rw [restored, frame _ (by omega)]
    exact user
  · show last.word last.rsp = _
    rw [restored, frame _ (by omega)]
  · show last.word (last.rsp + 8) = _
    rw [restored, frame _ (by omega)]
  · show last.word (last.rsp + 16) = _
    rw [restored, frame _ (by omega)]
  · show last.word (last.rsp + 24) = _
    rw [restored, frame _ (by omega)]
  · show last.word (last.rsp + 32) = _
    rw [restored, frame _ (by omega)]
  · intro r other
    show last.gpr r = _
    rw [registers, if_pos (mem_savedRegs other), stack.2.2]

theorem stays_of_invalid (convention : ∀ f, SysV (ext f)) (kernel : entry.privilege = 0)
    (invalid : ¬ entry.gpr .rax < 11) : ((syscallIsr afterCall afterInvalid).run ext entry).privilege = 0 := by
  rw [run_invalid invalid]
  unfold State.privilege State.ret
  rw [(convention _).cs]
  exact kernel

/-- `syscall_isr` comes back to the user exactly for the numbers in the table. -/
theorem syscallIsr_resumes_iff (convention : ∀ f, SysV (ext f)) (room : 128 ≤ entry.rsp)
    (small : ∀ r, entry.gpr r < 2 ^ 64) (kernel : entry.privilege = 0)
    (user : entry.word (entry.rsp + 8) % 4 = 3) :
    ResumesUser entry ((syscallIsr afterCall afterInvalid).run ext entry) ↔ entry.gpr .rax < 11 := by
  constructor
  · intro resumes
    by_contra invalid
    have ring := resumes.ring
    rw [stays_of_invalid convention kernel invalid] at ring
    cases ring
  · exact resumes_of_valid convention room small user

end correct

/-! ### One entry -/

/-- Handlers that return at once. -/
def returning (_ : Syscall) (s : State Unit) : State Unit := { s with rsp := s.rsp + 8 }

theorem returning_sysV (f : Syscall) : SysV (returning f) :=
  ⟨fun _ => rfl, fun _ _ _ => rfl, fun _ => rfl, fun _ => rfl, fun _ _ _ => rfl⟩

/-- The state at `int 0x80` in a program at `0x400000`, on top of the kernel stack. -/
def userEntry (rax : Nat) : State Unit :=
  let frame := 0xFFFFFFFFFFFFEFD8
  { gpr := fun r => if r = .rax then rax else 7
    rsp := frame, rip := 0xFFFFFFFF80001000, cs := 0x08, ss := 0, rflags := 0x202, carry := false, zero := false
    cr3 := 0
    space := fun _ => store (store (store (store (store (fun _ => 0) frame 8 0x400000) (frame + 8) 8 0x1B)
      (frame + 16) 8 0x202) (frame + 24) 8 0x6FFFFFFFFFF8) (frame + 32) 8 0x23
    data := () }

theorem userEntry_small {rax : Nat} (small : rax < 2 ^ 64) (r : Reg) : (userEntry rax).gpr r < 2 ^ 64 := by
  show (if r = .rax then rax else 7) < 2 ^ 64
  split
  · exact small
  · decide

theorem syscallIsr_resumes_poll : (userEntry 6).gpr .rax < 11 ∧
    ResumesUser (userEntry 6) ((syscallIsr 0 0).run returning (userEntry 6)) :=
  ⟨by decide, (syscallIsr_resumes_iff returning_sysV (by decide) (userEntry_small (by decide)) rfl
    (by decide +kernel)).mpr (by decide)⟩

/-- After an unknown system call the user's code runs in ring 0. -/
theorem syscallIsr_keeps_ring0 : ¬ ResumesUser (userEntry 11) ((syscallIsr 0 0).run returning (userEntry 11)) := by
  intro resumes
  have ring := resumes.ring
  rw [stays_of_invalid returning_sysV rfl (by decide)] at ring
  cases ring

/-! ### The wrappers of libc -/

/-- The registers after inline assembly loaded its inputs. The compiler leaves
what it likes in the others. -/
def loadInputs (inputs : List (Reg × Nat)) (regs : Reg → Nat) : Reg → Nat :=
  fun r => (inputs.lookup r).getD (regs r)

/-- The registers of the constraints `"D"`, `"S"`, `"d"` and of the register
variables `r10`, `r8` and `r9`. -/
def libcRegs : List Reg := [.rdi, .rsi, .rdx, .r10, .r8, .r9]

def libcSyscall (n : Nat) (args : List Nat) : (Reg → Nat) → Reg → Nat :=
  loadInputs ((.rax, n) :: libcRegs.zip args)

def syscall0 (n : Nat) := libcSyscall n []
def syscall1 (n a1 : Nat) := libcSyscall n [a1]
def syscall2 (n a1 a2 : Nat) := libcSyscall n [a1, a2]
def syscall3 (n a1 a2 a3 : Nat) := libcSyscall n [a1, a2, a3]
def syscall4 (n a1 a2 a3 a4 : Nat) := libcSyscall n [a1, a2, a3, a4]
def syscall5 (n a1 a2 a3 a4 a5 : Nat) := libcSyscall n [a1, a2, a3, a4, a5]
def syscall6 (n a1 a2 a3 a4 a5 a6 : Nat) := libcSyscall n [a1, a2, a3, a4, a5, a6]

/-- The registers in which a C function finds its parameters. -/
def sysVParams : List Reg := [.rdi, .rsi, .rdx, .rcx, .r8, .r9]

section abi

variable {κ : Type} {ext : Syscall → State κ → State κ} {entry : State κ} {afterCall afterInvalid : Nat}

theorem calls_push (regs : List Reg) (rest : Code Syscall) (s : State κ) :
    (Code.block (regs.map .push) rest).calls ext s = rest.calls ext (pushAll regs s) := by
  induction regs generalizing s with
  | nil => rfl
  | cons r regs ih => exact ih (s.push (s.gpr r))

theorem calls_pop (regs : List Reg) (rest : Code Syscall) (s : State κ) :
    (Code.block (regs.map .pop) rest).calls ext s = rest.calls ext (popAll regs s) := by
  induction regs generalizing s with
  | nil => rfl
  | cons r regs ih => exact ih (s.pop r)

/-- One handler is called, with the registers of the user. -/
theorem calls_valid (valid : entry.gpr .rax < 11) : (syscallIsr afterCall afterInvalid).calls ext entry =
    [(syscallEntry (entry.gpr .rax), (pushAll savedRegs (checkedState entry)).push afterCall)] := by
  have carry : (checkedState entry).carry = true := decide_eq_true valid
  have jump : (syscallIsr afterCall afterInvalid).calls ext entry = if (checkedState entry).carry then
      (Code.block (savedRegs.map .push) (.seq (.callTable syscallEntry .rax afterCall)
        (.block (savedRegs.reverse.map .pop) .iretq))).calls ext (checkedState entry)
      else (invalidSyscall afterInvalid).calls ext (checkedState entry) := rfl
  have call : ∀ (s : State κ) (rest : Code Syscall),
      (Code.seq (.callTable syscallEntry .rax afterCall) rest).calls ext s =
        (syscallEntry (s.gpr .rax), s.push afterCall) ::
          rest.calls ext (ext (syscallEntry (s.gpr .rax)) (s.push afterCall)) := fun _ _ => rfl
  rw [jump, if_pos carry, calls_push, call, calls_pop, (pushAll_kept _ _).1]
  rfl

/-- The handler of number `n` is entered once, with the arguments as its parameters. -/
def EntersHandler (calls : List (Syscall × State κ)) (n : Nat) (args : List Nat) : Prop :=
  ∃ s, calls = [(syscallEntry n, s)] ∧
    ∀ k a : Nat, args[k]? = some a → ∃ r, sysVParams[k]? = some r ∧ s.gpr r = a

theorem libcSyscall_get {n k a : Nat} {args : List Nat} {r : Reg} {regs : Reg → Nat} (arg : args[k]? = some a)
    (place : libcRegs[k]? = some r) : libcSyscall n args regs r = a := by
  match k, args, arg with
  | 0, _ :: _, arg => obtain rfl := Option.some.inj arg; obtain rfl := Option.some.inj place; rfl
  | 1, _ :: _ :: _, arg => obtain rfl := Option.some.inj arg; obtain rfl := Option.some.inj place; rfl
  | 2, _ :: _ :: _ :: _, arg => obtain rfl := Option.some.inj arg; obtain rfl := Option.some.inj place; rfl
  | 3, _ :: _ :: _ :: _ :: _, arg => obtain rfl := Option.some.inj arg; obtain rfl := Option.some.inj place; rfl
  | 4, _ :: _ :: _ :: _ :: _ :: _, arg => obtain rfl := Option.some.inj arg; obtain rfl := Option.some.inj place; rfl
  | 5, _ :: _ :: _ :: _ :: _ :: _ :: _, arg =>
    obtain rfl := Option.some.inj arg; obtain rfl := Option.some.inj place; rfl
  | k + 6, _, _ => cases place

/-- No wrapper loads `rcx`. -/
theorem libcSyscall_rcx (n : Nat) (args : List Nat) (regs : Reg → Nat) : libcSyscall n args regs .rcx = regs .rcx := by
  have absent : ((.rax, n) :: libcRegs.zip args).lookup .rcx = none := by
    rw [List.lookup_eq_none_iff]
    intro pair listed
    rcases List.mem_cons.mp listed with rfl | inside
    · rfl
    · have known := (List.of_mem_zip (a := pair.1) (b := pair.2) inside).1
      revert known
      cases pair.1 <;> decide
  rw [libcSyscall, loadInputs, absent]
  rfl

/-- The handler gets what the wrapper was given exactly when there is no fourth
argument or `rcx` happened to hold it. -/
theorem entersHandler_iff {n : Nat} {args : List Nat} {regs : Reg → Nat} (known : n < 11) (count : args.length ≤ 6)
    (loaded : entry.gpr = libcSyscall n args regs) :
    EntersHandler ((syscallIsr afterCall afterInvalid).calls ext entry) n args ↔
      args.length ≤ 3 ∨ args[3]? = some (regs .rcx) := by
  have number : entry.gpr .rax = n := by
    rw [loaded]
    rfl
  have calls : (syscallIsr afterCall afterInvalid).calls ext entry =
      [(syscallEntry (entry.gpr .rax), (pushAll savedRegs (checkedState entry)).push afterCall)] := calls_valid (by omega)
  rw [number] at calls
  have registers : ((pushAll savedRegs (checkedState entry)).push afterCall).gpr = libcSyscall n args regs := by
    rw [push_gpr, (pushAll_kept _ _).1, ← loaded]
    rfl
  constructor
  · rintro ⟨s, only, params⟩
    rw [calls] at only
    obtain ⟨rfl⟩ := (Prod.mk.inj (List.cons.inj only).1).2
    cases fourth : args[3]? with
    | none => exact .inl (List.getElem?_eq_none_iff.mp fourth)
    | some a =>
      obtain ⟨r, place, value⟩ := params 3 a fourth
      obtain rfl := Option.some.inj place
      rw [registers, libcSyscall_rcx] at value
      exact .inr (congrArg some value.symm)
  · intro condition
    refine ⟨_, calls, fun k a arg => ?_⟩
    rw [registers]
    by_cases fourth : k = 3
    · subst k
      rcases condition with short | same
      · rw [List.getElem?_eq_none_iff.mpr short] at arg
        cases arg
      · refine ⟨.rcx, rfl, ?_⟩
        rw [libcSyscall_rcx]
        exact Option.some.inj (same.symm.trans arg)
    · have inside := (List.getElem?_eq_some_iff.mp arg).1
      have six : k < 6 := by omega
      have place : libcRegs[k]? = sysVParams[k]? := by
        match k, six, fourth with
        | 0, _, _ | 1, _, _ | 2, _, _ | 4, _, _ | 5, _, _ => rfl
      have there : k < libcRegs.length := six
      exact ⟨libcRegs[k], by rw [← place]; exact List.getElem?_eq_getElem there,
        libcSyscall_get arg (List.getElem?_eq_getElem there)⟩

end abi

/-- The state at `int 0x80` in `syscall6`, with `rcx` as the compiler left it. -/
def mmapEntry (rcx : Nat) : State Unit :=
  { userEntry 10 with gpr := syscall6 10 0 4096 3 0x22 5 0 fun r => if r = .rcx then rcx else 0 }

theorem entersHandler_mmap_lucky :
    EntersHandler ((syscallIsr 0 0).calls returning (mmapEntry 0x22)) 10 [0, 4096, 3, 0x22, 5, 0] :=
  (entersHandler_iff (by decide) (by decide) rfl).mpr (.inr rfl)

/-- `mmap` finds the compiler's `rcx` in the place of its flags. -/
theorem mmap_misses_flags :
    ¬ EntersHandler ((syscallIsr 0 0).calls returning (mmapEntry 3)) 10 [0, 4096, 3, 0x22, 5, 0] := by
  rintro ⟨s, only, params⟩
  obtain ⟨r, place, value⟩ := params 3 0x22 rfl
  obtain rfl := Option.some.inj place
  rw [calls_valid (by decide)] at only
  obtain ⟨rfl⟩ := (Prod.mk.inj (List.cons.inj only).1).2
  rw [push_gpr, (pushAll_kept _ _).1] at value
  exact absurd value (by decide)

end PotatOS.Tasks
