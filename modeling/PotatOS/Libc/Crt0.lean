import PotatOS.Lib.Interrupts
import PotatOS.Tasks.FirstEntry
import PotatOS.Tasks.SyscallIsr

/-!
# The start of a program (`crt0.asm`)

`_start` finds the arguments where the first switch to the task left them,
calls `main` with them and hands the result to the exit system call.
-/

namespace PotatOS.Libc

open Memory Cpu Tasks

inductive StartFn where
  | initLibc | main

/-- `_start` up to its `int 0x80`. -/
def start (next : StartFn → Nat) : List (Instr StartFn) :=
  [.push .rdi, .push .rsi, .call .initLibc (next .initLibc), .pop .rsi, .pop .rdi,
    .call .main (next .main), .mov .rdi .rax, .movImm .rax 9]

section start

variable {κ : Type} (main : State κ → State κ) (next : StartFn → Nat)

/-- `init_libc` is a stub. -/
def startFn : StartFn → State κ → State κ
  | .initLibc, s => s.ret
  | .main, s => main s

def runStart (s : State κ) : State κ := (start next).foldl (fun s i => i.step (startFn main) s) s

/-- The state in which `main` is entered. -/
def mainEntry (s : State κ) : State κ :=
  (((((s.push (s.gpr .rdi)).push (s.gpr .rsi)).push (next .initLibc)).ret.pop .rsi).pop .rdi).push (next .main)

/-- One call of `main`, behind the one of `init_libc`. -/
theorem start_calls (s : State κ) (rest : Code StartFn) : ∃ m, (Code.block (start next) rest).calls (startFn main) s =
    (.initLibc, m) :: (.main, mainEntry next s) :: rest.calls (startFn main) (runStart main next s) :=
  ⟨_, rfl⟩

variable {s : State κ}

/-- The arguments survive `init_libc` on the stack. -/
theorem mainEntry_args (room : 24 ≤ s.rsp) (argc : s.gpr .rdi < 2 ^ 64) (argv : s.gpr .rsi < 2 ^ 64) :
    (mainEntry next s).gpr .rdi = s.gpr .rdi ∧ (mainEntry next s).gpr .rsi = s.gpr .rsi ∧
      (mainEntry next s).rsp = s.rsp - 8 ∧ (mainEntry next s).cr3 = s.cr3 := by
  generalize pushed : (s.push (s.gpr .rdi)).push (s.gpr .rsi) = t
  have rsp : t.rsp = s.rsp - 16 := by
    subst t
    rw [push_rsp, push_rsp]
    omega
  have mem : t.mem = store (store s.mem (s.rsp - 8) 8 (s.gpr .rdi)) (s.rsp - 16) 8 (s.gpr .rsi) := by
    subst t
    rw [push_mem, push_mem, push_rsp]
    rfl
  have called : (t.push (next .initLibc)).ret.rsp = s.rsp - 16 := by
    show (t.push (next .initLibc)).rsp + 8 = _
    rw [push_rsp]
    omega
  have same : (t.push (next .initLibc)).ret.mem = store t.mem (s.rsp - 24) 8 (next .initLibc) := by
    have depth : t.rsp - 8 = s.rsp - 24 := by omega
    show (t.push (next .initLibc)).mem = _
    rw [push_mem, depth]
  have second : (t.push (next .initLibc)).ret.word (s.rsp - 16) = s.gpr .rsi := by
    rw [State.word, same, load_store_apart (by unfold Apart; omega), mem, load_store_same argv]
  have first : (t.push (next .initLibc)).ret.word (s.rsp - 16 + 8) = s.gpr .rdi := by
    have place : s.rsp - 16 + 8 = s.rsp - 8 := by omega
    rw [State.word, same, place, load_store_apart (by unfold Apart; omega), mem,
      load_store_apart (by unfold Apart; omega), load_store_same argc]
  have entry : mainEntry next s = (((t.push (next .initLibc)).ret.pop .rsi).pop .rdi).push (next .main) := by
    rw [← pushed]
    rfl
  have kept : t.cr3 = s.cr3 := by
    subst t
    rfl
  rw [entry]
  have tree : (t.push (next .initLibc)).ret.cr3 = s.cr3 := kept
  generalize (t.push (next .initLibc)).ret = u at called second first tree
  refine ⟨?_, ?_, ?_, tree⟩
  · show (u.pop .rsi).word (u.pop .rsi).rsp = _
    rw [State.word, pop_mem, pop_rsp, called]
    exact first
  · show u.word u.rsp = _
    rw [called, second]
  · rw [push_rsp, pop_rsp, pop_rsp, called]
    omega

end start

/-- `main` as `_start` enters it in this task. -/
structure EntersMain (task : Task) (m : State SwitchData) : Prop where
  argc : m.gpr .rdi = task.argc
  argv : m.gpr .rsi = task.argv
  cr3 : m.cr3 = task.pml4Addr
  /-- The calling convention wants 8. -/
  misaligned : m.rsp % 16 = 0

/-- A new task runs `main` once, with its own arguments, and then enters the
handler of exit with what `main` returned. -/
theorem start_exits_with_result (main : State SwitchData → State SwitchData) (next : StartFn → Nat) {task : Task}
    {s : State SwitchData} (enters : EntersProgram task s) (argc : task.argc < 2 ^ 64) (argv : task.argv < 2 ^ 64) :
    ∃ m, EntersMain task m ∧
      (∀ rest, ∃ stub, (Code.block (start next) rest).calls (startFn main) s =
        (.initLibc, stub) :: (.main, m) :: rest.calls (startFn main) (runStart main next s)) ∧
      ∀ (ext : Syscall → State SwitchData → State SwitchData) gate rsp0 afterCall afterInvalid,
        EntersHandler ((syscallIsr afterCall afterInvalid).calls ext
          ((runStart main next s).interrupt gate rsp0 none)) 9 [(main m).gpr .rax] := by
  have top : s.rsp = firstRsp := enters.rsp
  obtain ⟨first, second, rsp, cr3⟩ := mainEntry_args next (s := s) (by rw [top]; decide)
    (by rw [enters.argc]; exact argc) (by rw [enters.argv]; exact argv)
  refine ⟨mainEntry next s, ⟨first.trans enters.argc, second.trans enters.argv, cr3.trans enters.cr3, ?_⟩, ?_, ?_⟩
  · rw [rsp, top]
    rfl
  · exact start_calls main next s
  · intro ext gate rsp0 afterCall afterInvalid
    have regs := (interrupt_kept (s := runStart main next s) gate none rsp0).1
    have number : (runStart main next s).gpr .rax = 9 := rfl
    have status : (runStart main next s).gpr .rdi = (main (mainEntry next s)).gpr .rax := rfl
    generalize (runStart main next s).interrupt gate rsp0 none = k at regs
    rw [← regs] at number status
    have calls : (syscallIsr afterCall afterInvalid).calls ext k = _ := calls_valid (by rw [number]; decide)
    rw [number] at calls
    refine ⟨_, calls, fun i a found => ?_⟩
    obtain ⟨rfl, rfl⟩ : i = 0 ∧ a = (main (mainEntry next s)).gpr .rax := by
      match i, found with
      | 0, found => exact ⟨rfl, (Option.some.inj found).symm⟩
    refine ⟨.rdi, rfl, ?_⟩
    rw [push_gpr, (pushAll_kept _ _).1, ← status]
    rfl

def startedProgram : State SwitchData :=
  { gpr := fun r => if r = .rdi then 2 else if r = .rsi then 0x700000001004 else 0
    rsp := firstRsp, rip := 0x400000, cs := userCs, ss := userSs, rflags := 0x200, carry := false, zero := false
    cr3 := 0x2000, space := fun _ _ => 0, data := launchEntry.data }

theorem startedProgram_enters : EntersProgram launchedTask startedProgram :=
  ⟨rfl, rfl, rfl, rfl, rfl, rfl, rfl, rfl, fun r first second => by simp [startedProgram, first, second]⟩

/-- `return 7` -/
def returnSeven (s : State SwitchData) : State SwitchData := (s.set .rax 7).ret

theorem start_exits_with_result_seven : ∃ m, EntersMain launchedTask m ∧
    EntersHandler ((syscallIsr 0 0).calls (fun _ s => s.ret)
      ((runStart returnSeven (fun _ => 0) startedProgram).interrupt ⟨0, 8, false⟩ 0xFFFFFFFFFFFFF000 none)) 9 [7] := by
  obtain ⟨m, enters, _, exits⟩ := start_exits_with_result returnSeven (fun _ => 0)
    startedProgram_enters (by decide) (by decide)
  exact ⟨m, enters, exits (fun _ s => s.ret) _ _ 0 0⟩

end PotatOS.Libc
