import PotatOS.Lib.Cpu
import PotatOS.Tasks.Scheduler

/-!
# Context switching (`switch.asm`, `switchutils.c`)

`timerIsr` is the timer interrupt instruction by instruction. A `Task` pointer
is the position of the task. The C functions compute what their source says
and may leave anything below the stack pointer; every page tree has its own
kernel stack at the same addresses.
-/

namespace PotatOS.Tasks

open Memory Cpu Prog

inductive SwitchFn where
  | pitDecrementCounter | checkTaskSwitchAllowed | getCurrentTask | taskSetRsp | taskSelect | taskGetCr3
  | taskGetRsp | taskGetFlags | endOfInterrupt | taskDisableFirstExec | taskGetEntryPoint
  | unlockLapicTimer | taskGetArgc | taskGetArgv
  deriving DecidableEq, Repr

/-- What the C functions of the switch work on. -/
structure SwitchData where
  tasks : Tasklist
  cpu : Nat
  canTaskSwitch : Bool

/-- A field of the task at this position. A wild pointer reads as zero. -/
def field (tasks : Tasklist) (pid : Nat) (f : Task → Nat) : Nat := ((getTask tasks pid).map f).getD 0

def updateTask (d : SwitchData) (pid : Nat) (f : Task → Task) : SwitchData :=
  { d with tasks := { d.tasks with list := { d.tasks.list with nodes := d.tasks.list.nodes.modify pid f } } }

/-- Results and effects, from the arguments in `rdi` and `rsi`. The recursion of
`task_select` is bounded by `2 ^ 64` calls; one that does not return has no result. The
counter that `pit_decrement_counter` decrements is no part of the data. -/
def SwitchFn.value (rdi rsi : Nat) (d : SwitchData) : SwitchFn → Nat × SwitchData
  | .pitDecrementCounter | .endOfInterrupt | .unlockLapicTimer => (0, d)
  | .checkTaskSwitchAllowed => (d.canTaskSwitch.toNat, d)
  | .getCurrentTask => (currentIndex d.tasks d.cpu, d)
  | .taskSetRsp => (0, updateTask d rdi fun task => { task with currentRsp := rsi })
  | .taskSelect =>
    match Tasks.taskSelect d.cpu (2 ^ 64) d.tasks with
    | .ok (pid, tasks) => (pid, { d with tasks })
    | .error _ => (0, d)
  | .taskGetCr3 => (field d.tasks rdi Task.pml4Addr, d)
  | .taskGetRsp => (field d.tasks rdi Task.currentRsp, d)
  | .taskGetFlags => (field d.tasks rdi fun task => task.flags.toNat, d)
  | .taskDisableFirstExec => (0, updateTask d rdi fun task => { task with flags := task.flags &&& ~~~taskFirstExec })
  | .taskGetEntryPoint => (field d.tasks rdi Task.entryPoint, d)
  | .taskGetArgc => (field d.tasks rdi Task.argc, d)
  | .taskGetArgv => (field d.tasks rdi Task.argv, d)

def volatileRegs : List Reg := [.rcx, .rdx, .rsi, .r8, .r9, .r10, .r11]

/-- What the compiled functions leave behind: bytes below the stack pointer of
their caller and registers that they need not save. `rdi` is not among them:
`task_switch` passes it on from `task_get_rsp` to `task_get_flags`. -/
structure Scratch where
  bytes : SwitchFn → Nat → Mem → Mem
  regs : SwitchFn → Reg → Nat
  below : ∀ f rsp m x, rsp ≤ x → bytes f rsp m x = m x

def helper (w : Scratch) (f : SwitchFn) (s : State SwitchData) : State SwitchData :=
  let result := f.value (s.gpr .rdi) (s.gpr .rsi) s.data
  { s with
    gpr := fun r => if r = .rax then result.1 else if r ∈ volatileRegs then w.regs f r else s.gpr r
    rsp := s.rsp + 8
    space := fun tree => if tree = s.cr3 then w.bytes f (s.rsp + 8) s.mem else s.space tree
    data := result.2 }

/-- In the order of the pushes. -/
def allRegs : List Reg :=
  [.rax, .rbx, .rcx, .rdx, .rsi, .rdi, .rbp, .r8, .r9, .r10, .r11, .r12, .r13, .r14, .r15]

section code

-- The address behind each call.
variable (next : SwitchFn → Nat)

def taskSwitchPreviouslyExecuted : Code SwitchFn :=
  .seq (.call .endOfInterrupt (next .endOfInterrupt)) <| .block (allRegs.reverse.map .pop) .iretq

def cannotTaskSwitch : Code SwitchFn :=
  .seq (.call .endOfInterrupt (next .endOfInterrupt)) <| .block (allRegs.reverse.map .pop) .iretq

def taskSwitchFirstExec : Code SwitchFn :=
  .block
    ([.mov .rdi .r15, .call .taskDisableFirstExec (next .taskDisableFirstExec), .pushImm 0,
      .movImm .rbx 0x20, .or .rbx 3, .push .rbx, .clear .rbx,
      .movImm .rbx 0x6FFFFFFFFFF8, .push .rbx, .pushImm 0x200,
      .movImm .rbx 0x18, .or .rbx 3, .push .rbx, .clear .rbx,
      .call .taskGetEntryPoint (next .taskGetEntryPoint), .push .rax,
      .call .unlockLapicTimer (next .unlockLapicTimer), .call .endOfInterrupt (next .endOfInterrupt),
      .call .taskGetArgc (next .taskGetArgc), .mov .r15 .rax, .call .taskGetArgv (next .taskGetArgv),
      .mov .rdi .r15, .mov .rsi .rax] ++
      [.rax, .rbx, .rcx, .rdx, .rbp, .r8, .r9, .r10, .r11, .r12, .r13, .r14, .r15].map .clear)
    .iretq

/-- From `mov cr3` on. -/
def enterTask : Code SwitchFn :=
  .block
    [.movToCr3 .rax, .mov .rdi .r15, .call .taskGetRsp (next .taskGetRsp), .movToRsp .rax,
      .call .taskGetFlags (next .taskGetFlags), .and .rax 2] <|
    .jnz (taskSwitchFirstExec next) (taskSwitchPreviouslyExecuted next)

/-- From the test of `check_task_switch_allowed` on. -/
def leaveTask : Code SwitchFn :=
  .block
    [.call .getCurrentTask (next .getCurrentTask), .mov .rdi .rax, .movFromRsp .rsi,
      .call .taskSetRsp (next .taskSetRsp), .call .taskSelect (next .taskSelect), .mov .rdi .rax,
      .mov .r15 .rax, .call .taskGetCr3 (next .taskGetCr3)] (enterTask next)

def timerIsr : Code SwitchFn :=
  .block (allRegs.map .push) <|
    .block
      [.call .pitDecrementCounter (next .pitDecrementCounter),
        .call .checkTaskSwitchAllowed (next .checkTaskSwitchAllowed), .test .rax] <|
      .jz (cannotTaskSwitch next) (leaveTask next)

end code

/-! ### Calls -/

section switch

variable {w : Scratch} {next : SwitchFn → Nat} {s t : State SwitchData}

/-- The state after a call of `f` from `s`. -/
structure AfterCall (f : SwitchFn) (s t : State SwitchData) : Prop where
  rsp : t.rsp = s.rsp
  cr3 : t.cr3 = s.cr3
  rax : t.gpr .rax = (f.value (s.gpr .rdi) (s.gpr .rsi) s.data).1
  data : t.data = (f.value (s.gpr .rdi) (s.gpr .rsi) s.data).2
  rdi : t.gpr .rdi = s.gpr .rdi
  r15 : t.gpr .r15 = s.gpr .r15
  above : ∀ x, s.rsp ≤ x → t.mem x = s.mem x
  others : ∀ tree, tree ≠ s.cr3 → t.space tree = s.space tree

theorem helper_mem (f : SwitchFn) (s : State SwitchData) : (helper w f s).mem = w.bytes f (s.rsp + 8) s.mem :=
  if_pos rfl

theorem helper_others (f : SwitchFn) (s : State SwitchData) {tree : Nat} (other : tree ≠ s.cr3) :
    (helper w f s).space tree = s.space tree := if_neg other

theorem afterCall (f : SwitchFn) (n : Nat) (room : 8 ≤ s.rsp) :
    AfterCall f s ((Instr.call f n).step (helper w) s) := by
  have back : s.rsp - 8 + 8 = s.rsp := Nat.sub_add_cancel room
  refine ⟨back, rfl, rfl, rfl, rfl, rfl, ?_, ?_⟩
  · intro x above
    rw [Instr.step, helper_mem, w.below _ _ _ _ (by rw [push_rsp]; omega), push_mem]
    exact store_outside (by unfold InRange; omega)
  · intro tree other
    rw [Instr.step, helper_others f (s.push n) other]
    exact if_neg other

theorem run_call {result : State SwitchData} {f : SwitchFn} {n : Nat} {rest : Code SwitchFn}
    (run : result = (Code.seq (.call f n) rest).run (helper w) s) (room : 8 ≤ s.rsp) :
    ∃ t, result = rest.run (helper w) t ∧ AfterCall f s t := ⟨_, run, afterCall f n room⟩

theorem run_seq {result : State SwitchData} {i : Instr SwitchFn} {rest : Code SwitchFn}
    (run : result = (Code.seq i rest).run (helper w) s) : result = rest.run (helper w) (i.step (helper w) s) := run

theorem pushAll_others (regs : List Reg) {tree : Nat} (other : tree ≠ s.cr3) :
    (pushAll regs s).space tree = s.space tree := by
  induction regs generalizing s with
  | nil => rfl
  | cons r regs ih =>
    have first : (s.push (s.gpr r)).space tree = s.space tree := if_neg other
    exact (ih (s := s.push (s.gpr r)) other).trans first

theorem pushAll_data (regs : List Reg) : (pushAll regs s).data = s.data := by
  induction regs generalizing s with
  | nil => rfl
  | cons r regs ih => exact ih

theorem value_taskSelect {rdi rsi b : Nat} {d : SwitchData} {tasks : Tasklist}
    (chosen : taskSelect d.cpu (2 ^ 64) d.tasks = .ok (b, tasks)) :
    SwitchFn.value rdi rsi d .taskSelect = (b, { d with tasks }) := by
  rw [SwitchFn.value, chosen]

/-! ### The outgoing task -/

/-- The tasks after `task_set_rsp`. -/
def afterSetRsp (s : State SwitchData) : SwitchData :=
  updateTask s.data (currentIndex s.data.tasks s.data.cpu) fun task => { task with currentRsp := s.rsp - 120 }

variable (next) in
/-- Up to `mov cr3` the switch works on the outgoing task's stack only. -/
theorem timerIsr_leaves {b : Nat} {tasks : Tasklist} (room : 256 ≤ s.rsp) (allowed : s.data.canTaskSwitch = true)
    (chosen : taskSelect s.data.cpu (2 ^ 64) (afterSetRsp s).tasks = .ok (b, tasks)) :
    ∃ t, (timerIsr next).run (helper w) s = (enterTask next).run (helper w) t ∧ t.rsp = s.rsp - 120 ∧
      t.gpr .rax = field tasks b Task.pml4Addr ∧ t.gpr .r15 = b ∧ t.data.tasks = tasks ∧
      ∀ tree, tree ≠ s.cr3 → t.space tree = s.space tree := by
  have depth : (pushAll allRegs s).rsp = s.rsp - 120 := pushAll_rsp allRegs s
  have run := run_block (helper w) (allRegs.map Instr.push) (.block
    [.call .pitDecrementCounter (next .pitDecrementCounter),
      .call .checkTaskSwitchAllowed (next .checkTaskSwitchAllowed), .test .rax]
    (.jz (cannotTaskSwitch next) (leaveTask next))) s
  have pushed : (allRegs.map Instr.push).foldl (fun s i => i.step (helper w) s) s = pushAll allRegs s :=
    List.foldl_map
  rw [pushed] at run
  have others := fun tree (other : tree ≠ s.cr3) => pushAll_others allRegs other
  have data := pushAll_data (s := s) allRegs
  have tree := (pushAll_kept allRegs s).2.2
  generalize pushAll allRegs s = s₀ at *
  obtain ⟨s₁, run, counted⟩ := run_call run (by omega)
  obtain ⟨s₂, run, checked⟩ := run_call run (by rw [counted.rsp]; omega)
  have data₁ : s₁.data = s.data := counted.data.trans data
  have data₂ : s₂.data = s.data := checked.data.trans data₁
  have yes : ¬ ((Instr.test .rax : Instr SwitchFn).step (helper w) s₂).zero = true := by
    intro zero
    have value : s₁.data.canTaskSwitch.toNat = 0 := checked.rax.symm.trans (of_decide_eq_true zero)
    rw [data₁, allowed] at value
    cases value
  replace run := (run_seq run).trans (if_neg yes)
  have rsp₂ : s₂.rsp = s.rsp - 120 := (checked.rsp.trans counted.rsp).trans depth
  have cr₂ : s₂.cr3 = s.cr3 := (checked.cr3.trans counted.cr3).trans tree
  have others₂ : ∀ tree, tree ≠ s.cr3 → s₂.space tree = s.space tree := by
    intro t other
    rw [checked.others t (by rw [counted.cr3, tree]; exact other), counted.others t (by rw [tree]; exact other),
      others t other]
  obtain ⟨s₃, run, current⟩ := run_call run (by show 8 ≤ s₂.rsp; omega)
  replace run := run_seq (run_seq run)
  have rsp₃ : s₃.rsp = s.rsp - 120 := current.rsp.trans rsp₂
  have index : s₃.gpr .rax = currentIndex s.data.tasks s.data.cpu := by rw [← data₂]; exact current.rax
  obtain ⟨s₄, run, saved⟩ := run_call run (by show 8 ≤ s₃.rsp; omega)
  have data₄ : s₄.data = afterSetRsp s := by
    have stored : s₄.data = updateTask s₃.data (s₃.gpr .rax) fun task => { task with currentRsp := s₃.rsp } := saved.data
    rw [stored, index, rsp₃, current.data.trans data₂]
    rfl
  have rsp₄ : s₄.rsp = s.rsp - 120 := saved.rsp.trans rsp₃
  obtain ⟨s₅, run, selected⟩ := run_call run (by omega)
  have select : SwitchFn.value (s₄.gpr .rdi) (s₄.gpr .rsi) s₄.data .taskSelect = (b, { afterSetRsp s with tasks }) := by
    rw [data₄]
    exact value_taskSelect chosen
  have pid : s₅.gpr .rax = b := by rw [selected.rax, select]
  have data₅ : s₅.data.tasks = tasks := by rw [selected.data, select]
  replace run := run_seq (run_seq run)
  have rsp₅ : s₅.rsp = s.rsp - 120 := selected.rsp.trans rsp₄
  obtain ⟨s₆, run, mapped⟩ := run_call run (by show 8 ≤ s₅.rsp; omega)
  have cr₃ : s₃.cr3 = s.cr3 := current.cr3.trans cr₂
  have cr₄ : s₄.cr3 = s.cr3 := saved.cr3.trans cr₃
  have cr₅ : s₅.cr3 = s.cr3 := selected.cr3.trans cr₄
  refine ⟨s₆, run, mapped.rsp.trans rsp₅, ?_, ?_, ?_, ?_⟩
  · have root : s₆.gpr .rax = field s₅.data.tasks (s₅.gpr .rax) Task.pml4Addr := mapped.rax
    rw [root, data₅, pid]
  · have kept : s₆.gpr .r15 = s₅.gpr .rax := mapped.r15
    rw [kept, pid]
  · have kept : s₆.data = s₅.data := mapped.data
    rw [kept, data₅]
  · intro tree' other
    have last : s₆.space tree' = s₅.space tree' := mapped.others tree' (by show tree' ≠ s₅.cr3; rw [cr₅]; exact other)
    have third : s₄.space tree' = s₃.space tree' := saved.others tree' (by show tree' ≠ s₃.cr3; rw [cr₃]; exact other)
    have second : s₃.space tree' = s₂.space tree' := current.others tree' (by show tree' ≠ s₂.cr3; rw [cr₂]; exact other)
    rw [last, selected.others tree' (by rw [cr₄]; exact other), third, second, others₂ tree' other]

/-! ### The incoming task -/

/-- The registers and the interrupt frame that a task left on its stack `m` when
it was suspended with stack pointer `saved`, and its stack above. -/
structure ResumesTask (m : Mem) (saved : Nat) (exit : State SwitchData) : Prop where
  gpr : ∀ (i : Nat) (r : Reg), allRegs.reverse[i]? = some r → exit.gpr r = load m (saved + 8 * i) 8
  rip : exit.rip = load m (saved + 120) 8
  cs : exit.cs = load m (saved + 128) 8
  rflags : exit.rflags = load m (saved + 136) 8
  rsp : exit.rsp = load m (saved + 144) 8
  ss : exit.ss = load m (saved + 152) 8
  stack : ∀ x, saved ≤ x → exit.mem x = m x

variable (next) in
theorem resumes_of_stack {m : Mem} (room : 8 ≤ t.rsp) (same : ∀ x, t.rsp ≤ x → t.mem x = m x) :
    ResumesTask m t.rsp ((taskSwitchPreviouslyExecuted next).run (helper w) t) := by
  have run : (taskSwitchPreviouslyExecuted next).run (helper w) t = (Code.seq (.call .endOfInterrupt (next .endOfInterrupt))
    (.block (allRegs.reverse.map .pop) .iretq)).run (helper w) t := rfl
  obtain ⟨t₁, run, ended⟩ := run_call run room
  have popped : (allRegs.reverse.map Instr.pop).foldl (fun s i => i.step (helper w) s) t₁ =
      popAll allRegs.reverse t₁ := List.foldl_map
  rw [run_block, popped] at run
  have distinct : allRegs.reverse.Nodup := by decide
  obtain ⟨top, values, _⟩ := popAll_get (s := t₁) distinct
  have memory := (popAll_mem allRegs.reverse t₁).1
  generalize popAll allRegs.reverse t₁ = last at *
  have bottom : last.rsp = t.rsp + 120 := by rw [top, ended.rsp]; rfl
  have words : ∀ a, t.rsp ≤ a → load t₁.mem a 8 = load m a 8 := by
    intro a above
    refine load_congr fun x inside => ?_
    rw [ended.above x (by have := inside.1; omega), same x (by have := inside.1; omega)]
  have frame : ∀ k, last.word (last.rsp + k) = load m (t.rsp + 120 + k) 8 := by
    intro k
    rw [State.word, memory, bottom]
    exact words _ (by omega)
  rw [run]
  refine ⟨?_, frame 0, frame 8, frame 16, frame 24, frame 32, ?_⟩
  · intro i r found
    show last.gpr r = _
    rw [values i r found, State.word, ended.rsp]
    exact words _ (by omega)
  · intro x above
    rw [Code.run, iretq_mem, memory, ended.above x above, same x above]

variable (next) in
/-- From `mov cr3` on, for a task that ran before. `task_get_rsp` still runs at
the depth of the outgoing task. -/
theorem enterTask_run {b : Nat} {task : Task} (room : 8 ≤ t.rsp) (deep : 8 ≤ task.currentRsp)
    (pid : t.gpr .r15 = b) (found : getTask t.data.tasks b = some task) (tree : t.gpr .rax = task.pml4Addr)
    (earlier : task.flags &&& taskFirstExec = 0) :
    ∃ last, (enterTask next).run (helper w) t = (taskSwitchPreviouslyExecuted next).run (helper w) last ∧
      last.rsp = task.currentRsp ∧ ∀ x, task.currentRsp ≤ x → last.mem x =
        w.bytes .taskGetRsp t.rsp (store (t.space task.pml4Addr) (t.rsp - 8) 8 (next .taskGetRsp)) x := by
  have run : (enterTask next).run (helper w) t = (enterTask next).run (helper w) t := rfl
  replace run := run_seq (run_seq run)
  generalize entered : (Instr.mov .rdi .r15 : Instr SwitchFn).step (helper w)
    ((Instr.movToCr3 .rax : Instr SwitchFn).step (helper w) t) = t₁ at run
  have start : t₁.rsp = t.rsp ∧ t₁.cr3 = task.pml4Addr ∧ t₁.mem = t.space task.pml4Addr ∧ t₁.gpr .rdi = b ∧
      t₁.data = t.data := by
    subst t₁
    exact ⟨rfl, tree, congrArg t.space tree, pid, rfl⟩
  obtain ⟨rsp₁, cr₁, mem₁, rdi₁, data₁⟩ := start
  have got := afterCall (w := w) (s := t₁) .taskGetRsp (next .taskGetRsp) (by omega)
  replace run := run_seq run
  have written : ((Instr.call .taskGetRsp (next .taskGetRsp)).step (helper w) t₁).mem =
      w.bytes .taskGetRsp t.rsp (store (t.space task.pml4Addr) (t.rsp - 8) 8 (next .taskGetRsp)) := by
    rw [Instr.step, helper_mem, push_mem, push_rsp, mem₁, rsp₁, Nat.sub_add_cancel room]
  generalize (Instr.call .taskGetRsp (next .taskGetRsp)).step (helper w) t₁ = t₂ at *
  have saved : t₂.gpr .rax = task.currentRsp := by
    have value : t₂.gpr .rax = field t₁.data.tasks (t₁.gpr .rdi) Task.currentRsp := got.rax
    rw [value, data₁, rdi₁, field, found]
    rfl
  replace run := run_seq run
  have depth : ((Instr.movToRsp .rax : Instr SwitchFn).step (helper w) t₂).rsp = task.currentRsp := saved
  have same : ((Instr.movToRsp .rax : Instr SwitchFn).step (helper w) t₂).mem = t₂.mem := rfl
  have rdi₃ : ((Instr.movToRsp .rax : Instr SwitchFn).step (helper w) t₂).gpr .rdi = b := got.rdi.trans rdi₁
  have data₃ : ((Instr.movToRsp .rax : Instr SwitchFn).step (helper w) t₂).data = t.data := got.data.trans data₁
  generalize (Instr.movToRsp .rax : Instr SwitchFn).step (helper w) t₂ = t₃ at *
  obtain ⟨t₄, run, flagged⟩ := run_call run (by omega)
  replace run := run_seq run
  have flags : t₄.gpr .rax = task.flags.toNat := by
    have value : t₄.gpr .rax = field t₃.data.tasks (t₃.gpr .rdi) fun task => task.flags.toNat := flagged.rax
    rw [value, data₃, rdi₃, field, found]
    rfl
  have clear : ((Instr.and .rax 2 : Instr SwitchFn).step (helper w) t₄).zero = true := by
    refine decide_eq_true ?_
    rw [flags]
    exact (UInt8.toNat_and task.flags taskFirstExec).symm.trans (congrArg UInt8.toNat earlier)
  replace run := run.trans (if_pos clear)
  refine ⟨_, run, flagged.rsp.trans depth, fun x above => ?_⟩
  show t₄.mem x = _
  rw [flagged.above x (by omega), same, written]

/-- A scratch that changes one byte while `task_get_rsp` runs. -/
def spoil (x : Nat) (v : UInt8) : Scratch where
  bytes f rsp m := fun y => if f = .taskGetRsp ∧ y = x ∧ y < rsp then v else m y
  regs _ _ := 0
  below := fun _ _ _ _ above => if_neg fun here => by omega

section resume

variable {b : Nat} {tasks : Tasklist} {task : Task} (room : 256 ≤ s.rsp) (deep : 256 ≤ task.currentRsp)
  (allowed : s.data.canTaskSwitch = true)
  (chosen : taskSelect s.data.cpu (2 ^ 64) (afterSetRsp s).tasks = .ok (b, tasks))
  (found : getTask tasks b = some task) (earlier : task.flags &&& taskFirstExec = 0)
  (own : task.pml4Addr ≠ s.cr3)

include room deep allowed chosen found earlier own

variable (next) in
/-- The stack of the incoming task when its registers are popped. -/
theorem timerIsr_ends (w : Scratch) : ∃ last,
    (timerIsr next).run (helper w) s = (taskSwitchPreviouslyExecuted next).run (helper w) last ∧
      last.rsp = task.currentRsp ∧ ∀ x, task.currentRsp ≤ x → last.mem x = w.bytes .taskGetRsp (s.rsp - 120)
        (store (s.space task.pml4Addr) (s.rsp - 120 - 8) 8 (next .taskGetRsp)) x := by
  obtain ⟨t, leaves, rsp, root, pid, data, others⟩ := timerIsr_leaves (w := w) next room allowed chosen
  have address : t.gpr .rax = task.pml4Addr := by
    rw [root, field, found]
    rfl
  obtain ⟨last, enters, depth, memory⟩ := enterTask_run (w := w) next (by omega) (by omega) pid
    (by rw [data]; exact found) address earlier
  rw [rsp, others _ own] at memory
  exact ⟨last, leaves.trans enters, depth, memory⟩

/-- `task_get_rsp` may overwrite the stack of an incoming task that lies deeper. -/
theorem timerIsr_spoils (above : task.currentRsp < s.rsp - 120) :
    ¬ ∀ w, ResumesTask (s.space task.pml4Addr) task.currentRsp ((timerIsr next).run (helper w) s) := by
  intro resumes
  generalize mark : s.space task.pml4Addr task.currentRsp + 1 = v
  obtain ⟨last, run, depth, memory⟩ :=
    timerIsr_ends next room deep allowed chosen found earlier own (spoil task.currentRsp v)
  have kept := (resumes (spoil task.currentRsp v)).stack task.currentRsp (Nat.le_refl _)
  rw [run] at kept
  have tail := (resumes_of_stack (w := spoil task.currentRsp v) (t := last) next (by omega)
    (fun _ _ => rfl)).stack task.currentRsp (by omega)
  have byte : last.mem task.currentRsp = v := by
    rw [memory _ (Nat.le_refl _)]
    exact if_pos ⟨rfl, rfl, above⟩
  rw [tail, byte, ← mark] at kept
  revert kept
  generalize s.space task.pml4Addr task.currentRsp = old
  obtain ⟨bits⟩ := old
  revert bits
  decide

theorem timerIsr_resumes (level : s.rsp - 120 ≤ task.currentRsp) (w : Scratch) :
    ResumesTask (s.space task.pml4Addr) task.currentRsp ((timerIsr next).run (helper w) s) := by
  obtain ⟨last, run, depth, memory⟩ := timerIsr_ends next room deep allowed chosen found earlier own w
  rw [run, ← depth]
  refine resumes_of_stack next (by omega) fun x above => ?_
  rw [memory x (by omega), w.below _ _ _ _ (by omega)]
  exact store_outside (by unfold InRange; omega)

/-- The switch resumes the incoming task, whatever the C functions leave below
the stack pointer, exactly when the outgoing task is suspended no higher than
the incoming one. -/
theorem timerIsr_resumes_iff :
    (∀ w, ResumesTask (s.space task.pml4Addr) task.currentRsp ((timerIsr next).run (helper w) s)) ↔
      s.rsp - 120 ≤ task.currentRsp := by
  constructor
  · intro resumes
    by_contra above
    exact timerIsr_spoils room deep allowed chosen found earlier own (by omega) resumes
  · intro level w
    exact timerIsr_resumes room deep allowed chosen found earlier own level w

end resume

end switch

/-! ### Two tasks -/

/-- The second of two user tasks was suspended with this stack pointer. -/
def suspendedTask (rsp : Nat) : Task :=
  { blankTask with isUser := true, pml4Addr := 0x2000, currentRsp := rsp, flags := taskPresent }

/-- The first user task runs. -/
def twoUserTasks (rsp : Nat) : Tasklist :=
  { list :=
      { dataSize := 264
        nodes := [blankTask,
          { blankTask with isUser := true, pml4Addr := 0x1000, flags := taskPresent ||| taskRunning },
          suspendedTask rsp] }
    currentTasks := { dataSize := 8, nodes := [1] } }

/-- The timer interrupts the first user task in user mode, right below the top
of its kernel stack. -/
def timerEntry (rsp : Nat) : State SwitchData :=
  { gpr := fun _ => 0, rsp := 0xFFFFFFFFFFFFEFD8, rip := 0, cs := 8, ss := 0, rflags := 0, carry := false
    zero := false, cr3 := 0x1000, space := fun _ _ => 0
    data := { tasks := twoUserTasks rsp, cpu := 0, canTaskSwitch := true } }

/-- The tasks after the second user task was selected. -/
def switchedTasks (rsp : Nat) : Tasklist := markRunning (candidateState (afterSetRsp (timerEntry rsp)).tasks 0) 2

theorem timerEntry_select (rsp : Nat) :
    taskSelect 0 (2 ^ 64) (afterSetRsp (timerEntry rsp)).tasks = .ok (2, switchedTasks rsp) := by
  have take : selectSection 0 (afterSetRsp (timerEntry rsp)).tasks = .ok (some 2, switchedTasks rsp) :=
    section_take (Nat.le_refl 1) (Nat.le_succ 2) (by show 3 ≠ 1; decide)
      ⟨suspendedTask rsp, rfl, by show taskPresent &&& taskPresent ≠ 0; decide,
        by show ¬ taskPresent &&& taskRunning ≠ 0; decide⟩
  have first : ∀ fuel, taskSelect 0 (fuel + 1) (afterSetRsp (timerEntry rsp)).tasks = .ok (2, switchedTasks rsp) := by
    intro fuel
    rw [taskSelect, bind_eq take]
    rfl
  exact first (2 ^ 64 - 1)

theorem timerIsr_resumes_sameDepth : (timerEntry 0xFFFFFFFFFFFFEF60).rsp - 120 ≤ 0xFFFFFFFFFFFFEF60 ∧
    ∀ w, ResumesTask (fun _ => 0) 0xFFFFFFFFFFFFEF60
      ((timerIsr fun _ => 0).run (helper w) (timerEntry 0xFFFFFFFFFFFFEF60)) := by
  have level : (timerEntry 0xFFFFFFFFFFFFEF60).rsp - 120 ≤ 0xFFFFFFFFFFFFEF60 := by decide
  exact ⟨level, (timerIsr_resumes_iff (s := timerEntry 0xFFFFFFFFFFFFEF60) (by decide) (by decide) rfl
    (timerEntry_select _) rfl rfl (by decide)).mpr level⟩

/-- A task that was suspended inside a system call lies deeper. -/
theorem timerIsr_spoils_deeper : ¬ ∀ w, ResumesTask (fun _ => 0) 0xFFFFFFFFFFFFEE00
    ((timerIsr fun _ => 0).run (helper w) (timerEntry 0xFFFFFFFFFFFFEE00)) :=
  timerIsr_spoils (s := timerEntry 0xFFFFFFFFFFFFEE00) (by decide) (by decide) rfl (timerEntry_select _) rfl rfl
    (by decide) (by decide)

end PotatOS.Tasks
