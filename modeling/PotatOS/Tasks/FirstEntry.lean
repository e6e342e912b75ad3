import PotatOS.Tasks.Switch

/-!
# The first entry into a task (`switch.asm`, `crt0.asm`)

A task that has not run yet has no saved registers: the switch builds its
interrupt frame and hands it the arguments that `spawn` stored. `_start` passes
them to `main` and ends the program with its result.
-/

namespace PotatOS.Tasks

open Memory Cpu Mem Prog

/-- `0x20 | 3`, `0x18 | 3` and the stack pointer of a program that starts. -/
def userSs : Nat := 0x23
def userCs : Nat := 0x1B
def firstRsp : Nat := 0x6FFFFFFFFFF8

/-- From `push 0` to the last push before `task_get_entry_point`. -/
def firstPushes : List (Instr SwitchFn) :=
  [.pushImm 0, .movImm .rbx 0x20, .or .rbx 3, .push .rbx, .clear .rbx,
    .movImm .rbx 0x6FFFFFFFFFF8, .push .rbx, .pushImm 0x200,
    .movImm .rbx 0x18, .or .rbx 3, .push .rbx, .clear .rbx]

/-- The memory below `d` after those pushes. -/
def frameMem (m : Mem) (d : Nat) : Mem :=
  store (store (store (store (store m (d - 8) 8 0) (d - 16) 8 userSs) (d - 24) 8 firstRsp) (d - 32) 8 0x200)
    (d - 40) 8 userCs

section entry

variable {w : Scratch} {next : SwitchFn → Nat} {s t : State SwitchData}

/-- The state after the pushes. -/
structure Framed (s t : State SwitchData) : Prop where
  rsp : t.rsp = s.rsp - 40
  mem : t.mem = frameMem s.mem s.rsp
  cr3 : t.cr3 = s.cr3
  data : t.data = s.data
  rdi : t.gpr .rdi = s.gpr .rdi
  others : ∀ tree, tree ≠ s.cr3 → t.space tree = s.space tree

theorem framed (room : 48 ≤ s.rsp) : Framed s (firstPushes.foldl (fun s i => i.step (helper w) s) s) := by
  have sub : s.rsp - 8 - 8 = s.rsp - 16 ∧ s.rsp - 16 - 8 = s.rsp - 24 ∧ s.rsp - 24 - 8 = s.rsp - 32 ∧
      s.rsp - 32 - 8 = s.rsp - 40 := by omega
  refine ⟨?_, ?_, rfl, rfl, rfl, fun tree other => ?_⟩
  · simp [firstPushes, Instr.step, State.set, sub]
  · simp [firstPushes, Instr.step, State.set, frameMem, userSs, userCs, firstRsp, sub, State.mem, State.push]
  · simp [firstPushes, Instr.step, State.set, State.push, other]

theorem frameMem_words {m : Mem} {d : Nat} (room : 48 ≤ d) :
    load (frameMem m d) (d - 40) 8 = userCs ∧ load (frameMem m d) (d - 32) 8 = 0x200 ∧
      load (frameMem m d) (d - 24) 8 = firstRsp ∧ load (frameMem m d) (d - 16) 8 = userSs := by
  unfold frameMem
  refine ⟨load_store_same (by decide), ?_, ?_, ?_⟩
  · rw [load_store_apart (by unfold Apart; omega), load_store_same (by decide)]
  · rw [load_store_apart (by unfold Apart; omega), load_store_apart (by unfold Apart; omega), load_store_same (by decide)]
  · rw [load_store_apart (by unfold Apart; omega), load_store_apart (by unfold Apart; omega),
      load_store_apart (by unfold Apart; omega), load_store_same (by decide)]

/-- A user program at its start, with these arguments. -/
structure EntersProgram (task : Task) (exit : State SwitchData) : Prop where
  rip : exit.rip = task.entryPoint
  cs : exit.cs = userCs
  rflags : exit.rflags = 0x200
  rsp : exit.rsp = firstRsp
  ss : exit.ss = userSs
  cr3 : exit.cr3 = task.pml4Addr
  argc : exit.gpr .rdi = task.argc
  argv : exit.gpr .rsi = task.argv
  clear : ∀ r, r ≠ .rdi → r ≠ .rsi → exit.gpr r = 0

def clearedRegs : List Reg := [.rax, .rbx, .rcx, .rdx, .rbp, .r8, .r9, .r10, .r11, .r12, .r13, .r14, .r15]

theorem clear_block (regs : List Reg) (s : State SwitchData) :
    (regs.map Instr.clear).foldl (fun s i => i.step (helper w) s) s =
      { s with gpr := fun r => if r ∈ regs then 0 else s.gpr r } := by
  induction regs generalizing s with
  | nil => rfl
  | cons first rest ih =>
    have zeroed : ∀ r, (if r ∈ rest then 0 else if r = first then 0 else s.gpr r) =
        if r ∈ first :: rest then 0 else s.gpr r := by
      intro r
      by_cases here : r = first <;> by_cases later : r ∈ rest <;> simp [here, later]
    exact (ih _).trans (congrArg (fun gpr => { s with gpr }) (funext zeroed))

theorem mem_clearedRegs {r : Reg} (first : r ≠ .rdi) (second : r ≠ .rsi) : r ∈ clearedRegs := by
  cases r <;> first | exact absurd rfl first | exact absurd rfl second | decide

/-- The record after `task_disable_first_exec`. -/
def Task.entered (task : Task) : Task := { task with flags := task.flags &&& ~~~taskFirstExec }

theorem field_entered {d : SwitchData} {b : Nat} {task : Task} (f : Task → Nat) (found : getTask d.tasks b = some task)
    (same : f task.entered = f task) : field (updateTask d b Task.entered).tasks b f = f task := by
  have there : getTask (updateTask d b Task.entered).tasks b = some task.entered := by
    rw [getTask, vectorAt] at found ⊢
    simp [updateTask, found]
  rw [field, there]
  exact same

variable (next) in
/-- `task_switch_first_exec`, with the task `b` in `r15`. -/
theorem firstExec_run {b : Nat} {task : Task} (room : 256 ≤ t.rsp) (pid : t.gpr .r15 = b)
    (found : getTask t.data.tasks b = some task) (tree : t.cr3 = task.pml4Addr) (entry : task.entryPoint < 2 ^ 64) :
    EntersProgram task ((taskSwitchFirstExec next).run (helper w) t) ∧
      ((taskSwitchFirstExec next).run (helper w) t).data.tasks =
        (updateTask t.data b Task.entered).tasks ∧
      ∀ tree, tree ≠ t.cr3 → ((taskSwitchFirstExec next).run (helper w) t).space tree = t.space tree := by
  generalize result : (taskSwitchFirstExec next).run (helper w) t = last
  have run : last = (Code.seq (.mov .rdi .r15) (Code.seq (.call .taskDisableFirstExec (next .taskDisableFirstExec))
    (Code.block firstPushes (Code.block
      [.call .taskGetEntryPoint (next .taskGetEntryPoint), .push .rax,
        .call .unlockLapicTimer (next .unlockLapicTimer), .call .endOfInterrupt (next .endOfInterrupt),
        .call .taskGetArgc (next .taskGetArgc), .mov .r15 .rax, .call .taskGetArgv (next .taskGetArgv),
        .mov .rdi .r15, .mov .rsi .rax]
      (Code.block (clearedRegs.map .clear) .iretq))))).run (helper w) t := result.symm
  replace run := run_seq run
  obtain ⟨t₁, run, disabled⟩ := run_call run (by show 8 ≤ t.rsp; omega)
  have rsp₁ : t₁.rsp = t.rsp := disabled.rsp
  have rdi₁ : t₁.gpr .rdi = b := disabled.rdi.trans pid
  have data₁ : t₁.data = updateTask t.data b Task.entered := by
    have stored : t₁.data = updateTask t.data (t.gpr .r15) Task.entered := disabled.data
    rw [stored, pid]
  have others₁ : ∀ tree, tree ≠ t.cr3 → t₁.space tree = t.space tree := disabled.others
  rw [run_block] at run
  have frame := framed (w := w) (s := t₁) (by omega)
  generalize firstPushes.foldl (fun s i => i.step (helper w) s) t₁ = t₂ at run frame
  have rsp₂ : t₂.rsp = t.rsp - 40 := by rw [frame.rsp, rsp₁]
  obtain ⟨t₃, run, entered⟩ := run_call run (by omega)
  have rip : t₃.gpr .rax = task.entryPoint := by
    have value : t₃.gpr .rax = field t₂.data.tasks (t₂.gpr .rdi) Task.entryPoint := entered.rax
    rw [value, frame.data, data₁, frame.rdi, rdi₁, field_entered _ found rfl]
  replace run := run_seq run
  generalize pushed : (Instr.push .rax : Instr SwitchFn).step (helper w) t₃ = t₄ at run
  have rsp₄ : t₄.rsp = t.rsp - 48 := by
    rw [← pushed]
    show t₃.rsp - 8 = _
    rw [entered.rsp]
    omega
  obtain ⟨t₅, run, unlocked⟩ := run_call run (by omega)
  obtain ⟨t₆, run, ended⟩ := run_call run (by rw [unlocked.rsp]; omega)
  obtain ⟨t₇, run, counted⟩ := run_call run (by rw [ended.rsp, unlocked.rsp]; omega)
  replace run := run_seq run
  have rsp₇ : t₇.rsp = t.rsp - 48 := by rw [counted.rsp, ended.rsp, unlocked.rsp, rsp₄]
  obtain ⟨t₈, run, given⟩ := run_call run (by show 8 ≤ t₇.rsp; omega)
  replace run := run_seq (run_seq run)
  replace run := run.trans (run_block (helper w) (clearedRegs.map Instr.clear) .iretq _)
  rw [clear_block] at run
  -- The frame under the calls that follow it.
  have above₃ : ∀ x, t.rsp - 40 ≤ x → t₃.mem x = frameMem t₁.mem t.rsp x := by
    intro x inside
    rw [entered.above x (by rw [rsp₂]; exact inside), frame.mem, rsp₁]
  have above₈ : ∀ x, t.rsp - 48 ≤ x → t₈.mem x = store t₃.mem (t.rsp - 48) 8 task.entryPoint x := by
    intro x inside
    have first : t₈.mem x = t₇.mem x := given.above x (by show t₇.rsp ≤ x; omega)
    have rsp₅ := unlocked.rsp
    have rsp₆ := ended.rsp
    rw [first, counted.above x (by omega), ended.above x (by omega), unlocked.above x (by omega), ← pushed, Instr.step, push_mem,
      entered.rsp, rsp₂, rip]
    have depth : t.rsp - 40 - 8 = t.rsp - 48 := by omega
    rw [depth]
  have deep : ∀ k, 8 ≤ k → load t₈.mem (t.rsp - 48 + k) 8 = load (frameMem t₁.mem t.rsp) (t.rsp - 48 + k) 8 := by
    intro k behind
    refine load_congr fun x inside => ?_
    unfold InRange at inside
    rw [above₈ x (by omega), store_outside (by unfold InRange; omega), above₃ x (by omega)]
  obtain ⟨cs, rflags, rsp, ss⟩ := frameMem_words (m := t₁.mem) (d := t.rsp) (by omega)
  have at40 : t.rsp - 48 + 8 = t.rsp - 40 := by omega
  have at32 : t.rsp - 48 + 16 = t.rsp - 32 := by omega
  have at24 : t.rsp - 48 + 24 = t.rsp - 24 := by omega
  have at16 : t.rsp - 48 + 32 = t.rsp - 16 := by omega
  have ripWord : load t₈.mem (t.rsp - 48) 8 = task.entryPoint := by
    have same : load t₈.mem (t.rsp - 48) 8 = load (store t₃.mem (t.rsp - 48) 8 task.entryPoint) (t.rsp - 48) 8 :=
      load_congr fun x inside => above₈ x inside.1
    rw [same, load_store_same entry]
  -- The arguments, through the pointer in `rdi`.
  have data₇ : t₇.data = updateTask t.data b Task.entered := by
    have kept : t₄.data = t₃.data := by rw [← pushed]; rfl
    have kept₃ : t₃.data = t₂.data := entered.data
    have kept₅ : t₅.data = t₄.data := unlocked.data
    have kept₆ : t₆.data = t₅.data := ended.data
    have kept₇ : t₇.data = t₆.data := counted.data
    rw [kept₇, kept₆, kept₅, kept, kept₃, frame.data, data₁]
  have rdi₆ : t₆.gpr .rdi = b := by
    have kept : t₄.gpr .rdi = t₃.gpr .rdi := by rw [← pushed]; rfl
    rw [ended.rdi, unlocked.rdi, kept, entered.rdi, frame.rdi, rdi₁]
  have data₆ : t₆.data = updateTask t.data b Task.entered := by
    have kept₇ : t₇.data = t₆.data := counted.data
    rw [← kept₇, data₇]
  have argc : t₇.gpr .rax = task.argc := by
    have value : t₇.gpr .rax = field t₆.data.tasks (t₆.gpr .rdi) Task.argc := counted.rax
    rw [value, data₆, rdi₆, field_entered _ found rfl]
  have argv : t₈.gpr .rax = task.argv := by
    have value : t₈.gpr .rax = field t₇.data.tasks (t₇.gpr .rdi) Task.argv := given.rax
    rw [value, data₇, counted.rdi, rdi₆, field_entered _ found rfl]
  have rsp₈ : t₈.rsp = t.rsp - 48 := given.rsp.trans rsp₇
  have cr₁ : t₁.cr3 = t.cr3 := disabled.cr3
  have cr₄ : t₄.cr3 = t.cr3 := by
    have kept : t₄.cr3 = t₃.cr3 := by rw [← pushed]; rfl
    rw [kept, entered.cr3, frame.cr3, cr₁]
  have cr₇ : t₇.cr3 = t.cr3 := by rw [counted.cr3, ended.cr3, unlocked.cr3, cr₄]
  have cr₈ : t₈.cr3 = t.cr3 := given.cr3.trans cr₇
  have space₈ : ∀ tree, tree ≠ t.cr3 → t₈.space tree = t.space tree := by
    intro tree' other
    have last₈ : t₈.space tree' = t₇.space tree' := given.others tree' (by show tree' ≠ t₇.cr3; rw [cr₇]; exact other)
    have cr₅ : t₅.cr3 = t.cr3 := unlocked.cr3.trans cr₄
    have cr₆ : t₆.cr3 = t.cr3 := ended.cr3.trans cr₅
    have cr₂ : t₂.cr3 = t.cr3 := frame.cr3.trans cr₁
    have last₄ : t₄.space tree' = t₃.space tree' := by
      rw [← pushed]
      exact if_neg (by rw [entered.cr3, cr₂]; exact other)
    rw [last₈, counted.others tree' (by rw [cr₆]; exact other), ended.others tree' (by rw [cr₅]; exact other),
      unlocked.others tree' (by rw [cr₄]; exact other), last₄, entered.others tree' (by rw [cr₂]; exact other),
      frame.others tree' (by rw [cr₁]; exact other), others₁ tree' other]
  have data₈ : t₈.data = updateTask t.data b Task.entered := by
    have kept : t₈.data = t₇.data := given.data
    rw [kept, data₇]
  have r15 : t₈.gpr .r15 = task.argc := given.r15.trans argc
  replace run := run.trans (rfl : _ = State.iretq { t₈ with gpr := fun r =>
    if r ∈ clearedRegs then 0 else if r = .rsi then (t₈.gpr .rax) else if r = .rdi then (t₈.gpr .r15) else t₈.gpr r })
  clear argc given counted ended unlocked entered disabled
  rw [run]
  refine ⟨⟨?_, ?_, ?_, ?_, ?_, ?_, ?_, ?_, ?_⟩, ?_, ?_⟩
  · show load t₈.mem t₈.rsp 8 = _
    rw [rsp₈, ripWord]
  · show load t₈.mem (t₈.rsp + 8) 8 = _
    rw [rsp₈, deep 8 (by omega), at40, cs]
  · show load t₈.mem (t₈.rsp + 16) 8 = _
    rw [rsp₈, deep 16 (by omega), at32, rflags]
  · show load t₈.mem (t₈.rsp + 24) 8 = _
    rw [rsp₈, deep 24 (by omega), at24, rsp]
  · show load t₈.mem (t₈.rsp + 32) 8 = _
    rw [rsp₈, deep 32 (by omega), at16, ss]
  · exact cr₈.trans tree
  · exact r15
  · exact argv
  · intro r first second
    exact if_pos (mem_clearedRegs first second)
  · exact congrArg SwitchData.tasks data₈
  · exact space₈

variable (next) in
/-- From `mov cr3` on, for a task that has not run before. -/
theorem enterTask_first {b : Nat} {task : Task} (room : 8 ≤ t.rsp) (deep : 8 ≤ task.currentRsp)
    (pid : t.gpr .r15 = b) (found : getTask t.data.tasks b = some task) (tree : t.gpr .rax = task.pml4Addr)
    (new : task.flags &&& taskFirstExec ≠ 0) :
    ∃ last, (enterTask next).run (helper w) t = (taskSwitchFirstExec next).run (helper w) last ∧
      last.rsp = task.currentRsp ∧ last.gpr .r15 = b ∧ last.data = t.data ∧ last.cr3 = task.pml4Addr ∧
      ∀ tree, tree ≠ task.pml4Addr → last.space tree = t.space tree := by
  have run : (enterTask next).run (helper w) t = (enterTask next).run (helper w) t := rfl
  replace run := run_seq (run_seq run)
  generalize entered : (Instr.mov .rdi .r15 : Instr SwitchFn).step (helper w)
    ((Instr.movToCr3 .rax : Instr SwitchFn).step (helper w) t) = t₁ at run
  have start : t₁.rsp = t.rsp ∧ t₁.cr3 = task.pml4Addr ∧ t₁.space = t.space ∧ t₁.gpr .rdi = b ∧ t₁.gpr .r15 = b ∧
      t₁.data = t.data := by
    subst t₁
    exact ⟨rfl, tree, rfl, pid, pid, rfl⟩
  obtain ⟨rsp₁, cr₁, space₁, rdi₁, r15₁, data₁⟩ := start
  obtain ⟨t₂, run, got⟩ := run_call run (by omega)
  have saved : t₂.gpr .rax = task.currentRsp := by
    have value : t₂.gpr .rax = field t₁.data.tasks (t₁.gpr .rdi) Task.currentRsp := got.rax
    rw [value, data₁, rdi₁, field, found]
    rfl
  have data₂ : t₂.data = t.data := by
    have kept : t₂.data = t₁.data := got.data
    rw [kept, data₁]
  replace run := run_seq run
  generalize moved : (Instr.movToRsp .rax : Instr SwitchFn).step (helper w) t₂ = t₃ at run
  have after : t₃.rsp = task.currentRsp ∧ t₃.cr3 = t₂.cr3 ∧ t₃.space = t₂.space ∧ t₃.gpr = t₂.gpr ∧ t₃.data = t₂.data := by
    subst t₃
    exact ⟨saved, rfl, rfl, rfl, rfl⟩
  obtain ⟨rsp₃, cr₃, space₃, gpr₃, data₃⟩ := after
  obtain ⟨t₄, run, flagged⟩ := run_call run (by omega)
  replace run := run_seq run
  have flags : t₄.gpr .rax = task.flags.toNat := by
    have value : t₄.gpr .rax = field t₃.data.tasks (t₃.gpr .rdi) fun task => task.flags.toNat := flagged.rax
    rw [value, data₃, data₂, gpr₃, got.rdi, rdi₁, field, found]
    rfl
  have set : ¬ ((Instr.and .rax 2 : Instr SwitchFn).step (helper w) t₄).zero = true := by
    intro zero
    have clear : t₄.gpr .rax &&& 2 = 0 := of_decide_eq_true zero
    rw [flags] at clear
    exact new (UInt8.toNat_inj.mp ((UInt8.toNat_and task.flags taskFirstExec).trans clear))
  replace run := run.trans (if_neg set)
  have cr₄ : t₄.cr3 = task.pml4Addr := by rw [flagged.cr3, cr₃, got.cr3, cr₁]
  refine ⟨_, run, flagged.rsp.trans rsp₃, ?_, ?_, cr₄, fun tree' other => ?_⟩
  · show t₄.gpr .r15 = b
    rw [flagged.r15, gpr₃, got.r15, r15₁]
  · have kept : t₄.data = t₃.data := flagged.data
    show t₄.data = _
    rw [kept, data₃, data₂]
  · show t₄.space tree' = _
    rw [flagged.others tree' (by rw [cr₃, got.cr3, cr₁]; exact other), space₃,
      got.others tree' (by rw [cr₁]; exact other), space₁]

/-- The timer interrupt that selects a task for the first time starts its program in ring 3, at its entry point, with
the arguments of its record and nothing else in the registers, and clears `TASK_FIRST_EXEC`; no third task's memory
changes. -/
theorem timerIsr_enters_program {b : Nat} {tasks : Tasklist} {task : Task} (room : 256 ≤ s.rsp)
    (deep : 256 ≤ task.currentRsp) (entry : task.entryPoint < 2 ^ 64) (allowed : s.data.canTaskSwitch = true)
    (chosen : taskSelect s.data.cpu (2 ^ 64) (afterSetRsp s).tasks = .ok (b, tasks))
    (found : getTask tasks b = some task) (new : task.flags &&& taskFirstExec ≠ 0) :
    EntersProgram task ((timerIsr next).run (helper w) s) ∧
      getTask ((timerIsr next).run (helper w) s).data.tasks b = some task.entered ∧
      (∀ pid ≠ b, getTask ((timerIsr next).run (helper w) s).data.tasks pid = getTask tasks pid) ∧
      ∀ tree, tree ≠ s.cr3 → tree ≠ task.pml4Addr → ((timerIsr next).run (helper w) s).space tree = s.space tree := by
  obtain ⟨t, leaves, rsp, root, pid, data, others⟩ := timerIsr_leaves (w := w) next room allowed chosen
  have address : t.gpr .rax = task.pml4Addr := by
    rw [root, field, found]
    rfl
  obtain ⟨last, enters, depth, r15, same, cr3, others'⟩ := enterTask_first (w := w) next (by omega) (by omega) pid
    (by rw [data]; exact found) address new
  have there : getTask last.data.tasks b = some task := by rw [same, data]; exact found
  obtain ⟨program, after, others''⟩ := firstExec_run (w := w) next (by omega) r15 there cr3 entry
  rw [leaves.trans enters]
  refine ⟨program, ?_, fun other away => ?_, fun tree out away => ?_⟩
  · rw [after, getTask, vectorAt]
    rw [getTask, vectorAt] at there
    simp [updateTask, there]
  · rw [after, ← data, ← same, getTask, vectorAt, getTask, vectorAt]
    simp [updateTask, Ne.symm away]
  · rw [others'' tree (by rw [cr3]; exact away), others' tree away, others tree out]

end entry

/-! ### A new task -/

/-- What the switch reads of it is as `spawn` leaves it, with two arguments of one letter. -/
def launchedTask : Task :=
  { suspendedTask 0x700000000000 with
    flags := taskPresent ||| taskFirstExec
    entryPoint := 0x400000
    argc := 2
    argv := 0x700000001004 }

def launchTasks : Tasklist :=
  { twoUserTasks 0 with list := { (twoUserTasks 0).list with nodes := (twoUserTasks 0).list.nodes.take 2 ++ [launchedTask] } }

def launchEntry : State SwitchData := { timerEntry 0 with data := { tasks := launchTasks, cpu := 0, canTaskSwitch := true } }

theorem launchEntry_select : taskSelect 0 (2 ^ 64) (afterSetRsp launchEntry).tasks =
    .ok (2, markRunning (candidateState (afterSetRsp launchEntry).tasks 0) 2) := by
  have take : selectSection 0 (afterSetRsp launchEntry).tasks =
      .ok (some 2, markRunning (candidateState (afterSetRsp launchEntry).tasks 0) 2) :=
    section_take (Nat.le_refl 1) (Nat.le_succ 2) (by show 3 ≠ 1; decide)
      ⟨launchedTask, rfl, by show (taskPresent ||| taskFirstExec) &&& taskPresent ≠ 0; decide,
        by show ¬ (taskPresent ||| taskFirstExec) &&& taskRunning ≠ 0; decide⟩
  have first : ∀ fuel, taskSelect 0 (fuel + 1) (afterSetRsp launchEntry).tasks =
      .ok (2, markRunning (candidateState (afterSetRsp launchEntry).tasks 0) 2) := by
    intro fuel
    rw [taskSelect, bind_eq take]
    rfl
  exact first (2 ^ 64 - 1)

theorem timerIsr_enters_program_launched :
    EntersProgram { launchedTask with flags := launchedTask.flags ||| taskRunning }
      ((timerIsr fun _ => 0).run (helper ⟨fun _ _ m => m, fun _ _ => 0, fun _ _ _ _ _ => rfl⟩) launchEntry) :=
  (timerIsr_enters_program (s := launchEntry) (by decide) (by decide) (by decide) rfl launchEntry_select rfl (by decide)).1

end PotatOS.Tasks
