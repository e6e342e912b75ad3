import PotatOS.Lib.Interrupts
import PotatOS.Tasks.Switch
import PotatOS.Tasks.Exit

/-!
# A task between two timer interrupts

The first interrupt leaves the registers of the running task on the task's own
kernel stack, the second one finds them there. What happens in between may use
any other page tree.
-/

namespace PotatOS.Tasks

open Memory Cpu Mem Prog

section suspend

variable {w : Scratch} {next : SwitchFn → Nat} {s t : State SwitchData}

/-- The instructions that keep the page tree and the saved stack pointers. -/
def quiet : Instr SwitchFn → Bool
  | .movToCr3 _ | .callTable .. => false
  | .call f _ => f ≠ .taskSetRsp ∧ f ≠ .taskSelect
  | _ => true

/-- What a task that does not run has in its tree and in its record. -/
structure Asleep (tree : Nat) (m : Mem) (pid : Nat) (rsp : Option Nat) (s : State SwitchData) : Prop where
  cr3 : tree ≠ s.cr3
  stack : s.space tree = m
  saved : (getTask s.data.tasks pid).map Task.currentRsp = rsp

theorem savedRsp_update {d : SwitchData} {pid b : Nat} {f : Task → Task} (same : ∀ task, (f task).currentRsp = task.currentRsp) :
    (getTask (updateTask d b f).tasks pid).map Task.currentRsp = (getTask d.tasks pid).map Task.currentRsp := by
  show ((d.tasks.list.nodes.modify b f)[pid]?).map Task.currentRsp = (d.tasks.list.nodes[pid]?).map Task.currentRsp
  rw [List.getElem?_modify]
  cases d.tasks.list.nodes[pid]? with
  | none => split <;> rfl
  | some task =>
    split
    · exact congrArg some (same task)
    · rfl

theorem savedRsp_value {f : SwitchFn} {rdi rsi : Nat} {d : SwitchData} {pid : Nat} (first : f ≠ .taskSetRsp)
    (second : f ≠ .taskSelect) :
    (getTask (f.value rdi rsi d).2.tasks pid).map Task.currentRsp = (getTask d.tasks pid).map Task.currentRsp := by
  cases f with
  | taskSetRsp => exact absurd rfl first
  | taskSelect => exact absurd rfl second
  | taskDisableFirstExec => exact savedRsp_update fun _ => rfl
  | _ => rfl

theorem asleep_step {tree pid : Nat} {m : Mem} {rsp : Option Nat} {i : Instr SwitchFn} (calm : quiet i = true)
    (asleep : Asleep tree m pid rsp s) : Asleep tree m pid rsp (i.step (helper w) s) := by
  cases i with
  | push r => exact ⟨asleep.cr3, (if_neg asleep.cr3).trans asleep.stack, asleep.saved⟩
  | pushImm n => exact ⟨asleep.cr3, (if_neg asleep.cr3).trans asleep.stack, asleep.saved⟩
  | call f n =>
    have pushed : (s.push n).space tree = m := (if_neg asleep.cr3).trans asleep.stack
    obtain ⟨first, second⟩ : f ≠ .taskSetRsp ∧ f ≠ .taskSelect := of_decide_eq_true calm
    exact ⟨asleep.cr3, (helper_others f (s.push n) asleep.cr3).trans pushed, (savedRsp_value first second).trans asleep.saved⟩
  | movToCr3 r => cases calm
  | callTable table r n => cases calm
  | _ => exact ⟨asleep.cr3, asleep.stack, asleep.saved⟩

/-- `enterTask` behind `mov cr3`. -/
theorem enterTask_asleep (w : Scratch) (next : SwitchFn → Nat) {tree pid : Nat} {m : Mem} {rsp : Option Nat}
    (other : tree ≠ s.gpr .rax) (stack : s.space tree = m) (saved : (getTask s.data.tasks pid).map Task.currentRsp = rsp) :
    Asleep tree m pid rsp ((enterTask next).run (helper w) s) := by
  obtain ⟨rest, shape⟩ : ∃ rest, enterTask next = .seq (.movToCr3 .rax) rest ∧ rest.instrs.all quiet = true := ⟨_, rfl, rfl⟩
  rw [shape.1]
  refine run_keeps (helper w) rest (fun i listed s asleep => asleep_step (List.all_eq_true.mp shape.2 i listed) asleep)
    (fun s asleep => ⟨⟨asleep.cr3, asleep.stack, asleep.saved⟩, ⟨asleep.cr3, asleep.stack, asleep.saved⟩⟩) ?_
  exact ⟨other, stack, saved⟩

theorem quiet_cr3 {i : Instr SwitchFn} (calm : quiet i = true) : (i.step (helper w) s).cr3 = s.cr3 := by
  cases i with
  | movToCr3 r => cases calm
  | callTable table r n => cases calm
  | _ => rfl

theorem enterTask_cr3 : ((enterTask next).run (helper w) s).cr3 = s.gpr .rax := by
  obtain ⟨rest, shape⟩ : ∃ rest, enterTask next = .seq (.movToCr3 .rax) rest ∧ rest.instrs.all quiet = true := ⟨_, rfl, rfl⟩
  rw [shape.1]
  exact run_keeps (P := fun t => t.cr3 = s.gpr .rax) (helper w) rest
    (fun i listed t same => (quiet_cr3 (List.all_eq_true.mp shape.2 i listed)).trans same) (fun t same => ⟨same, same⟩) rfl

/-- Up to `mov cr3`, the pushed registers stay where they are. -/
structure AtDepth (s t : State SwitchData) : Prop where
  rsp : t.rsp = s.rsp
  cr3 : t.cr3 = s.cr3
  above : ∀ x, s.rsp ≤ x → t.mem x = s.mem x

theorem AtDepth.trans {u : State SwitchData} (first : AtDepth s t) (second : AtDepth t u) : AtDepth s u :=
  ⟨second.rsp.trans first.rsp, second.cr3.trans first.cr3,
    fun x high => (second.above x (by rw [first.rsp]; exact high)).trans (first.above x high)⟩

theorem AfterCall.atDepth {f : SwitchFn} (call : AfterCall f s t) : AtDepth s t := ⟨call.rsp, call.cr3, call.above⟩

variable (w next) in
theorem timerIsr_saves {b : Nat} {tasks : Tasklist} (room : 256 ≤ s.rsp) (allowed : s.data.canTaskSwitch = true)
    (chosen : taskSelect s.data.cpu (2 ^ 64) (afterSetRsp s).tasks = .ok (b, tasks)) :
    ∃ t, (timerIsr next).run (helper w) s = (enterTask next).run (helper w) t ∧ t.gpr .rax = field tasks b Task.pml4Addr ∧
      t.data.tasks = tasks ∧ AtDepth (pushAll allRegs s) t := by
  have depth : (pushAll allRegs s).rsp = s.rsp - 120 := pushAll_rsp allRegs s
  have run := run_block (helper w) (allRegs.map Instr.push) (.block
    [.call .pitDecrementCounter (next .pitDecrementCounter),
      .call .checkTaskSwitchAllowed (next .checkTaskSwitchAllowed), .test .rax]
    (.jz (cannotTaskSwitch next) (leaveTask next))) s
  have pushed : (allRegs.map Instr.push).foldl (fun s i => i.step (helper w) s) s = pushAll allRegs s := List.foldl_map
  rw [pushed] at run
  have data := pushAll_data (s := s) allRegs
  generalize pushAll allRegs s = s₀ at *
  obtain ⟨s₁, run, counted⟩ := run_call run (by omega)
  have rsp₁ := counted.rsp
  obtain ⟨s₂, run, checked⟩ := run_call run (by omega)
  have rsp₂ := checked.rsp
  have data₁ : s₁.data = s.data := counted.data.trans data
  have data₂ : s₂.data = s.data := checked.data.trans data₁
  have yes : ¬ ((Instr.test .rax : Instr SwitchFn).step (helper w) s₂).zero = true := by
    intro zero
    have value : s₁.data.canTaskSwitch.toNat = 0 := checked.rax.symm.trans (of_decide_eq_true zero)
    rw [data₁, allowed] at value
    cases value
  replace run := (run_seq run).trans (if_neg yes)
  obtain ⟨s₃, run, current⟩ := run_call run (by show 8 ≤ s₂.rsp; omega)
  have rsp₃ : s₃.rsp = s₂.rsp := current.rsp
  replace run := run_seq (run_seq run)
  have index : s₃.gpr .rax = currentIndex s.data.tasks s.data.cpu := by rw [← data₂]; exact current.rax
  obtain ⟨s₄, run, saved⟩ := run_call run (by show 8 ≤ s₃.rsp; omega)
  have rsp₄ : s₄.rsp = s₃.rsp := saved.rsp
  have data₄ : s₄.data = afterSetRsp s := by
    have stored : s₄.data = updateTask s₃.data (s₃.gpr .rax) fun task => { task with currentRsp := s₃.rsp } := saved.data
    have level : s₃.rsp = s.rsp - 120 := by omega
    rw [stored, index, level, current.data.trans data₂]
    rfl
  obtain ⟨s₅, run, selected⟩ := run_call run (by omega)
  have select : SwitchFn.value (s₄.gpr .rdi) (s₄.gpr .rsi) s₄.data .taskSelect = (b, { afterSetRsp s with tasks }) := by
    rw [data₄]
    exact value_taskSelect chosen
  have pid : s₅.gpr .rax = b := by rw [selected.rax, select]
  have data₅ : s₅.data.tasks = tasks := by rw [selected.data, select]
  replace run := run_seq (run_seq run)
  obtain ⟨s₆, run, mapped⟩ := run_call run (by show 8 ≤ s₅.rsp; rw [selected.rsp]; omega)
  refine ⟨s₆, run, ?_, ?_, ?_⟩
  · have root : s₆.gpr .rax = field s₅.data.tasks (s₅.gpr .rax) Task.pml4Addr := mapped.rax
    rw [root, data₅, pid]
  · have kept : s₆.data = s₅.data := mapped.data
    rw [kept, data₅]
  · have first : AtDepth s₀ s₂ := counted.atDepth.trans checked.atDepth
    have second : AtDepth s₂ s₃ := ⟨current.rsp, current.cr3, current.above⟩
    have third : AtDepth s₃ s₄ := ⟨saved.rsp, saved.cr3, saved.above⟩
    have last : AtDepth s₅ s₆ := ⟨mapped.rsp, mapped.cr3, mapped.above⟩
    exact ((first.trans (second.trans third)).trans selected.atDepth).trans last

theorem taskSelect_savedRsp {cpu fuel b : Nat} {tasks tasks' : Tasklist} (pid : Nat)
    (h : taskSelect cpu fuel tasks = .ok (b, tasks')) :
    (getTask tasks' pid).map Task.currentRsp = (getTask tasks pid).map Task.currentRsp := by
  have same : settled tasks' = settled tasks := by
    by_cases alone : tasks.list.length = 1
    · exact (taskSelect_alone alone h).1
    · exact (taskSelect_settled alone h).1
  have views : ∀ t : Tasklist, (getTask t pid).map Task.currentRsp = ((settled t)[pid]?).map Task.currentRsp := by
    intro t
    rw [settled_get, Option.map_map]
    rfl
  rw [views, views, same]

/-- The registers and the frame of the interrupted code, from the saved stack pointer on. -/
theorem suspended_stack (gate : Gate) {rsp0 : Nat} (words : Words s) (room : 256 ≤ s.frameTop rsp0) :
    (pushAll allRegs (s.interrupt gate rsp0 none)).stack 20 =
      allRegs.reverse.map s.gpr ++ [s.rip, s.cs, s.rflags, s.rsp, s.ss] := by
  have frame := interrupt_stack gate none (s := s) words (fun _ absent => by simp at absent) (Nat.le_trans (by decide) room)
  have regs := (interrupt_kept (s := s) gate none rsp0).1
  have rsp := interrupt_rsp (s := s) gate none rsp0
  rw [Option.toList_none, List.length_nil, Nat.zero_add, List.nil_append] at frame
  rw [Option.toList_none, List.length_nil, Nat.zero_add] at rsp
  generalize s.interrupt gate rsp0 none = e at frame regs rsp
  rw [pushAll_eq_pushes, regs]
  have small : ∀ v ∈ allRegs.map s.gpr, v < 2 ^ 64 := by
    intro v listed
    obtain ⟨r, _, rfl⟩ := List.mem_map.mp listed
    exact words.gpr r
  have pushed := stack_pushes (n := 5) (s := e) (by show 8 * 15 ≤ e.rsp; omega) small
  rw [frame, ← List.map_reverse] at pushed
  exact pushed

variable (w next) in
/-- After the switch to a task with a tree of its own. -/
theorem timerIsr_suspends {a b : Nat} {tasks : Tasklist} {running : Task} (room : 256 ≤ s.rsp)
    (allowed : s.data.canTaskSwitch = true) (current : a = currentIndex s.data.tasks s.data.cpu)
    (there : getTask s.data.tasks a = some running)
    (chosen : taskSelect s.data.cpu (2 ^ 64) (afterSetRsp s).tasks = .ok (b, tasks))
    (away : field tasks b Task.pml4Addr ≠ s.cr3) :
    (∀ x, s.rsp - 120 ≤ x → ((timerIsr next).run (helper w) s).space s.cr3 x = (pushAll allRegs s).mem x) ∧
      (getTask ((timerIsr next).run (helper w) s).data.tasks a).map Task.currentRsp = some (s.rsp - 120) := by
  obtain ⟨t, enters, root, data, depth⟩ := timerIsr_saves w next room allowed chosen
  have saved : (getTask t.data.tasks a).map Task.currentRsp = some (s.rsp - 120) := by
    rw [data, taskSelect_savedRsp _ chosen]
    subst current
    show ((s.data.tasks.list.nodes.modify _ _)[_]?).map Task.currentRsp = _
    rw [getTask, vectorAt] at there
    rw [List.getElem?_modify, there]
    simp
  have asleep := enterTask_asleep w next (show s.cr3 ≠ t.gpr .rax by rw [root]; exact away.symm) rfl saved
  have tree : (pushAll allRegs s).cr3 = s.cr3 := (pushAll_kept allRegs s).2.2
  have bottom : (pushAll allRegs s).rsp = s.rsp - 120 := pushAll_rsp allRegs s
  rw [enters]
  refine ⟨fun x high => ?_, asleep.saved⟩
  rw [asleep.stack, ← depth.above x (by rw [bottom]; exact high), State.mem, depth.cr3, tree]

/-- What other tasks leave alone while this one waits: its stack and its record. -/
structure Untouched (tree top pid : Nat) (s t : State SwitchData) : Prop where
  stack : ∀ x, top ≤ x → t.space tree x = s.space tree x
  record : (getTask t.data.tasks pid).map Task.currentRsp = (getTask s.data.tasks pid).map Task.currentRsp

/-- A task that the timer interrupts, and that a later timer interrupt selects again, goes on with the registers that it
was interrupted with. -/
theorem suspended_task_continues {w' : Scratch} {next' : SwitchFn → Nat} {gate : Gate} {rsp0 a b : Nat}
    {tasks tasks' : Tasklist} {running task : Task} (words : Words s) (room : 512 ≤ s.frameTop rsp0)
    (allowed : s.data.canTaskSwitch = true) (current : a = currentIndex s.data.tasks s.data.cpu)
    (there : getTask s.data.tasks a = some running)
    (chosen : taskSelect s.data.cpu (2 ^ 64) (afterSetRsp (s.interrupt gate rsp0 none)).tasks = .ok (b, tasks))
    (away : field tasks b Task.pml4Addr ≠ s.cr3)
    (between : Untouched s.cr3 ((s.interrupt gate rsp0 none).rsp - 120) a
      ((timerIsr next).run (helper w) (s.interrupt gate rsp0 none)) t)
    (room' : 256 ≤ t.rsp) (allowed' : t.data.canTaskSwitch = true) (elsewhere : t.cr3 ≠ s.cr3)
    (other : currentIndex t.data.tasks t.data.cpu ≠ a)
    (chosen' : taskSelect t.data.cpu (2 ^ 64) (afterSetRsp t).tasks = .ok (a, tasks'))
    (found : getTask tasks' a = some task) (tree : task.pml4Addr = s.cr3) (earlier : task.flags &&& taskFirstExec = 0)
    (level : t.rsp - 120 ≤ task.currentRsp) :
    let exit := (timerIsr next').run (helper w') t
    exit.gpr = s.gpr ∧ (exit.rip = s.rip ∧ exit.cs = s.cs ∧ exit.rflags = s.rflags ∧ exit.rsp = s.rsp ∧ exit.ss = s.ss) ∧
      exit.cr3 = s.cr3 ∧ ∀ x, s.frameTop rsp0 ≤ x → exit.mem x = s.mem x := by
  have kept := interrupt_kept (s := s) gate none rsp0
  have depth : (s.interrupt gate rsp0 none).rsp = s.frameTop rsp0 - 40 := interrupt_rsp gate none rsp0
  have words' := suspended_stack gate words (show 256 ≤ s.frameTop rsp0 by omega)
  have high : ∀ x, s.frameTop rsp0 ≤ x → (s.interrupt gate rsp0 none).mem x = s.mem x :=
    fun x above => interrupt_above gate none (by omega) above
  generalize s.interrupt gate rsp0 none = e at *
  obtain ⟨_, data, cr3⟩ := kept
  rw [← cr3] at away between elsewhere tree
  obtain ⟨stack, saved⟩ := timerIsr_suspends w next (by omega) (by rw [data]; exact allowed)
    (current.trans (by rw [data])) (by rw [data]; exact there) (by rw [data]; exact chosen) away
  -- The record still has the stack pointer of the first interrupt.
  have rsp : task.currentRsp = e.rsp - 120 := by
    have still : (getTask (afterSetRsp t).tasks a).map Task.currentRsp = (getTask t.data.tasks a).map Task.currentRsp := by
      show ((t.data.tasks.list.nodes.modify _ _)[a]?).map _ = (t.data.tasks.list.nodes[a]?).map _
      rw [List.getElem?_modify]
      simp [other]
    have chain := (taskSelect_savedRsp a chosen').trans (still.trans (between.record.trans saved))
    rw [found] at chain
    exact Option.some.inj chain
  have resumes : ResumesTask (t.space task.pml4Addr) task.currentRsp ((timerIsr next').run (helper w') t) :=
    timerIsr_resumes room' (by omega) allowed' chosen' found earlier (by rw [tree]; exact elsewhere.symm) level w'
  rw [tree, rsp] at resumes
  have same : ∀ x, e.rsp - 120 ≤ x → t.space e.cr3 x = (pushAll allRegs e).mem x := fun x above =>
    (between.stack x above).trans (stack x above)
  have bottom : (pushAll allRegs e).rsp = e.rsp - 120 := pushAll_rsp allRegs e
  have word : ∀ i v, (allRegs.reverse.map s.gpr ++ [s.rip, s.cs, s.rflags, s.rsp, s.ss])[i]? = some v →
      load (t.space e.cr3) (e.rsp - 120 + 8 * i) 8 = v := by
    intro i v found
    have inside : i < 20 := (List.getElem?_eq_some_iff.mp found).1
    rw [← words'] at found
    rw [← word_of_stack inside found, State.word, bottom]
    exact load_congr fun x there => same x (by have := there.1; omega)
  refine ⟨funext fun r => ?_, ⟨?_, ?_, ?_, ?_, ?_⟩, ?_, fun x above => ?_⟩
  · have place : allRegs.reverse[allRegs.reverse.idxOf r]? = some r := by cases r <;> rfl
    refine (resumes.gpr _ r place).trans (word _ _ ?_)
    cases r <;> rfl
  · exact resumes.rip.trans (word 15 _ rfl)
  · exact resumes.cs.trans (word 16 _ rfl)
  · exact resumes.rflags.trans (word 17 _ rfl)
  · exact resumes.rsp.trans (word 18 _ rfl)
  · exact resumes.ss.trans (word 19 _ rfl)
  · obtain ⟨u, enters, root, _⟩ := timerIsr_saves w' next' room' allowed' chosen'
    rw [enters, enterTask_cr3, root, field, found]
    exact tree.trans cr3
  · have pushed : (pushAll allRegs e).mem x = e.mem x := by
      rw [pushAll_eq_pushes]
      exact pushes_above (by show 8 * 15 ≤ e.rsp; omega) (by omega)
    rw [resumes.stack x (by omega), same x (by omega), pushed, high x above]

end suspend

/-! ### No switch -/

section stays

variable {w : Scratch} {next : SwitchFn → Nat} {s : State SwitchData} {gate : Gate} {rsp0 : Nat}

theorem popAll_data (regs : List Reg) : (popAll regs s).data = s.data := by
  induction regs generalizing s with
  | nil => rfl
  | cons r regs ih => exact ih (s := s.pop r)

/-- The timer interrupt is invisible to the code that it interrupts while switching is not allowed: only
`kernel.pit_counter`, no part of the data, is counted down. -/
theorem timerIsr_transparent (words : Words s) (room : 512 ≤ s.frameTop rsp0) (locked : s.data.canTaskSwitch = false) :
    let exit := (timerIsr next).run (helper w) (s.interrupt gate rsp0 none)
    exit.gpr = s.gpr ∧ (exit.rip = s.rip ∧ exit.cs = s.cs ∧ exit.rflags = s.rflags ∧ exit.rsp = s.rsp ∧ exit.ss = s.ss) ∧
      exit.cr3 = s.cr3 ∧ exit.data = s.data ∧ ∀ x, s.frameTop rsp0 ≤ x → exit.mem x = s.mem x := by
  have kept := interrupt_kept (s := s) gate none rsp0
  have depth : (s.interrupt gate rsp0 none).rsp = s.frameTop rsp0 - 40 := interrupt_rsp gate none rsp0
  have frame : (s.interrupt gate rsp0 none).stack 5 = [s.rip, s.cs, s.rflags, s.rsp, s.ss] :=
    interrupt_stack gate none words (fun _ absent => by simp at absent) (by omega)
  have high : ∀ x, s.frameTop rsp0 ≤ x → (s.interrupt gate rsp0 none).mem x = s.mem x :=
    fun x above => interrupt_above gate none (by omega) above
  generalize s.interrupt gate rsp0 none = e at *
  have run : (timerIsr next).run (helper w) e = _ := run_block (helper w) (allRegs.map Instr.push) (.block
    [.call .pitDecrementCounter (next .pitDecrementCounter),
      .call .checkTaskSwitchAllowed (next .checkTaskSwitchAllowed), .test .rax]
    (.jz (cannotTaskSwitch next) (leaveTask next))) e
  have pushed : (allRegs.map Instr.push).foldl (fun s i => i.step (helper w) s) e = pushAll allRegs e := List.foldl_map
  rw [pushed] at run
  have data := pushAll_data (s := e) allRegs
  have bottom : (pushAll allRegs e).rsp = e.rsp - 120 := pushAll_rsp allRegs e
  have cr3 := (pushAll_kept allRegs e).2.2
  obtain ⟨s₁, run, counted⟩ := run_call run (by omega)
  have rsp₁ := counted.rsp
  obtain ⟨s₂, run, checked⟩ := run_call run (by omega)
  have rsp₂ := checked.rsp
  have data₁ : s₁.data = s.data := (counted.data.trans data).trans kept.2.1
  have zero : ((Instr.test .rax : Instr SwitchFn).step (helper w) s₂).zero = true := by
    refine decide_eq_true ?_
    rw [checked.rax]
    show s₁.data.canTaskSwitch.toNat = 0
    rw [data₁, locked]
    rfl
  replace run := (run_seq run).trans (if_pos zero)
  obtain ⟨s₃, run, ended⟩ := run_call run (by show 8 ≤ s₂.rsp; omega)
  have same : AtDepth (pushAll allRegs e) s₃ :=
    (counted.atDepth.trans checked.atDepth).trans ⟨ended.rsp, ended.cr3, ended.above⟩
  have data₃ : s₃.data = s.data := by
    have last : s₃.data = s₂.data := ended.data
    have second : s₂.data = s₁.data := checked.data
    rw [last, second, data₁]
  have popped : (allRegs.reverse.map Instr.pop).foldl (fun s i => i.step (helper w) s) s₃ = popAll allRegs.reverse s₃ :=
    List.foldl_map
  rw [run_block, popped] at run
  obtain ⟨rsp, mem, gpr⟩ := popAll_pushAll (s := e) (t := s₃) allRegs (by show 120 ≤ e.rsp; omega)
    (by rw [kept.1]; exact words.gpr) (by decide) same.rsp fun x above => same.above x (by rw [← same.rsp]; exact above)
  have tree := (popAll_mem allRegs.reverse s₃).2.2
  have data₄ : (popAll allRegs.reverse s₃).data = s₃.data := popAll_data allRegs.reverse
  generalize popAll allRegs.reverse s₃ = last at *
  have back := iretq_of_stack ((stack_congr rsp mem).trans frame)
  rw [show (timerIsr next).run (helper w) e = last.iretq from run]
  obtain ⟨regs, root, work⟩ := iretq_kept last
  refine ⟨?_, back, ?_, by rw [work, data₄, data₃], fun x above => ?_⟩
  · rw [regs]
    funext r
    have all : r ∈ allRegs := by cases r <;> decide
    rw [gpr, if_pos all, kept.1]
  · rw [root, tree, same.cr3, cr3, kept.2.2]
  · rw [iretq_mem, mem x (by omega), high x above]

end stays

/-! ### One task on two cores -/

/-- The first user task in its program. -/
def interruptedTask : State SwitchData :=
  { timerEntry 0 with
    gpr := fun _ => 7, rsp := 0x6FFFFFFFFFF8, rip := 0x400000, cs := 0x1B, ss := 0x23, rflags := 0x202 }

def firstTimer : State SwitchData := interruptedTask.interrupt ⟨0, 8, true⟩ 0xFFFFFFFFFFFFF000 none

def noScratch : Scratch := ⟨fun _ _ m => m, fun _ _ => 0, fun _ _ _ _ _ => rfl⟩

/-- The second core, which had the kernel's task. -/
def secondTasks : Tasklist := { switchedTasks 0 with currentTasks := { dataSize := 8, nodes := [2, 0] } }

def secondTimer : State SwitchData :=
  { timerEntry 0 with
    rsp := 0xFFFFFFFFFFFFEFD8 - 64
    cr3 := 0
    space := ((timerIsr fun _ => 0).run (helper noScratch) firstTimer).space
    data := { tasks := secondTasks, cpu := 1, canTaskSwitch := true } }

theorem secondTimer_select : taskSelect 1 (2 ^ 64) (afterSetRsp secondTimer).tasks =
    .ok (1, markRunning (candidateState (afterSetRsp secondTimer).tasks 1) 1) := by
  have take : selectSection 1 (afterSetRsp secondTimer).tasks =
      .ok (some 1, markRunning (candidateState (afterSetRsp secondTimer).tasks 1) 1) :=
    section_take (by decide) (by decide) (by decide) (by decide)
  have first : ∀ fuel, taskSelect 1 (fuel + 1) (afterSetRsp secondTimer).tasks =
      .ok (1, markRunning (candidateState (afterSetRsp secondTimer).tasks 1) 1) := by
    intro fuel
    rw [taskSelect, bind_eq take]
    rfl
  exact first (2 ^ 64 - 1)

theorem suspended_task_continues_twoCores :
    ((timerIsr fun _ => 0).run (helper noScratch) secondTimer).gpr = interruptedTask.gpr := by
  have words : Words interruptedTask := ⟨by decide, by decide, by decide, by decide, by decide, fun _ => by show 7 < _; decide⟩
  have chosen : taskSelect 0 (2 ^ 64) (afterSetRsp firstTimer).tasks = .ok (2, switchedTasks 0) := timerEntry_select 0
  have left : field (switchedTasks 0) 2 Task.pml4Addr ≠ 0x1000 := by decide
  have first := timerIsr_suspends noScratch (fun _ => 0) (s := firstTimer) (a := 1) (by decide) rfl rfl rfl chosen left
  have between : Untouched 0x1000 (firstTimer.rsp - 120) 1 ((timerIsr fun _ => 0).run (helper noScratch) firstTimer)
      secondTimer := ⟨fun _ _ => rfl, first.2.symm⟩
  exact (suspended_task_continues (s := interruptedTask) words (by decide) rfl rfl rfl chosen left between (by decide) rfl
    (by decide) (by decide) secondTimer_select rfl rfl (by decide) (by decide)).1

def lockedTask : State SwitchData :=
  { interruptedTask with data := { tasks := twoUserTasks 0, cpu := 0, canTaskSwitch := false } }

theorem timerIsr_transparent_locked : ((timerIsr fun _ => 0).run (helper noScratch)
    (lockedTask.interrupt ⟨0, 8, true⟩ 0xFFFFFFFFFFFFF000 none)).gpr = lockedTask.gpr :=
  (timerIsr_transparent ⟨by decide, by decide, by decide, by decide, by decide, fun _ => by show 7 < _; decide⟩
    (by decide) rfl).1

end PotatOS.Tasks
