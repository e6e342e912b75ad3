import PotatOS.Tasks.Exhaustion
import PotatOS.Tasks.Rotation

/-!
# How often a core switches tasks

The index of a core only grows, and it stays below the number of tasks. So the
frames that the page trees take bound the selections as well.
-/

namespace PotatOS.Tasks

open Mem Prog

theorem Still.refl (t : Tasklist) : Still t t := ⟨Nat.le_refl _, rfl⟩

theorem Still.trans {t₁ t₂ t₃ : Tasklist} (first : Still t₁ t₂) (second : Still t₂ t₃) : Still t₁ t₃ :=
  ⟨first.1.trans second.1, second.2.trans first.2⟩

theorem Still.index {t t' : Tasklist} (still : Still t t') (cpu : Nat) : currentIndex t' cpu = currentIndex t cpu := by
  rw [currentIndex, still.2]
  rfl

section calls

variable {kmalloc : Owner → Nat → KernelM Nat} {φ : Type} {fs : FileAccess φ} {s s' : System φ} {cpu r : Nat}

theorem still_startTask {buffer root argSize argc : Nat} {image : Image}
    (h : startTask fs cpu buffer root argSize argc image s = .ok ((), s')) : Still s.tasks s'.tasks := by
  unfold startTask at h
  rw [bind_eq run_get] at h
  obtain ⟨pid, t₁, creates, h⟩ := bind_onTasks_ok h
  obtain ⟨_, t₂, adopts, h⟩ := bind_onTasks_ok h
  obtain ⟨_, k, _, h⟩ := bind_onKernel_ok h
  obtain ⟨stdin, s₁, opens₁, h⟩ := bind_ok h
  obtain ⟨stdout, s₂, opens₂, h⟩ := bind_ok h
  obtain ⟨stderr, s₃, opens₃, h⟩ := bind_ok h
  obtain ⟨t, modifies, rfl⟩ := onTasks_ok h
  rw [(openAt_ok opens₃).2, (openAt_ok opens₂).2, (openAt_ok opens₁).2] at modifies
  exact ((still_createTask creates).trans (still_adoptTask adopts)).trans (still_modifyTask modifies)

theorem still_spawn {path : List UInt8} {argv : List (List UInt8)} (h : spawn kmalloc fs cpu path argv s = .ok (r, s')) :
    Still s.tasks s'.tasks := by
  rcases spawn_cases h with ⟨_, same⟩ | ⟨_, _, reads, _, _, _, _, starts⟩
  · rw [same]
    apply Still.refl
  · have moved := still_startTask starts
    dsimp only at moved
    rw [readProgram_tasks reads] at moved
    exact moved

theorem still_advanced (t : Tasklist) (pid addr length : Nat) : Still t (advanced t pid addr length) := by
  unfold advanced
  split
  · simp [Still, Vec.length]
  · apply Still.refl

theorem still_syscallMmap {addr length prot flags fd offset : Nat}
    (h : syscallMmap kmalloc fs cpu addr length prot flags fd offset s = .ok (r, s')) : Still s.tasks s'.tasks := by
  obtain ⟨task, found⟩ := syscallMmap_task h
  rcases Nat.eq_zero_or_pos length with rfl | positive
  · unfold syscallMmap at h
    rw [bind_eq run_get, found] at h
    dsimp only at h
    rw [if_pos rfl] at h
    obtain ⟨_, k, _, h⟩ := bind_onKernel_ok h
    obtain ⟨_, rfl⟩ := pure_ok h
    apply Still.refl
  · rw [syscallMmap_eq positive found] at h
    obtain ⟨_, _, _, _, steps⟩ := mmapAt_steps h
    rw [steps.tasks]
    apply still_advanced

end calls

/-! ### Selections -/

section selections

variable {s s' : Tasklist} {cpu fuel pid : Nat}

/-- Core `cpu` went on to another task, and no other core did. -/
structure MovesOn (cpu : Nat) (s s' : Tasklist) : Prop where
  onward : currentIndex s cpu < currentIndex s' cpu
  inside : currentIndex s' cpu < s'.list.length
  others : ∀ other ≠ cpu, currentIndex s' other = currentIndex s other
  grown : Grown s s'

theorem section_movesOn {r : Option Nat} (known : cpu < s.currentTasks.length) (many : 2 ≤ s.list.length)
    (h : selectSection cpu s = .ok (r, s')) : MovesOn cpu s s' := by
  obtain ⟨index, more, others, _⟩ := section_moves known many h
  have grown := grown_selectSection h
  refine ⟨by omega, ?_, others, grown⟩
  rw [index]
  exact Nat.lt_of_lt_of_le more grown.1

theorem taskSelect_movesOn (known : cpu < s.currentTasks.length) (many : 2 ≤ s.list.length)
    (h : taskSelect cpu fuel s = .ok (pid, s')) : MovesOn cpu s s' := by
  induction fuel generalizing s with
  | zero => exact (stop_ok h).elim
  | succ fuel ih =>
    rw [taskSelect] at h
    obtain ⟨r, s₁, section₁, h⟩ := bind_ok h
    have first := section_movesOn known many section₁
    cases r with
    | some taken =>
      obtain ⟨_, rfl⟩ := pure_ok h
      exact first
    | none =>
      -- The task there is taken or gone, and the core tries the next one.
      have rest := ih (by rw [first.grown.2]; exact known) (many.trans first.grown.1) h
      exact ⟨first.onward.trans rest.onward, rest.inside,
        fun other away => (rest.others other away).trans (first.others other away),
        first.grown.trans rest.grown⟩

end selections

/-! ### Runs -/

section runs

variable {φ : Type} {fs : FileAccess φ} {s s' : System φ} {cpu n : Nat}

/-- A run with the number of selections that core `cpu` made. Only selections move a core. -/
inductive SwitchRun (A : PageAllocator) (fs : FileAccess φ) (cpu : Nat) (start : System φ) : System φ → Nat → Prop where
  | start : SwitchRun A fs cpu start start 0
  | switch {s s' : System φ} {n : Nat} (before : SwitchRun A fs cpu start s n)
      (h : (Life.select cpu).run A.kmalloc fs s = .ok ((), s')) : SwitchRun A fs cpu start s' (n + 1)
  | other {s s' : System φ} {n : Nat} {life : Life φ} (before : SwitchRun A fs cpu start s n) (mild : Mild fs A s life)
      (away : ∀ core, life = .select core → core ≠ cpu ∧ core < s.tasks.currentTasks.length)
      (moves : ∀ currentTasks, life ≠ .call (.schedule currentTasks)) (h : life.run A.kmalloc fs s = .ok ((), s')) :
      SwitchRun A fs cpu start s' n

theorem SwitchRun.lifeRun {A : PageAllocator} (run : SwitchRun A fs cpu s s' n) : LifeRun fs A s s' := by
  induction run with
  | start => exact .refl
  | switch before h ih => exact ih.tail ⟨.select cpu, trivial, h⟩
  | other before mild _ _ h ih => exact ih.tail ⟨_, mild, h⟩

theorem select_movesOn {kmalloc : Owner → Nat → KernelM Nat} (known : cpu < s.tasks.currentTasks.length)
    (many : 2 ≤ s.tasks.list.length) (h : (Life.select cpu).run kmalloc fs s = .ok ((), s')) :
    MovesOn cpu s.tasks s'.tasks := by
  obtain ⟨pid, t, selects, h⟩ := bind_onTasks_ok h
  obtain ⟨_, rfl⟩ := pure_ok h
  exact taskSelect_movesOn known many selects

/-- Anything but a selection leaves the cores where they are. -/
theorem life_still {kmalloc : Owner → Nat → KernelM Nat} {life : Life φ} (away : ∀ core, life ≠ .select core)
    (moves : ∀ currentTasks, life ≠ .call (.schedule currentTasks)) (h : life.run kmalloc fs s = .ok ((), s')) :
    Still s.tasks s'.tasks := by
  cases life with
  | call c =>
    cases c with
    | spawn cpu path argv =>
      obtain ⟨_, s₁, call, h⟩ := bind_ok h
      obtain ⟨_, rfl⟩ := pure_ok h
      exact still_spawn call
    | mmap cpu addr length prot flags fd offset =>
      obtain ⟨_, s₁, call, h⟩ := bind_ok h
      obtain ⟨_, rfl⟩ := pure_ok h
      exact still_syscallMmap call
    | schedule currentTasks => exact absurd rfl (moves currentTasks)
    | other files =>
      obtain rfl := modify_ok h
      apply Still.refl
  | exit cpu exitCode =>
    obtain ⟨t, exits, rfl⟩ := onTasks_ok h
    exact still_syscallExit exits
  | select cpu => exact absurd rfl (away cpu)
  | malloc size =>
    obtain ⟨p, k, _, h⟩ := bind_onKernel_ok h
    obtain ⟨_, rfl⟩ := pure_ok h
    apply Still.refl
  | free p =>
    obtain ⟨k, _, rfl⟩ := onKernel_ok h
    apply Still.refl

/-- After `n` selections the index is at least `n`, and behind it there is a task. -/
structure Advanced (cpu n : Nat) (t : Tasklist) : Prop where
  many : 2 ≤ t.list.length
  known : cpu < t.currentTasks.length
  onward : n ≤ currentIndex t cpu
  inside : n = 0 ∨ currentIndex t cpu < t.list.length

namespace Advanced

variable {t t' : Tasklist}

theorem own (before : Advanced cpu n t) (moved : MovesOn cpu t t') : Advanced cpu (n + 1) t' := by
  have onward := before.onward
  have further := moved.onward
  exact ⟨before.many.trans moved.grown.1, by rw [moved.grown.2]; exact before.known, by omega, .inr moved.inside⟩

theorem other (before : Advanced cpu n t) (grown : Grown t t') (index : currentIndex t' cpu = currentIndex t cpu) :
    Advanced cpu n t' := by
  refine ⟨before.many.trans grown.1, by rw [grown.2]; exact before.known, by rw [index]; exact before.onward, ?_⟩
  rw [index]
  exact before.inside.imp id fun inside => Nat.lt_of_lt_of_le inside grown.1

end Advanced

theorem SwitchRun.advanced {A : PageAllocator} (many : 2 ≤ s.tasks.list.length) (known : cpu < s.tasks.currentTasks.length)
    (run : SwitchRun A fs cpu s s' n) : Advanced cpu n s'.tasks := by
  induction run with
  | start => exact ⟨many, known, Nat.zero_le _, .inl rfl⟩
  | switch before h ih => exact ih.own (select_movesOn ih.known ih.many h)
  | @other s₁ s₂ n life before mild away moves h ih =>
    by_cases selects : ∃ core, life = .select core
    · obtain ⟨core, rfl⟩ := selects
      obtain ⟨unlike, inside⟩ := away core rfl
      have moved := select_movesOn inside ih.many h
      exact ih.other moved.grown (moved.others cpu (Ne.symm unlike))
    · have still := life_still (fun core same => selects ⟨core, same⟩) moves h
      exact ih.other ⟨still.1, by rw [still.2]⟩ (still.index cpu)

/-- From two tasks on, a core selects a task at most so many times before `task_select` finds no task any more,
however many exit and however much memory the machine has. -/
theorem few_switches (ok : SpacesOk pmm s.kernel (spaces s.tasks)) (upper : UpperMap s.kernel)
    (window : DirectWindow s.kernel.hhdm s.kernel.memmap) (many : 2 ≤ s.tasks.list.length)
    (known : cpu < s.tasks.currentTasks.length) (run : SwitchRun pmm fs cpu s s' n) :
    n < s.tasks.list.length + 511 := by
  have few := ((Peopled.start ok upper (.of_window ok.ready window)).run run.lifeRun).few
  have advanced := run.advanced many known
  have onward := advanced.onward
  rcases advanced.inside with none | inside
  · omega
  · omega

end runs

/-- The core goes over to the task that was spawned. -/
theorem few_switches_plainElf : ∃ k a b s', twoTrees pmm.kmalloc highMachineReady = .ok ((a, b), k) ∧
    SwitchRun pmm plainFiles 0 (twoTasks k a b) s' 1 ∧ currentIndex s'.tasks 0 = 2 ∧
    1 < (twoTasks k a b).tasks.list.length + 511 := by
  have check : returns (twoTrees pmm.kmalloc) highMachineReady (fun r k =>
      returns (spawn pmm.kmalloc plainFiles 0 [82, 58, 47, 97] []) (twoTasks k r.1 r.2) fun error s =>
        error == 0 && returns ((Life.select 0).run pmm.kmalloc plainFiles) s
          fun _ s' => currentIndex s'.tasks 0 == 2) = true := by
    decide +kernel
  obtain ⟨⟨a, b⟩, k, trees, check⟩ := returns_iff.mp check
  obtain ⟨error, s₁, spawned, check⟩ := returns_iff.mp check
  obtain ⟨zero, check⟩ := Bool.and_eq_true_iff.mp check
  obtain ⟨_, s₂, selected, index⟩ := returns_iff.mp check
  obtain rfl := beq_iff_eq.mp zero
  obtain ⟨ok, _⟩ := twoTrees_ok highMachineReady_ready
    (by simp [highMachineReady, highMachine, bootMachine, smallMachine]) trees
  obtain ⟨upper, window⟩ := twoTrees_setup trees
  have stored : Stored plainFiles (twoTasks k a b) 0 [82, 58, 47, 97] plainElf := stored_filesOf _ _ _ _
  have step : (Life.call (.spawn 0 [82, 58, 47, 97] [])).run pmm.kmalloc plainFiles (twoTasks k a b) = .ok ((), s₁) :=
    (bind_eq spawned).trans rfl
  have mild : Mild plainFiles pmm (twoTasks k a b) (.call (.spawn 0 [82, 58, 47, 97] [])) :=
    .inr ⟨plainElf, stored, plainElf_inBounds, by decide⟩
  have away : ∀ core, (Life.call (.spawn 0 [82, 58, 47, 97] []) : Life Unit) = .select core →
      core ≠ 0 ∧ core < (twoTasks k a b).tasks.currentTasks.length := by
    intro core same
    cases same
  have moves : ∀ currentTasks,
      (Life.call (.spawn 0 [82, 58, 47, 97] []) : Life Unit) ≠ .call (.schedule currentTasks) := by
    intro currentTasks same
    cases same
  have run : SwitchRun pmm plainFiles 0 (twoTasks k a b) s₂ 1 := .switch (.other .start mild away moves step) selected
  exact ⟨k, a, b, s₂, trees, run, beq_iff_eq.mp index,
    few_switches (s := twoTasks k a b) ok upper window (Nat.le_refl 2) Nat.zero_lt_one run⟩

end PotatOS.Tasks
