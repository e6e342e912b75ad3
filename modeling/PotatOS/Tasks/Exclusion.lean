import PotatOS.Tasks.Scheduler

/-!
# Cores that select tasks

Each core runs locked sections of `task_select` in any order. A section that
finds its candidate busy moves the core onto it, and the next section of that
core clears the running flag there, whoever set it.
-/

namespace PotatOS.Tasks

open Mem Prog

/-- The task list and the task that each core got last. -/
structure Cores where
  tasks : Tasklist
  held : Nat → Option Nat

/-- The cores after core `cpu` ran a section with result `r`. -/
def Cores.after (held : Nat → Option Nat) (cpu : Nat) (r : Option Nat) : Nat → Option Nat :=
  match r with
  | none => held
  | some pid => fun d => if d = cpu then some pid else held d

/-- No core holds a task, no task is running and every core is at index 0. -/
structure Idle (cpuCount : Nat) (s : Cores) : Prop where
  tasks : 2 ≤ s.tasks.list.length
  cores : s.tasks.currentTasks.nodes = List.replicate cpuCount 0
  idle : ∀ pid task, getTask s.tasks pid = some task → ¬ task.Running
  free : ∀ cpu, s.held cpu = none

/-- Interleavings of sections that meet `ok` when they start. -/
inductive SelectRun (cpuCount : Nat) (ok : Nat → Cores → Prop) (start : Cores) : Cores → Prop where
  | start : SelectRun cpuCount ok start start
  | step {s : Cores} (cpu : Nat) {r : Option Nat} {tasks' : Tasklist} (before : SelectRun cpuCount ok start s)
      (known : cpu < cpuCount) (meets : ok cpu s) (h : selectSection cpu s.tasks = .ok (r, tasks')) :
      SelectRun cpuCount ok start ⟨tasks', Cores.after s.held cpu r⟩

/-- No two cores hold the same present task. -/
def Exclusive (s : Cores) : Prop :=
  ∀ c d pid task, c ≠ d → s.held c = some pid → s.held d = some pid → getTask s.tasks pid = some task →
    ¬ task.Present

/-- The core's index is not at a task of another core, and its candidate is not
the last task of a core that has moved on and not got a new one. -/
def Undisturbed (cpu : Nat) (s : Cores) : Prop :=
  ∀ d ≠ cpu, ∀ pid, s.held d = some pid → pid ≠ currentIndex s.tasks cpu ∧
    (currentIndex s.tasks d ≠ pid → pid ≠ currentIndex s.tasks cpu + 1)

/-- A core that has not moved on keeps its task marked. -/
structure Guarded (cpuCount : Nat) (s : Cores) : Prop where
  tasks : 2 ≤ s.tasks.list.length
  cores : s.tasks.currentTasks.length = cpuCount
  index : ∀ cpu < cpuCount, currentIndex s.tasks cpu < s.tasks.list.length
  behind : ∀ cpu pid, s.held cpu = some pid → cpu < cpuCount ∧ pid ≤ currentIndex s.tasks cpu
  marked : ∀ cpu pid task, s.held cpu = some pid → currentIndex s.tasks cpu = pid →
    getTask s.tasks pid = some task → task.Running
  apart : ∀ c d pid, c ≠ d → s.held c = some pid → s.held d ≠ some pid

theorem Idle.guarded {cpuCount : Nat} {s : Cores} (idle : Idle cpuCount s) : Guarded cpuCount s := by
  have zero : ∀ cpu, currentIndex s.tasks cpu = 0 := by
    intro cpu
    rw [currentIndex, vectorAt, idle.cores, List.getElem?_replicate]
    split <;> rfl
  have tasks := idle.tasks
  refine ⟨idle.tasks, ?_, ?_, ?_, ?_, ?_⟩
  · rw [Vec.length, idle.cores, List.length_replicate]
  · intro cpu _
    rw [zero]
    omega
  · intro cpu pid held
    rw [idle.free] at held
    cases held
  · intro cpu pid task held
    rw [idle.free] at held
    cases held
  · intro c d pid _ held
    rw [idle.free] at held
    cases held

section step

variable {cpuCount cpu : Nat} {s : Cores}

/-- How a section ends on two or more tasks. -/
theorem selectSection_cases {r : Option Nat} {tasks' : Tasklist} (guarded : Guarded cpuCount s)
    (known : cpu < cpuCount) (h : selectSection cpu s.tasks = .ok (r, tasks')) :
    currentIndex s.tasks cpu + 1 < s.tasks.list.length ∧
      ((Selectable (candidateState s.tasks cpu) (currentIndex s.tasks cpu + 1) ∧
          some (currentIndex s.tasks cpu + 1) = r ∧
          markRunning (candidateState s.tasks cpu) (currentIndex s.tasks cpu + 1) = tasks') ∨
        (none = r ∧ candidateState s.tasks cpu = tasks')) := by
  have core : cpu < s.tasks.currentTasks.length := by rw [guarded.cores]; exact known
  have inside := guarded.index cpu known
  have tasks := guarded.tasks
  have many : s.tasks.list.length ≠ 1 := by omega
  by_cases last : currentIndex s.tasks cpu + 1 = s.tasks.list.length
  · rw [section_fault core inside many last] at h
    cases h
  · refine ⟨by omega, ?_⟩
    by_cases free : Selectable (candidateState s.tasks cpu) (currentIndex s.tasks cpu + 1)
    · rw [section_take core inside many free] at h
      obtain ⟨result, state⟩ := Prod.mk.inj (Except.ok.inj h)
      exact .inl ⟨free, result, state⟩
    · rw [section_skip core inside many (by omega) free] at h
      obtain ⟨result, state⟩ := Prod.mk.inj (Except.ok.inj h)
      exact .inr ⟨result, state⟩

theorem Guarded.skip (guarded : Guarded cpuCount s) (known : cpu < cpuCount) (calm : Undisturbed cpu s)
    (more : currentIndex s.tasks cpu + 1 < s.tasks.list.length) :
    Guarded cpuCount ⟨candidateState s.tasks cpu, s.held⟩ := by
  have core : cpu < s.tasks.currentTasks.length := by rw [guarded.cores]; exact known
  have self : currentIndex (candidateState s.tasks cpu) cpu = currentIndex s.tasks cpu + 1 :=
    currentIndex_moveTo core
  have other : ∀ d ≠ cpu, currentIndex (candidateState s.tasks cpu) d = currentIndex s.tasks d :=
    fun d different => currentIndex_moveTo_other different
  have sameLength : (candidateState s.tasks cpu).list.length = s.tasks.list.length := by simp [candidateState]
  refine ⟨by simpa [candidateState] using guarded.tasks, by simpa [candidateState] using guarded.cores, ?_, ?_, ?_,
    guarded.apart⟩
  · intro d inside
    show currentIndex (candidateState s.tasks cpu) d < (candidateState s.tasks cpu).list.length
    rw [sameLength]
    by_cases same : d = cpu
    · rw [same, self]
      exact more
    · rw [other d same]
      exact guarded.index d inside
  · intro d pid held
    have before := guarded.behind d pid held
    refine ⟨before.1, ?_⟩
    by_cases same : d = cpu
    · subst d
      rw [self]
      omega
    · rw [other d same]
      exact before.2
  · intro d pid task held index found
    by_cases same : d = cpu
    · -- The core has moved on from its task.
      subst d
      have before := (guarded.behind _ pid held).2
      rw [self] at index
      omega
    · rw [other d same] at index
      have untouched := (calm d same pid held).1
      rw [show getTask (candidateState s.tasks cpu) pid = getTask s.tasks pid from
        getTask_clearRunning_other untouched] at found
      exact guarded.marked d pid task held index found

theorem Guarded.take (guarded : Guarded cpuCount s) (known : cpu < cpuCount) (calm : Undisturbed cpu s)
    (more : currentIndex s.tasks cpu + 1 < s.tasks.list.length)
    (free : Selectable (candidateState s.tasks cpu) (currentIndex s.tasks cpu + 1)) :
    Guarded cpuCount ⟨markRunning (candidateState s.tasks cpu) (currentIndex s.tasks cpu + 1),
      Cores.after s.held cpu (some (currentIndex s.tasks cpu + 1))⟩ := by
  have skipped := guarded.skip known calm more
  have core : cpu < s.tasks.currentTasks.length := by rw [guarded.cores]; exact known
  have self : currentIndex (candidateState s.tasks cpu) cpu = currentIndex s.tasks cpu + 1 :=
    currentIndex_moveTo core
  -- Whoever has the candidate would have marked it, or has moved on from it.
  have fresh : ∀ d ≠ cpu, s.held d ≠ some (currentIndex s.tasks cpu + 1) := by
    intro d different held
    obtain ⟨task, found, _, idle⟩ := free
    by_cases there : currentIndex s.tasks d = currentIndex s.tasks cpu + 1
    · have kept : currentIndex (candidateState s.tasks cpu) d = currentIndex s.tasks d :=
        currentIndex_moveTo_other different
      exact idle (skipped.marked d _ task held (kept.trans there) found)
    · exact (calm d different _ held).2 there rfl
  refine ⟨by simpa using skipped.tasks, skipped.cores, ?_, ?_, ?_, ?_⟩
  · intro d inside
    simpa using skipped.index d inside
  · intro d pid held
    by_cases same : d = cpu
    · subst d
      simp only [Cores.after, if_true, Option.some.injEq] at held
      exact ⟨known, by rw [← held]; exact Nat.le_of_eq self.symm⟩
    · simp only [Cores.after, same, if_false] at held
      exact skipped.behind d pid held
  · intro d pid task held index found
    by_cases same : d = cpu
    · subst d
      simp only [Cores.after, if_true, Option.some.injEq] at held
      subst held
      rw [getTask_markRunning_self, Option.map_eq_some_iff] at found
      obtain ⟨before, _, rfl⟩ := found
      exact flags_set before.flags
    · simp only [Cores.after, same, if_false] at held
      have different : pid ≠ currentIndex s.tasks cpu + 1 := by
        rintro rfl
        exact fresh d same held
      rw [getTask_markRunning_other different] at found
      exact skipped.marked d pid task held index found
  · intro c d pid different heldC heldD
    by_cases first : c = cpu
    · subst c
      simp only [Cores.after, if_true, Option.some.injEq] at heldC
      simp only [Cores.after, Ne.symm different, if_false] at heldD
      exact fresh d (Ne.symm different) (heldC ▸ heldD)
    · simp only [Cores.after, first, if_false] at heldC
      by_cases second : d = cpu
      · subst d
        simp only [Cores.after, if_true, Option.some.injEq] at heldD
        exact fresh c first (heldD ▸ heldC)
      · simp only [Cores.after, second, if_false] at heldD
        exact guarded.apart c d pid different heldC heldD

theorem Guarded.step {r : Option Nat} {tasks' : Tasklist} (guarded : Guarded cpuCount s) (known : cpu < cpuCount)
    (calm : Undisturbed cpu s) (h : selectSection cpu s.tasks = .ok (r, tasks')) :
    Guarded cpuCount ⟨tasks', Cores.after s.held cpu r⟩ := by
  obtain ⟨more, ⟨free, rfl, rfl⟩ | ⟨rfl, rfl⟩⟩ := selectSection_cases guarded known h
  · exact guarded.take known calm more free
  · exact guarded.skip known calm more

end step

/-- As long as no section disturbs another core, no two cores hold the same task. -/
theorem exclusive_of_undisturbed {cpuCount : Nat} {start s : Cores} (idle : Idle cpuCount start)
    (run : SelectRun cpuCount Undisturbed start s) : Exclusive s := by
  have guarded : Guarded cpuCount s := by
    induction run with
    | start => exact idle.guarded
    | step cpu before known meets h ih => exact ih.step known meets h
  intro c d pid _ different heldC heldD _
  exact (guarded.apart c d pid different heldC heldD).elim

/-- Three cores, the boot task and two present tasks. -/
def threeCores : Cores :=
  { tasks :=
      { list := { dataSize := 264, nodes := [blankTask, { blankTask with flags := 1 }, { blankTask with flags := 1 }] }
        currentTasks := { dataSize := 8, nodes := [0, 0, 0] } }
    held := fun _ => none }

theorem threeCores_idle : Idle 3 threeCores := by
  refine ⟨by decide, rfl, ?_, fun _ => rfl⟩
  intro pid task found
  have each : ∀ task ∈ threeCores.tasks.list.nodes, ¬ task.Running := by decide
  exact each task (List.mem_of_getElem? found)

/-- A core that skips the first core's task clears its flag, and a third core
takes the same task. -/
theorem cores_share_task : ∃ s, SelectRun 3 (fun _ _ => True) threeCores s ∧ ¬ Exclusive s := by
  have first : SelectRun 3 (fun _ _ => True) threeCores _ := .step 0 .start (by decide) trivial rfl
  have skipped := SelectRun.step 1 first (by decide) trivial rfl
  have second := SelectRun.step 1 skipped (by decide) trivial rfl
  have third := SelectRun.step 2 second (by decide) trivial rfl
  refine ⟨_, third, fun exclusive => ?_⟩
  exact exclusive 0 2 1 _ (by decide) rfl rfl rfl (by decide)

/-- One core moves on to the second task before another takes the first. -/
theorem exclusive_of_undisturbed_threeCores : ∃ s, SelectRun 3 Undisturbed threeCores s ∧ s.held 0 = some 2 ∧
    s.held 1 = some 1 ∧ Exclusive s := by
  have first : SelectRun 3 Undisturbed threeCores _ :=
    .step 0 .start (by decide) (fun d _ pid held => nomatch held) rfl
  have second := SelectRun.step 0 first (by decide)
    (fun d other pid held => by simp [Cores.after, other, threeCores] at held) rfl
  have third := SelectRun.step 1 second (by decide) (fun d _ pid held => by
    by_cases zero : d = 0
    · subst d
      obtain rfl : 2 = pid := Option.some.inj held
      exact ⟨by decide, fun _ => by decide⟩
    · simp [Cores.after, zero, threeCores] at held) rfl
  exact ⟨_, third, rfl, rfl, exclusive_of_undisturbed threeCores_idle third⟩

end PotatOS.Tasks
