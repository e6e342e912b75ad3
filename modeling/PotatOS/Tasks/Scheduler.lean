import PotatOS.Tasks.Tasklist
import Mathlib.Tactic.ByContra
import Mathlib.Logic.Basic
import Mathlib.Data.Nat.Find

/-!
# What `task_select` returns

`section_take`, `section_skip` and `section_fault` are the three ways a locked
section ends on a list of two or more tasks. The wrap test looks at the old
index, so a core never gets from the last task back to the first.
-/

namespace PotatOS.Tasks

open Mem Prog

def Task.Present (task : Task) : Prop := task.flags &&& taskPresent ≠ 0

def Task.Running (task : Task) : Prop := task.flags &&& taskRunning ≠ 0

/-- The tasks that `task_select` may return. -/
def Selectable (s : Tasklist) (pid : Nat) : Prop :=
  ∃ task, getTask s pid = some task ∧ task.Present ∧ ¬ task.Running

instance (task : Task) : Decidable task.Present := inferInstanceAs (Decidable (_ ≠ _))

instance (task : Task) : Decidable task.Running := inferInstanceAs (Decidable (_ ≠ _))

instance (s : Tasklist) (pid : Nat) : Decidable (Selectable s pid) :=
  match h : getTask s pid with
  | none => isFalse fun ⟨_, found, _⟩ => by rw [h] at found; cases found
  | some task => decidable_of_iff (task.Present ∧ ¬ task.Running)
      ⟨fun free => ⟨task, h, free⟩, fun ⟨_, found, free⟩ => Option.some.inj (h.symm.trans found) ▸ free⟩

/-! ### Flags -/

theorem flags_clear_present (f : UInt8) : (f &&& ~~~taskRunning) &&& taskPresent = f &&& taskPresent := by
  obtain ⟨bits⟩ := f
  revert bits
  decide

theorem flags_set (f : UInt8) : (f ||| taskRunning) &&& taskRunning ≠ 0 := by
  obtain ⟨bits⟩ := f
  revert bits
  decide

/-! ### One section -/

def clearRunning (s : Tasklist) (pid : Nat) : Tasklist :=
  { s with list := { s.list with
    nodes := s.list.nodes.modify pid fun task => { task with flags := task.flags &&& ~~~taskRunning } } }

def markRunning (s : Tasklist) (pid : Nat) : Tasklist :=
  { s with list := { s.list with
    nodes := s.list.nodes.modify pid fun task => { task with flags := task.flags ||| taskRunning } } }

def moveTo (s : Tasklist) (cpu pid : Nat) : Tasklist :=
  { s with currentTasks := vectorSet s.currentTasks cpu pid }

section views

variable {s : Tasklist} {cpu pid i : Nat}

@[simp] theorem length_clearRunning : (clearRunning s pid).list.length = s.list.length := by
  simp [clearRunning, Vec.length]

@[simp] theorem length_markRunning : (markRunning s pid).list.length = s.list.length := by
  simp [markRunning, Vec.length]

@[simp] theorem length_moveTo : (moveTo s cpu pid).list.length = s.list.length := rfl

@[simp] theorem currentTasks_clearRunning : (clearRunning s pid).currentTasks = s.currentTasks := rfl

@[simp] theorem currentTasks_markRunning : (markRunning s pid).currentTasks = s.currentTasks := rfl

@[simp] theorem length_currentTasks_moveTo : (moveTo s cpu pid).currentTasks.length = s.currentTasks.length := by
  simp [moveTo]

@[simp] theorem getTask_moveTo : getTask (moveTo s cpu pid) i = getTask s i := rfl

theorem getTask_clearRunning_other (other : i ≠ pid) : getTask (clearRunning s pid) i = getTask s i := by
  simp [getTask, clearRunning, vectorAt, Ne.symm other]

theorem getTask_markRunning_other (other : i ≠ pid) : getTask (markRunning s pid) i = getTask s i := by
  simp [getTask, markRunning, vectorAt, Ne.symm other]

theorem getTask_markRunning_self : getTask (markRunning s pid) pid =
    (getTask s pid).map fun task => { task with flags := task.flags ||| taskRunning } := by
  simp [getTask, markRunning, vectorAt]

theorem currentIndex_moveTo (known : cpu < s.currentTasks.length) : currentIndex (moveTo s cpu pid) cpu = pid := by
  rw [currentIndex, moveTo, vectorAt_vectorSet_self known]
  rfl

theorem currentIndex_moveTo_other (other : i ≠ cpu) :
    currentIndex (moveTo s cpu pid) i = currentIndex s i := by
  rw [currentIndex, moveTo, vectorAt_vectorSet_other other]
  rfl

@[simp] theorem currentIndex_markRunning : currentIndex (markRunning s pid) cpu = currentIndex s cpu := rfl

theorem getTask_isSome (inside : pid < s.list.length) : ∃ task, getTask s pid = some task := by
  cases h : getTask s pid with
  | none => have := vectorAt_eq_none.mp h; omega
  | some task => exact ⟨task, rfl⟩

theorem getTask_lt {task : Task} (found : getTask s pid = some task) : pid < s.list.length := by
  by_contra past
  rw [getTask, vectorAt_eq_none.mpr (by omega)] at found
  cases found

theorem modifyTask_eq {f : Task → Task} (inside : pid < s.list.length) :
    modifyTask pid f s = .ok ((), { s with list := { s.list with nodes := s.list.nodes.modify pid f } }) := by
  unfold modifyTask
  rw [bind_eq run_get, if_pos inside]
  rfl

theorem clearRunning_run (inside : pid < s.list.length) :
    modifyTask pid (fun task => { task with flags := task.flags &&& ~~~taskRunning }) s =
      .ok ((), clearRunning s pid) := modifyTask_eq inside

theorem markRunning_run (inside : pid < s.list.length) :
    modifyTask pid (fun task => { task with flags := task.flags ||| taskRunning }) s =
      .ok ((), markRunning s pid) := modifyTask_eq inside

theorem moveTo_run : setCurrent cpu pid s = .ok ((), moveTo s cpu pid) := rfl

theorem takeCurrent_eq : takeCurrent cpu s = match getTask s (currentIndex s cpu) with
    | none => .error .fault
    | some task =>
      if task.flags &&& taskPresent ≠ 0 ∧ task.flags &&& taskRunning = 0 then
        .ok (some (currentIndex s cpu), markRunning s (currentIndex s cpu))
      else .ok (none, s) := by
  unfold takeCurrent
  rw [bind_eq run_get, bind_eq run_get]
  cases h : getTask s (currentIndex s cpu) with
  | none => rfl
  | some task =>
    dsimp only
    by_cases free : task.flags &&& taskPresent ≠ 0 ∧ task.flags &&& taskRunning = 0
    · rw [if_pos free, if_pos free, bind_eq (markRunning_run (getTask_lt h))]
      rfl
    · rw [if_neg free, if_neg free]
      rfl

end views

section sections

variable {s : Tasklist} {cpu : Nat}

/-- The state in which a section looks at its candidate. -/
def candidateState (s : Tasklist) (cpu : Nat) : Tasklist :=
  moveTo (clearRunning s (currentIndex s cpu)) cpu (currentIndex s cpu + 1)

theorem selectSection_eq (known : cpu < s.currentTasks.length) (inside : currentIndex s cpu < s.list.length)
    (many : s.list.length ≠ 1) :
    selectSection cpu s = match getTask (candidateState s cpu) (currentIndex s cpu + 1) with
      | none => .error .fault
      | some task =>
        if task.flags &&& taskPresent ≠ 0 ∧ task.flags &&& taskRunning = 0 then
          .ok (some (currentIndex s cpu + 1), markRunning (candidateState s cpu) (currentIndex s cpu + 1))
        else .ok (none, candidateState s cpu) := by
  have index : currentIndex (candidateState s cpu) cpu = currentIndex s cpu + 1 :=
    currentIndex_moveTo known
  have sameLength : (candidateState s cpu).list.length = s.list.length := by simp [candidateState]
  unfold selectSection
  rw [bind_eq run_get, bind_eq (clearRunning_run inside), bind_eq run_get, if_neg (by simpa using many),
    bind_eq moveTo_run, bind_eq run_get]
  change (if currentIndex s cpu ≥ (candidateState s cpu).list.length then _ else _ : TaskM (Option Nat))
    (candidateState s cpu) = _
  rw [if_neg (by rw [sameLength]; omega), takeCurrent_eq, index]

variable (known : cpu < s.currentTasks.length) (inside : currentIndex s cpu < s.list.length)
  (many : s.list.length ≠ 1)

include known inside many

theorem section_fault (last : currentIndex s cpu + 1 = s.list.length) : selectSection cpu s = .error .fault := by
  have missing : getTask (candidateState s cpu) (currentIndex s cpu + 1) = none :=
    vectorAt_eq_none.mpr (by simp [candidateState, last])
  rw [selectSection_eq known inside many, missing]

theorem section_take (free : Selectable (candidateState s cpu) (currentIndex s cpu + 1)) :
    selectSection cpu s =
      .ok (some (currentIndex s cpu + 1), markRunning (candidateState s cpu) (currentIndex s cpu + 1)) := by
  obtain ⟨task, found, present, idle⟩ := free
  rw [selectSection_eq known inside many, found]
  exact if_pos ⟨present, of_not_not idle⟩

theorem section_skip (more : currentIndex s cpu + 1 < s.list.length)
    (taken : ¬ Selectable (candidateState s cpu) (currentIndex s cpu + 1)) :
    selectSection cpu s = .ok (none, candidateState s cpu) := by
  have bound : currentIndex s cpu + 1 < (candidateState s cpu).list.length := by simpa [candidateState] using more
  obtain ⟨task, found⟩ := getTask_isSome bound
  rw [selectSection_eq known inside many, found]
  refine if_neg fun free => taken ⟨task, found, free.1, ?_⟩
  exact not_not_intro free.2

end sections

/-! ### Round robin -/

section roundRobin

variable {s : Tasklist} {cpu : Nat}

theorem Selectable.lt {pid : Nat} (free : Selectable s pid) : pid < s.list.length := by
  obtain ⟨task, found, _⟩ := free
  exact getTask_lt found

theorem selectable_congr {t : Tasklist} {i : Nat} (same : getTask s i = getTask t i) :
    Selectable s i ↔ Selectable t i := by
  unfold Selectable
  rw [same]

/-- A skipped candidate changes nothing for the tasks behind it. -/
theorem selectable_after_skip {i : Nat} (known : cpu < s.currentTasks.length) (behind : currentIndex s cpu + 1 < i) :
    Selectable (clearRunning (candidateState s cpu) (currentIndex (candidateState s cpu) cpu)) i ↔
      Selectable (clearRunning s (currentIndex s cpu)) i := by
  have index : currentIndex (candidateState s cpu) cpu = currentIndex s cpu + 1 := currentIndex_moveTo known
  rw [index]
  exact selectable_congr (getTask_clearRunning_other (by omega))

/-- With a free task behind the current one, `task_select` returns the first such. -/
theorem taskSelect_first {p : Nat} (known : cpu < s.currentTasks.length)
    (behind : currentIndex s cpu < p) (free : Selectable (clearRunning s (currentIndex s cpu)) p)
    (first : ∀ i, currentIndex s cpu < i → i < p → ¬ Selectable (clearRunning s (currentIndex s cpu)) i) :
    ∃ fuel s', taskSelect cpu fuel s = .ok (p, s') ∧ currentIndex s' cpu = p := by
  have limit := free.lt
  rw [length_clearRunning] at limit
  induction gap : p - currentIndex s cpu generalizing s with
  | zero => omega
  | succ gap ih =>
    have inside : currentIndex s cpu < s.list.length := by omega
    have many : s.list.length ≠ 1 := by omega
    by_cases next : p = currentIndex s cpu + 1
    · subst next
      have take := section_take known inside many free
      refine ⟨1, markRunning (candidateState s cpu) (currentIndex s cpu + 1), ?_, currentIndex_moveTo known⟩
      rw [taskSelect, bind_eq take]
      rfl
    · have skip := section_skip known inside many (by omega) (first _ (by omega) (by omega))
      have index : currentIndex (candidateState s cpu) cpu = currentIndex s cpu + 1 := currentIndex_moveTo known
      obtain ⟨fuel, s', run, final⟩ := ih (s := candidateState s cpu) (by simpa [candidateState] using known)
        (by omega) ((selectable_after_skip known (by omega)).mpr free)
        (fun i after before => by
          rw [index] at after
          rw [selectable_after_skip known after]
          exact first i (by omega) before)
        (by simpa [candidateState] using limit) (by omega)
      refine ⟨fuel + 1, s', ?_, final⟩
      rw [taskSelect, bind_eq skip]
      exact run

/-- Without one, it looks up the task past the end of the list. -/
theorem taskSelect_none (known : cpu < s.currentTasks.length) (inside : currentIndex s cpu < s.list.length)
    (many : s.list.length ≠ 1)
    (none : ∀ i, currentIndex s cpu < i → ¬ Selectable (clearRunning s (currentIndex s cpu)) i) (fuel : Nat)
    (r : Nat × Tasklist) : taskSelect cpu fuel s ≠ .ok r := by
  induction fuel generalizing s with
  | zero => intro h; cases h
  | succ fuel ih =>
    by_cases last : currentIndex s cpu + 1 = s.list.length
    · rw [taskSelect, bind_error (section_fault known inside many last)]
      intro h
      cases h
    · have skip := section_skip known inside many (by omega) (none _ (by omega))
      have index : currentIndex (candidateState s cpu) cpu = currentIndex s cpu + 1 := currentIndex_moveTo known
      rw [taskSelect, bind_eq skip]
      refine ih (by simpa [candidateState] using known) ?_ (by simpa [candidateState] using many) ?_
      · rw [index]
        simp only [candidateState, length_moveTo, length_clearRunning]
        omega
      · intro i after
        rw [index] at after
        rw [selectable_after_skip known after]
        exact none i (by omega)

theorem taskSelect_single (known : cpu < s.currentTasks.length) (inside : currentIndex s cpu < s.list.length)
    (single : s.list.length = 1) : ∃ s', taskSelect cpu 1 s = .ok (0, s') ∧ currentIndex s' cpu = 0 := by
  have run : selectSection cpu s = .ok (some 0, moveTo (clearRunning s (currentIndex s cpu)) cpu 0) := by
    unfold selectSection
    rw [bind_eq run_get, bind_eq (clearRunning_run inside), bind_eq run_get, if_pos (by simpa using single),
      bind_eq moveTo_run]
    rfl
  refine ⟨moveTo (clearRunning s (currentIndex s cpu)) cpu 0, ?_, currentIndex_moveTo known⟩
  rw [taskSelect, bind_eq run]
  rfl

/-- `pid` is the first free task in the order `cur + 1, …, length - 1, 0, …, cur`. -/
def FirstFrom (s : Tasklist) (cur pid : Nat) : Prop :=
  ∃ j < s.list.length, pid = (cur + 1 + j) % s.list.length ∧ Selectable s pid ∧
    ∀ j' < j, ¬ Selectable s ((cur + 1 + j') % s.list.length)

/-- `task_select` returns the first free task and leaves the core at its index.
A lookup past the end of the list is a null pointer and would not return. -/
def RoundRobin (s : Tasklist) (cpu : Nat) : Prop :=
  ∃ fuel pid s', taskSelect cpu fuel s = .ok (pid, s') ∧
    FirstFrom (clearRunning s (currentIndex s cpu)) (currentIndex s cpu) pid ∧ currentIndex s' cpu = pid

/-- The task lists after boot, as tasks are made and end and cores switch. -/
inductive TasklistRun (cr3 allTasksEnded cpuCount : Nat) : Tasklist → Prop where
  | init : TasklistRun cr3 allTasksEnded cpuCount (initTasklist cr3 allTasksEnded cpuCount)
  | create {s s' : Tasklist} (cpu : Nat) {pml4Addr entryPoint userStack pid : Nat} {flags : UInt8}
      (before : TasklistRun cr3 allTasksEnded cpuCount s)
      (h : createTask cpu pml4Addr entryPoint userStack flags s = .ok (pid, s')) :
      TasklistRun cr3 allTasksEnded cpuCount s'
  | exit {s s' : Tasklist} {cpu exitCode : Nat} (before : TasklistRun cr3 allTasksEnded cpuCount s)
      (h : syscallExit cpu exitCode s = .ok ((), s')) : TasklistRun cr3 allTasksEnded cpuCount s'
  | select {s s' : Tasklist} {cpu : Nat} {r : Option Nat} (before : TasklistRun cr3 allTasksEnded cpuCount s)
      (h : selectSection cpu s = .ok (r, s')) : TasklistRun cr3 allTasksEnded cpuCount s'

/-! ### Lists only grow -/

theorem modifyTask_ok {pid : Nat} {f : Task → Task} {s' : Tasklist} (h : modifyTask pid f s = .ok ((), s')) :
    pid < s.list.length ∧ { s with list := { s.list with nodes := s.list.nodes.modify pid f } } = s' := by
  unfold modifyTask at h
  rw [bind_eq run_get] at h
  split at h
  · rename_i inside
    exact ⟨inside, modify_ok h⟩
  · exact (stop_ok h).elim

theorem modify_last (tasks : List Task) (new : Task) (g : Task → Task) :
    (tasks ++ [new]).modify tasks.length g = tasks ++ [g new] := by
  induction tasks with
  | nil => rfl
  | cons task rest ih => exact congrArg (task :: ·) ih

/-- A step keeps the tasks it finds and the cores. -/
def Grown (s s' : Tasklist) : Prop :=
  s.list.length ≤ s'.list.length ∧ s'.currentTasks.length = s.currentTasks.length

theorem Grown.trans {s₁ s₂ s₃ : Tasklist} (first : Grown s₁ s₂) (second : Grown s₂ s₃) : Grown s₁ s₃ :=
  ⟨Nat.le_trans first.1 second.1, second.2.trans first.2⟩

theorem grown_modifyTask {pid : Nat} {f : Task → Task} {s' : Tasklist} (h : modifyTask pid f s = .ok ((), s')) :
    Grown s s' := by
  obtain ⟨_, rfl⟩ := modifyTask_ok h
  simp [Grown, Vec.length]

theorem grown_setCurrent {pid : Nat} {s' : Tasklist} (h : setCurrent cpu pid s = .ok ((), s')) : Grown s s' := by
  obtain rfl := modify_ok h
  simp [Grown]

theorem grown_createTask {pml4Addr entryPoint userStack pid : Nat} {flags : UInt8} {s' : Tasklist}
    (h : createTask cpu pml4Addr entryPoint userStack flags s = .ok (pid, s')) : Grown s s' := by
  unfold createTask at h
  rw [bind_eq run_get] at h
  cases current : getCurrentTask s cpu with
  | none =>
    rw [current] at h
    exact (stop_ok h).elim
  | some task =>
    rw [current] at h
    dsimp only at h
    rw [bind_eq run_get, bind_eq (run_modify _)] at h
    obtain ⟨_, rfl⟩ := pure_ok h
    simp [Grown]

theorem addEvent_ok {pid : Nat} {event : Event} {s' : Tasklist} (h : addEvent pid event s = .ok ((), s')) :
    ∃ task queue, getTask s pid = some task ∧ task.eventQueue = some queue ∧
      modifyTask pid (fun task => { task with eventQueue := some (vectorPush queue event) }) s = .ok ((), s') := by
  unfold addEvent at h
  rw [bind_eq run_get] at h
  cases found : getTask s pid with
  | none =>
    rw [found] at h
    exact (stop_ok h).elim
  | some task =>
    rw [found, Option.bind_some] at h
    cases queue : task.eventQueue with
    | none =>
      rw [queue] at h
      exact (stop_ok h).elim
    | some vec =>
      rw [queue] at h
      exact ⟨task, vec, rfl, queue, h⟩

theorem grown_addEvent {pid : Nat} {event : Event} {s' : Tasklist} (h : addEvent pid event s = .ok ((), s')) :
    Grown s s' := by
  obtain ⟨_, _, _, _, modified⟩ := addEvent_ok h
  exact grown_modifyTask modified

theorem grown_syscallExit {exitCode : Nat} {s' : Tasklist} (h : syscallExit cpu exitCode s = .ok ((), s')) :
    Grown s s' := by
  unfold syscallExit at h
  rw [bind_eq run_get, bind_eq run_get] at h
  cases current : getCurrentTask s cpu with
  | none =>
    rw [current] at h
    obtain ⟨_, rfl⟩ := pure_ok h
    exact ⟨Nat.le_refl _, rfl⟩
  | some task =>
    rw [current] at h
    dsimp only at h
    split at h
    · obtain ⟨_, rfl⟩ := pure_ok h
      exact ⟨Nat.le_refl _, rfl⟩
    · cases parent : task.parent with
      | none =>
        rw [parent] at h
        exact (stop_ok h).elim
      | some parent' =>
        rw [parent] at h
        obtain ⟨_, _, event, h⟩ := bind_ok h
        exact (grown_addEvent event).trans (grown_modifyTask h)

theorem grown_takeCurrent {r : Option Nat} {s' : Tasklist} (h : takeCurrent cpu s = .ok (r, s')) : Grown s s' := by
  rw [takeCurrent_eq] at h
  split at h
  · cases h
  · split at h
    · obtain ⟨_, rfl⟩ := Prod.mk.inj (Except.ok.inj h)
      simp [Grown]
    · obtain ⟨_, rfl⟩ := Prod.mk.inj (Except.ok.inj h)
      exact ⟨Nat.le_refl _, rfl⟩

theorem grown_selectSection {r : Option Nat} {s' : Tasklist} (h : selectSection cpu s = .ok (r, s')) :
    Grown s s' := by
  unfold selectSection at h
  rw [bind_eq run_get] at h
  obtain ⟨_, s₁, cleared, h⟩ := bind_ok h
  rw [bind_eq run_get] at h
  refine (grown_modifyTask cleared).trans ?_
  split at h
  · obtain ⟨_, s₂, moved, h⟩ := bind_ok h
    obtain ⟨_, rfl⟩ := pure_ok h
    exact grown_setCurrent moved
  · obtain ⟨_, s₂, moved, h⟩ := bind_ok h
    rw [bind_eq run_get] at h
    refine (grown_setCurrent moved).trans ?_
    split at h
    · obtain ⟨_, s₃, wrapped, h⟩ := bind_ok h
      exact (grown_setCurrent wrapped).trans (grown_takeCurrent h)
    · exact grown_takeCurrent h

theorem length_initCurrent (cpuCount : Nat) (vec : Vec Nat) :
    ((List.range cpuCount).foldl (fun vec _ => vectorPush vec 0) vec).length = vec.length + cpuCount := by
  induction cpuCount with
  | zero => rfl
  | succ n ih => rw [List.range_succ, List.foldl_append, List.foldl_cons, List.foldl_nil, length_vectorPush, ih,
      Nat.add_assoc]

theorem TasklistRun.shape {cr3 allTasksEnded cpuCount : Nat} (run : TasklistRun cr3 allTasksEnded cpuCount s) :
    1 ≤ s.list.length ∧ s.currentTasks.length = cpuCount := by
  induction run with
  | init =>
    refine ⟨by simp [initTasklist], ?_⟩
    rw [initTasklist, length_initCurrent]
    exact Nat.zero_add cpuCount
  | create cpu before h ih =>
    have grown := grown_createTask h
    exact ⟨Nat.le_trans ih.1 grown.1, grown.2.trans ih.2⟩
  | exit before h ih =>
    have grown := grown_syscallExit h
    exact ⟨Nat.le_trans ih.1 grown.1, grown.2.trans ih.2⟩
  | select before h ih =>
    have grown := grown_selectSection h
    exact ⟨Nat.le_trans ih.1 grown.1, grown.2.trans ih.2⟩

/-- The first free task behind the current one is the first in cyclic order. -/
theorem firstFrom_of_behind {cur p : Nat} (behind : cur < p) (free : Selectable s p)
    (first : ∀ i, cur < i → i < p → ¬ Selectable s i) : FirstFrom s cur p := by
  have limit := free.lt
  refine ⟨p - cur - 1, by omega, ?_, free, ?_⟩
  · rw [show cur + 1 + (p - cur - 1) = p by omega, Nat.mod_eq_of_lt limit]
  · intro j before
    rw [Nat.mod_eq_of_lt (by omega)]
    exact first _ (by omega) (by omega)

theorem roundRobin_of_behind {p : Nat} (known : cpu < s.currentTasks.length) (behind : currentIndex s cpu < p)
    (free : Selectable (clearRunning s (currentIndex s cpu)) p) : RoundRobin s cpu := by
  classical
  have candidates : ∃ q, currentIndex s cpu < q ∧ Selectable (clearRunning s (currentIndex s cpu)) q :=
    ⟨p, behind, free⟩
  obtain ⟨after, best⟩ := Nat.find_spec candidates
  have first : ∀ i, currentIndex s cpu < i → i < Nat.find candidates →
      ¬ Selectable (clearRunning s (currentIndex s cpu)) i := by
    intro i later before free'
    exact Nat.find_min candidates before ⟨later, free'⟩
  obtain ⟨fuel, s', run, index⟩ := taskSelect_first known after best first
  exact ⟨fuel, _, s', run, firstFrom_of_behind after best first, index⟩

theorem roundRobin_single (known : cpu < s.currentTasks.length) (inside : currentIndex s cpu < s.list.length)
    (single : s.list.length = 1) (free : ∃ pid, Selectable (clearRunning s (currentIndex s cpu)) pid) :
    RoundRobin s cpu := by
  obtain ⟨pid, found⟩ := free
  have limit := found.lt
  rw [length_clearRunning] at limit
  obtain rfl : pid = 0 := by omega
  obtain ⟨s', run, index⟩ := taskSelect_single known inside single
  refine ⟨1, 0, s', run, ⟨0, ?_, ?_, found, by omega⟩, index⟩
  · rw [length_clearRunning]
    omega
  · rw [length_clearRunning, single]
    omega

/-- When `task_select` does what round robin asks for. -/
theorem taskSelect_roundRobin_iff {cr3 allTasksEnded cpuCount : Nat}
    (run : TasklistRun cr3 allTasksEnded cpuCount s) (known : cpu < cpuCount)
    (inside : currentIndex s cpu < s.list.length)
    (free : ∃ pid, Selectable (clearRunning s (currentIndex s cpu)) pid) :
    RoundRobin s cpu ↔ s.list.length = 1 ∨
      ∃ pid, currentIndex s cpu < pid ∧ Selectable (clearRunning s (currentIndex s cpu)) pid := by
  have core : cpu < s.currentTasks.length := by rw [run.shape.2]; exact known
  constructor
  · rintro ⟨fuel, pid, s', returned, _⟩
    by_contra neither
    rw [not_or] at neither
    refine taskSelect_none core inside neither.1 (fun i after free => ?_) fuel _ returned
    exact neither.2 ⟨i, after, free⟩
  · rintro (single | ⟨pid, behind, found⟩)
    · exact roundRobin_single core inside single free
    · exact roundRobin_of_behind core behind found

/-- One user task on one core. -/
def oneUserTask : Tasklist :=
  { list := vectorPush (initTasklist 0 0 1).list
      { blankTask with
        isUser := true, kernelRsp := kernelStackPtr, flags := taskPresent ||| taskFirstExec, currentDir := [82, 58, 47] }
    currentTasks := (initTasklist 0 0 1).currentTasks }

theorem oneUserTask_run : TasklistRun 0 0 1 oneUserTask := by
  have made : createTask 0 0 0 0 (taskPresent ||| taskFirstExec) (initTasklist 0 0 1) = .ok (1, oneUserTask) := rfl
  exact .create 0 .init made

theorem taskSelect_roundRobin_oneUserTask : RoundRobin oneUserTask 0 := by
  have task : Selectable (clearRunning oneUserTask (currentIndex oneUserTask 0)) 1 := by decide
  exact (taskSelect_roundRobin_iff oneUserTask_run (by decide) (by decide) ⟨1, task⟩).mpr
    (.inr ⟨1, by decide, task⟩)

/-- Once its task runs, the core cannot select again: it looks up index 2 of 2. -/
theorem taskSelect_misses_current : ∃ s, TasklistRun 0 0 1 s ∧ currentIndex s 0 < s.list.length ∧
    (∃ pid, Selectable (clearRunning s (currentIndex s 0)) pid) ∧ ¬ RoundRobin s 0 := by
  have task : Selectable (candidateState oneUserTask 0) 1 := by decide
  have first : selectSection 0 oneUserTask = .ok (some 1, markRunning (candidateState oneUserTask 0) 1) :=
    section_take (by decide) (by decide) (by decide) task
  refine ⟨_, .select oneUserTask_run first, by decide, ⟨1, by decide⟩, ?_⟩
  rintro ⟨fuel, pid, s', returned, _⟩
  refine taskSelect_none (by decide) (by decide) (by decide) ?_ fuel _ returned
  intro i after free
  have limit := free.lt
  have index : currentIndex (markRunning (candidateState oneUserTask 0) 1) 0 = 1 := rfl
  have two : (clearRunning (markRunning (candidateState oneUserTask 0) 1) 1).list.length = 2 := rfl
  rw [index] at after limit
  omega

end roundRobin

end PotatOS.Tasks
