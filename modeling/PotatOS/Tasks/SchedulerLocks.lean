import PotatOS.Lib.Locks
import PotatOS.Tasks.Scheduler

/-!
# The locks of `task_select`

`task_select` takes `scheduler_lock`, and the functions it calls take
`get_current_task_lock` and `current_cpu_lock`. The return for a list of one task
leaves `scheduler_lock` taken; a lookup past the end of the list stops with it taken.
-/

namespace PotatOS.Tasks

open Mem Prog Locks

inductive Lock where
  | schedulerLock | getCurrentTaskLock | currentCpuLock
  deriving DecidableEq, Repr

abbrev SchedulerM := LockM Lock Nat Tasklist

/-- On core `cpu`, the ID register of the local APIC holds `cpu`. -/
def getCurrentProcessor (cpu : Nat) : SchedulerM Nat := do
  spinlockAquire cpu .currentCpuLock
  let toReturn := cpu
  spinlockRelease .currentCpuLock
  return toReturn

/-- `get_current_task`, a position in the list. -/
def currentTask (cpu : Nat) : SchedulerM Nat := do
  spinlockAquire cpu .getCurrentTaskLock
  let core ← getCurrentProcessor cpu
  let toReturn := currentIndex (← get).data core
  spinlockRelease .getCurrentTaskLock
  return toReturn

/-- The end of a call: take the task at the core's index if it is free. -/
def takeAndRelease (cpu : Nat) : SchedulerM (Option Nat) := do
  let newTaskNum ← currentTask cpu
  match getTask (← get).data newTaskNum with
  | none => Prog.stop .fault
  | some newTask =>
    if newTask.flags &&& taskPresent ≠ 0 ∧ newTask.flags &&& taskRunning = 0 then
      access (modifyTask newTaskNum fun task => { task with flags := task.flags ||| taskRunning })
      spinlockRelease .schedulerLock
      return some newTaskNum
    else
      spinlockRelease .schedulerLock
      return none

/-- One call of `task_select`: the task it returns, or `none` when it calls itself. -/
def selectCall (cpu : Nat) : SchedulerM (Option Nat) := do
  spinlockAquire cpu .schedulerLock
  let currentCoreNum ← getCurrentProcessor cpu
  let currentTaskNum := currentIndex (← get).data currentCoreNum
  access (modifyTask currentTaskNum fun task => { task with flags := task.flags &&& ~~~taskRunning })
  if (← get).data.list.length = 1 then
    access (setCurrent currentCoreNum 0)
    -- This return has no release.
    return some 0
  else
    access (setCurrent currentCoreNum (currentTaskNum + 1))
    if currentTaskNum ≥ (← get).data.list.length then
      access (setCurrent currentCoreNum 0)
      takeAndRelease cpu
    else takeAndRelease cpu

/-- `task_select`, with a bound on how often it calls itself. -/
def lockedSelect (cpu : Nat) : Nat → SchedulerM Nat
  | 0 => Prog.stop .hang
  | fuel + 1 => do
    match ← selectCall cpu with
    | some pid => return pid
    | none => lockedSelect cpu fuel

/-- The calls, at any depth, that a call in state `s` leads to start in these states. -/
inductive Nested (cpu : Nat) (s : Locked Lock Nat Tasklist) : Locked Lock Nat Tasklist → Prop where
  | first : Nested cpu s s
  | again {t u : Locked Lock Nat Tasklist} (before : Nested cpu s t) (h : selectCall cpu t = .ok (none, u)) :
    Nested cpu s u

/-- No call waits for a lock. -/
def NeverSpins (cpu : Nat) (s : Locked Lock Nat Tasklist) : Prop :=
  ∀ t, Nested cpu s t → selectCall cpu t ≠ .error .hang

/-- Called with all locks free, `task_select` takes no lock twice and returns with all locks free. Then it does not
spin when any core calls it later. -/
structure LockDiscipline (s : Tasklist) (cpu : Nat) : Prop where
  aquires : NeverSpins cpu ⟨s, allFree⟩
  releases : ∀ t pid u, Nested cpu ⟨s, allFree⟩ t → selectCall cpu t = .ok (some pid, u) → u.holder = allFree
  returns : ∃ fuel pid u, lockedSelect cpu fuel ⟨s, allFree⟩ = .ok (pid, u)
  later : ∀ fuel pid u, lockedSelect cpu fuel ⟨s, allFree⟩ = .ok (pid, u) → ∀ tasks core, NeverSpins core ⟨tasks, u.holder⟩

/-! ### One call -/

section call

variable {s : Tasklist} {cpu : Nat} {holder : Lock → Option Nat}

theorem getCurrentProcessor_run (released : holder .currentCpuLock = none) :
    getCurrentProcessor cpu ⟨s, holder⟩ = .ok (cpu, ⟨s, holder⟩) := by
  unfold getCurrentProcessor
  rw [bind_eq (aquire_run released), bind_eq release_run, release_aquired released]
  rfl

theorem currentTask_run (released : holder .getCurrentTaskLock = none) (cpuReleased : holder .currentCpuLock = none) :
    currentTask cpu ⟨s, holder⟩ = .ok (currentIndex s cpu, ⟨s, holder⟩) := by
  unfold currentTask
  rw [bind_eq (aquire_run released), bind_eq (getCurrentProcessor_run (by simpa using cpuReleased)), bind_eq run_get,
    bind_eq release_run, release_aquired released]
  rfl

/-- Core `cpu` has `scheduler_lock`. -/
def scheduling (cpu : Nat) : Lock → Option Nat := Function.update allFree .schedulerLock (some cpu)

theorem release_scheduling : Function.update (scheduling cpu) .schedulerLock none = allFree := release_aquired rfl

/-- A result without locks, with these holders. -/
def withHolder (holder : Lock → Option Nat) {α : Type} :
    Except Stop (α × Tasklist) → Except Stop (α × Locked Lock Nat Tasklist)
  | .error reason => .error reason
  | .ok (a, s) => .ok (a, ⟨s, holder⟩)

theorem takeAndRelease_eq : takeAndRelease cpu ⟨s, scheduling cpu⟩ = withHolder allFree (takeCurrent cpu s) := by
  unfold takeAndRelease
  rw [bind_eq (currentTask_run rfl rfl), bind_eq run_get, takeCurrent_eq]
  dsimp only
  cases found : getTask s (currentIndex s cpu) with
  | none => rfl
  | some task =>
    dsimp only
    split
    · rw [bind_eq (access_run (markRunning_run (getTask_lt found))), bind_eq release_run, release_scheduling]
      rfl
    · rw [bind_eq release_run, release_scheduling]
      rfl

/-- With all locks free, a call does what the section does without locks. -/
theorem selectCall_eq (s : Tasklist) (cpu : Nat) : selectCall cpu ⟨s, allFree⟩ =
    withHolder (if s.list.length = 1 then scheduling cpu else allFree) (selectSection cpu s) := by
  unfold selectCall selectSection
  rw [bind_eq (aquire_run rfl), bind_eq (getCurrentProcessor_run rfl), bind_eq run_get, bind_eq run_get]
  dsimp only
  cases cleared : modifyTask (currentIndex s cpu) (fun task => { task with flags := task.flags &&& ~~~taskRunning }) s with
  | error reason =>
    rw [bind_error (access_error cleared), bind_error cleared]
    rfl
  | ok pair =>
    obtain ⟨⟨⟩, s₁⟩ := pair
    have length : s₁.list.length = s.list.length := by
      obtain ⟨_, rfl⟩ := modifyTask_ok cleared
      exact length_clearRunning
    rw [bind_eq (access_run cleared), bind_eq cleared, bind_eq run_get, bind_eq run_get]
    dsimp only
    rw [length]
    split
    · rfl
    · rw [bind_eq (access_run moveTo_run), bind_eq moveTo_run, bind_eq run_get, bind_eq run_get]
      dsimp only
      split
      · rw [bind_eq (access_run moveTo_run), bind_eq moveTo_run]
        exact takeAndRelease_eq
      · exact takeAndRelease_eq

theorem selectCall_spins {owner : Nat} (taken : holder .schedulerLock = some owner) :
    selectCall cpu ⟨s, holder⟩ = .error .hang := by
  unfold selectCall
  rw [bind_error (aquire_spins taken)]

theorem modifyTask_error {pid : Nat} {f : Task → Task} {reason : Stop} (h : modifyTask pid f s = .error reason) :
    reason = .fault := by
  by_cases inside : pid < s.list.length
  · rw [modifyTask_eq inside] at h
    cases h
  · unfold modifyTask at h
    rw [bind_eq run_get, if_neg inside] at h
    exact (Except.error.inj h).symm

theorem takeCurrent_error {reason : Stop} (h : takeCurrent cpu s = .error reason) : reason = .fault := by
  rw [takeCurrent_eq] at h
  split at h
  · exact (Except.error.inj h).symm
  · split at h <;> cases h

theorem selectSection_error {reason : Stop} (h : selectSection cpu s = .error reason) : reason = .fault := by
  unfold selectSection at h
  rw [bind_eq run_get] at h
  cases cleared : modifyTask (currentIndex s cpu) (fun task => { task with flags := task.flags &&& ~~~taskRunning }) s with
  | error other =>
    rw [bind_error cleared] at h
    obtain rfl := Except.error.inj h
    exact modifyTask_error cleared
  | ok pair =>
    rw [bind_eq cleared, bind_eq run_get] at h
    split at h
    · rw [bind_eq moveTo_run] at h
      cases h
    · rw [bind_eq moveTo_run, bind_eq run_get] at h
      split at h
      · rw [bind_eq moveTo_run] at h
        exact takeCurrent_error h
      · exact takeCurrent_error h

/-- A section that returns found the core's task in the list. -/
theorem selectSection_inside {r : Option Nat} {s' : Tasklist} (h : selectSection cpu s = .ok (r, s')) :
    currentIndex s cpu < s.list.length := by
  unfold selectSection at h
  rw [bind_eq run_get] at h
  obtain ⟨_, s₁, cleared, _⟩ := bind_ok h
  exact (modifyTask_ok cleared).1

theorem selectSection_one {r : Option Nat} {s' : Tasklist} (h : selectSection cpu s = .ok (r, s'))
    (single : s.list.length = 1) : r = some 0 := by
  have inside := selectSection_inside h
  unfold selectSection at h
  rw [bind_eq run_get, bind_eq (clearRunning_run inside), bind_eq run_get, if_pos (by simpa using single),
    bind_eq moveTo_run] at h
  exact (pure_ok h).1.symm

theorem withHolder_ok {α : Type} {a : α} {x : Except Stop (α × Tasklist)} {u : Locked Lock Nat Tasklist}
    (h : withHolder holder x = .ok (a, u)) : x = .ok (a, u.data) ∧ u.holder = holder := by
  cases x with
  | error reason => cases h
  | ok pair =>
    obtain ⟨rfl, rfl⟩ := Prod.mk.inj (Except.ok.inj h)
    exact ⟨rfl, rfl⟩

end call

/-! ### Calls at any depth -/

section nested

variable {s : Tasklist} {cpu : Nat} {t : Locked Lock Nat Tasklist}

/-- A call that calls itself has released its locks, whatever the list. -/
theorem Nested.free (nested : Nested cpu ⟨s, allFree⟩ t) : t.holder = allFree ∧ s.list.length ≤ t.data.list.length := by
  induction nested with
  | first => exact ⟨rfl, le_rfl⟩
  | @again t u before h ih =>
    obtain ⟨data, holder⟩ := t
    obtain ⟨rfl, length⟩ := ih
    rw [selectCall_eq] at h
    obtain ⟨run, released⟩ := withHolder_ok h
    have many : data.list.length ≠ 1 := by
      intro single
      cases selectSection_one run single
    rw [if_neg many] at released
    exact ⟨released, Nat.le_trans length (grown_selectSection run).1⟩

theorem neverSpins_free (s : Tasklist) (cpu : Nat) : NeverSpins cpu ⟨s, allFree⟩ := by
  intro t nested spins
  obtain ⟨data, holder⟩ := t
  obtain ⟨rfl, _⟩ := nested.free
  rw [selectCall_eq] at spins
  cases run : selectSection cpu data with
  | error reason =>
    rw [run, selectSection_error run] at spins
    cases spins
  | ok pair =>
    rw [run] at spins
    cases spins

theorem lockedSelect_eq (many : 2 ≤ s.list.length) (fuel : Nat) :
    lockedSelect cpu fuel ⟨s, allFree⟩ = withHolder allFree (taskSelect cpu fuel s) := by
  induction fuel generalizing s with
  | zero => rfl
  | succ fuel ih =>
    have call := selectCall_eq s cpu
    rw [if_neg (by omega)] at call
    unfold lockedSelect taskSelect
    cases run : selectSection cpu s with
    | error reason =>
      rw [run] at call
      rw [bind_error call, bind_error run]
      rfl
    | ok pair =>
      obtain ⟨r, s'⟩ := pair
      rw [run] at call
      rw [bind_eq call, bind_eq run]
      cases r with
      | some pid => rfl
      | none => exact ih (Nat.le_trans many (grown_selectSection run).1)

/-- After the return for one task, every later call on every core spins. -/
theorem one_task_blocks {fuel pid : Nat} {u : Locked Lock Nat Tasklist} (single : s.list.length = 1)
    (h : lockedSelect cpu fuel ⟨s, allFree⟩ = .ok (pid, u)) (tasks : Tasklist) (core : Nat) :
    selectCall core ⟨tasks, u.holder⟩ = .error .hang := by
  cases fuel with
  | zero => cases h
  | succ fuel =>
    obtain ⟨r, t, call, h⟩ := bind_ok h
    rw [selectCall_eq, if_pos single] at call
    obtain ⟨run, taken⟩ := withHolder_ok call
    rw [selectSection_one run single] at h
    obtain ⟨_, rfl⟩ := pure_ok h
    have held : t.holder .schedulerLock = some cpu := by rw [taken]; rfl
    exact selectCall_spins held

end nested

/-- The lock discipline holds exactly when the list has more than one task and a free one stands behind the core's. -/
theorem lockDiscipline_iff {s : Tasklist} {cpu : Nat} (known : cpu < s.currentTasks.length) :
    LockDiscipline s cpu ↔ s.list.length ≠ 1 ∧
      ∃ pid, currentIndex s cpu < pid ∧ Selectable (clearRunning s (currentIndex s cpu)) pid := by
  constructor
  · intro discipline
    obtain ⟨fuel, pid, u, returned⟩ := discipline.returns
    have many : s.list.length ≠ 1 := by
      intro single
      exact discipline.later fuel pid u returned s cpu _ .first (one_task_blocks single returned s cpu)
    have inside : currentIndex s cpu < s.list.length := by
      cases fuel with
      | zero => cases returned
      | succ fuel =>
        obtain ⟨r, t, call, _⟩ := bind_ok returned
        rw [selectCall_eq] at call
        exact selectSection_inside (withHolder_ok call).1
    refine ⟨many, ?_⟩
    by_contra none
    rw [lockedSelect_eq (by omega)] at returned
    exact taskSelect_none known inside many (fun i behind free => none ⟨i, behind, free⟩) fuel _
      (withHolder_ok returned).1
  · rintro ⟨many, pid, behind, free⟩
    have limit := free.lt
    rw [length_clearRunning] at limit
    have two : 2 ≤ s.list.length := by omega
    refine ⟨neverSpins_free s cpu, ?_, ?_, ?_⟩
    · intro t pid u nested call
      obtain ⟨data, holder⟩ := t
      obtain ⟨rfl, length⟩ := nested.free
      dsimp only at length
      rw [selectCall_eq, if_neg (by omega)] at call
      exact (withHolder_ok call).2
    · obtain ⟨fuel, pid, s', run, _⟩ := roundRobin_of_behind known behind free
      exact ⟨fuel, pid, ⟨s', allFree⟩, by rw [lockedSelect_eq two, run]; rfl⟩
    · intro fuel pid u returned tasks core
      rw [lockedSelect_eq two] at returned
      rw [(withHolder_ok returned).2]
      exact neverSpins_free tasks core

/-- The kernel's first task and one user task. -/
theorem lockDiscipline_iff_oneUserTask : LockDiscipline oneUserTask 0 :=
  (lockDiscipline_iff (by decide)).mpr ⟨by decide, 1, by decide, by decide⟩

/-- Before the first task is made, `task_select` returns with `scheduler_lock` taken. -/
theorem one_task_keeps_lock : ¬ LockDiscipline (initTasklist 0 0 1) 0 := by
  intro discipline
  have returned := discipline.releases ⟨initTasklist 0 0 1, allFree⟩ 0 _ .first rfl
  have taken := congrFun returned .schedulerLock
  cases taken

end PotatOS.Tasks
