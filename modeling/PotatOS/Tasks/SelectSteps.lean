import PotatOS.Lib.Threads
import PotatOS.Tasks.Exclusion
import PotatOS.Tasks.SchedulerLocks

/-!
# `task_select` step by step

Every read and write of `task_select` is a step of its own here, and the cores
take their steps in any order. The scheduler lock makes a call one step of
`SelectRun`, apart from its return: a core that has released the lock has not yet
left its old task, which another core may get meanwhile.
-/

namespace PotatOS.Tasks

open Mem Prog Locks Threads

namespace Steps

abbrev SchedulerT := Thread Lock Tasklist

open Thread

def getCurrentProcessor (cpu : Nat) : SchedulerT Nat := do
  take .currentCpuLock
  let toReturn := cpu
  drop .currentCpuLock
  return toReturn

/-- `get_current_task`, a position in the list. -/
def currentTask (cpu : Nat) : SchedulerT Nat := do
  take .getCurrentTaskLock
  let core ← getCurrentProcessor cpu
  let toReturn := currentIndex (← read) core
  drop .getCurrentTaskLock
  return toReturn

/-- `task->flags`, through the pointer to task `pid`. -/
def readFlags (pid : Nat) : SchedulerT UInt8 := do
  match getTask (← read) pid with
  | none => fault
  | some task => return task.flags

def withFlags (pid : Nat) (flags : UInt8) (s : Tasklist) : Tasklist :=
  { s with list := { s.list with nodes := s.list.nodes.modify pid fun task => { task with flags } } }

/-- `task->flags = change(task->flags)`, a read and then a write. -/
def changeFlags (pid : Nat) (change : UInt8 → UInt8) : SchedulerT Unit := do
  let flags ← readFlags pid
  write (withFlags pid (change flags))

/-- The end of a call, behind the choice of the core's index. -/
def takeAndRelease (cpu : Nat) : SchedulerT (Option Nat) := do
  let newTask ← currentTask cpu
  if (← readFlags newTask) &&& taskPresent ≠ 0 then
    if (← readFlags newTask) &&& taskRunning = 0 then
      changeFlags newTask (· ||| taskRunning)
      drop .schedulerLock
      return some newTask
    else
      drop .schedulerLock
      return none
  else
    drop .schedulerLock
    return none

/-- One call of `task_select` behind `spinlock_aquire(&scheduler_lock)`. -/
def taskSelect (cpu : Nat) : SchedulerT (Option Nat) := do
  let currentCoreNum ← getCurrentProcessor cpu
  let currentTaskNum := currentIndex (← read) currentCoreNum
  changeFlags currentTaskNum (· &&& ~~~taskRunning)
  if (← read).list.length = 1 then
    write (moveTo · currentCoreNum 0)
    return some 0
  else
    write (moveTo · currentCoreNum (currentTaskNum + 1))
    if currentTaskNum ≥ (← read).list.length then
      write (moveTo · currentCoreNum 0)
      takeAndRelease cpu
    else takeAndRelease cpu

section alone

variable {s : Tasklist} {cpu pid : Nat} {holder : Lock → Option Nat}

theorem getCurrentProcessor_run (released : holder .currentCpuLock = none) :
    (getCurrentProcessor cpu).run cpu ⟨s, holder⟩ = .ok (cpu, ⟨s, holder⟩) := by
  unfold getCurrentProcessor
  rw [bind_run (take_run released), bind_run drop_run, release_aquired released]
  rfl

theorem currentTask_run (released : holder .getCurrentTaskLock = none) (cpuReleased : holder .currentCpuLock = none) :
    (currentTask cpu).run cpu ⟨s, holder⟩ = .ok (currentIndex s cpu, ⟨s, holder⟩) := by
  unfold currentTask
  rw [bind_run (take_run released), bind_run (getCurrentProcessor_run (by simpa using cpuReleased)), bind_run read_run,
    bind_run drop_run, release_aquired released]
  rfl

theorem readFlags_run {task : Task} (found : getTask s pid = some task) :
    (readFlags pid).run cpu ⟨s, holder⟩ = .ok (task.flags, ⟨s, holder⟩) := by
  unfold readFlags
  rw [bind_run read_run]
  dsimp only
  rw [found]
  rfl

theorem readFlags_fault (missing : getTask s pid = none) :
    (readFlags pid).run cpu ⟨s, holder⟩ = .error .fault := by
  unfold readFlags
  rw [bind_run read_run]
  dsimp only
  rw [missing]
  rfl

theorem withFlags_eq {task : Task} {change : UInt8 → UInt8} (found : getTask s pid = some task) :
    withFlags pid (change task.flags) s = { s with list := { s.list with
      nodes := s.list.nodes.modify pid fun task => { task with flags := change task.flags } } } := by
  have here : s.list.nodes[pid]? = some task := found
  have same : s.list.nodes.modify pid (fun t => { t with flags := change task.flags }) =
      s.list.nodes.modify pid fun t => { t with flags := change t.flags } := by
    refine List.ext_getElem? fun i => ?_
    rw [List.getElem?_modify, List.getElem?_modify]
    by_cases own : pid = i
    · subst own
      rw [here]
      rfl
    · simp only [if_neg own]
  rw [withFlags, same]

theorem changeFlags_run {task : Task} {change : UInt8 → UInt8} (found : getTask s pid = some task) :
    (changeFlags pid change).run cpu ⟨s, holder⟩ = .ok ((), ⟨{ s with list := { s.list with
      nodes := s.list.nodes.modify pid fun task => { task with flags := change task.flags } } }, holder⟩) := by
  unfold changeFlags
  rw [bind_run (readFlags_run found), write_run, withFlags_eq found]

theorem takeAndRelease_run : (takeAndRelease cpu).run cpu ⟨s, scheduling cpu⟩ = withHolder allFree (takeCurrent cpu s) := by
  unfold takeAndRelease
  rw [bind_run (currentTask_run rfl rfl), takeCurrent_eq]
  cases found : getTask s (currentIndex s cpu) with
  | none =>
    rw [bind_run_error (readFlags_fault found)]
    rfl
  | some task =>
    rw [bind_run (readFlags_run found)]
    dsimp only
    by_cases present : task.flags &&& taskPresent ≠ 0
    · rw [if_pos present, bind_run (readFlags_run found)]
      by_cases idle : task.flags &&& taskRunning = 0
      · rw [if_pos idle, if_pos ⟨present, idle⟩, bind_run (changeFlags_run found), bind_run drop_run, release_scheduling]
        rfl
      · rw [if_neg idle, if_neg fun both => idle both.2, bind_run drop_run, release_scheduling]
        rfl
    · rw [if_neg present, if_neg fun both => present both.1, bind_run drop_run, release_scheduling]
      rfl

/-- Alone, the steps of a call do what its section does. -/
theorem taskSelect_run (s : Tasklist) (cpu : Nat) : (taskSelect cpu).run cpu ⟨s, scheduling cpu⟩ =
    withHolder (if s.list.length = 1 then scheduling cpu else allFree) (selectSection cpu s) := by
  unfold taskSelect selectSection
  rw [bind_run (getCurrentProcessor_run rfl), bind_run read_run, bind_eq run_get]
  dsimp only
  cases found : getTask s (currentIndex s cpu) with
  | none =>
    have fault : (changeFlags (currentIndex s cpu) (· &&& ~~~taskRunning)).run cpu ⟨s, scheduling cpu⟩ = .error .fault := by
      unfold changeFlags
      exact bind_run_error (readFlags_fault found)
    have missing : ¬ currentIndex s cpu < s.list.length := by
      intro inside
      obtain ⟨task, there⟩ := getTask_isSome inside
      rw [found] at there
      cases there
    have stops : modifyTask (currentIndex s cpu) (fun task => { task with flags := task.flags &&& ~~~taskRunning }) s =
        .error .fault := by
      unfold modifyTask
      rw [bind_eq run_get, if_neg missing]
      rfl
    rw [bind_run_error fault, bind_error stops]
    rfl
  | some task =>
    have inside := getTask_lt found
    rw [bind_run (changeFlags_run found), bind_run read_run, bind_eq (clearRunning_run inside), bind_eq run_get]
    change (if (clearRunning s (currentIndex s cpu)).list.length = 1 then _ else _ : SchedulerT (Option Nat)).run cpu
      ⟨clearRunning s (currentIndex s cpu), _⟩ = _
    rw [length_clearRunning]
    by_cases alone : s.list.length = 1
    · rw [if_pos alone, if_pos alone, if_pos alone, bind_eq moveTo_run, bind_run (write_run _)]
      rfl
    · rw [if_neg alone, if_neg alone, if_neg alone, bind_eq moveTo_run, bind_run (write_run _), bind_run read_run,
        bind_eq run_get]
      dsimp only
      split
      · rw [bind_eq moveTo_run, bind_run (write_run _)]
        exact takeAndRelease_run
      · exact takeAndRelease_run

end alone

/-! ### The scheduler lock around a call -/

theorem getCurrentProcessor_avoids (cpu : Nat) : (getCurrentProcessor cpu).Avoids .schedulerLock :=
  ⟨by decide, by decide, trivial⟩

theorem currentTask_avoids (cpu : Nat) : (currentTask cpu).Avoids .schedulerLock := by
  refine ⟨by decide, (getCurrentProcessor_avoids cpu).bind fun core => ?_⟩
  exact fun s => ⟨by decide, trivial⟩

theorem readFlags_avoids (pid : Nat) : (readFlags pid).Avoids .schedulerLock := by
  intro s
  show Thread.Avoids _ (match getTask s pid with | none => fault | some task => ret task.flags)
  cases getTask s pid <;> trivial

theorem changeFlags_avoids (pid : Nat) (change : UInt8 → UInt8) : (changeFlags pid change).Avoids .schedulerLock :=
  (readFlags_avoids pid).bind fun _ _ => trivial

theorem takeAndRelease_bracketed (cpu : Nat) : (takeAndRelease cpu).Bracketed .schedulerLock := by
  refine Bracketed.bind (currentTask_avoids cpu) fun pid => Bracketed.bind (readFlags_avoids pid) fun flags => ?_
  split
  · refine Bracketed.bind (readFlags_avoids pid) fun flags' => ?_
    split
    · exact Bracketed.bind (changeFlags_avoids pid _) fun _ => Bracketed.last _
    · exact Bracketed.last _
  · exact Bracketed.last _

theorem taskSelect_bracketed (cpu : Nat) : (taskSelect cpu).Bracketed .schedulerLock := by
  refine Bracketed.bind (getCurrentProcessor_avoids cpu) fun core => Bracketed.bind (read_avoids _) fun s =>
    Bracketed.bind (changeFlags_avoids _ _) fun _ => Bracketed.bind (read_avoids _) fun s₁ => ?_
  split
  · exact Bracketed.bind (write_avoids _ _) fun _ => trivial
  · refine Bracketed.bind (write_avoids _ _) fun _ => Bracketed.bind (read_avoids _) fun s₂ => ?_
    split
    · exact Bracketed.bind (write_avoids _ _) fun _ => takeAndRelease_bracketed cpu
    · exact takeAndRelease_bracketed cpu

end Steps

/-! ### Cores that call `task_select` -/

section cores

variable (cpuCount : Nat) (ok : Nat → Cores → Prop)

/-- The calls of `task_select`, and the task that a core got last. -/
def selecting : Calls Lock Nat Tasklist (Option Nat) (Option Nat) where
  lock := .schedulerLock
  body c t := c < cpuCount ∧ t = Steps.taskSelect c
  note r old := match r with
    | none => old
    | some pid => some pid
  meets c tasks held := ok c ⟨tasks, held⟩

abbrev Interleaved (start : Cores) : Config Lock Nat Tasklist (Option Nat) (Option Nat) → Prop :=
  Run (selecting cpuCount ok) start.tasks start.held

/-- The core has chosen another task and released the lock, but not returned. -/
def Leaving (s : Config Lock Nat Tasklist (Option Nat) (Option Nat)) (c pid : Nat) : Prop :=
  ∃ next, s.code c = some (.ret (some next)) ∧ next ≠ pid

/-- Core `c` is in a section that began in state `t`. -/
structure InSection (s : Config Lock Nat Tasklist (Option Nat) (Option Nat)) (t : Cores) (c : Nat) : Prop where
  others : ∀ d ≠ c, Outside (selecting cpuCount ok) s d ∧ s.settled (selecting cpuCount ok) d = t.held d
  own : s.got c = t.held c
  returns : ∀ r tasks', selectSection c t.tasks = .ok (r, tasks') →
    Relation.ReflTransGen (Step (selecting cpuCount ok)) s
      ⟨⟨tasks', allFree⟩, Function.update s.code c (some (.ret r)), s.got⟩
  stops : ∀ e, selectSection c t.tasks = .error e → Stuck (selecting cpuCount ok) s t.tasks t.held c

variable {cpuCount ok} {start : Cores} {s : Config Lock Nat Tasklist (Option Nat) (Option Nat)}

theorem after_eq (held : Nat → Option Nat) (c : Nat) (r : Option Nat) :
    Cores.after held c r = Function.update held c ((selecting cpuCount ok).note r (held c)) := by
  cases r with
  | none => exact (Function.update_eq_self ..).symm
  | some pid =>
    funext d
    unfold Cores.after selecting
    by_cases same : d = c <;> simp [same]

/-- Whole calls of `task_select` are a run of its sections. -/
theorem selectRun_of_serial {data : Tasklist} {got : Nat → Option Nat} (many : 2 ≤ start.tasks.list.length)
    (serial : SerialRun (selecting cpuCount ok) start.tasks start.held data got) :
    SelectRun cpuCount ok start ⟨data, got⟩ ∧ 2 ≤ data.list.length := by
  induction serial with
  | start => exact ⟨.start, many⟩
  | @call data data' got c t a before known meets run ih =>
    obtain ⟨run', many'⟩ := ih
    obtain ⟨inside, rfl⟩ := known
    have run : withHolder _ (selectSection c data) = .ok (a, ⟨data', allFree⟩) := (Steps.taskSelect_run data c).symm.trans run
    have chosen := (withHolder_ok run).1
    refine ⟨?_, Nat.le_trans many' (grown_selectSection chosen).1⟩
    rw [← after_eq]
    exact .step c run' inside meets chosen

theorem selecting_sound (many : 2 ≤ start.tasks.list.length) :
    (selecting cpuCount ok).Sound start.tasks start.held where
  bracketed := by
    rintro c t ⟨_, rfl⟩
    exact Steps.taskSelect_bracketed c
  frees := by
    rintro data got c t a s serial ⟨_, rfl⟩ _ run
    have run := (Steps.taskSelect_run data c).symm.trans run
    have many' := (selectRun_of_serial many serial).2
    rw [if_neg (by omega)] at run
    exact (withHolder_ok run).2

/-- A whole call, up to its return. -/
theorem completes_select {c : Nat} {data data' : Tasklist} {r : Option Nat} (many : 2 ≤ data.list.length)
    (idle : s.code c = none) (shared : s.shared = ⟨data, allFree⟩) (known : c < cpuCount)
    (meets : ok c ⟨data, s.settled (selecting cpuCount ok)⟩) (chosen : selectSection c data = .ok (r, data')) :
    Relation.ReflTransGen (Step (selecting cpuCount ok)) s
      ⟨⟨data', allFree⟩, Function.update s.code c (some (.ret r)), s.got⟩ := by
  have run : (Steps.taskSelect c).run c ⟨data, scheduling c⟩ = .ok (r, ⟨data', allFree⟩) := by
    rw [Steps.taskSelect_run, if_neg (by omega), chosen]
    rfl
  exact completes_call (Steps.taskSelect_bracketed c) idle shared ⟨known, rfl⟩ meets run

/-- Whatever the order of the cores' reads and writes, the tasks are those of a run of whole sections when
`scheduler_lock` is free; a core that has the lock is in one section, which its own steps complete, and all other
cores wait or have returned. -/
theorem taskSelect_atomic (many : 2 ≤ start.tasks.list.length) (run : Interleaved cpuCount ok start s) :
    ∃ t, SelectRun cpuCount ok start t ∧
      (s.shared.holder .schedulerLock = none →
        s.shared = ⟨t.tasks, allFree⟩ ∧ s.settled (selecting cpuCount ok) = t.held) ∧
      ∀ c, s.shared.holder .schedulerLock = some c → InSection cpuCount ok s t c := by
  have sound : (selecting cpuCount ok).Sound start.tasks start.held := selecting_sound many
  obtain ⟨data, got, before, serial⟩ := Run.serial sound run
  obtain ⟨sections, many'⟩ := selectRun_of_serial many before
  refine ⟨⟨data, got⟩, sections, ?_⟩
  cases serial with
  | between shared outside settled =>
    refine ⟨fun _ => ⟨shared, settled⟩, fun c held => ?_⟩
    rw [shared] at held
    cases held
  | during c t inside outside settled own =>
    have taken : s.shared.holder .schedulerLock = some c := inside.held
    refine ⟨fun free => ?_, fun d held => ?_⟩
    · rw [taken] at free
      cases free
    obtain rfl := Option.some.inj (taken.symm.trans held)
    obtain ⟨_, ⟨_, rfl⟩, meets, run'⟩ := inside.whole
    have whole : t.run c s.shared = withHolder allFree (selectSection c data) := by
      refine run'.trans ((Steps.taskSelect_run data c).trans ?_)
      rw [if_neg (by omega)]
    refine ⟨fun d away => ⟨outside d away, settled d away⟩, own, fun r tasks' chosen => ?_, fun e stops => ?_⟩
    · refine inside.completes ?_
      rw [whole, chosen]
      rfl
    · have error : t.run c s.shared = .error e := by
        rw [whole, stops]
        rfl
      refine ⟨⟨t, e, inside, error⟩, outside, funext fun d => ?_⟩
      by_cases mine : d = c
      · subst mine
        rw [settled_inside inside.code (fun a same => ?_), own]
        rw [same] at error
        cases error
      · exact settled d mine

theorem taskSelect_atomic_threeCores : ∃ t, SelectRun 3 (fun _ _ => True) threeCores t ∧ t.held 0 = some 1 := by
  have first : Interleaved 3 (fun _ _ => True) threeCores _ :=
    completes_select (c := 0) (by decide) rfl rfl (by decide) trivial rfl
  have waits := first.tail (Step.begin 1 rfl ⟨by decide, rfl⟩)
  obtain ⟨t, sections, free, _⟩ := taskSelect_atomic (by decide) waits
  obtain ⟨_, settled⟩ := free rfl
  exact ⟨t, sections, settled ▸ rfl⟩

/-- A core whose lookup went past the end of the list keeps `scheduler_lock`: from then on no call on any core gets a
task. -/
theorem missing_task_blocks {s' : Config Lock Nat Tasklist (Option Nat) (Option Nat)} {c : Nat}
    (many : 2 ≤ start.tasks.list.length) (run : Interleaved cpuCount ok start s) (faulted : s.code c = some .fault)
    (later : Relation.ReflTransGen (Step (selecting cpuCount ok)) s s') :
    s'.shared.holder .schedulerLock = some c ∧ s'.settled (selecting cpuCount ok) = s.settled (selecting cpuCount ok) := by
  have inside : ¬ Outside (selecting cpuCount ok) s c := by
    rintro (idle | ⟨t, _, waits⟩ | ⟨a, returns⟩)
    · rw [idle] at faulted
      cases faulted
    · rw [waits] at faulted
      cases faulted
    · rw [returns] at faulted
      cases faulted
  obtain ⟨data, got, before, serial⟩ := Run.serial (selecting_sound many) run
  cases serial with
  | between _ outside _ => exact (inside (outside c)).elim
  | during d t there outside settled own =>
    by_cases mine : c = d
    · subst mine
      obtain rfl := Option.some.inj (faulted.symm.trans there.code)
      have same : s.settled (selecting cpuCount ok) = got := by
        funext e
        by_cases here : e = c
        · subst here
          rw [settled_inside faulted fun a h => by cases h]
          exact own
        · exact settled e here
      have stuck : Stuck (selecting cpuCount ok) s data got c := ⟨⟨.fault, .fault, there, rfl⟩, outside, same⟩
      obtain ⟨⟨t', e, there', _⟩, _, settled'⟩ := stuck.forever later
      exact ⟨there'.held, settled'.trans same.symm⟩
    · exact (inside (outside c mine)).elim

/-- A core at the last of three tasks. -/
def atLastTask : Cores :=
  { threeCores with tasks := { threeCores.tasks with currentTasks := { dataSize := 8, nodes := [2, 0, 0] } } }

theorem missing_task_blocks_atLastTask : ∃ s, Interleaved 3 (fun _ _ => True) atLastTask s ∧
    ∀ s', Relation.ReflTransGen (Step (selecting 3 fun _ _ => True)) s s' →
      s'.shared.holder .schedulerLock = some 0 ∧ s'.settled (selecting 3 fun _ _ => True) = fun _ => none := by
  obtain ⟨entered, inside⟩ : _ ∧ Inside (selecting 3 fun _ _ => True) _ _ _ 0 _ :=
    enters_call (s := ⟨⟨atLastTask.tasks, allFree⟩, fun _ => none, atLastTask.held⟩) (Steps.taskSelect_bracketed 0) rfl
      rfl ⟨by decide, rfl⟩ trivial
  have stops : (Steps.taskSelect 0).run 0 ⟨atLastTask.tasks, scheduling 0⟩ = .error .fault := by
    rw [Steps.taskSelect_run]
    rfl
  obtain ⟨last, faults⟩ := inside.faults stops
  have run := entered.trans faults
  refine ⟨_, run, fun s' later => ?_⟩
  obtain ⟨held, settled⟩ := missing_task_blocks (by decide) run (Function.update_self ..) later
  refine ⟨held, settled.trans ?_⟩
  funext d
  by_cases zero : d = 0
  · subst zero
    rfl
  · simp [Config.settled, zero, atLastTask, threeCores]

theorem SelectRun.guarded {t : Cores} (idle : Idle cpuCount start) (run : SelectRun cpuCount Undisturbed start t) :
    Guarded cpuCount t := by
  induction run with
  | start => exact idle.guarded
  | step cpu before known meets h ih => exact ih.step known meets h

/-- While no section disturbs another core, two cores have got the same task only when one of them has chosen another
task already and not returned. -/
theorem exclusive_but_for_leaving {c d pid : Nat} (idle : Idle cpuCount start)
    (run : Interleaved cpuCount Undisturbed start s) (different : c ≠ d) (first : s.got c = some pid)
    (second : s.got d = some pid) : Leaving s c pid ∨ Leaving s d pid := by
  obtain ⟨data, got, before, serial⟩ := Run.serial (selecting_sound idle.tasks) run
  have guarded := (selectRun_of_serial idle.tasks before).1.guarded idle
  by_contra neither
  rw [not_or] at neither
  -- A core that is not leaving has the same task when its call has returned.
  have stays : ∀ e, ¬ Leaving s e pid → s.got e = some pid → s.settled (selecting cpuCount Undisturbed) e = some pid := by
    intro e here has
    unfold Config.settled
    split
    · rename_i a code
      cases a with
      | none => exact has
      | some next =>
        by_contra other
        exact here ⟨next, code, fun same => other (same ▸ rfl)⟩
    · exact has
  have holds : ∀ e, ¬ Leaving s e pid → s.got e = some pid → got e = some pid := by
    intro e here has
    cases serial with
    | between _ _ settled => exact settled ▸ stays e here has
    | during i t _ _ settled own =>
      by_cases mine : e = i
      · subst mine
        exact own.symm.trans has
      · rw [← settled e mine]
        exact stays e here has
  exact guarded.apart c d pid different (holds c neither.1 first) (holds d neither.2 second)

end cores

/-- Core 0 has left task 1 for task 2 and not returned; core 1 has got task 1. -/
theorem exclusive_but_for_leaving_threeCores : ∃ s, Interleaved 3 Undisturbed threeCores s ∧ s.got 0 = some 1 ∧
    s.got 1 = some 1 ∧ (Leaving s 0 1 ∨ Leaving s 1 1) := by
  have first : Interleaved 3 Undisturbed threeCores _ :=
    completes_select (c := 0) (by decide) rfl rfl (by decide) (fun d _ pid held => nomatch held) rfl
  have gotten := first.tail (Step.finish 0 rfl)
  have second := gotten.trans (completes_select (c := 0) (by decide) rfl rfl (by decide) (fun d other pid held => by
    simp [Config.settled, other, threeCores, selecting] at held) rfl)
  have third := second.trans (completes_select (c := 1) (by decide) rfl rfl (by decide) (fun d _ pid held => by
    by_cases zero : d = 0
    · subst d
      obtain rfl : 2 = pid := Option.some.inj held
      exact ⟨by decide, fun _ => by decide⟩
    · simp [Config.settled, zero, threeCores, selecting] at held) rfl)
  have last := third.tail (Step.finish 1 rfl)
  exact ⟨_, last, rfl, rfl, exclusive_but_for_leaving threeCores_idle last (by decide) rfl rfl⟩

end PotatOS.Tasks
