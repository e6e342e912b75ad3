import PotatOS.Lib.Program
import PotatOS.Mem.Vector

/-!
# The task list (`tasklist.c`, `end_task.c`)

A `Task` pointer is the position of the task in the list, which only grows.
`selectSection` is the part of `task_select` between taking and releasing the
scheduler lock.
-/

namespace PotatOS.Tasks

open Mem

def taskPresent : UInt8 := 1
def taskFirstExec : UInt8 := 2
def taskRunning : UInt8 := 4

def kernelStackPtr : Nat := 0xFFFFFFFFFFFFF000

structure Event where
  doHandle : Bool
  eventId : Nat
  data0 : Nat
  data1 : Nat
  deriving DecidableEq, Repr

def eventTaskExited : Nat := 1

structure Task where
  isUser : Bool
  eventQueue : Option (Vec Event)
  currentDir : List UInt8
  argc : Nat
  argv : Nat
  pml4Addr : Nat
  kernelRsp : Nat
  currentRsp : Nat
  entryPoint : Nat
  resources : List (Option Nat)
  parent : Option Nat
  flags : UInt8
  errno : Nat
  mmapUpto : Nat
  deriving DecidableEq, Repr

structure Tasklist where
  list : Vec Task
  currentTasks : Vec Nat
  deriving DecidableEq, Repr

abbrev TaskM := Prog Tasklist

/-- A field that a compound literal leaves out is zero; a pointer is then null. -/
def blankTask : Task :=
  { isUser := false, eventQueue := none, currentDir := [], argc := 0, argv := 0, pml4Addr := 0,
    kernelRsp := 0, currentRsp := 0, entryPoint := 0, resources := List.replicate 20 none, parent := none,
    flags := 0, errno := 0, mmapUpto := 0 }

/-- `init_tasklist`, with the page tree and the processors that the kernel
record holds. -/
def initTasklist (cr3 allTasksEnded cpuCount : Nat) : Tasklist :=
  { list := vectorPush (newVector 264)
      { blankTask with
        eventQueue := some (newVector 32), currentDir := [82, 58, 47], pml4Addr := cr3, kernelRsp := kernelStackPtr,
        currentRsp := kernelStackPtr, entryPoint := allTasksEnded, parent := some 0 }
    currentTasks := (List.range cpuCount).foldl (fun vec _ => vectorPush vec 0) (newVector 8) }

def getTask (s : Tasklist) (pid : Nat) : Option Task := vectorAt s.list pid

/-- `(uint64_t) vector_at(current_tasks, cpu)`: the null pointer is index 0. -/
def currentIndex (s : Tasklist) (cpu : Nat) : Nat := (vectorAt s.currentTasks cpu).getD 0

def getCurrentTask (s : Tasklist) (cpu : Nat) : Option Task := getTask s (currentIndex s cpu)

/-- A write through the pointer to task `pid`. -/
def modifyTask (pid : Nat) (f : Task → Task) : TaskM Unit := do
  if pid < (← get).list.length then
    modify fun s => { s with list := { s.list with nodes := s.list.nodes.modify pid f } }
  else Prog.stop .fault

def setCurrent (cpu pid : Nat) : TaskM Unit :=
  modify fun s => { s with currentTasks := vectorSet s.currentTasks cpu pid }

/-- The record and the strings are values here; their blocks come from `malloc`. -/
def createTask (cpu pml4Addr entryPoint userStack : Nat) (flags : UInt8) : TaskM Nat := do
  match getCurrentTask (← get) cpu with
  | none => Prog.stop .fault
  | some current =>
    let pid := (← get).list.length
    let newTask : Task :=
      { blankTask with
        isUser := true, pml4Addr := pml4Addr, kernelRsp := kernelStackPtr, entryPoint := entryPoint,
        currentRsp := userStack, flags := flags, currentDir := current.currentDir }
    modify fun s => { s with list := vectorPush s.list newTask }
    return pid

/-- What `spawn` stores in the task it created; the parent is the task that
runs on the core. -/
def adoptTask (cpu pid mmapUpto errno argc argv : Nat) : TaskM Unit := do
  let parent := currentIndex (← get) cpu
  modifyTask pid fun task =>
    { task with
      mmapUpto := mmapUpto, errno := errno, argc := argc, argv := argv, eventQueue := some (newVector 32)
      parent := some parent }

/-- `add_event` on the queue of task `pid`. -/
def addEvent (pid : Nat) (event : Event) : TaskM Unit := do
  match (getTask (← get) pid).bind Task.eventQueue with
  | none => Prog.stop .fault
  | some queue => modifyTask pid fun task => { task with eventQueue := some (vectorPush queue event) }

/-- `syscall_exit` up to the point where the core waits for the next task. -/
def syscallExit (cpu exitCode : Nat) : TaskM Unit := do
  let currentTaskNum := currentIndex (← get) cpu
  match getCurrentTask (← get) cpu with
  | none => return
  | some current =>
    if ¬ current.isUser then return
    else
      match current.parent with
      | none => Prog.stop .fault
      | some parent =>
        addEvent parent { doHandle := true, eventId := eventTaskExited, data0 := currentTaskNum, data1 := exitCode }
        modifyTask currentTaskNum fun task => { task with flags := task.flags &&& ~~~taskPresent }

def taskDisableFirstExec (pid : Nat) : TaskM Unit :=
  modifyTask pid fun task => { task with flags := task.flags &&& ~~~taskFirstExec }

/-- The end of a section: take the task at the core's index if it is free. -/
def takeCurrent (cpu : Nat) : TaskM (Option Nat) := do
  let newTaskNum := currentIndex (← get) cpu
  match getTask (← get) newTaskNum with
  | none => Prog.stop .fault
  | some newTask =>
    if newTask.flags &&& taskPresent ≠ 0 ∧ newTask.flags &&& taskRunning = 0 then
      modifyTask newTaskNum fun task => { task with flags := task.flags ||| taskRunning }
      return some newTaskNum
    else return none

/-- One locked section of `task_select`: the task it returns, or `none` when
the function calls itself again. -/
def selectSection (cpu : Nat) : TaskM (Option Nat) := do
  let currentTaskNum := currentIndex (← get) cpu
  modifyTask currentTaskNum fun task => { task with flags := task.flags &&& ~~~taskRunning }
  if (← get).list.length = 1 then
    setCurrent cpu 0
    return some 0
  else
    setCurrent cpu (currentTaskNum + 1)
    -- The test reads the index from before the increment.
    if currentTaskNum ≥ (← get).list.length then
      setCurrent cpu 0
      takeCurrent cpu
    else takeCurrent cpu

/-- `task_select`, with a bound on how often it calls itself. -/
def taskSelect (cpu : Nat) : Nat → TaskM Nat
  | 0 => Prog.stop .hang
  | fuel + 1 => do
    match ← selectSection cpu with
    | some pid => return pid
    | none => taskSelect cpu fuel

end PotatOS.Tasks
