import PotatOS.Fs.Vfs

/-!
# File descriptors (`syscalls.c`)

The four handlers that use `resources`, with the task's memory and the files.
An index outside the array and a null `File` both stop the machine: the checks
of the handlers look at `f->present` only.
-/

namespace PotatOS.Tasks

open Memory Prog Fs

def numResources : Nat := 20

/-- What the handlers see of the current task. -/
structure TaskFiles where
  resources : Vector (Option File) numResources
  vfs : Vfs
  memory : Mem

abbrev FdM := Prog TaskFiles

def onVfs {α : Type} (x : VfsM α) : FdM α := fun s =>
  match x s.vfs with
  | .ok (a, vfs) => .ok (a, { s with vfs })
  | .error e => .error e

/-- `resources[fd]`, which is read through at once. Every `File` has `present` set, so the handlers'
checks of it always pass. -/
def fileOf (fd : Nat) : FdM File := do
  match (← get).resources[fd]? with
  | some (some f) => return f
  | _ => stop .fault

/-- The buffer at a user address. -/
def bufferAt (memory : Mem) (a : Nat) : Mem := fun x => memory (a + x)

def setBuffer (memory : Mem) (a : Nat) (buffer : Mem) : Mem := fun x =>
  if a ≤ x then buffer (x - a) else memory x

/-- The buffer of a file called `stdout` is printed, with `args` as the arguments that `va_arg` finds. -/
def syscallWrite (args : Nat → UInt64) (rdi rsi rdx : Nat) : FdM Int := do
  let f ← fileOf rdi
  return Int.ofNat (← onVfs (vfsWrite (← get).memory args f rsi rdx))

def syscallRead (rdi rsi rdx : Nat) : FdM Int := do
  let f ← fileOf rdi
  let (status, buffer) ← onVfs (vfsRead f (bufferAt (← get).memory rsi) rdx)
  modify fun s => { s with memory := setBuffer s.memory rsi buffer }
  return Int.ofNat status

/-- `flags & O_CREAT` and `flags & O_CREATALL`. -/
def openFlags (rsi : Nat) : OpenFlags := ⟨rsi.testBit 0, rsi.testBit 1⟩

/-- The loop of `syscall_open`. -/
def openFrom (path : Name) (flags : OpenFlags) (mode : UInt8) : Nat → Nat → FdM Int
  | 0, _ => return -1
  | rounds + 1, fileDescriptor => do
    if ((← get).resources[fileDescriptor]?).join ≠ none then openFrom path flags mode rounds (fileDescriptor + 1)
    else
      let file ← onVfs (vfsOpen path flags mode)
      modify fun s => { s with resources := s.resources.setIfInBounds fileDescriptor file }
      return fileDescriptor

/-- `path` is the string at `rdi`. -/
def syscallOpen (path : Name) (rsi rdx : Nat) : FdM Int :=
  openFrom path (openFlags rsi) (UInt8.ofNat rdx) numResources 0

def syscallClose (rdi : Nat) : FdM Unit := do
  let f ← fileOf rdi
  onVfs (vfsClose f)
  modify fun s => { s with resources := s.resources.setIfInBounds rdi none }

namespace TaskFiles

def file (s : TaskFiles) (fd : Nat) : Option File := (s.resources[fd]?).join

def IsOpen (s : TaskFiles) (fd : Nat) : Prop := s.file fd ≠ none

instance (s : TaskFiles) (fd : Nat) : Decidable (s.IsOpen fd) := inferInstanceAs (Decidable (_ ≠ none))

end TaskFiles

inductive FdCall where
  | open (path : Name) (rsi rdx : Nat)
  | read (rdi rsi rdx : Nat)
  | write (args : Nat → UInt64) (rdi rsi rdx : Nat)
  | close (rdi : Nat)

def FdCall.run : FdCall → FdM Int
  | .open path rsi rdx => syscallOpen path rsi rdx
  | .read rdi rsi rdx => syscallRead rdi rsi rdx
  | .write args rdi rsi rdx => syscallWrite args rdi rsi rdx
  | .close rdi => do
    syscallClose rdi
    return 0

/-! ### The table -/

section table

variable {s : TaskFiles}

theorem onVfs_ok {α : Type} {x : VfsM α} {a : α} {vfs : Vfs} (h : x s.vfs = .ok (a, vfs)) :
    onVfs x s = .ok (a, { s with vfs }) := by
  simp only [onVfs, h]

theorem onVfs_error {α : Type} {x : VfsM α} {e : Stop} (h : x s.vfs = .error e) : onVfs x s = .error e := by
  simp only [onVfs, h]

theorem fileOf_closed {fd : Nat} (closed : ¬ s.IsOpen fd) : fileOf fd s = .error .fault := by
  have none : s.file fd = none := Decidable.not_not.mp closed
  unfold TaskFiles.file at none
  unfold fileOf
  rw [bind_eq run_get]
  cases slot : s.resources[fd]? with
  | none => rfl
  | some file =>
    rw [slot] at none
    obtain rfl : file = _ := none
    rfl

theorem file_set {fd fd' : Nat} {file : Option File} (inside : fd < numResources) :
    ({ s with resources := s.resources.setIfInBounds fd file } : TaskFiles).file fd' =
      if fd' = fd then file else s.file fd' := by
  unfold TaskFiles.file
  rw [Vector.getElem?_setIfInBounds]
  split
  · rename_i same
    rw [if_pos same.symm]
    rfl
  · rename_i other
    rw [if_neg fun same => other same.symm]

theorem openFrom_taken {path : Name} {flags : OpenFlags} {mode : UInt8} {rounds fd : Nat} (taken : s.IsOpen fd) :
    openFrom path flags mode (rounds + 1) fd s = openFrom path flags mode rounds (fd + 1) s := by
  rw [openFrom, bind_eq run_get]
  exact congrFun (if_pos taken) s

theorem openFrom_free {path : Name} {flags : OpenFlags} {mode : UInt8} {rounds fd : Nat} (free : ¬ s.IsOpen fd) :
    openFrom path flags mode (rounds + 1) fd s = match vfsOpen path flags mode s.vfs with
      | .ok (file, vfs) => .ok (fd, { s with vfs, resources := s.resources.setIfInBounds fd file })
      | .error e => .error e := by
  rw [openFrom, bind_eq run_get]
  refine (congrFun (if_neg free) s).trans ?_
  cases opened : vfsOpen path flags mode s.vfs with
  | ok pair => exact bind_eq (onVfs_ok opened)
  | error e => exact bind_error (onVfs_error opened)

/-- A full table, or the first empty slot takes what `open` returns. -/
theorem openFrom_cases (path : Name) (flags : OpenFlags) (mode : UInt8) {rounds fd : Nat}
    (all : fd + rounds = numResources) (before : ∀ i < fd, s.IsOpen i) :
    ((∀ i < numResources, s.IsOpen i) ∧ openFrom path flags mode rounds fd s = .ok (-1, s)) ∨
      ∃ free < numResources, ¬ s.IsOpen free ∧
        openFrom path flags mode rounds fd s = match vfsOpen path flags mode s.vfs with
          | .ok (file, vfs) => .ok (free, { s with vfs, resources := s.resources.setIfInBounds free file })
          | .error e => .error e := by
  induction rounds generalizing fd with
  | zero => exact .inl ⟨fun i inside => before i (by omega), rfl⟩
  | succ rounds ih =>
    by_cases taken : s.IsOpen fd
    · rw [openFrom_taken taken]
      apply ih (by omega)
      intro i inside
      rcases Nat.lt_succ_iff_lt_or_eq.mp inside with earlier | rfl
      · exact before i earlier
      · exact taken
    · exact .inr ⟨fd, by omega, taken, openFrom_free taken⟩

theorem syscallOpen_cases (path : Name) (rsi rdx : Nat) :
    ((∀ i < numResources, s.IsOpen i) ∧ syscallOpen path rsi rdx s = .ok (-1, s)) ∨
      ∃ free < numResources, ¬ s.IsOpen free ∧
        syscallOpen path rsi rdx s = match vfsOpen path (openFlags rsi) (UInt8.ofNat rdx) s.vfs with
          | .ok (file, vfs) => .ok (free, { s with vfs, resources := s.resources.setIfInBounds free file })
          | .error e => .error e :=
  openFrom_cases path (openFlags rsi) (UInt8.ofNat rdx) (by rfl) fun _ inside => by omega

/-- Read, write and close read through the descriptor first. -/
theorem closed_faults {fd : Nat} (closed : ¬ s.IsOpen fd) (args : Nat → UInt64) (rsi rdx : Nat) :
    syscallRead fd rsi rdx s = .error .fault ∧ syscallWrite args fd rsi rdx s = .error .fault ∧
      syscallClose fd s = .error .fault := by
  have fault := fileOf_closed closed
  exact ⟨bind_error fault, bind_error fault, bind_error fault⟩

end table

/-! ### What the handlers promise -/

/-- `syscall_open` answers with a fresh descriptor or with -1, and the others report a descriptor that
is not open and change nothing. `syscall_close` has no result to report it in. -/
def Safe : FdCall → TaskFiles → Prop
  | .open path rsi rdx, s => ∃ answer s', syscallOpen path rsi rdx s = .ok (answer, s') ∧
      ((∃ fd < numResources, answer = fd ∧ ¬ s.IsOpen fd ∧ s'.IsOpen fd ∧ ∀ other ≠ fd, s'.file other = s.file other) ∨
        answer = -1 ∧ s'.resources = s.resources)
  | .read fd rsi rdx, s => ¬ s.IsOpen fd → ∃ answer ≠ 0, syscallRead fd rsi rdx s = .ok (answer, s)
  | .write args fd rsi rdx, s => ¬ s.IsOpen fd → ∃ answer ≠ 0, syscallWrite args fd rsi rdx s = .ok (answer, s)
  | .close fd, s => ¬ s.IsOpen fd → syscallClose fd s = .ok ((), s)

/-- `open` finds or makes the file unless the table is full, and the others are given open descriptors. -/
def AvoidsFaults : FdCall → TaskFiles → Prop
  | .open path rsi rdx, s => (∀ fd < numResources, s.IsOpen fd) ∨
      ∃ f vfs, vfsOpen path (openFlags rsi) (UInt8.ofNat rdx) s.vfs = .ok (some f, vfs)
  | .read fd _ _, s => s.IsOpen fd
  | .write _ fd _ _, s => s.IsOpen fd
  | .close fd, s => s.IsOpen fd

theorem open_safe_iff (path : Name) (rsi rdx : Nat) (s : TaskFiles) :
    Safe (.open path rsi rdx) s ↔ AvoidsFaults (.open path rsi rdx) s := by
  rcases syscallOpen_cases (s := s) path rsi rdx with ⟨full, run⟩ | ⟨free, inside, empty, run⟩
  · exact ⟨fun _ => .inl full, fun _ => ⟨-1, s, run, .inr ⟨rfl, rfl⟩⟩⟩
  · cases opened : vfsOpen path (openFlags rsi) (UInt8.ofNat rdx) s.vfs with
    | error e =>
      rw [opened] at run
      constructor
      · rintro ⟨answer, s', returned, _⟩
        cases run.symm.trans returned
      · rintro (full | ⟨f, vfs, found⟩)
        · exact absurd (full free inside) empty
        · cases opened.symm.trans found
    | ok pair =>
      obtain ⟨file, vfs⟩ := pair
      rw [opened] at run
      constructor
      · rintro ⟨answer, s', returned, kept⟩
        obtain ⟨rfl, rfl⟩ := Prod.mk.inj (Except.ok.inj (run.symm.trans returned))
        rcases kept with ⟨fd, _, same, _, held, _⟩ | ⟨negative, _⟩
        · obtain rfl : free = fd := Int.ofNat.inj same
          cases file with
          | some f => exact .inr ⟨f, vfs, opened⟩
          | none => exact absurd ((file_set inside).trans (if_pos rfl)) held
        · cases negative
      · rintro (full | ⟨f, vfs', found⟩)
        · exact absurd (full free inside) empty
        · obtain ⟨rfl, rfl⟩ := Prod.mk.inj (Except.ok.inj (opened.symm.trans found))
          refine ⟨free, _, run, .inl ⟨free, inside, rfl, empty, ?_, ?_⟩⟩
          · intro none
            cases none.symm.trans ((file_set inside).trans (if_pos rfl))
          · intro other different
            exact (file_set inside).trans (if_neg different)

theorem safe_iff (call : FdCall) (s : TaskFiles) : Safe call s ↔ AvoidsFaults call s := by
  cases call with
  | «open» path rsi rdx => exact open_safe_iff path rsi rdx s
  | read fd rsi rdx =>
    refine ⟨fun safe => ?_, fun held closed => absurd held closed⟩
    by_contra closed
    obtain ⟨answer, _, run⟩ := safe closed
    cases (closed_faults closed (fun _ => 0) rsi rdx).1.symm.trans run
  | write args fd rsi rdx =>
    refine ⟨fun safe => ?_, fun held closed => absurd held closed⟩
    by_contra closed
    obtain ⟨answer, _, run⟩ := safe closed
    cases (closed_faults closed args rsi rdx).2.1.symm.trans run
  | close fd =>
    refine ⟨fun safe => ?_, fun held closed => absurd held closed⟩
    by_contra closed
    cases (closed_faults closed (fun _ => 0) 0 0).2.2.symm.trans (safe closed)

/-- A call with the files and the memory that it finds: other tasks run before it. -/
structure FdStep where
  vfs : Vfs
  memory : Mem
  call : FdCall

/-- The state in which the call is made. -/
def FdStep.before (step : FdStep) (s : TaskFiles) : TaskFiles := { s with vfs := step.vfs, memory := step.memory }

/-- A condition holds before every call that the run reaches. One that stops the machine is the last. -/
def Throughout (condition : FdCall → TaskFiles → Prop) : List FdStep → TaskFiles → Prop
  | [], _ => True
  | step :: rest, s => condition step.call (step.before s) ∧
      ∀ answer s', step.call.run (step.before s) = .ok (answer, s') → Throughout condition rest s'

/-- The descriptor table is safe in exactly the runs whose calls are all guarded. -/
theorem descriptors_safe_iff (steps : List FdStep) (s : TaskFiles) :
    Throughout Safe steps s ↔ Throughout AvoidsFaults steps s := by
  induction steps generalizing s with
  | nil => exact Iff.rfl
  | cons step rest ih =>
    apply and_congr (safe_iff step.call (step.before s))
    apply forall_congr'
    intro answer
    apply forall_congr'
    intro s'
    exact imp_congr_right fun _ => ih s'

/-- A task without files whose drives are not mounted. -/
def noFiles : TaskFiles := ⟨Vector.replicate numResources none, {}, fun _ => 0⟩

/-- Opening `A:/f` without a drive gives descriptor 0 for no file, and reading from it faults. -/
theorem failed_open_is_a_descriptor : syscallOpen [65, 58, 47, 102] 0 1 noFiles = .ok (0, noFiles) ∧
    syscallRead 0 0 1 noFiles = .error .fault ∧
    ¬ Throughout Safe [⟨noFiles.vfs, noFiles.memory, .open [65, 58, 47, 102] 0 1⟩] noFiles := by
  have run : syscallOpen [65, 58, 47, 102] 0 1 noFiles = .ok (0, noFiles) := rfl
  refine ⟨run, rfl, fun safe => ?_⟩
  obtain ⟨answer, s', returned, kept⟩ := safe.1
  obtain ⟨rfl, rfl⟩ := Prod.mk.inj (Except.ok.inj (run.symm.trans returned))
  rcases kept with ⟨fd, _, _, empty, held, _⟩ | ⟨negative, _⟩
  · exact empty held
  · cases negative

end PotatOS.Tasks
