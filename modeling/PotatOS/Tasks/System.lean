import PotatOS.Mem.Kheap
import PotatOS.Mem.Pmm
import PotatOS.Mem.PagingSpec
import PotatOS.Tasks.Tasklist

/-!
# Loading programs and mapping memory (`spawn.c`, `mmap.c`)

The state is the kernel record with its memory, the task list and the state of
the file system. The file system is reached through a table of operations.
The file buffer of `spawn` is a block of the kernel heap, so headers are read
from memory as the code reads them.
-/

namespace PotatOS.Tasks

open Memory Mem

/-- The operations of `vfs.c` that the loader calls, over the state of the file
system: a read gives its status and the bytes it puts into the buffer. -/
structure FileAccess (φ : Type) where
  /-- The current directory, the path, the flags and the mode. -/
  openFile : List UInt8 → List UInt8 → Nat → Nat → φ → Option Nat × φ
  close : Nat → φ → φ
  fileLength : φ → Nat → Nat
  read : Nat → Nat → φ → (Nat × List UInt8) × φ
  small : ∀ files f, fileLength files f < 2 ^ 63
  bounded : ∀ f n files, (read f n files).1.2.length ≤ n

structure System (φ : Type) where
  kernel : Kernel
  tasks : Tasklist
  files : φ

abbrev SysM (φ : Type) := Prog (System φ)

def onKernel {φ α : Type} (x : KernelM α) : SysM φ α := fun s =>
  match x s.kernel with
  | .ok (a, k) => .ok (a, { s with kernel := k })
  | .error e => .error e

def onTasks {φ α : Type} (x : TaskM α) : SysM φ α := fun s =>
  match x s.tasks with
  | .ok (a, t) => .ok (a, { s with tasks := t })
  | .error e => .error e

section lift

variable {φ α : Type} {s s' : System φ} {a : α}

theorem onKernel_ok {x : KernelM α} (h : onKernel x s = .ok (a, s')) :
    ∃ k, x s.kernel = .ok (a, k) ∧ { s with kernel := k } = s' := by
  unfold onKernel at h
  split at h
  · rename_i b k run
    obtain ⟨rfl, rfl⟩ := Prod.mk.inj (Except.ok.inj h)
    exact ⟨k, run, rfl⟩
  · cases h

theorem onTasks_ok {x : TaskM α} (h : onTasks x s = .ok (a, s')) :
    ∃ t, x s.tasks = .ok (a, t) ∧ { s with tasks := t } = s' := by
  unfold onTasks at h
  split at h
  · rename_i b t run
    obtain ⟨rfl, rfl⟩ := Prod.mk.inj (Except.ok.inj h)
    exact ⟨t, run, rfl⟩
  · cases h

theorem onKernel_run {x : KernelM α} {k : Kernel} (h : x s.kernel = .ok (a, k)) :
    onKernel x s = .ok (a, { s with kernel := k }) := by
  rw [onKernel, h]

theorem onKernel_error {x : KernelM α} {e : Stop} (h : x s.kernel = .error e) :
    (onKernel x : SysM φ α) s = .error e := by
  rw [onKernel, h]

theorem onTasks_run {x : TaskM α} {t : Tasklist} (h : x s.tasks = .ok (a, t)) :
    onTasks x s = .ok (a, { s with tasks := t }) := by
  rw [onTasks, h]

theorem bind_onKernel_ok {β : Type} {x : KernelM α} {f : α → SysM φ β} {r : β × System φ}
    (h : (onKernel x >>= f) s = .ok r) :
    ∃ a k, x s.kernel = .ok (a, k) ∧ f a { s with kernel := k } = .ok r := by
  obtain ⟨a, s₁, call, h⟩ := Prog.bind_ok h
  obtain ⟨k, run, rfl⟩ := onKernel_ok call
  exact ⟨a, k, run, h⟩

theorem bind_onKernel_sat {β : Type} {x : KernelM α} {f : α → SysM φ β} {post : α → Kernel → Prop}
    {last : β → System φ → Prop} {err : Stop → Prop} (first : Prog.Sat x s.kernel post err)
    (rest : ∀ a k, x s.kernel = .ok (a, k) → Prog.Sat (f a) { s with kernel := k } last err) :
    Prog.Sat (onKernel x >>= f) s last err := by
  cases run : x s.kernel with
  | error e => exact .of_error (Prog.bind_error (onKernel_error run)) (first.error run)
  | ok pair => exact .bind_ok (onKernel_run run) (rest pair.1 pair.2 run)

theorem bind_onTasks_ok {β : Type} {x : TaskM α} {f : α → SysM φ β} {r : β × System φ}
    (h : (onTasks x >>= f) s = .ok r) :
    ∃ a t, x s.tasks = .ok (a, t) ∧ f a { s with tasks := t } = .ok r := by
  obtain ⟨a, s₁, call, h⟩ := Prog.bind_ok h
  obtain ⟨t, run, rfl⟩ := onTasks_ok call
  exact ⟨a, t, run, h⟩

end lift

/-! ### ELF headers -/

structure ProgramHeader where
  type : Nat
  offset : Nat
  virtualAddress : Nat
  sizeInFile : Nat
  sizeInMemory : Nat
  deriving DecidableEq, Repr

/-- `program_headers[i]` of the packed 56-byte headers. -/
def programHeader (m : Mem) (programHeaders i : Nat) : ProgramHeader :=
  let a := add64 programHeaders (56 * i)
  { type := load m a 4
    offset := load m (a + 8) 8
    virtualAddress := load m (a + 16) 8
    sizeInFile := load m (a + 32) 8
    sizeInMemory := load m (a + 40) 8 }

def elfEntry (m : Mem) (header : Nat) : Nat := load m (header + 24) 8
def programHeaderOffset (m : Mem) (header : Nat) : Nat := load m (header + 32) 8
def programHeaderEntryCount (m : Mem) (header : Nat) : Nat := load m (header + 56) 2

def validateElf (m : Mem) (header : Nat) : Bool :=
  (List.range 4).map (fun i => m (header + i)) == [0x7F, 0x45, 0x4C, 0x46] && m (header + 5) == 1 &&
    m (header + 4) == 2 && load m (header + 18) 2 == 0x3E

/-- The loop of `first_loadable_segment`: the index and the address so far,
none before the first loadable segment. -/
def firstLoadableSegment (m : Mem) (programHeaders numEntries : Nat) : Nat :=
  let found := (List.range numEntries).foldl (fun (best : Option (Nat × Nat)) i =>
    let header := programHeader m programHeaders i
    if header.type = 1 then
      match best with
      | none => some (i, header.virtualAddress)
      | some (_, smallestAddr) => if header.virtualAddress < smallestAddr then some (i, header.virtualAddress) else best
    else best) none
  (found.map Prod.fst).getD 0

def lastLoadableSegment (m : Mem) (programHeaders numEntries : Nat) : Nat :=
  ((List.range numEntries).foldl (fun (best : Nat × Nat) i =>
    let header := programHeader m programHeaders i
    if header.type = 1 ∧ header.virtualAddress > best.2 then (i, header.virtualAddress) else best) (0, 0)).1

/-- What `spawn` knows of the image it loaded. -/
structure Image where
  first : ProgramHeader
  last : ProgramHeader
  pagesToMap : Nat
  copytoPages : Nat
  deriving DecidableEq, Repr

/-- The image that the headers in memory ask for, to be placed at `copytoPages`. -/
def imageOf (m : Mem) (buffer copytoPages : Nat) : Image :=
  let programHeaders := add64 buffer (programHeaderOffset m buffer)
  let num := programHeaderEntryCount m buffer
  let first := programHeader m programHeaders (firstLoadableSegment m programHeaders num)
  let last := programHeader m programHeaders (lastLoadableSegment m programHeaders num)
  { first, last, copytoPages
    pagesToMap :=
      pageAlignUp (sub64 (add64 last.virtualAddress last.sizeInMemory) first.virtualAddress) / 4096 }

/-- The copy loop of `spawn`, with `n` headers to go from header `s` on. -/
def copySegments (buffer programHeaders copyTo firstAddr : Nat) : Nat → Nat → KernelM Unit
  | 0, _ => return
  | n + 1, s => do
    let header := programHeader (← get).mem programHeaders s
    if header.type = 1 then
      modify fun k => k.setMem (copy k.mem (add64 copyTo (sub64 header.virtualAddress firstAddr))
        (add64 header.offset buffer) header.sizeInFile)
    copySegments buffer programHeaders copyTo firstAddr n (s + 1)

/-! ### The arguments -/

def userStackPages : Nat := 2
def userStackPtr : Nat := 0x700000000000
def userStackAddr : Nat := userStackPtr - userStackPages * 4096
def argvDataAddr : Nat := 0x700000001000
def userFlags : Nat := pflagPresent ||| pflagWrite ||| pflagUser

/-- The first argument loop: the strings, one behind the other. -/
def copyArgs (argPage : Nat) : List (List UInt8) → Nat → KernelM Nat
  | [], argSize => return argSize
  | arg :: rest, argSize => do
    modify fun k => k.setMem (writeBytes k.mem (argPage + argSize) (arg ++ [0]))
    copyArgs argPage rest (argSize + (arg.length + 1))

/-- The second argument loop: the pointers, behind the strings. -/
def pointArgs (argPage argSize : Nat) : List (List UInt8) → Nat → Nat → KernelM Unit
  | [], _, _ => return
  | arg :: rest, i, hitherto => do
    modify fun k => k.setMem (store k.mem (argPage + argSize + i * 8) 8 (argPage + hitherto))
    pointArgs argPage argSize rest (i + 1) (hitherto + (arg.length + 1))

section system

variable (kmalloc : Owner → Nat → KernelM Nat)

def loadImage (pid buffer : Nat) : KernelM Image := do
  let m := (← get).mem
  let programHeaders := add64 buffer (programHeaderOffset m buffer)
  let image := imageOf m buffer 0
  let copytoPages ← kmalloc (.image pid) image.pagesToMap
  copySegments buffer programHeaders (add64 copytoPages (← get).hhdm) image.first.virtualAddress
    (programHeaderEntryCount m buffer) 0
  return { image with copytoPages }

def giveArgs (pid newPml4 : Nat) (argv : List (List UInt8)) : KernelM Nat := do
  let run ← kmalloc (.arguments pid) 1
  let argPage := add64 run (← get).hhdm
  -- Two pages are mapped for the one frame.
  mapPages kmalloc newPml4 argvDataAddr (sub64 argPage (← get).hhdm) 2 userFlags
  let argSize ← copyArgs argPage argv 0
  pointArgs argPage argSize argv 0 0
  return argSize

/-- The user half of a new page tree, and the interrupt controllers. -/
def fillTree (pid newPml4 : Nat) (image : Image) (argv : List (List UInt8)) : KernelM Nat := do
  mapPages kmalloc newPml4 image.first.virtualAddress image.copytoPages image.pagesToMap userFlags
  allocPages kmalloc (.stack pid) newPml4 userStackAddr kernelStackPages userFlags
  let argSize ← giveArgs kmalloc pid newPml4 argv
  mapApicIntoTask kmalloc (sub64 newPml4 (← get).hhdm)
  return argSize

variable {φ : Type} (fs : FileAccess φ)

def openAt (cpu : Nat) (path : List UInt8) (flags mode : Nat) : SysM φ (Option Nat) := do
  let s ← get
  let dir := ((getCurrentTask s.tasks cpu).map Task.currentDir).getD []
  let opened := fs.openFile dir path flags mode s.files
  modify fun s => { s with files := opened.2 }
  return opened.1

def readInto (f buffer maxLen : Nat) : SysM φ Nat := do
  let result := fs.read f maxLen (← get).files
  modify fun s =>
    { s with files := result.2, kernel := s.kernel.setMem (writeBytes s.kernel.mem buffer result.1.2) }
  return result.1.1

def modeReadonly : Nat := 1
def modeReadwrite : Nat := 3
def oCreatall : Nat := 2

/-- `"D:/stdin"`, `"D:/stdout"` and `"D:/stderr"`. -/
def stdinPath : List UInt8 := [68, 58, 47, 115, 116, 100, 105, 110]
def stdoutPath : List UInt8 := [68, 58, 47, 115, 116, 100, 111, 117, 116]
def stderrPath : List UInt8 := [68, 58, 47, 115, 116, 100, 101, 114, 114]

/-- The end of `spawn`: the new task and its streams. -/
def startTask (cpu buffer newPml4 argSize argc : Nat) (image : Image) : SysM φ Unit := do
  let k := (← get).kernel
  let pid ← onTasks (createTask cpu (sub64 newPml4 k.hhdm) (elfEntry k.mem buffer) userStackPtr
    (taskPresent ||| taskFirstExec))
  onTasks (adoptTask cpu pid (pageAlignUp (add64 image.last.virtualAddress image.last.sizeInMemory))
    (userStackPtr - 8) argc (argvDataAddr + argSize))
  onKernel (free buffer)
  let stdin ← openAt fs cpu stdinPath 0 modeReadonly
  let stdout ← openAt fs cpu stdoutPath oCreatall modeReadwrite
  let stderr ← openAt fs cpu stderrPath oCreatall modeReadwrite
  onTasks (modifyTask pid fun task =>
    { task with resources := ((task.resources.set 0 stdin).set 1 stdout).set 2 stderr })

/-- The file in a heap block, with the status of the read. -/
def readProgram (f : Nat) : SysM φ (Nat × Nat) := do
  let flength := fs.fileLength (← get).files f
  let buffer ← onKernel (malloc kmalloc flength)
  let status ← readInto fs f buffer flength
  modify fun s => { s with files := fs.close f s.files }
  return (buffer, status)

/-- The owner of the new frames is the position the task will get. -/
def spawn (cpu : Nat) (path : List UInt8) (argv : List (List UInt8)) : SysM φ Nat := do
  match ← openAt fs cpu path 0 modeReadonly with
  | none => return 2
  | some f =>
    let (buffer, status) ← readProgram kmalloc fs f
    if status ≠ 0 then return 1
    else if ¬ validateElf (← get).kernel.mem buffer then return 1
    else
      let pid := (← get).tasks.list.length
      let image ← onKernel (loadImage kmalloc pid buffer)
      let newPml4 ← onKernel (initPagingTask kmalloc)
      let argSize ← onKernel (fillTree kmalloc pid newPml4 image argv)
      startTask fs cpu buffer newPml4 argSize argv.length image
      return 0

/-! ### `syscall_mmap` -/

def mapAnonymous : Nat := 0x20
def protWrite : Nat := 2

/-- A store through a user pointer while the page tree at `root` is active. -/
def userStore (root virtAddr value : Nat) : KernelM Unit := do
  let k ← get
  if slot k root 3 (pageOf virtAddr) &&& pflagPresent = 0 then Prog.stop .fault
  else
    modify fun k => k.setMem (store k.mem (add64 (virtToPhys k root virtAddr) k.hhdm) 8 value)

/-- The two flags that a leaf always gets, and the write flag when asked for. -/
def mmapFlags (flags : Nat) : Nat :=
  if flags &&& protWrite ≠ 0 then pflagPresent ||| pflagUser ||| pflagWrite else pflagPresent ||| pflagUser

/-- The part of `syscall_mmap` behind the choice of the address. -/
def mmapAt (task : Task) (pid target length flags fd : Nat) : SysM φ Nat := do
  let run ← onKernel (kmalloc (.mmap pid) (pageAlignUp length / 4096))
  let k := (← get).kernel
  onKernel (mapPages kmalloc (add64 task.pml4Addr k.hhdm) target run length (mmapFlags flags))
  if flags &&& mapAnonymous ≠ 0 then return target
  else
    match task.resources[fd]? with
    | some (some src) =>
      let _ ← readInto fs src (add64 run k.hhdm) length
      return target
    | _ => Prog.stop .fault

/-- The code reads neither `prot` nor `offset`. -/
def syscallMmap (cpu addr length _prot flags fd _offset : Nat) : SysM φ Nat := do
  let s ← get
  let pid := currentIndex s.tasks cpu
  match getTask s.tasks pid with
  | none => Prog.stop .fault
  | some task =>
    if length = 0 then
      onKernel (userStore (add64 task.pml4Addr s.kernel.hhdm) task.errno 3)
      return 0
    else if addr = 0 then
      onTasks (modifyTask pid fun task => { task with mmapUpto := pageAlignUp (add64 task.mmapUpto length) })
      mmapAt kmalloc fs task pid task.mmapUpto length flags fd
    else mmapAt kmalloc fs task pid addr length flags fd

/-- What `_start` does to memory before the first task. -/
def startMemory : KernelM Unit := do
  initPMM
  initKheap kmalloc
  initPaging kmalloc

/-! ### Runs -/

/-- What may happen next: a system call of the task on a core, the scheduler
giving the cores other tasks, or anything that only concerns files. -/
inductive Call (φ : Type) where
  | spawn (cpu : Nat) (path : List UInt8) (argv : List (List UInt8))
  | mmap (cpu : Nat) (addr length : UInt64) (prot flags fd : UInt32) (offset : UInt64)
  | schedule (currentTasks : Vec Nat)
  | other (files : φ)

def Call.run : Call φ → SysM φ Unit
  | .spawn cpu path argv => do let _ ← PotatOS.Tasks.spawn kmalloc fs cpu path argv
  | .mmap cpu addr length prot flags fd offset => do
    let _ ← syscallMmap kmalloc fs cpu addr.toNat length.toNat prot.toNat flags.toNat fd.toNat offset.toNat
  | .schedule currentTasks => modify fun s => { s with tasks := { s.tasks with currentTasks } }
  | .other files => modify fun s => { s with files }

/-- The runs whose calls all meet a condition on the call and the state before it. -/
inductive Run (condition : System φ → Call φ → Prop) (s : System φ) : System φ → Prop where
  | start : Run condition s s
  | step {s₁ s₂ : System φ} {c : Call φ} (before : Run condition s s₁) (meets : condition s₁ c)
      (h : c.run kmalloc fs s₁ = .ok ((), s₂)) : Run condition s s₂

theorem Run.inv {kmalloc : Owner → Nat → KernelM Nat} {fs : FileAccess φ} {condition : System φ → Call φ → Prop}
    {s s' : System φ} {inv : System φ → Prop} (run : Run kmalloc fs condition s s') (first : inv s)
    (keeps : ∀ s c s', inv s → condition s c → c.run kmalloc fs s = .ok ((), s') → inv s') : inv s' := by
  induction run with
  | start => exact first
  | step _ meets h ih => exact keeps _ _ _ ih meets h

end system

end PotatOS.Tasks
