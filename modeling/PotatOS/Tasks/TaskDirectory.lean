import PotatOS.Mem.VectorNodes
import PotatOS.Tasks.Tasklist

/-!
# The directory of a new task (`create_task`, `change_cd`)

`create_task` on the bytes of the heap: the record of the task, its copy of the
parent's directory and the link into the task list.
-/

namespace PotatOS.Tasks.Directory

open Memory Prog Mem Mem.VectorNodes

def sizeofTask : Nat := 264

/-- `*new_task = (Task) {…}`; the fields that are left out are zero. -/
def setTask (newTask pml4Addr entryPoint userStack : Nat) (flags : UInt8) : KernelM Unit := do
  kuMemset newTask 0 sizeofTask
  assign newTask 0 1 1
  assign newTask 40 8 pml4Addr
  assign newTask 48 8 kernelStackPtr
  assign newTask 56 8 userStack
  assign newTask 64 8 entryPoint
  assign newTask 240 1 flags.toNat

/-- The loop of `ku_strlen`, with a bound on its iterations. The address after the
last one is 0 again. -/
def strlenFrom (str : Nat) : Nat → Nat → KernelM Nat
  | 0, _ => Prog.stop .hang
  | fuel + 1, len => do
    if add64 str len = 0 then Prog.stop .fault
    else if (← get).mem (add64 str len) = 0 then return len
    else strlenFrom str fuel (len + 1)

def kuStrlen (str : Nat) : KernelM Nat := strlenFrom str (2 ^ 64) 0

/-- A copy to the null pointer faults at its first byte. -/
def kuMemcpy (dest source n : Nat) : KernelM Unit :=
  if dest = 0 ∧ n ≠ 0 then Prog.stop .fault else modify fun k => k.setMem (copy k.mem dest source n)

section create

variable (kmalloc : Owner → Nat → KernelM Nat)

/-- The lines of `create_task` that give the new task its directory. -/
def copyDir (newTask currentDir dirnameLen : Nat) : KernelM Unit := do
  assign newTask 16 8 ((← malloc kmalloc dirnameLen) + 1)
  kuMemset (← deref newTask 16 8) 0 dirnameLen
  kuMemcpy (← deref newTask 16 8) currentDir (dirnameLen + 1)

/-- `create_task` up to the link into the task list; `current` is the record of the
task that runs. -/
def newTaskRecord (current pml4Addr entryPoint userStack : Nat) (flags : UInt8) : KernelM Nat := do
  let newTask ← malloc kmalloc sizeofTask
  setTask newTask pml4Addr entryPoint userStack flags
  let currentDir ← deref current 16 8
  let dirnameLen ← kuStrlen currentDir
  copyDir kmalloc newTask currentDir dirnameLen
  return newTask

def createTask (list current pml4Addr entryPoint userStack : Nat) (flags : UInt8) : KernelM Nat := do
  let newTask ← newTaskRecord kmalloc current pml4Addr entryPoint userStack flags
  vectorPush kmalloc list newTask
  return newTask

end create

/-! ### What the child gets -/

/-- The pool at `b` is in the chain that starts with the pool at `a`. -/
inductive InHeap (m : Mem) : Nat → Nat → Prop where
  | here (a : Nat) : InHeap m a a
  | next {a b : Nat} (more : (loadPool m a).nextPool ≠ 0) (rest : InHeap m (loadPool m a).nextPool b) : InHeap m a b

/-- The string at `b` in `m'` is the string at `a` in `m`. -/
def SameString (m : Mem) (a : Nat) (m' : Mem) (b : Nat) : Prop :=
  ∃ len, (∀ i < len, m (a + i) ≠ 0 ∧ m' (b + i) = m (a + i)) ∧ m (a + len) = 0 ∧ m' (b + len) = 0

/-- The child's directory `dir` is the block of a pool, reads as the parent's
directory and still does after the others, who own the blocks `own`, went on. -/
structure InheritsDir (A : PageAllocator) (own : List (Nat × Nat)) (k k' : Kernel) (parentDir dir : Nat) : Prop where
  block : 26 ≤ dir ∧ InHeap k'.mem k'.kheapStart (dir - 26)
  reads : SameString k.mem parentDir k'.mem dir
  stays : ∀ k'' own', ClientSteps A k' own k'' own' → SameString k.mem parentDir k''.mem dir

theorem inHeap_cells {m : Mem} {cells : List Cell} {a b : Nat}
    (next : ∀ c ∈ cells, (loadPool m c.addr).nextPool = 0 ∨ ∃ d ∈ cells, (loadPool m c.addr).nextPool = d.addr)
    (start : ∃ c ∈ cells, a = c.addr) (chain : InHeap m a b) : ∃ c ∈ cells, b = c.addr := by
  induction chain with
  | here a => exact start
  | next more rest ih =>
    obtain ⟨c, member, rfl⟩ := start
    rcases next c member with last | following
    · exact (more last).elim
    · exact ih following

theorem linked_next {m : Mem} {cells : List Cell} (linked : Mem.Linked m 0 cells) :
    ∀ c ∈ cells, (loadPool m c.addr).nextPool = 0 ∨ ∃ d ∈ cells, (loadPool m c.addr).nextPool = d.addr := by
  intro c member
  obtain ⟨front, back, rfl⟩ := List.append_of_mem member
  have header := (linked_append.mp linked).2.1
  rw [header]
  cases back with
  | nil => exact .inl rfl
  | cons d rest => exact .inr ⟨d, by simp, rfl⟩

theorem strlenFrom_ok {str fuel start len : Nat} {k k' : Kernel} (h : strlenFrom str fuel start k = .ok (len, k')) :
    k = k' ∧ start ≤ len ∧ ∀ i, start ≤ i → i ≤ len → add64 str i ≠ 0 := by
  induction fuel generalizing start with
  | zero => exact (stop_ok h).elim
  | succ fuel ih =>
    rw [strlenFrom] at h
    split at h
    · exact (stop_ok h).elim
    · rename_i mapped
      rw [bind_eq run_get] at h
      split at h
      · obtain ⟨rfl, rfl⟩ := pure_ok h
        refine ⟨rfl, Nat.le_refl _, fun i lower upper => ?_⟩
        obtain rfl : i = start := by omega
        exact mapped
      · obtain ⟨same, longer, valid⟩ := ih h
        refine ⟨same, by omega, fun i lower upper => ?_⟩
        by_cases first : i = start
        · subst first
          exact mapped
        · exact valid i (by omega) upper

/-- A string in the upper half has fewer than `2 ^ 63` characters. -/
theorem kuStrlen_ok {str len : Nat} {k k' : Kernel} (upper : 2 ^ 63 ≤ str ∧ str < 2 ^ 64)
    (h : kuStrlen str k = .ok (len, k')) : k = k' ∧ len < 2 ^ 63 := by
  obtain ⟨same, _, valid⟩ := strlenFrom_ok h
  refine ⟨same, ?_⟩
  by_contra long
  refine valid (2 ^ 64 - str) (by omega) (by omega) ?_
  rw [add64, Nat.add_sub_cancel' (by omega), Nat.mod_self]

section child

variable {A : PageAllocator} {k k' : Kernel} {live : List (Nat × Nat)}

/-- The memory after `setTask`. -/
def withTask (m : Mem) (newTask pml4Addr entryPoint userStack : Nat) (flags : UInt8) : Mem :=
  store (store (store (store (store (store (fill m newTask sizeofTask 0) (newTask + 0) 1 1) (newTask + 40) 8 pml4Addr)
    (newTask + 48) 8 kernelStackPtr) (newTask + 56) 8 userStack) (newTask + 64) 8 entryPoint) (newTask + 240) 1 flags.toNat

theorem setTask_run {newTask pml4Addr entryPoint userStack : Nat} {flags : UInt8} (valid : 0 < newTask) :
    setTask newTask pml4Addr entryPoint userStack flags k =
      .ok ((), k.setMem (withTask k.mem newTask pml4Addr entryPoint userStack flags)) := by
  rw [setTask, kuMemset, bind_eq (run_modify _), bind_eq (assign_run valid), bind_eq (assign_run valid),
    bind_eq (assign_run valid), bind_eq (assign_run valid), bind_eq (assign_run valid), assign_run valid]
  rfl

theorem withTask_outside {m : Mem} {newTask pml4Addr entryPoint userStack x : Nat} {flags : UInt8}
    (outside : ¬ InRange newTask 264 x) : withTask m newTask pml4Addr entryPoint userStack flags x = m x := by
  unfold InRange at outside
  rw [withTask, store_outside (by unfold InRange; omega), store_outside (by unfold InRange; omega),
    store_outside (by unfold InRange; omega), store_outside (by unfold InRange; omega),
    store_outside (by unfold InRange; omega), store_outside (by unfold InRange; omega),
    fill_outside (by unfold InRange sizeofTask; omega)]

/-- The bytes that `create_task` writes from `p + 1` on leave the record alone, and
the pointers of the chain of pools too: they reach at most into the size field of the
next pool. -/
theorem overrun_apart {newTask p len : Nat} {cells : List Cell} (rep : HeapRep k ((p, len) :: (newTask, 264) :: live) cells) :
    Apart (newTask + 16) 8 (p + 1) (len + 1) ∧ ∀ c ∈ cells, Apart (c.addr + 17) 8 (p + 1) (len + 1) := by
  obtain ⟨d, inCells, _, start, required, inside⟩ := rep.block (b := (p, len)) List.mem_cons_self
  obtain ⟨e, inCells', _, start', required', inside'⟩ := rep.block (b := (newTask, 264)) (by simp)
  dsimp only at start required inside start' required' inside'
  have away : ∀ c ∈ cells, c ≠ d → c.addr + c.size + 1 ≤ d.addr ∨ p + len ≤ c.addr := by
    intro c member other
    have separate := rep.cells_apart member inCells other
    have sized := rep.sized c member
    unfold Cell.Apart Apart at separate
    omega
  have distinct := rep.distinct
  have other : e ≠ d := by
    rintro rfl
    simp only [List.map_cons, List.nodup_cons, List.mem_cons, not_or] at distinct
    exact distinct.1.1 (by omega)
  constructor
  · have far := away e inCells' other
    unfold Apart
    omega
  · intro c member
    have sized := rep.sized c member
    by_cases same : c = d
    · subst same
      unfold Apart
      omega
    · have far := away c member same
      unfold Apart
      omega

/-- The memory after the directory was copied to `p + 1`. -/
def withDir (m : Mem) (newTask p source len : Nat) : Mem :=
  copy (fill (store m (newTask + 16) 8 (p + 1)) (p + 1) len 0) (p + 1) source (len + 1)

theorem withDir_outside {m : Mem} {newTask p source len x : Nat} (dir : ¬ InRange (p + 1) (len + 1) x) :
    withDir m newTask p source len x = store m (newTask + 16) 8 (p + 1) x := by
  rw [withDir, copy_outside dir, fill_outside (by unfold InRange at *; omega)]

theorem kuMemset_run {a n : Nat} {v : UInt8} : kuMemset a v n k = .ok ((), k.setMem (fill k.mem a n v)) := rfl

theorem kuMemcpy_run {dest source n : Nat} (valid : 0 < dest) :
    kuMemcpy dest source n k = .ok ((), k.setMem (copy k.mem dest source n)) := by
  rw [kuMemcpy, if_neg (by omega)]
  rfl

theorem kuMemcpy_null {source n : Nat} : kuMemcpy 0 source (n + 1) k = .error .fault := rfl

theorem copyDir_ok {newTask source len : Nat} (heap : Heap A k ((newTask, 264) :: live)) (short : len < 2 ^ 63)
    (h : copyDir A.kmalloc newTask source len k = .ok ((), k')) :
    ∃ p k₁, Heap A k₁ ((p, len) :: (newTask, 264) :: live) ∧ k' = k₁.setMem (withDir k₁.mem newTask p source len) ∧
      load k'.mem (newTask + 16) 8 = p + 1 := by
  unfold copyDir at h
  obtain ⟨p, k₁, got, h⟩ := bind_ok h
  obtain ⟨heap₁, _⟩ := heap.malloc short got
  have taskValid : 0 < newTask := (heap.bounds List.mem_cons_self).1
  obtain ⟨_, cells, rep⟩ := heap₁
  obtain ⟨c, inCells, _, start, _, inside⟩ := rep.block (b := (p, len)) List.mem_cons_self
  obtain ⟨d, inCells', _, start', _⟩ := rep.block (b := (newTask, 264)) (by simp)
  have bounds := rep.bounds inCells
  have sized := rep.sized c inCells
  dsimp only at start start' inside
  have stored := load_store_self k₁.mem (newTask + 16) 8 (p + 1)
  rw [bind_eq (assign_run taskValid), bind_eq (deref_run taskValid), Kernel.setMem_mem, stored,
    bind_eq kuMemset_run, bind_eq (deref_run taskValid), Kernel.setMem_mem, Kernel.setMem_mem] at h
  by_cases fits : p + 1 < 2 ^ 64
  · rw [Nat.mod_eq_of_lt (show p + 1 < 256 ^ 8 from fits)] at stored h
    have apart := (overrun_apart rep).1
    rw [load_fill_apart (by unfold Apart at *; omega), stored, kuMemcpy_run (by omega)] at h
    have same := (Prod.mk.inj (Except.ok.inj h)).2
    refine ⟨p, k₁, ⟨‹_›, cells, rep⟩, same.symm, ?_⟩
    rw [← same]
    refine Eq.trans (load_congr fun x byte => ?_) stored
    exact withDir_outside (not_inRange_of_apart apart byte)
  · -- The block ends at the last address: `p + 1` is the null pointer.
    have null : (p + 1) % 256 ^ 8 = 0 := by omega
    rw [null] at stored h
    rw [load_fill_apart (by unfold Apart; omega), stored, kuMemcpy_null] at h
    cases h

theorem newTaskRecord_ok {current pml4Addr entryPoint userStack newTask : Nat} {flags : UInt8} (heap : Heap A k live)
    (record : (current, 264) ∈ live) (upper : 2 ^ 63 ≤ load k.mem (current + 16) 8)
    (h : newTaskRecord A.kmalloc current pml4Addr entryPoint userStack flags k = .ok (newTask, k')) :
    ∃ p len source k₁, Heap A k₁ ((p, len) :: (newTask, 264) :: live) ∧
      k' = k₁.setMem (withDir k₁.mem newTask p source len) ∧ load k'.mem (newTask + 16) 8 = p + 1 := by
  unfold newTaskRecord at h
  obtain ⟨task, k₁, got, h⟩ := bind_ok h
  obtain ⟨heap₁, kept₁⟩ := heap.malloc (by decide) got
  have taskValid : 0 < task := (heap₁.bounds List.mem_cons_self).1
  have currentValid : 0 < current := (heap.bounds record).1
  rw [bind_eq (setTask_run taskValid), bind_eq (deref_run currentValid)] at h
  have heap₂ : Heap A (k₁.setMem (withTask k₁.mem task pml4Addr entryPoint userStack flags)) ((task, 264) :: live) :=
    heap₁.write List.mem_cons_self fun x => withTask_outside
  generalize same : withTask k₁.mem task pml4Addr entryPoint userStack flags = m at h heap₂
  have dir : load (k₁.setMem m).mem (current + 16) 8 = load k.mem (current + 16) 8 := by
    refine load_congr fun x inside => ?_
    have here : InRange (current, 264).1 (current, 264).2 x := by
      unfold InRange at *
      dsimp only
      omega
    have separate := (List.pairwise_cons.mp heap₁.pairwise).1 _ record
    rw [← kept₁ _ record x here, Kernel.setMem_mem, ← same]
    exact withTask_outside (not_inRange_of_apart (apart_comm.mp separate) here)
  generalize load (k₁.setMem m).mem (current + 16) 8 = source at h dir
  obtain ⟨len, k₃, measured, h⟩ := bind_ok h
  obtain ⟨rfl, short⟩ := kuStrlen_ok (by rw [dir]; exact ⟨upper, load_lt _ _ _⟩) measured
  obtain ⟨_, k₄, copied, h⟩ := bind_ok h
  obtain ⟨rfl, rfl⟩ := pure_ok h
  obtain ⟨p, k₅, after⟩ := copyDir_ok heap₂ short copied
  exact ⟨p, len, source, k₅, after⟩

end child

/-- The directory of a new task is never a block of the heap: it starts one byte
behind the start of the block that `malloc` returned. -/
theorem child_directory_not_inherited {A : PageAllocator} {boot k k' : Kernel} {live : List (Nat × Nat)}
    {current pml4Addr entryPoint userStack newTask : Nat} {flags : UInt8} (ready : A.Ready boot)
    (none : ∀ g ∈ boot.granted, ¬ OfHeap g) (run : HeapRun A boot k live) (record : (current, 264) ∈ live)
    (upper : 2 ^ 63 ≤ load k.mem (current + 16) 8)
    (h : newTaskRecord A.kmalloc current pml4Addr entryPoint userStack flags k = .ok (newTask, k')) :
    ¬ InheritsDir A live k k' (load k.mem (current + 16) 8) (load k'.mem (newTask + 16) 8) := by
  intro inherits
  obtain ⟨ready', cells', rep'⟩ := run.inv ready none
  obtain ⟨p, len, source, k₁, ⟨_, cells, rep⟩, rfl, dir⟩ := newTaskRecord_ok ⟨ready', cells', rep'⟩ record upper h
  obtain ⟨_, chain⟩ := inherits.block
  rw [dir] at chain
  obtain ⟨d, inCells, _, start, _⟩ := rep.block (b := (p, len)) List.mem_cons_self
  have pointers : ∀ c ∈ cells, (loadPool (withDir k₁.mem newTask p source len) c.addr).nextPool =
      (loadPool k₁.mem c.addr).nextPool := by
    intro c member
    refine load_congr fun x inside => ?_
    rw [withDir_outside (not_inRange_of_apart ((overrun_apart rep).2 c member) inside), store_outside]
    have separate := rep.block_header_apart (b := (newTask, 264)) (by simp) member
    unfold Apart InRange at *
    dsimp only at separate
    omega
  have first : ∃ c ∈ cells, k₁.kheapStart = c.addr := by
    have start := rep.start
    cases cells with
    | nil => exact (rep.nonempty rfl).elim
    | cons c rest => exact ⟨c, List.mem_cons_self, start⟩
  have next := linked_next rep.linked
  obtain ⟨c, member, here⟩ := inHeap_cells (fun c member => by rw [Kernel.setMem_mem, pointers c member]; exact next c member)
    first chain
  have sized := rep.sized d inCells
  have separate := rep.cells_apart member inCells (by rintro rfl; dsimp only at start; omega)
  unfold Cell.Apart Apart at separate
  dsimp only at start
  omega

/-- A machine whose kernel image has the string `R:/` at `2 ^ 63`. -/
def literalMachine : Kernel := { smallMachine with mem := writeBytes smallMachine.mem (2 ^ 63) [82, 58, 47, 0] }

/-- A first task with that directory creates a task. -/
def firstChild : KernelM Nat := do
  initKheap pmm.kmalloc
  let current ← malloc pmm.kmalloc 264
  modify fun k => k.setMem (store k.mem (current + 23) 1 128)
  newTaskRecord pmm.kmalloc current 0 0 0 3

/-- The parent's directory pointer is the literal's address. -/
def literalPointer : KernelM Nat := do
  initKheap pmm.kmalloc
  let current ← malloc pmm.kmalloc 264
  return load (store (← get).mem (current + 23) 1 128) (current + 16) 8

theorem child_directory_not_inherited_literal : ∃ boot k k' live current newTask,
    HeapRun pmm boot k live ∧ newTaskRecord pmm.kmalloc current 0 0 0 3 k = .ok (newTask, k') ∧
      ¬ InheritsDir pmm live k k' (load k.mem (current + 16) 8) (load k'.mem (newTask + 16) 8) := by
  let boot : Kernel := { literalMachine with
    mem := fill literalMachine.mem (2 ^ 47) (64 * 4096) 0, lastFreedPage := -1, lastFreedSection := -1 }
  have start : initPMM literalMachine = .ok ((), boot) := rfl
  have ready : pmm.Ready boot := ⟨PmmInv.of_initPMM (k := literalMachine) smallMachine_map rfl rfl start, by
    simp [DirectMapped, boot, literalMachine, smallMachine]⟩
  have none : ∀ g ∈ boot.granted, ¬ OfHeap g := by simp [boot, literalMachine, smallMachine]
  have check : (firstChild boot).toBool = true := by decide +kernel
  have pointer : returns literalPointer boot (fun a _ => a == 2 ^ 63) = true := by decide +kernel
  cases run : firstChild boot with
  | error reason =>
    rw [run] at check
    cases check
  | ok pair =>
    obtain ⟨newTask, k'⟩ := pair
    unfold firstChild at run
    obtain ⟨_, k₁, init, run⟩ := bind_ok run
    obtain ⟨current, k₂, got, run⟩ := bind_ok run
    rw [bind_eq (run_modify _)] at run
    have before : HeapRun pmm boot k₂ [(current, 264)] := .malloc (.init init) (by decide) got
    have after : HeapRun pmm boot (k₂.setMem (store k₂.mem (current + 23) 1 128)) [(current, 264)] :=
      .write before List.mem_cons_self (by unfold InRange; dsimp only; omega)
    have upper : load (store k₂.mem (current + 23) 1 128) (current + 16) 8 = 2 ^ 63 := by
      rw [returns, literalPointer, bind_eq init, bind_eq got, bind_eq run_get] at pointer
      exact beq_iff_eq.mp pointer
    exact ⟨boot, _, k', _, current, newTask, after, run, child_directory_not_inherited ready none after
      List.mem_cons_self (Nat.le_of_eq upper.symm) run⟩

/-- A task whose directory is `R:/` creates a task; the lengths of both directories. -/
def directoryLengths : KernelM (Nat × Nat) := do
  initKheap pmm.kmalloc
  let list ← newVector pmm.kmalloc sizeofTask
  let parent ← malloc pmm.kmalloc sizeofTask
  let dir ← malloc pmm.kmalloc 4
  assign dir 0 4 0x002f3a52
  assign parent 16 8 dir
  vectorPush pmm.kmalloc list parent
  let child ← createTask pmm.kmalloc list parent 0 0 0 3
  return (← kuStrlen dir, ← kuStrlen (← deref child 16 8))

/-- The pool of the list's new node overwrites the end of the child's string. -/
theorem createTask_breaks_directory :
    (directoryLengths smallMachineReady).toOption.map Prod.fst = some (3, 6) := by
  decide +kernel

end PotatOS.Tasks.Directory
