import PotatOS.Mem.MapPages
import PotatOS.Tasks.Scheduler
import PotatOS.Tasks.System

/-!
# Whose frames a task can reach

`SpacesOk` is what the page trees of the tasks need from the rest of the
kernel: each tree lives in runs of its own, and the word behind `errno` lies in
a frame of the task. `Isolated` says that user mappings lead to frames of the
task only.
-/

namespace PotatOS.Tasks

open Memory Mem Prog

/-- The task whose memory a run holds. -/
def userOf : Owner → Option Nat
  | .image pid | .stack pid | .arguments pid | .mmap pid => some pid
  | .heap | .pml4 | .table _ | .kernelStack => none

/-- The runs that hold the tables of the tree at `root`. -/
def OfTree (hhdm root : Nat) (g : Grant) : Prop :=
  g.owner = .table root ∨ g.owner = .pml4 ∧ g.addr + hhdm = root

theorem OfTree.no_user {hhdm root : Nat} {g : Grant} (tree : OfTree hhdm root g) : userOf g.owner = none := by
  rcases tree with owner | ⟨owner, _⟩ <;> rw [owner] <;> rfl

theorem OfTree.not_heap {hhdm root : Nat} {g : Grant} (tree : OfTree hhdm root g) : ¬ OfHeap g := by
  rcases tree with owner | ⟨owner, _⟩ <;> rw [OfHeap, owner] <;> simp

theorem OfTree.not_mmap {hhdm root pid : Nat} {g : Grant} (tree : OfTree hhdm root g) : ¬ g.owner = .mmap pid := by
  intro owner
  have none := tree.no_user
  rw [owner] at none
  cases none

theorem OfTree.not_plain {hhdm root : Nat} {g : Grant} (tree : OfTree hhdm root g) :
    ¬ (OfHeap g ∨ (userOf g.owner).isSome) := by
  simp [tree.not_heap, tree.no_user]

theorem plain_of_user {pid : Nat} {g : Grant} (user : userOf g.owner = some pid) :
    OfHeap g ∨ (userOf g.owner).isSome := by
  simp [user]

theorem OfTree.root_eq {hhdm root root' : Nat} {g : Grant} (tree : OfTree hhdm root g)
    (tree' : OfTree hhdm root' g) : root = root' := by
  rcases tree with owner | ⟨owner, rfl⟩ <;> rcases tree' with owner' | ⟨owner', rfl⟩
  · exact Owner.table.inj (owner.symm.trans owner')
  · cases owner.symm.trans owner'
  · cases owner.symm.trans owner'
  · rfl

/-- What the memory system keeps for a task. -/
structure AddressSpace where
  pml4Addr : Nat
  errno : Nat
  deriving DecidableEq, Repr

def AddressSpace.root (space : AddressSpace) (k : Kernel) : Nat := space.pml4Addr + k.hhdm

def Task.space (task : Task) : AddressSpace := ⟨task.pml4Addr, task.errno⟩

/-- The address spaces by task. -/
def spaces (t : Tasklist) : List AddressSpace := t.list.nodes.map Task.space

/-- The frame of a leaf entry lies in a run of task `pid`. -/
def UserFrame (k : Kernel) (pid leaf : Nat) : Prop :=
  ∃ g ∈ k.granted, userOf g.owner = some pid ∧ InRange g.addr (g.pages * 4096) (pageAlignDown leaf)

/-- A store through `errno` faults or stays in the memory of the task. -/
def ErrnoOk (k : Kernel) (pid : Nat) (space : AddressSpace) : Prop :=
  space.errno % 8 = 0 ∧ (slot k (space.root k) 3 (pageOf space.errno) &&& pflagPresent = 0 ∨
    UserFrame k pid (slot k (space.root k) 3 (pageOf space.errno)))

structure SpacesOk (A : PageAllocator) (k : Kernel) (all : List AddressSpace) : Prop where
  ready : A.Ready k
  heap : ∃ live cells, HeapRep k live cells
  trees : ∀ {pid : Nat} {space : AddressSpace}, all[pid]? = some space → TreeOk (OfTree k.hhdm (space.root k)) k (space.root k)
  distinct : (all.map AddressSpace.pml4Addr).Nodup
  errno : ∀ {pid : Nat} {space : AddressSpace}, all[pid]? = some space → ErrnoOk k pid space

/-- The part of `SpacesOk` that is about the page trees. -/
structure TreesOk (A : PageAllocator) (k : Kernel) (all : List AddressSpace) : Prop where
  ready : A.Ready k
  trees : ∀ {pid : Nat} {space : AddressSpace}, all[pid]? = some space → TreeOk (OfTree k.hhdm (space.root k)) k (space.root k)
  distinct : (all.map AddressSpace.pml4Addr).Nodup

theorem SpacesOk.treesOk {A : PageAllocator} {k : Kernel} {all : List AddressSpace} (ok : SpacesOk A k all) :
    TreesOk A k all :=
  ⟨ok.ready, ok.trees, ok.distinct⟩

/-- Every frame behind a user mapping of a task was allocated for that task. -/
def Isolated (k : Kernel) (all : List AddressSpace) : Prop :=
  ∀ pid space, all[pid]? = some space → ∀ u < 512 ^ 4,
    slot k (space.root k) 3 u &&& pflagUser ≠ 0 → UserFrame k pid (slot k (space.root k) 3 u)

section frame

variable {A : PageAllocator} {who : Grant → Prop} {k k' : Kernel} {all : List AddressSpace}

theorem UserFrame.mono {pid leaf : Nat} (frame : UserFrame k pid leaf) (step : Touches A who k k') :
    UserFrame k' pid leaf := by
  obtain ⟨g, taken, rest⟩ := frame
  exact ⟨g, step.granted taken, rest⟩

theorem root_congr {space : AddressSpace} (step : Touches A who k k') : space.root k' = space.root k := by
  rw [AddressSpace.root, step.setup.hhdm, AddressSpace.root]

theorem SpacesOk.slots_kept (ok : SpacesOk A k all) (step : Touches A who k k') {pid : Nat} {space : AddressSpace}
    (found : all[pid]? = some space) (others : ∀ g, OfTree k.hhdm (space.root k) g → ¬ who g) :
    ∀ u < 512 ^ 4, slot k' (space.root k) 3 u = slot k (space.root k) 3 u :=
  ((ok.trees found).of_touches others step).2.1 3 (by omega)

/-- A step keeps `SpacesOk` when it leaves each tree alone or does right by it. -/
theorem SpacesOk.of_touches (ok : SpacesOk A k all) (step : Touches A who k k')
    (heap : ∃ live cells, HeapRep k' live cells)
    (each : ∀ pid space, all[pid]? = some space → (∀ g, OfTree k.hhdm (space.root k) g → ¬ who g) ∨
      TreeOk (OfTree k'.hhdm (space.root k')) k' (space.root k') ∧ ErrnoOk k' pid space) : SpacesOk A k' all := by
  refine ⟨step.ready, heap, ?_, ok.distinct, ?_⟩
  · intro pid space found
    rcases each pid space found with others | ⟨tree, _⟩
    · rw [root_congr step, step.setup.hhdm]
      exact ((ok.trees found).of_touches others step).2.2
    · exact tree
  · intro pid space found
    rcases each pid space found with others | ⟨_, right⟩
    · have same := ok.slots_kept step found others _ (pageOf_lt space.errno)
      obtain ⟨aligned, place⟩ := ok.errno found
      refine ⟨aligned, ?_⟩
      rw [root_congr step, same]
      exact place.imp id fun frame => frame.mono step
    · exact right

theorem SpacesOk.of_plain (ok : SpacesOk A k all) (step : Touches A who k k')
    (heap : ∃ live cells, HeapRep k' live cells)
    (plain : ∀ g, who g → OfHeap g ∨ (userOf g.owner).isSome) : SpacesOk A k' all :=
  ok.of_touches step heap fun _ _ _ => .inl fun g tree mine => tree.not_plain (plain g mine)

theorem SpacesOk.of_user {pid : Nat} (ok : SpacesOk A k all) (step : Touches A (fun g => userOf g.owner = some pid) k k') :
    SpacesOk A k' all := by
  obtain ⟨live, cells, rep⟩ := ok.heap
  refine ok.of_plain step ⟨live, cells, rep.of_touches (fun g mine heap => ?_) step⟩ fun _ => plain_of_user
  rw [heap] at mine
  cases mine

theorem Isolated.of_plain (isolated : Isolated k all) (ok : SpacesOk A k all) (step : Touches A who k k')
    (plain : ∀ g, who g → OfHeap g ∨ (userOf g.owner).isSome) : Isolated k' all := by
  intro pid space found u bound user
  have same := ok.slots_kept step found (fun g tree mine => tree.not_plain (plain g mine)) u bound
  rw [root_congr step, same] at user ⊢
  exact (isolated pid space found u bound user).mono step

theorem TreesOk.root_ne (ok : TreesOk A k all) {pid pid' : Nat} {space space' : AddressSpace}
    (found : all[pid]? = some space) (found' : all[pid']? = some space') (other : pid ≠ pid') :
    space.root k ≠ space'.root k := by
  intro same
  refine other ((List.getElem?_inj ?_ ok.distinct).mp ?_)
  · have := (List.getElem?_eq_some_iff.mp found).1
    simpa using this
  · have same' : space.pml4Addr = space'.pml4Addr := by
      unfold AddressSpace.root at same
      omega
    simp [found, found', same']

theorem TreesOk.other_tree (ok : TreesOk A k all) {pid pid' : Nat} {space space' : AddressSpace}
    (found : all[pid]? = some space) (found' : all[pid']? = some space') (other : pid' ≠ pid) (g : Grant)
    (tree : OfTree k.hhdm (space'.root k) g) : ¬ (g.owner = .mmap pid ∨ OfTree k.hhdm (space.root k) g) := by
  rintro (owner | tree')
  · exact tree.not_mmap owner
  · exact ok.root_ne found' found other (tree.root_eq tree')

end frame

/-! ### `syscall_mmap` -/

section mmap

variable {A : PageAllocator} {φ : Type} {fs : FileAccess φ} {k k' : Kernel} {s s' : System φ}

/-- The two flags that decide who may use a page. -/
theorem mmapFlags_cases (flags : Nat) : mmapFlags flags = 5 ∨ mmapFlags flags = 7 := by
  unfold mmapFlags
  split
  · exact .inr rfl
  · exact .inl rfl

theorem mmapFlags_lt (flags : Nat) : mmapFlags flags < 4096 := by
  rcases mmapFlags_cases flags with same | same <;> simp [same]

theorem mmapFlags_present (flags : Nat) : mmapFlags flags &&& pflagPresent ≠ 0 := by
  rcases mmapFlags_cases flags with same | same <;> simp [same, pflagPresent]

theorem userStore_ok {pid : Nat} {space : AddressSpace} {value : Nat} (ready : A.Ready k)
    (errno : ErrnoOk k pid space) (h : userStore (space.root k) space.errno value k = .ok ((), k')) :
    Touches A (fun g => userOf g.owner = some pid) k k' := by
  unfold userStore at h
  rw [bind_eq run_get] at h
  split at h
  · exact (stop_ok h).elim
  · rename_i present
    obtain ⟨aligned, place⟩ := errno
    obtain ⟨g, taken, mine, inside⟩ := place.resolve_left present
    obtain rfl := modify_ok h
    have leaf : slot k (space.root k) 3 (pageOf space.errno) ≠ 0 := by
      intro zero
      rw [zero] at present
      exact present rfl
    have pages := (A.ledger ready).pages g taken
    have start := (A.ledger ready).aligned g taken
    have mapped := (A.ledger ready).mapped g taken
    have place : add64 (virtToPhys k (space.root k) space.errno) k.hhdm =
        pageAlignDown (slot k (space.root k) 3 (pageOf space.errno)) + space.errno % 4096 + k.hhdm := by
      rw [virtToPhys_eq, if_neg leaf]
      generalize slot k (space.root k) 3 (pageOf space.errno) = e at *
      unfold InRange pageAlignDown at *
      have inner : add64 (e / 4096 * 4096) (space.errno % 4096) = e / 4096 * 4096 + space.errno % 4096 :=
        add64_of_lt (by omega)
      rw [inner, add64_of_lt (by omega)]
    refine .write ready fun x changed => ⟨g, taken, mine, ?_⟩
    have here : InRange (add64 (virtToPhys k (space.root k) space.errno) k.hhdm) 8 x := by
      by_contra far
      exact changed (store_outside far)
    rw [place] at here
    generalize slot k (space.root k) 3 (pageOf space.errno) = e at *
    unfold InRange pageAlignDown at *
    omega

/-- What a call that mapped `length` pages from page `v` on did to the kernel. -/
structure Mapped (A : PageAllocator) (k k' : Kernel) (pid root v run length flags : Nat) : Prop where
  touches : Touches A (fun g => g.owner = .mmap pid ∨ OfTree k.hhdm root g) k k'
  tree : TreeOk (OfTree k.hhdm root) k' root
  granted : ⟨.mmap pid, run, pageAlignUp length / 4096⟩ ∈ k'.granted
  leaves : ∀ u < 512 ^ 4, slot k' root 3 u = mappedLeaves k root v run length flags u

/-- The steps of a call that mapped pages: `k₁` behind `kmalloc`, `k₂` behind `map_pages`. -/
structure MmapSteps (kmalloc : Owner → Nat → KernelM Nat) (fs : FileAccess φ) (task : Task)
    (pid target length flags run : Nat) (k₁ k₂ : Kernel) (s s' : System φ) : Prop where
  tasks : s'.tasks = s.tasks
  got : kmalloc (.mmap pid) (pageAlignUp length / 4096) s.kernel = .ok (run, k₁)
  maps : mapPages kmalloc (add64 task.pml4Addr k₁.hhdm) target run length (mmapFlags flags) k₁ = .ok ((), k₂)
  anonymous : flags &&& mapAnonymous ≠ 0 → s'.kernel = k₂
  filled : s'.kernel = k₂ ∨ ∃ src, s'.kernel =
    k₂.setMem (writeBytes k₂.mem (add64 run k₁.hhdm) (fs.read src length s.files).1.2)

theorem mmapAt_steps {kmalloc : Owner → Nat → KernelM Nat} {task : Task} {pid target length flags fd r : Nat}
    (h : mmapAt kmalloc fs task pid target length flags fd s = .ok (r, s')) :
    r = target ∧ ∃ run k₁ k₂, MmapSteps kmalloc fs task pid target length flags run k₁ k₂ s s' := by
  unfold mmapAt at h
  obtain ⟨run, k₁, got, h⟩ := bind_onKernel_ok h
  rw [bind_eq run_get] at h
  obtain ⟨_, k₂, maps, h⟩ := bind_onKernel_ok h
  dsimp only at maps h
  split at h
  · obtain ⟨rfl, rfl⟩ := pure_ok h
    exact ⟨rfl, run, k₁, k₂, rfl, got, maps, fun _ => rfl, .inl rfl⟩
  · rename_i file
    cases found : task.resources[fd]? with
    | none =>
      rw [found] at h
      exact (stop_ok h).elim
    | some entry =>
    rw [found] at h
    cases entry with
    | none => exact (stop_ok h).elim
    | some src =>
      dsimp only at h
      obtain ⟨_, s₃, reads, h⟩ := bind_ok h
      obtain ⟨rfl, rfl⟩ := pure_ok h
      unfold readInto at reads
      rw [bind_eq run_get, bind_eq (run_modify _)] at reads
      obtain ⟨_, rfl⟩ := pure_ok reads
      exact ⟨rfl, run, k₁, k₂, rfl, got, maps, fun anonymous => absurd anonymous file, .inr ⟨src, rfl⟩⟩

/-- What the steps do to the tree of the task, and what they leave of the new run. -/
structure MmapDone (A : PageAllocator) (pid root target length flags run : Nat) (k k₁ k₂ k' : Kernel) : Prop where
  taken : Touches A (fun g => g.owner = .mmap pid) k k₁
  slots : ∀ d ≤ 3, ∀ n < 512 ^ (d + 1), slot k₁ root d n = slot k root d n
  grows : Grows A (OfTree k.hhdm root) (OfTree k.hhdm root) root k₁ k₂
  space : 0 < length ∧ pageOf target + length ≤ 512 ^ 4
  leaves : ∀ u < 512 ^ 4, slot k₂ root 3 u = mappedLeaves k root (pageOf target) run length (mmapFlags flags) u
  filled : Touches A (fun g => g.owner = .mmap pid) k₂ k'
  slots' : ∀ d ≤ 3, ∀ n < 512 ^ (d + 1), slot k' root d n = slot k₂ root d n
  tree : TreeOk (OfTree k.hhdm root) k' root

theorem MmapSteps.done {task : Task} {pid target length flags run : Nat} {k₁ k₂ : Kernel} (ready : A.Ready s.kernel)
    (tree : TreeOk (OfTree s.kernel.hhdm (task.space.root s.kernel)) s.kernel (task.space.root s.kernel))
    (count : length < 2 ^ 64) (steps : MmapSteps A.kmalloc fs task pid target length flags run k₁ k₂ s s') :
    MmapDone A pid (task.space.root s.kernel) target length flags run s.kernel k₁ k₂ s'.kernel := by
  have maps := steps.maps
  have alloc := A.allocates ready steps.got
  have mapped := alloc.mapped
  have pages := alloc.pages
  have hhdm : k₁.hhdm = s.kernel.hhdm := alloc.setup.hhdm
  have first : Touches A (fun g => g.owner = .mmap pid) s.kernel k₁ := .kmalloc ready steps.got rfl
  obtain ⟨_, slots, tree₁⟩ := tree.of_touches (fun _ => OfTree.not_mmap) first
  have root : add64 task.pml4Addr k₁.hhdm = task.space.root s.kernel := by
    rw [hhdm]
    exact add64_of_lt (tree.root_lt ready)
  rw [root] at maps
  obtain ⟨positive, space, grows, leaves⟩ := mapPages_ok first.ready tree₁ (fun a => .inl rfl) (fun _ own => own)
    (mmapFlags_lt flags) count maps
  have leaves' : ∀ u < 512 ^ 4, slot k₂ (task.space.root s.kernel) 3 u =
      mappedLeaves s.kernel (task.space.root s.kernel) (pageOf target) run length (mmapFlags flags) u := by
    intro u inside
    rw [leaves u inside, mappedLeaves, mappedLeaves, slots 3 (by omega) u inside]
  have last : Touches A (fun g => g.owner = .mmap pid) k₂ s'.kernel := by
    rcases steps.filled with same | ⟨src, same⟩
    · rw [same]
      exact .refl grows.touches.ready
    · rw [same]
      refine .write grows.touches.ready fun x changed => ⟨⟨.mmap pid, run, pageAlignUp length / 4096⟩, ?_, rfl, ?_⟩
      · exact grows.touches.granted alloc.taken
      · have short := fs.bounded src length s.files
        have here : InRange (add64 run k₁.hhdm) (fs.read src length s.files).1.2.length x := by
          by_contra far
          exact changed (writeBytes_outside far)
        have fits : length ≤ pageAlignUp length / 4096 * 4096 := by
          unfold pageAlignUp add64 at *
          omega
        rw [add64_of_lt (by omega), hhdm] at here
        rw [grows.touches.setup.hhdm, hhdm]
        unfold InRange at *
        dsimp only
        omega
  obtain ⟨_, slots', tree'⟩ := grows.ok.of_touches (fun _ => OfTree.not_mmap) last
  exact ⟨first, slots, grows, ⟨positive, space⟩, leaves', last, slots', tree'⟩

theorem mmapAt_ok {task : Task} {pid target length flags fd r : Nat}
    (ready : A.Ready s.kernel)
    (tree : TreeOk (OfTree s.kernel.hhdm (task.space.root s.kernel)) s.kernel (task.space.root s.kernel))
    (count : length < 2 ^ 64) (h : mmapAt A.kmalloc fs task pid target length flags fd s = .ok (r, s')) :
    s'.tasks = s.tasks ∧ ∃ run, run % 4096 = 0 ∧
      Mapped A s.kernel s'.kernel pid (task.space.root s.kernel) (pageOf target) run length (mmapFlags flags) := by
  obtain ⟨_, run, k₁, k₂, steps⟩ := mmapAt_steps h
  have alloc := A.allocates ready steps.got
  obtain ⟨taken, _, grows, _, leaves, filled, slots', tree'⟩ := steps.done ready tree count
  have granted := filled.granted (grows.touches.granted alloc.taken)
  refine ⟨steps.tasks, run, alloc.aligned, ?_, tree', granted, fun u inside => ?_⟩
  · exact ((taken.mono fun _ => .inl).trans (grows.touches.mono fun _ => .inr)).trans (filled.mono fun _ => .inl)
  · exact (slots' 3 (by omega) u inside).trans (leaves u inside)

/-- Where `syscall_mmap` maps. -/
def mmapTarget (task : Task) (addr : Nat) : Nat := if addr = 0 then task.mmapUpto else addr

theorem spaces_get {t : Tasklist} {pid : Nat} {task : Task} (found : getTask t pid = some task) :
    (spaces t)[pid]? = some task.space := by
  unfold getTask vectorAt at found
  simp [spaces, found]

/-- What a call with a null address does to its task. -/
def Task.advance (length : Nat) (task : Task) : Task :=
  { task with mmapUpto := pageAlignUp (add64 task.mmapUpto length) }

/-- The task list behind the choice of the address. -/
def advanced (t : Tasklist) (pid addr length : Nat) : Tasklist :=
  if addr = 0 then { t with list := { t.list with nodes := t.list.nodes.modify pid (Task.advance length) } } else t

theorem spaces_advanced (t : Tasklist) (pid addr length : Nat) : spaces (advanced t pid addr length) = spaces t := by
  unfold advanced
  split
  · refine List.ext_getElem? fun i => ?_
    unfold spaces
    rw [List.getElem?_map, List.getElem?_map, List.getElem?_modify]
    cases t.list.nodes[i]? with
    | none => simp
    | some task =>
      split
      · rfl
      · rfl
  · rfl

theorem syscallMmap_eq {kmalloc : Owner → Nat → KernelM Nat} {task : Task} {cpu addr length prot flags fd offset : Nat}
    (positive : 0 < length) (found : getTask s.tasks (currentIndex s.tasks cpu) = some task) :
    syscallMmap kmalloc fs cpu addr length prot flags fd offset s =
      mmapAt kmalloc fs task (currentIndex s.tasks cpu) (mmapTarget task addr) length flags fd
        { s with tasks := advanced s.tasks (currentIndex s.tasks cpu) addr length } := by
  unfold syscallMmap
  rw [bind_eq run_get, found]
  dsimp only
  rw [if_neg (by omega)]
  by_cases null : addr = 0
  · have moved : (onTasks (modifyTask (currentIndex s.tasks cpu) (Task.advance length)) : SysM φ Unit) s =
        .ok ((), { s with tasks := advanced s.tasks (currentIndex s.tasks cpu) addr length }) := by
      unfold onTasks
      rw [modifyTask_eq (getTask_lt found), advanced, if_pos null]
    rw [if_pos null, mmapTarget, if_pos null]
    exact bind_eq moved
  · rw [if_neg null, mmapTarget, if_neg null, advanced, if_neg null]

theorem syscallMmap_task {kmalloc : Owner → Nat → KernelM Nat} {cpu addr length prot flags fd offset r : Nat}
    (h : syscallMmap kmalloc fs cpu addr length prot flags fd offset s = .ok (r, s')) :
    ∃ task, getTask s.tasks (currentIndex s.tasks cpu) = some task := by
  unfold syscallMmap at h
  rw [bind_eq run_get] at h
  cases found : getTask s.tasks (currentIndex s.tasks cpu) with
  | none =>
    rw [found] at h
    exact (stop_ok h).elim
  | some task => exact ⟨task, rfl⟩

theorem syscallMmap_ok {cpu addr length prot flags fd offset r : Nat} (ok : SpacesOk A s.kernel (spaces s.tasks))
    (count : length < 2 ^ 64) (h : syscallMmap A.kmalloc fs cpu addr length prot flags fd offset s = .ok (r, s')) :
    ∃ task, getTask s.tasks (currentIndex s.tasks cpu) = some task ∧ spaces s'.tasks = spaces s.tasks ∧
      (length = 0 ∧ Touches A (fun g => userOf g.owner = some (currentIndex s.tasks cpu)) s.kernel s'.kernel ∨
        0 < length ∧ ∃ run, run % 4096 = 0 ∧ Mapped A s.kernel s'.kernel (currentIndex s.tasks cpu)
          (task.space.root s.kernel) (pageOf (mmapTarget task addr)) run length (mmapFlags flags)) := by
  obtain ⟨task, found⟩ := syscallMmap_task h
  have space := spaces_get found
  have tree := ok.trees space
  refine ⟨task, found, ?_⟩
  rcases Nat.eq_zero_or_pos length with rfl | positive
  · unfold syscallMmap at h
    rw [bind_eq run_get, found] at h
    dsimp only at h
    rw [if_pos rfl] at h
    obtain ⟨_, k', stored, h⟩ := bind_onKernel_ok h
    obtain ⟨_, rfl⟩ := pure_ok h
    have root : add64 task.pml4Addr s.kernel.hhdm = task.space.root s.kernel := add64_of_lt (tree.root_lt ok.ready)
    rw [root] at stored
    exact ⟨rfl, .inl ⟨rfl, userStore_ok ok.ready (ok.errno space) stored⟩⟩
  · rw [syscallMmap_eq positive found] at h
    obtain ⟨same, run, aligned, mapped⟩ :=
      mmapAt_ok (s := { s with tasks := advanced s.tasks _ addr length }) ok.ready tree count h
    rw [same]
    exact ⟨spaces_advanced .., .inr ⟨positive, run, aligned, mapped⟩⟩

namespace Mapped

variable {all : List AddressSpace} {pid v run length flags : Nat} {space : AddressSpace}

/-- The pages that have a frame of the run behind them. -/
theorem userFrame {root : Nat} (mapped : Mapped A k k' pid root v run length flags) (aligned : run % 4096 = 0)
    (small : flags < 4096) {u : Nat} (bound : u < 512 ^ 4) (inside : v ≤ u ∧ u < v + length)
    (backed : u < v + pageAlignUp length / 4096) : UserFrame k' pid (slot k' root 3 u) := by
  have fits := (A.ledger mapped.touches.ready).mapped _ mapped.granted
  dsimp only at fits
  refine ⟨_, mapped.granted, rfl, ?_⟩
  rw [mapped.leaves u bound, mappedLeaves, if_pos inside, Nat.mod_eq_of_lt (by omega), or_low (by omega) small]
  unfold pageAlignDown InRange
  dsimp only
  omega

/-- The trees stay in order when the word behind `errno` stays in the memory of the task. -/
theorem spacesOk (mapped : Mapped A k k' pid (space.root k) v run length flags) (ok : SpacesOk A k all)
    (found : all[pid]? = some space) (aligned : run % 4096 = 0) (small : flags < 4096)
    (safe : ¬ (v + pageAlignUp length / 4096 ≤ pageOf space.errno ∧ pageOf space.errno < v + length)) :
    SpacesOk A k' all := by
  have heap : ∃ live cells, HeapRep k' live cells := by
    obtain ⟨live, cells, rep⟩ := ok.heap
    refine ⟨live, cells, rep.of_touches (fun g mine => ?_) mapped.touches⟩
    rcases mine with owner | tree
    · rw [OfHeap, owner]
      simp
    · exact tree.not_heap
  refine ok.of_touches mapped.touches heap fun pid' space' found' => ?_
  by_cases same : pid' = pid
  · subst pid'
    obtain rfl := Option.some.inj (found.symm.trans found')
    refine .inr ⟨?_, (ok.errno found).1, ?_⟩
    · rw [root_congr mapped.touches, mapped.touches.setup.hhdm]
      exact mapped.tree
    · rw [root_congr mapped.touches]
      by_cases inside : v ≤ pageOf space.errno ∧ pageOf space.errno < v + length
      · exact .inr (mapped.userFrame aligned small (pageOf_lt _) inside (by omega))
      · rw [mapped.leaves _ (pageOf_lt _), mappedLeaves, if_neg inside]
        exact (ok.errno found).2.imp id fun frame => frame.mono mapped.touches
  · exact .inl (ok.treesOk.other_tree found found' same)

/-- With a frame behind every page, user mappings lead to the task's frames. -/
theorem isolated (mapped : Mapped A k k' pid (space.root k) v run length flags) (ok : SpacesOk A k all)
    (isolated : Isolated k all) (found : all[pid]? = some space) (aligned : run % 4096 = 0)
    (small : flags < 4096) (fits : length ≤ pageAlignUp length / 4096) : Isolated k' all := by
  intro pid' space' found' u bound user
  rw [root_congr mapped.touches] at user ⊢
  by_cases same : pid' = pid
  · subst pid'
    obtain rfl := Option.some.inj (found.symm.trans found')
    by_cases inside : v ≤ u ∧ u < v + length
    · exact mapped.userFrame aligned small bound inside (by omega)
    · rw [mapped.leaves u bound, mappedLeaves, if_neg inside] at user ⊢
      exact (isolated pid space found u bound user).mono mapped.touches
  · have kept := ok.slots_kept mapped.touches found' (ok.treesOk.other_tree found found' same) u bound
    rw [kept] at user ⊢
    exact (isolated pid' space' found' u bound user).mono mapped.touches

end Mapped

end mmap

/-! ### Programs that `spawn` turns away -/

/-- The bytes that `validate_elf` looks at, with the values it wants. -/
def elfHeaderBytes : List (Nat × UInt8) :=
  [(0, 0x7F), (1, 0x45), (2, 0x4C), (3, 0x46), (4, 2), (5, 1), (18, 0x3E), (19, 0)]

theorem validateElf_bytes {m : Mem} {header : Nat} (valid : validateElf m header = true) :
    ∀ e ∈ elfHeaderBytes, m (header + e.1) = e.2 := by
  simp only [validateElf, List.range_succ, List.range_zero, Bool.and_eq_true, beq_iff_eq] at valid
  obtain ⟨⟨⟨magic, endian⟩, class64⟩, machine⟩ := valid
  have low := (m (header + 18)).toNat_lt
  have high := (m (header + 19)).toNat_lt
  simp only [load, Nat.add_assoc] at machine
  have byte₁₈ : m (header + 18) = 0x3E := UInt8.toNat_inj.mp (by simp at *; omega)
  have byte₁₉ : m (header + 19) = 0 := UInt8.toNat_inj.mp (by simp at *; omega)
  simp at magic
  simp [elfHeaderBytes, magic, endian, class64, byte₁₈, byte₁₉]

/-- Some header byte of the file is there and is wrong. -/
def BadHeader (bytes : List UInt8) : Prop := ∃ e ∈ elfHeaderBytes, ∃ b, bytes[e.1]? = some b ∧ b ≠ e.2

section spawn

variable {A : PageAllocator} {φ : Type} {fs : FileAccess φ} {s s' : System φ}

/-- The result of the first `open` of `spawn`. -/
def openedBy (fs : FileAccess φ) (s : System φ) (cpu : Nat) (path : List UInt8) : Option Nat × φ :=
  fs.openFile (((getCurrentTask s.tasks cpu).map Task.currentDir).getD []) path 0 modeReadonly s.files

/-- The path leads to no file, to one that cannot be read or to one with a wrong header. -/
def Rejected (fs : FileAccess φ) (s : System φ) (cpu : Nat) (path : List UInt8) : Prop :=
  ∀ f, (openedBy fs s cpu path).1 = some f →
    (fs.read f (fs.fileLength (openedBy fs s cpu path).2 f) (openedBy fs s cpu path).2).1.1 ≠ 0 ∨
      BadHeader (fs.read f (fs.fileLength (openedBy fs s cpu path).2 f) (openedBy fs s cpu path).2).1.2

/-- The file lies in a block of the heap. -/
theorem readProgram_ok {f buffer status : Nat} {live : List (Nat × Nat)} {cells : List Cell}
    (ready : A.Ready s.kernel) (rep : HeapRep s.kernel live cells)
    (h : readProgram A.kmalloc fs f s = .ok ((buffer, status), s')) :
    s'.tasks = s.tasks ∧ status = (fs.read f (fs.fileLength s.files f) s.files).1.1 ∧
      Touches A OfHeap s.kernel s'.kernel ∧
      (∃ cells', HeapRep s'.kernel ((buffer, fs.fileLength s.files f) :: live) cells') ∧
      ∀ i b, (fs.read f (fs.fileLength s.files f) s.files).1.2[i]? = some b → s'.kernel.mem (buffer + i) = b := by
  unfold readProgram readInto at h
  rw [bind_eq run_get] at h
  obtain ⟨p, k₁, got, h⟩ := bind_onKernel_ok h
  obtain ⟨⟨cells₁, rep₁⟩, touched, _⟩ := rep.malloc_ok ready (fs.small _ _) got
  have short := fs.bounded f (fs.fileLength s.files f) s.files
  have outside : ∀ x, ¬ InRange p (fs.fileLength s.files f) x →
      writeBytes k₁.mem p (fs.read f (fs.fileLength s.files f) s.files).1.2 x = k₁.mem x := by
    intro x far
    exact writeBytes_outside (by unfold InRange at *; omega)
  obtain ⟨rep₂, touched₂⟩ := rep₁.write_block touched.ready List.mem_cons_self outside
  obtain ⟨same, rfl⟩ := pure_ok h
  obtain ⟨rfl, rfl⟩ := Prod.mk.inj same
  refine ⟨rfl, rfl, touched.trans touched₂, ⟨cells₁, rep₂⟩, ?_⟩
  intro i b byte
  obtain ⟨inside, value⟩ := List.getElem?_eq_some_iff.mp byte
  show writeBytes k₁.mem p (fs.read f (fs.fileLength s.files f) s.files).1.2 (p + i) = b
  rw [writeBytes_inside ⟨by omega, by omega⟩, Nat.add_sub_cancel_left, List.getD_eq_getElem?_getD, byte]
  rfl

theorem spawn_rejected {cpu r : Nat} {path : List UInt8} {argv : List (List UInt8)}
    (ok : SpacesOk A s.kernel (spaces s.tasks)) (away : r ≠ 0 ∨ Rejected fs s cpu path)
    (h : spawn A.kmalloc fs cpu path argv s = .ok (r, s')) :
    s'.tasks = s.tasks ∧ Touches A OfHeap s.kernel s'.kernel ∧ ∃ live cells, HeapRep s'.kernel live cells := by
  unfold spawn at h
  obtain ⟨found, s₁, opened, h⟩ := bind_ok h
  unfold openAt at opened
  obtain ⟨same, rfl⟩ := pure_ok opened
  have opens : (openedBy fs s cpu path).1 = found := same
  obtain ⟨live, cells, rep⟩ := ok.heap
  cases found with
  | none =>
    obtain ⟨_, rfl⟩ := pure_ok h
    exact ⟨rfl, .refl ok.ready, live, cells, rep⟩
  | some f =>
    obtain ⟨⟨buffer, status⟩, s₂, reads, h⟩ := bind_ok h
    obtain ⟨tasks, code, touched, ⟨cells', rep'⟩, bytes⟩ :=
      readProgram_ok (s := { s with files := (openedBy fs s cpu path).2 }) ok.ready rep reads
    dsimp only at h code
    split at h
    · obtain ⟨_, rfl⟩ := pure_ok h
      exact ⟨tasks, touched, _, cells', rep'⟩
    · rename_i readable
      rw [bind_eq run_get] at h
      split at h
      · obtain ⟨_, rfl⟩ := pure_ok h
        exact ⟨tasks, touched, _, cells', rep'⟩
      · rename_i valid
        rcases away with failed | rejected
        · rw [bind_eq run_get] at h
          obtain ⟨_, _, _, h⟩ := bind_ok h
          obtain ⟨_, _, _, h⟩ := bind_ok h
          obtain ⟨_, _, _, h⟩ := bind_ok h
          obtain ⟨_, _, _, h⟩ := bind_ok h
          exact absurd (pure_ok h).1.symm failed
        · obtain ⟨e, listed, b, present, wrong⟩ := (rejected f opens).resolve_left fun bad => readable fun zero =>
            bad (code.symm.trans zero)
          exact absurd ((bytes e.1 b present).symm.trans
            (validateElf_bytes (Decidable.not_not.mp valid) e listed)) wrong

end spawn

/-! ### Runs -/

section runs

variable {A : PageAllocator} {φ : Type} {fs : FileAccess φ} {k : Kernel} {all : List AddressSpace}

/-- A user mapping of the address space leads to the frame at this physical address. -/
def Reaches (k : Kernel) (space : AddressSpace) (frame : Nat) : Prop :=
  ∃ u < 512 ^ 4, slot k (space.root k) 3 u &&& pflagUser ≠ 0 ∧ pageAlignDown (slot k (space.root k) 3 u) = frame

/-- Frame isolation, with what follows for two tasks, for page tables and for the heap. -/
structure FrameIsolation (k : Kernel) (all : List AddressSpace) : Prop where
  owned : ∀ {pid : Nat} {space : AddressSpace} {frame : Nat}, all[pid]? = some space → Reaches k space frame →
    ∃ g ∈ k.granted, userOf g.owner = some pid ∧ InRange g.addr (g.pages * 4096) frame
  unshared : ∀ {pid pid' : Nat} {space space' : AddressSpace} {frame : Nat}, all[pid]? = some space →
    all[pid']? = some space' → pid ≠ pid' → Reaches k space frame → ¬ Reaches k space' frame
  notTable : ∀ {pid pid' : Nat} {space space' : AddressSpace} {frame : Nat}, all[pid]? = some space →
    all[pid']? = some space' → Reaches k space frame → ∀ d ≤ 3, ∀ n < 512 ^ d,
      table k (space'.root k) d n ≠ some (frame + k.hhdm)
  notHeap : ∀ {pid : Nat} {space : AddressSpace} {frame : Nat}, all[pid]? = some space → Reaches k space frame →
    ∀ g ∈ k.granted, OfHeap g → ¬ InRange g.addr (g.pages * 4096) frame
  allocated : ∀ {pid : Nat} {space : AddressSpace} {frame : Nat}, all[pid]? = some space →
    Reaches k space frame → Granted k frame

theorem grant_unique (ready : A.Ready k) {g g' : Grant} {p : Nat} (taken : g ∈ k.granted) (taken' : g' ∈ k.granted)
    (inside : InRange g.addr (g.pages * 4096) p) (inside' : InRange g'.addr (g'.pages * 4096) p) : g = g' := by
  by_contra other
  have symmetric : Std.Symm Grant.Apart := ⟨fun _ _ => apart_comm.mp⟩
  exact not_inRange_of_apart ((A.ledger ready).apart.forall taken taken' other) inside inside'

theorem FrameIsolation.of_isolated (ok : SpacesOk A k all) (isolated : Isolated k all) : FrameIsolation k all := by
  have owned : ∀ {pid : Nat} {space : AddressSpace} {frame : Nat}, all[pid]? = some space →
      Reaches k space frame →
      ∃ g ∈ k.granted, userOf g.owner = some pid ∧ InRange g.addr (g.pages * 4096) frame := by
    rintro pid space _ found ⟨u, bound, user, rfl⟩
    exact isolated pid space found u bound user
  refine ⟨owned, ?_, ?_, ?_, ?_⟩
  · intro pid pid' space space' frame found found' other reach reach'
    obtain ⟨g, taken, mine, inside⟩ := owned found reach
    obtain ⟨g', taken', mine', inside'⟩ := owned found' reach'
    obtain rfl := grant_unique ok.ready taken taken' inside inside'
    exact other (Option.some.inj (mine.symm.trans mine'))
  · intro pid pid' space space' frame found found' reach d depth n inside place
    obtain ⟨g, taken, mine, here⟩ := owned found reach
    obtain ⟨g', taken', tree, lower, upper⟩ := (ok.trees found').owned d depth n inside _ place
    have here' : InRange g'.addr (g'.pages * 4096) frame := by
      unfold InRange
      omega
    obtain rfl := grant_unique ok.ready taken taken' here here'
    rw [tree.no_user] at mine
    cases mine
  · intro pid space frame found reach g taken heap here
    obtain ⟨g', taken', mine, inside⟩ := owned found reach
    obtain rfl := grant_unique ok.ready taken taken' here inside
    rw [heap] at mine
    cases mine
  · intro pid space frame found reach
    obtain ⟨g, taken, _, inside⟩ := owned found reach
    exact ⟨g, taken, inside⟩

/-- The calls that map no more pages than they allocated. -/
def Contained (fs : FileAccess φ) (s : System φ) : Call φ → Prop
  | .spawn cpu path _ => Rejected fs s cpu path
  | .mmap _ _ length _ _ _ _ => length ≤ 1
  | .schedule _ | .other _ => True

theorem contained_step {s s' : System φ} {c : Call φ} (ok : SpacesOk A s.kernel (spaces s.tasks))
    (isolated : Isolated s.kernel (spaces s.tasks)) (meets : Contained fs s c)
    (h : c.run A.kmalloc fs s = .ok ((), s')) :
    SpacesOk A s'.kernel (spaces s'.tasks) ∧ Isolated s'.kernel (spaces s'.tasks) := by
  cases c with
  | spawn cpu path argv =>
    obtain ⟨_, s₁, call, h⟩ := bind_ok h
    obtain ⟨_, rfl⟩ := pure_ok h
    obtain ⟨tasks, touched, heap⟩ := spawn_rejected ok (.inr meets) call
    rw [tasks]
    exact ⟨ok.of_plain touched heap fun _ => .inl, isolated.of_plain ok touched fun _ => .inl⟩
  | mmap cpu addr length prot flags fd offset =>
    obtain ⟨_, s₁, call, h⟩ := bind_ok h
    obtain ⟨_, rfl⟩ := pure_ok h
    obtain ⟨task, found, same, steps⟩ := syscallMmap_ok ok length.toNat_lt call
    rw [same]
    have space := spaces_get found
    rcases steps with ⟨_, touched⟩ | ⟨positive, run, aligned, mapped⟩
    · exact ⟨ok.of_user touched, isolated.of_plain ok touched fun _ => plain_of_user⟩
    · have one : length.toNat = 1 := by
        have le : length.toNat ≤ 1 := meets
        omega
      have small := mmapFlags_lt flags.toNat
      have pages : pageAlignUp 1 / 4096 = 1 := by decide
      rw [one] at mapped
      exact ⟨mapped.spacesOk ok space aligned small (by rw [pages]; omega),
        mapped.isolated ok isolated space aligned small (by rw [pages])⟩
  | schedule currentTasks =>
    obtain rfl := modify_ok h
    exact ⟨ok, isolated⟩
  | other files =>
    obtain rfl := modify_ok h
    exact ⟨ok, isolated⟩

/-- Runs in which each `mmap` asks for at most one byte and `spawn` turns every
program away keep the frames of the tasks apart. -/
theorem isolation_of_contained {s s' : System φ} (ok : SpacesOk A s.kernel (spaces s.tasks))
    (isolated : Isolated s.kernel (spaces s.tasks)) (run : Run A.kmalloc fs (Contained fs) s s') :
    FrameIsolation s'.kernel (spaces s'.tasks) := by
  have inv : SpacesOk A s'.kernel (spaces s'.tasks) ∧ Isolated s'.kernel (spaces s'.tasks) :=
    @Run.inv _ _ _ _ _ _ (fun s => SpacesOk A s.kernel (spaces s.tasks) ∧ Isolated s.kernel (spaces s.tasks))
      run ⟨ok, isolated⟩ fun _ _ _ before meets h => contained_step before.1 before.2 meets h
  exact .of_isolated inv.1 inv.2

theorem kmalloc_tree {k' : Kernel} {addr : Nat} (ready : A.Ready k) (got : A.kmalloc .pml4 1 k = .ok (addr, k')) :
    TreeOk (OfTree k'.hhdm (addr + k'.hhdm)) k' (addr + k'.hhdm) ∧ ∀ d n, slot k' (addr + k'.hhdm) d n = 0 := by
  have alloc := A.allocates ready got
  refine TreeOk.of_zero alloc.taken (.inr ⟨rfl, rfl⟩) (Nat.le_refl 1) alloc.aligned fun x inside => ?_
  dsimp only at inside
  have zero := alloc.zero (x - k'.hhdm) (by unfold InRange at *; omega)
  have shift : x - k'.hhdm + k'.hhdm = x := by
    unfold InRange at inside
    omega
  rwa [Kernel.phys, shift] at zero

/-- The heap and two empty page trees. -/
def twoTrees (kmalloc : Owner → Nat → KernelM Nat) : KernelM (Nat × Nat) := do
  initKheap kmalloc
  let first ← kmalloc .pml4 1
  let second ← kmalloc .pml4 1
  return (first, second)

theorem twoTrees_ok {k' : Kernel} {a b : Nat} (ready : A.Ready k) (none : ∀ g ∈ k.granted, ¬ OfHeap g)
    (h : twoTrees A.kmalloc k = .ok ((a, b), k')) :
    SpacesOk A k' [⟨a, 0⟩, ⟨b, 0⟩] ∧ Isolated k' [⟨a, 0⟩, ⟨b, 0⟩] := by
  unfold twoTrees at h
  obtain ⟨_, k₁, heap, h⟩ := bind_ok h
  obtain ⟨ready₁, cells, rep⟩ := initKheap_ok ready none heap
  obtain ⟨first, k₂, got, h⟩ := bind_ok h
  obtain ⟨second, k₃, got', h⟩ := bind_ok h
  obtain ⟨same, rfl⟩ := pure_ok h
  obtain ⟨rfl, rfl⟩ := Prod.mk.inj same
  have alloc := A.allocates (A.ready ready₁ got) got'
  have touched : Touches A (fun g => g.owner = .pml4) k₁ k₂ := .kmalloc ready₁ got rfl
  have touched' : Touches A (fun g => g.owner = .pml4 ∧ g.addr = second) k₂ k₃ :=
    .kmalloc touched.ready got' ⟨rfl, rfl⟩
  have differ : first ≠ second := by
    have apart := alloc.fresh _ (A.allocates ready₁ got).taken
    unfold Grant.Apart Apart at apart
    dsimp only at apart
    omega
  obtain ⟨tree, zero⟩ := kmalloc_tree ready₁ got
  obtain ⟨tree', zero'⟩ := kmalloc_tree touched.ready got'
  obtain ⟨_, slots, kept⟩ := tree.of_touches (fun g own mine => by
    rcases own with owner | ⟨_, place⟩
    · cases owner.symm.trans mine.1
    · exact differ (by have := mine.2; omega)) touched'
  rw [← touched'.setup.hhdm] at slots kept
  have empty : ∀ {pid : Nat} {space : AddressSpace}, [⟨first, 0⟩, ⟨second, 0⟩][pid]? = some space →
      space.errno = 0 ∧ TreeOk (OfTree k₃.hhdm (space.root k₃)) k₃ (space.root k₃) ∧
        ∀ u < 512 ^ 4, slot k₃ (space.root k₃) 3 u = 0 := by
    intro pid space found
    match pid with
    | 0 =>
      obtain rfl := Option.some.inj found
      refine ⟨rfl, kept, fun u bound => ?_⟩
      show slot k₃ (first + k₃.hhdm) 3 u = 0
      rw [slots 3 (by omega) u bound, touched'.setup.hhdm, zero]
    | 1 =>
      obtain rfl := Option.some.inj found
      exact ⟨rfl, tree', fun u _ => zero' 3 u⟩
    | pid + 2 => cases found
  refine ⟨⟨touched'.ready, ⟨[], cells, ?_⟩, fun found => (empty found).2.1, ?_, fun found => ?_⟩, ?_⟩
  · refine (rep.of_touches (fun g owner heap => ?_) touched).of_touches (fun g owner heap => ?_) touched'
    · cases owner.symm.trans heap
    · cases owner.1.symm.trans heap
  · simp [differ]
  · obtain ⟨word, _, leaves⟩ := empty found
    refine ⟨by rw [word], .inl ?_⟩
    rw [leaves _ (pageOf_lt _)]
    rfl
  · intro pid space found u bound user
    rw [(empty found).2.2 u bound] at user
    exact (user rfl).elim

end runs

/-! ### One program -/

/-- An ELF file of 120 bytes: the file header and one loadable segment at `0x400000`. -/
def tinyElf : List UInt8 :=
  [0x7F, 0x45, 0x4C, 0x46, 2, 1, 1, 0] ++ List.replicate 8 0 ++ [2, 0, 0x3E, 0, 1, 0, 0, 0] ++
  [0, 0, 0x40, 0, 0, 0, 0, 0] ++ [64, 0, 0, 0, 0, 0, 0, 0] ++ List.replicate 8 0 ++
  [0, 0, 0, 0, 64, 0, 56, 0, 1, 0] ++ List.replicate 6 0 ++
  [1, 0, 0, 0, 5, 0, 0, 0] ++ List.replicate 8 0 ++ [0, 0, 0x40, 0, 0, 0, 0, 0] ++ List.replicate 8 0 ++
  [120, 0, 0, 0, 0, 0, 0, 0] ++ [0, 0x10, 0, 0, 0, 0, 0, 0] ++ List.replicate 8 0

/-- Every path leads to `tinyElf`. -/
def tinyFiles : FileAccess Unit where
  openFile _ _ _ _ files := (some 0, files)
  close _ files := files
  fileLength _ _ := 120
  read _ maxLen files := ((0, tinyElf.take maxLen), files)
  small := fun _ _ => by decide
  bounded := fun _ maxLen _ => List.length_take_le maxLen tinyElf

/-- A machine with 48 pages of memory and a kernel of two pages. -/
def bootMachine : Kernel :=
  { smallMachine with
    memmap := [⟨0, 48 * 4096, .usable, by decide⟩]
    lapicAddr := 2 ^ 47 + 0xFEE00000
    ioapicAddr := 0xFEC00000
    image := ⟨0x10000, 0xFFFFFFFF80000000, 0xFFFFFFFF80000000, 0xFFFFFFFF80001000, 0xFFFFFFFF80002000⟩ }

/-- The system with its first task. -/
def systemOf (k : Kernel) : System Unit := { kernel := k, tasks := initTasklist k.cr3 0 1, files := () }

/-- The first argument page holds the arguments. The second one holds the page
table that was allocated right behind them. -/
def secondArgumentPage : Nat := pageOf (argvDataAddr + 4096)

/-- The mapping of the second argument page, as a check on the final state. -/
def sharesFrame (s : System Unit) : Bool :=
  match (spaces s.tasks)[1]? with
  | none => false
  | some space =>
    let leaf := slot s.kernel (space.root s.kernel) 3 secondArgumentPage
    decide (leaf &&& pflagUser ≠ 0) && s.kernel.granted.all fun g =>
      decide (¬ (userOf g.owner = some 1 ∧ InRange g.addr (g.pages * 4096) (pageAlignDown leaf)))

theorem not_isolated_of_sharesFrame {s : System Unit} (shares : sharesFrame s = true) :
    ¬ FrameIsolation s.kernel (spaces s.tasks) := by
  intro isolation
  unfold sharesFrame at shares
  split at shares
  · cases shares
  · rename_i space found
    simp only [Bool.and_eq_true, decide_eq_true_eq, List.all_eq_true] at shares
    obtain ⟨g, taken, mine, inside⟩ := isolation.owned found ⟨_, pageOf_lt _, shares.1, rfl⟩
    exact shares.2 g taken ⟨mine, inside⟩

/-- The first program after boot gets a page table as its second argument page. -/
theorem spawn_breaks_isolation : ∃ k s',
    startMemory pmm.kmalloc bootMachine = .ok ((), k) ∧
      Run pmm.kmalloc tinyFiles (fun _ _ => True) (systemOf k) s' ∧
      ¬ FrameIsolation s'.kernel (spaces s'.tasks) := by
  have check : (match startMemory pmm.kmalloc bootMachine with
      | .error _ => false
      | .ok (_, k) =>
        match (Call.spawn 0 [82, 58, 47, 97] [[97], [98]]).run pmm.kmalloc tinyFiles (systemOf k) with
        | .error _ => false
        | .ok (_, s) => sharesFrame s) = true := by
    decide +kernel
  split at check
  · cases check
  · rename_i k started
    split at check
    · cases check
    · rename_i s' spawned
      exact ⟨k, s', started, .step .start trivial spawned, not_isolated_of_sharesFrame check⟩

/-- Two tasks with empty trees; the second one runs. -/
def twoTasks (k : Kernel) (a b : Nat) : System Unit :=
  { kernel := k
    tasks :=
      { list := { dataSize := 264, nodes := [{ blankTask with pml4Addr := a }, { blankTask with pml4Addr := b }] }
        currentTasks := { dataSize := 8, nodes := [1] } }
    files := () }

/-- One page for the second task. -/
def onePage : Call Unit := .mmap 0 0x400000 1 0 0x22 0 0

theorem isolation_of_contained_twoTasks : ∃ k a b s',
    twoTrees pmm.kmalloc smallMachineReady = .ok ((a, b), k) ∧
      Run pmm.kmalloc tinyFiles (Contained tinyFiles) (twoTasks k a b) s' ∧
      FrameIsolation s'.kernel (spaces s'.tasks) ∧ ∃ frame, Reaches s'.kernel ⟨b, 0⟩ frame := by
  have check : (match twoTrees pmm.kmalloc smallMachineReady with
      | .error _ => false
      | .ok ((a, b), k) =>
        match onePage.run pmm.kmalloc tinyFiles (twoTasks k a b) with
        | .error _ => false
        | .ok (_, s) => decide (slot s.kernel (b + s.kernel.hhdm) 3 (pageOf 0x400000) &&& pflagUser ≠ 0)) = true := by
    decide +kernel
  split at check
  · cases check
  · rename_i a b k trees
    split at check
    · cases check
    · rename_i s' mapped
      obtain ⟨ok, isolated⟩ := twoTrees_ok smallMachineReady_ready (by simp [smallMachineReady, smallMachine]) trees
      have small : Contained tinyFiles (twoTasks k a b) onePage := UInt64.le_refl 1
      have run : Run pmm.kmalloc tinyFiles (Contained tinyFiles) (twoTasks k a b) s' := .step .start small mapped
      have user : slot s'.kernel (b + s'.kernel.hhdm) 3 (pageOf 0x400000) &&& pflagUser ≠ 0 := of_decide_eq_true check
      have reach : Reaches s'.kernel ⟨b, 0⟩ (pageAlignDown (slot s'.kernel (b + s'.kernel.hhdm) 3 (pageOf 0x400000))) :=
        ⟨pageOf 0x400000, pageOf_lt 0x400000, user, rfl⟩
      exact ⟨k, a, b, s', trees, run, isolation_of_contained (s := twoTasks k a b) ok isolated run, _, reach⟩

end PotatOS.Tasks
