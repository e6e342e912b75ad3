import Mathlib.Algebra.Order.BigOperators.Group.List
import PotatOS.Mem.AllocPages
import PotatOS.Tasks.KernelHalf

/-!
# What `mmap` maps

`syscall_mmap` takes frames for the bytes it was asked for, moves `mmap_upto` past
these bytes, and passes their number to `map_pages` as a number of pages. The
pages behind the range get the frames that follow the run, whoever has them.
-/

namespace PotatOS.Tasks

open Memory Mem Prog

/-- The frame that the walk finds for page `u`. -/
def translation (k : Kernel) (root u : Nat) : Option Nat :=
  if slot k root 3 u &&& pflagPresent = 0 then none else some (pageAlignDown (slot k root 3 u))

/-- The pages that `length` bytes take. -/
def pagesFor (length : Nat) : Nat := (length + 4095) / 4096

/-- The `length` bytes from page `v` on got frames of their own, and no other page
changed. -/
structure MapsExactly (k k' : Kernel) (root v length : Nat) : Prop where
  frames : ∀ i < pagesFor length, ∃ frame, translation k' root (v + i) = some frame ∧
    ∀ p, InRange frame 4096 p → ¬ Granted k p ∧ Granted k' p ∧ k'.phys p = 0
  distinct : ∀ i < pagesFor length, ∀ j < pagesFor length,
    translation k' root (v + i) = translation k' root (v + j) → i = j
  others : ∀ u < 512 ^ 4, ¬ InPages v (pagesFor length) u → translation k' root u = translation k root u

/-- The pages behind the range lead to the frames behind the next run already. -/
def Continues (A : PageAllocator) (k : Kernel) (pid root v length : Nat) : Prop :=
  ∀ run k₁, A.kmalloc (.mmap pid) (pagesFor length) k = .ok (run, k₁) → ∀ i, pagesFor length ≤ i → i < length →
    translation k root (v + i) = some ((run + 4096 * i) % 2 ^ 64)

/-- `kmalloc` refuses the run for the bytes or, after it, a frame for a missing table. -/
def Refuses (A : PageAllocator) (k : Kernel) (pid root v length : Nat) (e : Stop) : Prop :=
  A.kmalloc (.mmap pid) (pagesFor length) k = .error e ∨
    ∃ run k₁, A.kmalloc (.mmap pid) (pagesFor length) k = .ok (run, k₁) ∧ RefusesTable A k₁ root v length e

section call

variable {A : PageAllocator} {φ : Type} {fs : FileAccess φ} {k k' : Kernel} {s s' : System φ} {task : Task}
  {root u pid target length flags run : Nat} {k₁ k₂ : Kernel}

theorem translation_of_leaf {frame : Nat} (leaf : slot k root 3 u = frame ||| flags) (aligned : frame % 4096 = 0)
    (small : flags < 4096) (present : flags &&& pflagPresent ≠ 0) : translation k root u = some frame := by
  have shown : slot k root 3 u &&& pflagPresent ≠ 0 := by
    rw [leaf, Nat.and_or_distrib_right]
    exact fun zero => present (Nat.or_eq_zero_iff.mp zero).2
  rw [translation, if_neg shown, leaf, or_low aligned small, pageAlignDown]
  exact congrArg some (by omega)

theorem translation_congr (same : slot k' root 3 u = slot k root 3 u) : translation k' root u = translation k root u := by
  rw [translation, same, translation]

/-- The code counts the pages of a run in 64 bits. -/
theorem pages_eq (fits : length + 4095 < 2 ^ 64) : pageAlignUp length / 4096 = pagesFor length := by
  rw [pageAlignUp, add64_of_lt fits, pagesFor]
  omega

theorem MmapSteps.pages (ready : A.Ready s.kernel) (count : length < 2 ^ 64)
    (steps : MmapSteps A.kmalloc fs task pid target length flags run k₁ k₂ s s') :
    pageAlignUp length / 4096 = pagesFor length := by
  have pages := (A.allocates ready steps.got).pages
  refine pages_eq ?_
  unfold pageAlignUp add64 at pages
  omega

/-- The translations behind a call: `length` pages lead to the run and beyond it. -/
theorem MmapDone.translation_inside (done : MmapDone A pid root target length flags run k k₁ k₂ k')
    (aligned : run % 4096 = 0) {i : Nat} (inside : i < length) :
    translation k' root (pageOf target + i) = some ((run + 4096 * i) % 2 ^ 64) := by
  have space := done.space.2
  have leaf : slot k' root 3 (pageOf target + i) = (run + 4096 * i) % 2 ^ 64 ||| mmapFlags flags := by
    rw [done.slots' 3 (by omega) _ (by omega), done.leaves _ (by omega), mappedLeaves, if_pos (by omega),
      Nat.add_sub_cancel_left]
  exact translation_of_leaf leaf (by omega) (mmapFlags_lt flags) (mmapFlags_present flags)

theorem MmapDone.translation_outside (done : MmapDone A pid root target length flags run k k₁ k₂ k')
    (bound : u < 512 ^ 4) (outside : ¬ InPages (pageOf target) length u) :
    translation k' root u = translation k root u := by
  unfold InPages at outside
  refine translation_congr ?_
  rw [done.slots' 3 (by omega) u bound, done.leaves u bound, mappedLeaves, if_neg outside]

/-- A call maps what it was asked for if the pages that it maps on top stay as they were. -/
theorem MmapSteps.mapsExactly_iff (ready : A.Ready s.kernel)
    (tree : TreeOk (OfTree s.kernel.hhdm (task.space.root s.kernel)) s.kernel (task.space.root s.kernel))
    (count : length < 2 ^ 64) (anonymous : flags &&& mapAnonymous ≠ 0)
    (steps : MmapSteps A.kmalloc fs task pid target length flags run k₁ k₂ s s') :
    MapsExactly s.kernel s'.kernel (task.space.root s.kernel) (pageOf target) length ↔
      Continues A s.kernel pid (task.space.root s.kernel) (pageOf target) length := by
  have pages := steps.pages ready count
  have done := steps.done ready tree count
  have got := steps.got
  rw [pages] at got
  have alloc := A.allocates ready got
  have mapped := alloc.mapped
  have aligned := alloc.aligned
  obtain ⟨positive, space⟩ := done.space
  have fewer : pagesFor length ≤ length := by
    unfold pagesFor
    omega
  have final := steps.anonymous anonymous
  constructor
  · intro maps run' k' got' i above below
    obtain ⟨rfl, rfl⟩ := Prod.mk.inj (Except.ok.inj (got.symm.trans got'))
    rw [← maps.others _ (by omega) (by unfold InPages; omega)]
    exact done.translation_inside aligned below
  · intro continues
    have inside : ∀ i < pagesFor length,
        translation s'.kernel (task.space.root s.kernel) (pageOf target + i) = some (run + 4096 * i) := by
      intro i small
      rw [done.translation_inside aligned (by omega), Nat.mod_eq_of_lt (by omega)]
    have taken : ⟨.mmap pid, run, pagesFor length⟩ ∈ k₁.granted := alloc.taken
    refine ⟨fun i small => ⟨_, inside i small, fun p here => ?_⟩, fun i small j small' same => ?_, fun u bound outside => ?_⟩
    · have inRun : InRange run (pagesFor length * 4096) p := by
        unfold InRange at *
        omega
      refine ⟨?_, ?_, ?_⟩
      · rintro ⟨g, before, there⟩
        exact not_inRange_of_apart (alloc.fresh g before) there inRun
      · rw [final]
        exact ⟨_, done.grows.touches.granted taken, inRun⟩
      · rw [final, done.grows.touches.kept _ taken (fun own => own.not_mmap rfl) p inRun]
        exact alloc.zero p inRun
    · rw [inside i small, inside j small'] at same
      have := Option.some.inj same
      omega
    · by_cases behind : InPages (pageOf target) length u
      · unfold InPages at *
        obtain ⟨i, rfl⟩ : ∃ i, u = pageOf target + i := ⟨u - pageOf target, by omega⟩
        rw [done.translation_inside aligned (by omega), continues run k₁ got i (by omega) (by omega)]
      · exact done.translation_outside bound behind

/-- A call that does not return got no frame or ran over the end of the address space. -/
theorem mmapAt_stops {fd : Nat} {e : Stop} (ready : A.Ready s.kernel)
    (tree : TreeOk (OfTree s.kernel.hhdm (task.space.root s.kernel)) s.kernel (task.space.root s.kernel))
    (positive : 0 < length) (count : length < 2 ^ 64) (anonymous : flags &&& mapAnonymous ≠ 0)
    (h : mmapAt A.kmalloc fs task pid target length flags fd s = .error e) :
    Refuses A s.kernel pid (task.space.root s.kernel) (pageOf target) length e ∨
      2 ^ 36 < pageOf target + length := by
  rcases Nat.lt_or_ge (2 ^ 36) (pageOf target + length) with beyond | space
  · exact .inr beyond
  refine .inl ?_
  have pages : pageAlignUp length / 4096 = pagesFor length := pages_eq (by omega)
  unfold mmapAt at h
  rw [pages] at h
  cases got : A.kmalloc (.mmap pid) (pagesFor length) s.kernel with
  | error e' =>
    rw [bind_error (onKernel_error got)] at h
    exact .inl (got.trans (congrArg _ (Except.error.inj h)))
  | ok pair =>
    obtain ⟨run, k₁⟩ := pair
    have alloc := A.allocates ready got
    have mapped := alloc.mapped
    have some := alloc.pages
    have first : Touches A (fun g => g.owner = .mmap pid) s.kernel k₁ := .kmalloc ready got rfl
    have tree₁ := (tree.of_touches (fun _ => OfTree.not_mmap) first).2.2
    have root : add64 task.pml4Addr k₁.hhdm = task.space.root s.kernel := by
      rw [alloc.setup.hhdm]
      exact add64_of_lt (tree.root_lt ready)
    have small := mmapFlags_lt flags
    rw [bind_eq (onKernel_run got), bind_eq run_get] at h
    dsimp only at h
    rw [root] at h
    cases maps : mapPages A.kmalloc (task.space.root s.kernel) target run length (mmapFlags flags) k₁ with
    | error e' =>
      rw [bind_error (onKernel_error maps)] at h
      obtain rfl := Except.error.inj h
      have stops := mapPages_stops first.ready tree₁ (fun _ => .inl rfl) small positive count maps
      exact .inr ⟨run, k₁, got, stops.resolve_right (by omega)⟩
    | ok pair =>
      rw [bind_eq (onKernel_run maps), if_pos anonymous] at h
      cases h

end call

/-! ### The addresses that the kernel chooses -/

/-- Where the next call with a null address will map: behind the program image, and
no further from the direct map than the frames handed out so far reach. -/
structure UptoOk (k : Kernel) (imageEnd upto : Nat) : Prop where
  aligned : upto % 4096 = 0
  above : imageEnd ≤ upto
  below : upto + 4096 ≤ k.hhdm + grantedBytes k

/-- Runs of `mmap` calls of all tasks, with the scheduler and the files in between;
`ranges` are the address and the length of each call of task `pid` with a null address. -/
inductive MmapRun {φ : Type} (kmalloc : Owner → Nat → KernelM Nat) (fs : FileAccess φ) (pid : Nat) (s : System φ) :
    List (Nat × Nat) → System φ → Prop where
  | start : MmapRun kmalloc fs pid s [] s
  | own {ranges : List (Nat × Nat)} {s₁ s₂ : System φ} {cpu length prot flags fd offset r : Nat}
      (before : MmapRun kmalloc fs pid s ranges s₁) (current : currentIndex s₁.tasks cpu = pid)
      (positive : 0 < length) (count : length < 2 ^ 64)
      (h : syscallMmap kmalloc fs cpu 0 length prot flags fd offset s₁ = .ok (r, s₂)) :
      MmapRun kmalloc fs pid s (ranges ++ [(r, length)]) s₂
  | other {ranges : List (Nat × Nat)} {s₁ s₂ : System φ} {cpu addr length prot flags fd offset r : Nat}
      (before : MmapRun kmalloc fs pid s ranges s₁) (elsewhere : currentIndex s₁.tasks cpu ≠ pid ∨ addr ≠ 0)
      (positive : 0 < length) (count : length < 2 ^ 64)
      (h : syscallMmap kmalloc fs cpu addr length prot flags fd offset s₁ = .ok (r, s₂)) :
      MmapRun kmalloc fs pid s ranges s₂
  | schedule {ranges : List (Nat × Nat)} {s₁ : System φ} (before : MmapRun kmalloc fs pid s ranges s₁)
      (currentTasks : Vec Nat) :
      MmapRun kmalloc fs pid s ranges { s₁ with tasks := { s₁.tasks with currentTasks } }
  | files {ranges : List (Nat × Nat)} {s₁ : System φ} (before : MmapRun kmalloc fs pid s ranges s₁) (files : φ) :
      MmapRun kmalloc fs pid s ranges { s₁ with files }

section ranges

variable {A : PageAllocator} {φ : Type} {fs : FileAccess φ} {k k' : Kernel} {s s' : System φ} {task : Task}
  {who : Grant → Prop} {pid imageEnd length : Nat} {ranges : List (Nat × Nat)}

theorem getTask_advanced (t : Tasklist) (pid addr length i : Nat) :
    getTask (advanced t pid addr length) i =
      if addr = 0 ∧ i = pid then (getTask t i).map (Task.advance length) else getTask t i := by
  by_cases null : addr = 0
  · by_cases here : i = pid
    · simp [advanced, getTask, vectorAt, null, here]
    · simp [advanced, getTask, vectorAt, null, here, Ne.symm here]
  · simp [advanced, null]

theorem grantedBytes_le (step : Touches A who k k') : grantedBytes k ≤ grantedBytes k' := by
  obtain ⟨new, ledger, _⟩ := step.ledger
  simp [grantedBytes, ledger]

theorem Mapped.treesOk {all : List AddressSpace} {space : AddressSpace} {v run flags : Nat}
    (mapped : Mapped A k k' pid (space.root k) v run length flags) (ok : TreesOk A k all)
    (found : all[pid]? = some space) : TreesOk A k' all := by
  refine ⟨mapped.touches.ready, fun {pid' space'} found' => ?_, ok.distinct⟩
  rw [root_congr mapped.touches, mapped.touches.setup.hhdm]
  by_cases same : pid' = pid
  · subst pid'
    obtain rfl := Option.some.inj (found.symm.trans found')
    exact mapped.tree
  · exact ((ok.trees found').of_touches (ok.other_tree found found' same) mapped.touches).2.2

/-- What a call does to the list of tasks and to the ledger. -/
structure Advances (A : PageAllocator) (task : Task) (pid addr length r : Nat) (s s' : System φ) : Prop where
  target : r = mmapTarget task addr
  tasks : s'.tasks = advanced s.tasks pid addr length
  trees : TreesOk A s'.kernel (spaces s'.tasks)
  hhdm : s'.kernel.hhdm = s.kernel.hhdm
  pages : 1 ≤ pageAlignUp length / 4096
  more : grantedBytes s.kernel + pageAlignUp length / 4096 * 4096 ≤ grantedBytes s'.kernel
  room : grantedBytes s'.kernel + s'.kernel.hhdm ≤ 2 ^ 64

theorem syscallMmap_advances {cpu addr prot flags fd offset r : Nat} (ok : TreesOk A s.kernel (spaces s.tasks))
    (found : getTask s.tasks (currentIndex s.tasks cpu) = some task) (positive : 0 < length) (count : length < 2 ^ 64)
    (h : syscallMmap A.kmalloc fs cpu addr length prot flags fd offset s = .ok (r, s')) :
    Advances A task (currentIndex s.tasks cpu) addr length r s s' := by
  have space := spaces_get found
  have tree := ok.trees space
  rw [syscallMmap_eq positive found] at h
  obtain ⟨target, run, k₁, k₂, steps⟩ := mmapAt_steps h
  obtain ⟨tasks, run', _, mapped⟩ :=
    mmapAt_ok (s := { s with tasks := advanced s.tasks _ addr length }) ok.ready tree count h
  have done := steps.done (s := { s with tasks := advanced s.tasks _ addr length }) ok.ready tree count
  have alloc := A.allocates ok.ready steps.got
  have first : grantedBytes k₁ = grantedBytes s.kernel + pageAlignUp length / 4096 * 4096 := by
    simp [grantedBytes, alloc.ledger]
  have second := grantedBytes_le done.grows.touches
  have third := grantedBytes_le done.filled
  refine ⟨target, tasks, ?_, mapped.touches.setup.hhdm, alloc.pages.1, by omega, ?_⟩
  · rw [tasks]
    dsimp only
    rw [spaces_advanced]
    exact mapped.treesOk ok space
  · exact (A.ledger mapped.touches.ready).grantedBytes_le (List.ne_nil_of_mem mapped.granted)

/-- The frames of the call make up for the distance that `mmap_upto` moves. -/
theorem UptoOk.advance {upto : Nat} (ok : UptoOk k imageEnd upto) (count : length < 2 ^ 64) (hhdm : k'.hhdm = k.hhdm)
    (pages : 1 ≤ pageAlignUp length / 4096) (more : grantedBytes k + pageAlignUp length / 4096 * 4096 ≤ grantedBytes k')
    (room : grantedBytes k' + k'.hhdm ≤ 2 ^ 64) :
    UptoOk k' imageEnd (pageAlignUp (add64 upto length)) ∧ upto + length ≤ pageAlignUp (add64 upto length) := by
  obtain ⟨aligned, above, below⟩ := ok
  have whole : length ≤ pageAlignUp length / 4096 * 4096 := by
    unfold pageAlignUp add64 at *
    omega
  have next : pageAlignUp (add64 upto length) = upto + pageAlignUp length / 4096 * 4096 := by
    unfold pageAlignUp add64 at *
    omega
  rw [next]
  exact ⟨⟨by omega, by omega, by omega⟩, by omega⟩

theorem UptoOk.mono {upto : Nat} (ok : UptoOk k imageEnd upto) (hhdm : k'.hhdm = k.hhdm)
    (more : grantedBytes k ≤ grantedBytes k') : UptoOk k' imageEnd upto := by
  have below := ok.below
  exact ⟨ok.aligned, ok.above, by omega⟩

/-- The ranges handed out so far lie between the program image and `mmap_upto`. -/
structure RangesOk (A : PageAllocator) (pid imageEnd : Nat) (ranges : List (Nat × Nat)) (s : System φ) : Prop where
  trees : TreesOk A s.kernel (spaces s.tasks)
  task : ∃ task, getTask s.tasks pid = some task ∧ UptoOk s.kernel imageEnd task.mmapUpto ∧
    ∀ range ∈ ranges, range.1 + range.2 ≤ task.mmapUpto
  placed : ∀ range ∈ ranges, range.1 % 4096 = 0 ∧ imageEnd ≤ range.1
  disjoint : ranges.Pairwise fun a b => a.1 + a.2 ≤ b.1

theorem RangesOk.own {cpu prot flags fd offset r : Nat} (inv : RangesOk A pid imageEnd ranges s)
    (current : currentIndex s.tasks cpu = pid) (positive : 0 < length) (count : length < 2 ^ 64)
    (h : syscallMmap A.kmalloc fs cpu 0 length prot flags fd offset s = .ok (r, s')) :
    RangesOk A pid imageEnd (ranges ++ [(r, length)]) s' := by
  subst current
  obtain ⟨trees, ⟨task, found, upto, below⟩, placed, disjoint⟩ := inv
  obtain ⟨target, tasks, trees', hhdm, pages, more, room⟩ := syscallMmap_advances trees found positive count h
  obtain ⟨upto', above⟩ := upto.advance count hhdm pages more room
  have start : r = task.mmapUpto := target
  refine ⟨trees', ⟨task.advance length, ?_, upto', ?_⟩, ?_, ?_⟩
  · rw [tasks, getTask_advanced, if_pos ⟨rfl, rfl⟩, found]
    rfl
  · show ∀ range ∈ _, _ ≤ pageAlignUp (add64 task.mmapUpto length)
    rw [List.forall_mem_append, List.forall_mem_singleton, start]
    exact ⟨fun range old => by have := below range old; omega, above⟩
  · rw [List.forall_mem_append, List.forall_mem_singleton, start]
    exact ⟨placed, upto.aligned, upto.above⟩
  · rw [List.pairwise_append]
    refine ⟨disjoint, List.pairwise_singleton .., fun a old b new => ?_⟩
    obtain rfl := List.mem_singleton.mp new
    rw [start]
    exact below a old

theorem RangesOk.other {cpu addr prot flags fd offset r : Nat} (inv : RangesOk A pid imageEnd ranges s)
    (elsewhere : currentIndex s.tasks cpu ≠ pid ∨ addr ≠ 0) (positive : 0 < length) (count : length < 2 ^ 64)
    (h : syscallMmap A.kmalloc fs cpu addr length prot flags fd offset s = .ok (r, s')) :
    RangesOk A pid imageEnd ranges s' := by
  obtain ⟨trees, ⟨task, found, upto, below⟩, placed, disjoint⟩ := inv
  obtain ⟨caller, calls⟩ := syscallMmap_task h
  have after := syscallMmap_advances trees calls positive count h
  have more := after.more
  refine ⟨after.trees, ⟨task, ?_, upto.mono after.hhdm (by omega), below⟩, placed, disjoint⟩
  rw [after.tasks, getTask_advanced, if_neg, found]
  rintro ⟨null, rfl⟩
  rcases elsewhere with other | given
  · exact other rfl
  · exact given null

theorem RangesOk.run (inv : RangesOk A pid imageEnd [] s) (run : MmapRun A.kmalloc fs pid s ranges s') :
    RangesOk A pid imageEnd ranges s' := by
  induction run with
  | start => exact inv
  | own _ current positive count h ih => exact ih.own current positive count h
  | other _ elsewhere positive count h ih => exact ih.other elsewhere positive count h
  | schedule _ _ ih => exact ⟨ih.trees, ih.task, ih.placed, ih.disjoint⟩
  | files _ _ ih => exact ⟨ih.trees, ih.task, ih.placed, ih.disjoint⟩

end ranges

/-! ### The end of `spawn` -/

section spawn

variable {A : PageAllocator} {φ : Type} {fs : FileAccess φ} {k : Kernel} {s s' : System φ} {live : List (Nat × Nat)}
  {cpu : Nat} {path bytes : List UInt8} {argv : List (List UInt8)}

theorem Spawned.mmapUpto (heap : Heap A s.kernel live) (stored : Stored fs s cpu path bytes) (bounds : InBounds bytes)
    (spawned : Spawned A.kmalloc fs cpu path argv s s') : ∃ task, s'.tasks.list.nodes = s.tasks.list.nodes ++ [task] ∧
      task.mmapUpto =
        pageAlignUp (add64 (fileImage bytes).last.virtualAddress (fileImage bytes).last.sizeInMemory) := by
  obtain ⟨opened, reads, valid, loads, _, _, starts⟩ := spawned
  obtain ⟨f, opens, length, content⟩ := stored
  obtain rfl := Option.some.inj (opens.symm.trans opened)
  obtain ⟨_, tasks, file⟩ :=
    readProgram_stored (s := { s with files := (openedBy fs s cpu path).2 }) heap length content reads
  obtain ⟨run, rfl, _⟩ := loadImage_ok file valid bounds loads
  obtain ⟨_, task, nodes, _, _, _, _, upto⟩ := startTask_ok starts
  dsimp only at nodes
  rw [tasks] at nodes
  exact ⟨task, nodes, upto⟩

theorem run_le_grantedBytes {g : Grant} (taken : g ∈ k.granted) : g.pages * 4096 ≤ grantedBytes k :=
  List.le_sum_of_mem (List.mem_map_of_mem taken)

/-- A new task starts with `mmap_upto` behind its image, when that lies in the lower half. -/
theorem spawn_uptoOk (ok : SpacesOk A s.kernel (spaces s.tasks)) (upper : UpperMap s.kernel)
    (stored : Stored fs s cpu path bytes) (bounds : InBounds bytes) (fits : argsLength argv + argv.length * 8 ≤ 4096)
    (low : (fileImage bytes).last.virtualAddress + (fileImage bytes).last.sizeInMemory ≤ 2 ^ 47)
    (h : spawn A.kmalloc fs cpu path argv s = .ok (0, s')) :
    ∃ task, getTask s'.tasks s.tasks.list.length = some task ∧ TreesOk A s'.kernel (spaces s'.tasks) ∧
      UptoOk s'.kernel ((fileImage bytes).last.virtualAddress + (fileImage bytes).last.sizeInMemory) task.mmapUpto := by
  have spawned := ((spawn_cases h).resolve_left fun failed => failed.1 rfl).2
  obtain ⟨live, cells, rep⟩ := ok.heap
  obtain ⟨root, run, k₂, k₃, k₄, steps⟩ := spawned.steps ⟨ok.ready, cells, rep⟩ stored bounds fits
  obtain ⟨task, nodes, upto⟩ := spawned.mmapUpto ⟨ok.ready, cells, rep⟩ stored bounds
  have trees := (steps.spacesOk upper ok).treesOk
  have found : getTask s'.tasks s.tasks.list.length = some task := by
    unfold getTask vectorAt Vec.length
    rw [nodes, List.getElem?_append_right (Nat.le_refl _), Nat.sub_self]
    rfl
  obtain ⟨g, taken, _⟩ := (trees.trees (spaces_get found)).owned 0 (by omega) 0 (by omega) _ rfl
  have table : 4096 ≤ grantedBytes s'.kernel := by
    have frames := run_le_grantedBytes taken
    have some := (A.ledger trees.ready).pages g taken
    omega
  have high : 2 ^ 47 ≤ s'.kernel.hhdm := by
    have := (upper.congr steps.final).hhdm
    omega
  refine ⟨task, found, trees, ?_⟩
  rw [upto]
  generalize (fileImage bytes).last.virtualAddress = first at *
  generalize (fileImage bytes).last.sizeInMemory = size at *
  rw [add64_of_lt (by omega), pageAlignUp, add64_of_lt (by omega)]
  exact ⟨by omega, by omega, by omega⟩

end spawn

section mmap

variable {A : PageAllocator} {φ : Type} {fs : FileAccess φ} {s : System φ}

/-- A call for bytes of anonymous memory maps what it was asked for exactly when the
pages that it maps on top stay as they were; it stops only when it gets no frame or
when these pages run over the end of the address space. The ranges that the kernel
chooses are page aligned, disjoint and above the program image. -/
theorem mmap_maps_exactly_iff {pid imageEnd : Nat} {task : Task} (ok : TreesOk A s.kernel (spaces s.tasks))
    (found : getTask s.tasks pid = some task) (upto : UptoOk s.kernel imageEnd task.mmapUpto) :
    (∀ {cpu addr length prot flags fd offset : Nat}, currentIndex s.tasks cpu = pid → 0 < length → length < 2 ^ 64 →
      flags &&& mapAnonymous ≠ 0 →
      (∀ r s', syscallMmap A.kmalloc fs cpu addr length prot flags fd offset s = .ok (r, s') →
        r = mmapTarget task addr ∧ (MapsExactly s.kernel s'.kernel (task.space.root s.kernel) (pageOf r) length ↔
          Continues A s.kernel pid (task.space.root s.kernel) (pageOf (mmapTarget task addr)) length)) ∧
      ∀ e, syscallMmap A.kmalloc fs cpu addr length prot flags fd offset s = .error e →
        Refuses A s.kernel pid (task.space.root s.kernel) (pageOf (mmapTarget task addr)) length e ∨
          2 ^ 36 < pageOf (mmapTarget task addr) + length) ∧
    ∀ ranges s', MmapRun A.kmalloc fs pid s ranges s' →
      (∀ range ∈ ranges, range.1 % 4096 = 0 ∧ imageEnd ≤ range.1) ∧ ranges.Pairwise fun a b => a.1 + a.2 ≤ b.1 := by
  constructor
  · intro cpu addr length prot flags fd offset current positive count anonymous
    subst current
    have tree := ok.trees (spaces_get found)
    rw [syscallMmap_eq positive found]
    refine ⟨fun r s' h => ?_, fun e h => ?_⟩
    · obtain ⟨rfl, run, k₁, k₂, steps⟩ := mmapAt_steps h
      exact ⟨rfl, MmapSteps.mapsExactly_iff (s := { s with tasks := advanced s.tasks _ addr length }) ok.ready tree count
        anonymous steps⟩
    · exact mmapAt_stops (s := { s with tasks := advanced s.tasks _ addr length }) ok.ready tree positive count anonymous h
  · intro ranges s' run
    have first : RangesOk A pid imageEnd [] s :=
      ⟨ok, ⟨task, found, upto, fun _ none => absurd none List.not_mem_nil⟩, fun _ none => absurd none List.not_mem_nil, .nil⟩
    have after := first.run run
    exact ⟨after.placed, after.disjoint⟩

end mmap

/-- The system with task `pid` on the first core. -/
def onCore (pid : Nat) (s : System Unit) : System Unit :=
  { s with tasks := { s.tasks with currentTasks := { dataSize := 8, nodes := [pid] } } }

/-- A task that runs `plainElf`. -/
theorem plainTask_ok {k : Kernel} {a b : Nat} {s : System Unit}
    (trees : twoTrees pmm.kmalloc highMachineReady = .ok ((a, b), k))
    (spawned : spawn pmm.kmalloc plainFiles 0 [82, 58, 47, 97] [] (twoTasks k a b) = .ok (0, s)) :
    ∃ task, getTask s.tasks 2 = some task ∧ TreesOk pmm s.kernel (spaces s.tasks) ∧
      UptoOk s.kernel 0x401000 task.mmapUpto ∧ OpenTables s.kernel (task.space.root s.kernel) := by
  obtain ⟨ok, _⟩ := twoTrees_ok highMachineReady_ready
    (by simp [highMachineReady, highMachine, bootMachine, smallMachine]) trees
  have upper := (twoTrees_setup trees).1
  have stored : Stored plainFiles (twoTasks k a b) 0 [82, 58, 47, 97] plainElf := stored_filesOf _ _ _ _
  have ends : (fileImage plainElf).last.virtualAddress + (fileImage plainElf).last.sizeInMemory = 0x401000 := by
    decide +kernel
  obtain ⟨task, found, after, upto⟩ := spawn_uptoOk (s := twoTasks k a b) ok upper stored plainElf_inBounds
    (by decide) (by rw [ends]; decide) spawned
  rw [ends] at upto
  have opened := spawn_opened (s := twoTasks k a b) ok upper stored plainElf_inBounds (by decide) spawned found
  exact ⟨task, found, after, upto, opened⟩

/-- A new task asks for one byte and for two bytes, wherever the kernel likes. -/
theorem mmap_maps_exactly_plainElf : ∃ k a b s₁ s₂ s₃ task r r',
    twoTrees pmm.kmalloc highMachineReady = .ok ((a, b), k) ∧
    spawn pmm.kmalloc plainFiles 0 [82, 58, 47, 97] [] (twoTasks k a b) = .ok (0, s₁) ∧
    getTask s₁.tasks 2 = some task ∧
    syscallMmap pmm.kmalloc plainFiles 0 0 1 0 0x20 0 0 (onCore 2 s₁) = .ok (r, s₂) ∧
    syscallMmap pmm.kmalloc plainFiles 0 0 2 0 0x20 0 0 s₂ = .ok (r', s₃) ∧
    MapsExactly s₁.kernel s₂.kernel (task.space.root s₁.kernel) (pageOf r) 1 ∧ 0x401000 ≤ r ∧ r + 1 ≤ r' := by
  have check : returns (twoTrees pmm.kmalloc) highMachineReady (fun p k =>
      returns (spawn pmm.kmalloc plainFiles 0 [82, 58, 47, 97] []) (twoTasks k p.1 p.2) fun error s₁ =>
        error == 0 && returns (syscallMmap pmm.kmalloc plainFiles 0 0 1 0 0x20 0 0) (onCore 2 s₁) fun _ s₂ =>
          s₂.tasks.currentTasks.nodes == [2] &&
            returns (syscallMmap pmm.kmalloc plainFiles 0 0 2 0 0x20 0 0) s₂ fun _ _ => true) = true := by
    decide +kernel
  obtain ⟨⟨a, b⟩, k, made, check⟩ := returns_iff.mp check
  obtain ⟨error, s₁, spawned, check⟩ := returns_iff.mp check
  obtain ⟨zero, check⟩ := Bool.and_eq_true_iff.mp check
  obtain rfl := beq_iff_eq.mp zero
  obtain ⟨r, s₂, first, check⟩ := returns_iff.mp check
  obtain ⟨current, check⟩ := Bool.and_eq_true_iff.mp check
  obtain ⟨r', s₃, second, _⟩ := returns_iff.mp check
  obtain ⟨task, found, ok, upto, _⟩ := plainTask_ok made spawned
  have trees : TreesOk pmm (onCore 2 s₁).kernel (spaces (onCore 2 s₁).tasks) := ok
  have some : 0 < 1 := Nat.one_pos
  have small : 1 < 2 ^ 64 := by decide
  have anonymous : 0x20 &&& mapAnonymous ≠ 0 := by decide
  obtain ⟨_, exactly⟩ := ((mmap_maps_exactly_iff trees found upto).1 rfl some small anonymous).1 r s₂ first
  have on : currentIndex s₂.tasks 0 = 2 := by
    rw [currentIndex, vectorAt, beq_iff_eq.mp current]
    rfl
  have run : MmapRun pmm.kmalloc plainFiles 2 (onCore 2 s₁) [(r, 1), (r', 2)] s₃ :=
    .own (.own .start rfl (by decide) (by decide) first) on (by decide) (by decide) second
  obtain ⟨placed, disjoint⟩ := (mmap_maps_exactly_iff trees found upto).2 _ _ run
  refine ⟨k, a, b, s₁, s₂, s₃, task, r, r', made, spawned, found, first, second, exactly.mpr ?_, ?_, ?_⟩
  · intro _ _ _ i above below
    have one : pagesFor 1 = 1 := rfl
    omega
  · exact (placed (r, 1) List.mem_cons_self).2
  · exact (List.pairwise_cons.mp disjoint).1 _ List.mem_cons_self

/-- Two bytes at `0x400000`: the next page gets a frame too. -/
theorem mmap_maps_more : ∃ k a b s', twoTrees pmm.kmalloc smallMachineReady = .ok ((a, b), k) ∧
    syscallMmap pmm.kmalloc tinyFiles 0 0x400000 2 0 0x20 0 0 (twoTasks k a b) = .ok (0x400000, s') ∧
    ¬ MapsExactly k s'.kernel (b + k.hhdm) (pageOf 0x400000) 2 := by
  have check : returns (twoTrees pmm.kmalloc) smallMachineReady (fun r k =>
      returns (syscallMmap pmm.kmalloc tinyFiles 0 0x400000 2 0 0x20 0 0) (twoTasks k r.1 r.2) fun addr s' =>
        addr == 0x400000 && decide (translation s'.kernel (r.2 + k.hhdm) 0x401 ≠ translation k (r.2 + k.hhdm) 0x401)) =
      true := by
    decide +kernel
  obtain ⟨⟨a, b⟩, k, trees, check⟩ := returns_iff.mp check
  obtain ⟨r, s', call, check⟩ := returns_iff.mp check
  obtain ⟨same, changed⟩ := Bool.and_eq_true_iff.mp check
  obtain rfl := beq_iff_eq.mp same
  refine ⟨k, a, b, s', trees, call, fun maps => of_decide_eq_true changed ?_⟩
  exact maps.others 0x401 (by decide) (by unfold InPages; decide)

end PotatOS.Tasks
