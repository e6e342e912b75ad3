import PotatOS.Mem.KheapClients
import PotatOS.Tasks.Loader

/-!
# Spawning a task

`Spawned` takes a successful `spawn` apart, and `startTask_ok` says what its end
does to the task list and to the heap.
-/

namespace PotatOS.Tasks

open Memory Mem Prog

section cases

variable {φ : Type} {kmalloc : Owner → Nat → KernelM Nat} {fs : FileAccess φ} {s s' : System φ}

/-- The steps of a `spawn` that returned 0. -/
inductive Spawned (kmalloc : Owner → Nat → KernelM Nat) (fs : FileAccess φ) (cpu : Nat) (path : List UInt8)
    (argv : List (List UInt8)) (s s' : System φ) : Prop where
  | intro {f buffer root argSize : Nat} {image : Image} {s₁ : System φ} {k₂ k₃ k₄ : Kernel}
      (opened : (openedBy fs s cpu path).1 = some f)
      (reads : readProgram kmalloc fs f { s with files := (openedBy fs s cpu path).2 } = .ok ((buffer, 0), s₁))
      (valid : validateElf s₁.kernel.mem buffer = true)
      (loads : loadImage kmalloc s₁.tasks.list.length buffer s₁.kernel = .ok (image, k₂))
      (tree : initPagingTask kmalloc k₂ = .ok (root, k₃))
      (fills : fillTree kmalloc s₁.tasks.list.length root image argv k₃ = .ok (argSize, k₄))
      (starts : startTask fs cpu buffer root argSize argv.length image { s₁ with kernel := k₄ } = .ok ((), s'))

theorem readProgram_tasks {f : Nat} {r : Nat × Nat} (h : readProgram kmalloc fs f s = .ok (r, s')) :
    s'.tasks = s.tasks := by
  unfold readProgram readInto at h
  rw [bind_eq run_get] at h
  obtain ⟨p, k₁, _, h⟩ := bind_onKernel_ok h
  obtain ⟨_, rfl⟩ := pure_ok h
  rfl

theorem spawn_cases {cpu r : Nat} {path : List UInt8} {argv : List (List UInt8)}
    (h : spawn kmalloc fs cpu path argv s = .ok (r, s')) :
    r ≠ 0 ∧ s'.tasks = s.tasks ∨ r = 0 ∧ Spawned kmalloc fs cpu path argv s s' := by
  unfold spawn at h
  obtain ⟨found, s₁, opened, h⟩ := bind_ok h
  unfold openAt at opened
  obtain ⟨same, rfl⟩ := pure_ok opened
  have opens : (openedBy fs s cpu path).1 = found := same
  cases found with
  | none =>
    obtain ⟨rfl, rfl⟩ := pure_ok h
    exact .inl ⟨by decide, rfl⟩
  | some f =>
    obtain ⟨⟨buffer, status⟩, s₂, reads, h⟩ := bind_ok h
    have tasks := readProgram_tasks reads
    dsimp only at h
    split at h
    · obtain ⟨rfl, rfl⟩ := pure_ok h
      exact .inl ⟨by decide, tasks⟩
    · rename_i readable
      obtain rfl : status = 0 := Decidable.not_not.mp readable
      rw [bind_eq run_get] at h
      split at h
      · obtain ⟨rfl, rfl⟩ := pure_ok h
        exact .inl ⟨by decide, tasks⟩
      · rename_i valid
        rw [bind_eq run_get] at h
        obtain ⟨image, k₂, loads, h⟩ := bind_onKernel_ok h
        obtain ⟨root, k₃, tree, h⟩ := bind_onKernel_ok h
        obtain ⟨argSize, k₄, fills, h⟩ := bind_onKernel_ok h
        obtain ⟨_, s₅, starts, h⟩ := bind_ok h
        obtain ⟨rfl, rfl⟩ := pure_ok h
        exact .inr ⟨rfl, .intro opens reads (Decidable.not_not.mp valid) loads tree fills starts⟩

theorem Spawned.logged {cpu : Nat} {path : List UInt8} {argv : List (List UInt8)}
    (spawned : Spawned kmalloc fs cpu path argv s s') :
    ∃ log s₁, loggedSpawn kmalloc fs cpu path s = .ok (some log, s₁) := by
  obtain @⟨f, buffer, root, argSize, image, s₁, k₂, k₃, k₄, opened, reads, valid, loads, _, _, _⟩ := spawned
  have opens : openAt fs cpu path 0 modeReadonly s = .ok (some f, { s with files := (openedBy fs s cpu path).2 }) := by
    rw [← opened]
    rfl
  unfold loadImage at loads
  rw [bind_eq run_get] at loads
  obtain ⟨run, k, got, _⟩ := bind_ok loads
  have frames : (onKernel (kmalloc (.image s₁.tasks.list.length) (imageOf s₁.kernel.mem buffer 0).pagesToMap) :
      SysM φ Nat) s₁ = .ok (run, { s₁ with kernel := k }) := by
    rw [onKernel, got]
  unfold loggedSpawn
  rw [bind_eq opens]
  dsimp only
  rw [bind_eq run_get, bind_eq reads]
  dsimp only
  rw [if_neg (by simp), bind_eq run_get, if_neg (by simp [valid]), bind_eq run_get, bind_eq frames, bind_eq run_get]
  exact ⟨_, _, rfl⟩

theorem openAt_ok {cpu flags mode : Nat} {path : List UInt8} {r : Option Nat}
    (h : openAt fs cpu path flags mode s = .ok (r, s')) : s'.kernel = s.kernel ∧ s'.tasks = s.tasks := by
  unfold openAt at h
  obtain ⟨_, rfl⟩ := pure_ok h
  exact ⟨rfl, rfl⟩

theorem createTask_ok {t t' : Tasklist} {cpu pml4Addr entryPoint userStack pid : Nat} {flags : UInt8}
    (h : createTask cpu pml4Addr entryPoint userStack flags t = .ok (pid, t')) :
    pid = t.list.length ∧ ∃ task, t'.list.nodes = t.list.nodes ++ [task] ∧ task.pml4Addr = pml4Addr := by
  unfold createTask at h
  rw [bind_eq run_get] at h
  cases current : getCurrentTask t cpu with
  | none =>
    rw [current] at h
    exact (stop_ok h).elim
  | some task =>
    rw [current] at h
    obtain ⟨rfl, rfl⟩ := pure_ok h
    exact ⟨rfl, _, rfl, rfl⟩

theorem modifyTask_last {t t' : Tasklist} {pid : Nat} {f : Task → Task} {front : List Task} {task : Task}
    (nodes : t.list.nodes = front ++ [task]) (last : pid = front.length) (h : modifyTask pid f t = .ok ((), t')) :
    t'.list.nodes = front ++ [f task] := by
  obtain ⟨_, rfl⟩ := modifyTask_ok h
  subst last
  show t.list.nodes.modify front.length f = _
  rw [nodes, modify_last]

theorem startTask_ok {cpu buffer root argSize argc : Nat} {image : Image}
    (h : startTask fs cpu buffer root argSize argc image s = .ok ((), s')) :
    free buffer s.kernel = .ok ((), s'.kernel) ∧ ∃ task, s'.tasks.list.nodes = s.tasks.list.nodes ++ [task] ∧
      task.pml4Addr = sub64 root s.kernel.hhdm ∧ task.argc = argc ∧ task.argv = argvDataAddr + argSize ∧
      task.errno = userStackPtr - 8 ∧
      task.mmapUpto = pageAlignUp (add64 image.last.virtualAddress image.last.sizeInMemory) := by
  unfold startTask at h
  rw [bind_eq run_get] at h
  obtain ⟨pid, t₁, creates, h⟩ := bind_onTasks_ok h
  obtain ⟨last, task, nodes, pml4⟩ := createTask_ok creates
  obtain ⟨_, t₂, adopts, h⟩ := bind_onTasks_ok h
  unfold adoptTask at adopts
  rw [bind_eq run_get] at adopts
  have adopted := modifyTask_last nodes last adopts
  obtain ⟨_, k, frees, h⟩ := bind_onKernel_ok h
  obtain ⟨stdin, s₁, opens₁, h⟩ := bind_ok h
  obtain ⟨stdout, s₂, opens₂, h⟩ := bind_ok h
  obtain ⟨stderr, s₃, opens₃, h⟩ := bind_ok h
  obtain ⟨kernel₁, tasks₁⟩ := openAt_ok opens₁
  obtain ⟨kernel₂, tasks₂⟩ := openAt_ok opens₂
  obtain ⟨kernel₃, tasks₃⟩ := openAt_ok opens₃
  obtain ⟨t, modifies, rfl⟩ := onTasks_ok h
  rw [tasks₃, tasks₂, tasks₁] at modifies
  have final := modifyTask_last adopted last modifies
  dsimp only
  rw [kernel₃, kernel₂, kernel₁]
  exact ⟨frees, _, final, pml4, rfl, rfl, rfl, rfl⟩

theorem Spawned.added {cpu : Nat} {path : List UInt8} {argv : List (List UInt8)}
    (spawned : Spawned kmalloc fs cpu path argv s s') :
    ∃ task, s'.tasks.list.nodes = s.tasks.list.nodes ++ [task] ∧ task.argc = argv.length := by
  obtain ⟨_, reads, _, _, _, _, starts⟩ := spawned
  have tasks := readProgram_tasks reads
  obtain ⟨_, task, nodes, _, argc, _⟩ := startTask_ok starts
  dsimp only at tasks nodes
  rw [tasks] at nodes
  exact ⟨task, nodes, argc⟩

theorem spawn_status {cpu r : Nat} {path : List UInt8} {argv : List (List UInt8)}
    (h : spawn kmalloc fs cpu path argv s = .ok (r, s')) :
    r ≠ 0 ∧ s'.tasks = s.tasks ∨ r = 0 ∧ s'.tasks.list.length = s.tasks.list.length + 1 := by
  refine (spawn_cases h).imp id fun ⟨zero, spawned⟩ => ⟨zero, ?_⟩
  obtain ⟨task, nodes, _⟩ := spawned.added
  unfold Vec.length
  rw [nodes, List.length_append]
  rfl

end cases

/-! ### The loader and its memory -/

section file

variable {A : PageAllocator} {φ : Type} {fs : FileAccess φ} {s s' : System φ} {live : List (Nat × Nat)}

/-- The path leads to a file with these bytes. -/
def Stored (fs : FileAccess φ) (s : System φ) (cpu : Nat) (path bytes : List UInt8) : Prop :=
  ∃ f, (openedBy fs s cpu path).1 = some f ∧ fs.fileLength (openedBy fs s cpu path).2 f = bytes.length ∧
    (fs.read f bytes.length (openedBy fs s cpu path).2).1 = (0, bytes)

/-- The file in its buffer. -/
structure Buffered (A : PageAllocator) (k k' : Kernel) (buffer : Nat) (live : List (Nat × Nat)) (bytes : List UInt8) :
    Prop where
  touches : Touches A OfHeap k k'
  heap : Heap A k' ((buffer, bytes.length) :: live)
  holds : Holds k'.mem buffer bytes

theorem readProgram_stored {f buffer status : Nat} {bytes : List UInt8} (heap : Heap A s.kernel live)
    (length : fs.fileLength s.files f = bytes.length) (content : (fs.read f bytes.length s.files).1 = (0, bytes))
    (h : readProgram A.kmalloc fs f s = .ok ((buffer, status), s')) :
    status = 0 ∧ s'.tasks = s.tasks ∧ Buffered A s.kernel s'.kernel buffer live bytes := by
  obtain ⟨ready, cells, rep⟩ := heap
  obtain ⟨tasks, code, touched, after, shown⟩ := readProgram_ok ready rep h
  rw [length, content] at code shown
  rw [length] at after
  have heap' : Heap A s'.kernel ((buffer, bytes.length) :: live) := ⟨touched.ready, after⟩
  refine ⟨code, tasks, touched, heap', (heap'.bounds List.mem_cons_self).2.2, length ▸ fs.small _ _, ?_⟩
  intro i inside
  rw [shown i bytes[i] (List.getElem?_eq_getElem inside), List.getD_eq_getElem _ _ inside]

/-- The heap stays as it is until the buffer is freed. -/
theorem Buffered.behind {k k₁ k₂ k₃ k₄ : Kernel} {buffer pid hhdm hhdm' root : Nat} {bytes : List UInt8}
    (file : Buffered A k k₁ buffer live bytes) (copied : Touches A (fun g => g.owner = .image pid) k₁ k₂)
    (built : Touches A (OfTask hhdm root) k₂ k₃) (filled : Touches A (OfSpawn hhdm' root pid) k₃ k₄) :
    Heap A k₄ ((buffer, bytes.length) :: live) := by
  have heap₂ := (file.heap.of_touches (fun g mine heap => by cases mine.symm.trans heap) copied).1
  have heap₃ := (heap₂.of_touches (fun g mine heap => by
    rcases mine with tree | owner
    · exact tree.not_heap heap
    · cases owner.symm.trans heap) built).1
  exact (heap₃.of_touches (fun g mine heap => by
    rcases mine with (tree | owner) | owner | owner
    · exact tree.not_heap heap
    · cases owner.symm.trans heap
    · cases owner.symm.trans heap
    · cases owner.symm.trans heap) filled).1

/-- The frames for the image lie apart from the buffer. -/
theorem Buffered.window {k k₁ k₂ : Kernel} {buffer run pid : Nat} {bytes : List UInt8}
    (file : Buffered A k k₁ buffer live bytes) (table : TableInFile bytes)
    (got : A.kmalloc (.image pid) (fileImage bytes).pagesToMap k₁ = .ok (run, k₂)) :
    add64 run k₂.hhdm = run + k₂.hhdm ∧ Window k₂.mem buffer (run + k₂.hhdm) bytes := by
  have alloc := A.allocates file.touches.ready got
  have mapped := alloc.mapped
  have pages := alloc.pages
  have hhdm : k₂.hhdm = k₁.hhdm := alloc.setup.hhdm
  have step : Touches A (fun g => g.owner = .image pid) k₁ k₂ := .kmalloc file.touches.ready got rfl
  obtain ⟨_, kept⟩ := file.heap.of_touches (fun g mine heap => by cases mine.symm.trans heap) step
  rw [hhdm]
  refine ⟨add64_of_lt (by omega), file.holds.congr fun x => kept _ List.mem_cons_self x, table, by omega, ?_⟩
  exact file.heap.apart_run (List.mem_cons_self) alloc

theorem rejected_inside_iff {k₁ k : Kernel} {buffer : Nat} {bytes : List UInt8} (file : Buffered A k k₁ buffer live bytes)
    (invalid : ¬ validateElf k₁.mem buffer = true) :
    (∀ a ∈ headerReads k₁.mem buffer, a.Inside buffer bytes.length 0 0) ↔ InBounds bytes := by
  rw [headerReads_iff]
  refine ⟨fun header => ?_, fun bounds => bounds.header⟩
  have elf : ¬ IsElf bytes := fun elf => invalid ((validateElf_eq file.holds header).trans elf)
  exact ⟨header, fun valid => absurd valid elf, fun valid => absurd valid elf⟩

theorem loaded_inside_iff {k k₁ k₂ : Kernel} {buffer run pid : Nat} {bytes : List UInt8}
    (file : Buffered A k k₁ buffer live bytes) (valid : validateElf k₁.mem buffer = true)
    (got : A.kmalloc (.image pid) (imageOf k₁.mem buffer 0).pagesToMap k₁ = .ok (run, k₂)) :
    (∀ a ∈ headerReads k₁.mem buffer ++
        tableReads k₁.mem (add64 buffer (programHeaderOffset k₁.mem buffer)) (programHeaderEntryCount k₁.mem buffer) ++
        copyLog buffer (add64 buffer (programHeaderOffset k₁.mem buffer)) (add64 run k₂.hhdm)
          (imageOf k₁.mem buffer 0).first.virtualAddress (programHeaderEntryCount k₁.mem buffer) 0 k₂.mem ++
        [.read (buffer + 24) 8],
      a.Inside buffer bytes.length (add64 run k₂.hhdm) (imageOf k₁.mem buffer 0).pagesToMap) ↔ InBounds bytes := by
  simp only [List.mem_append, List.mem_singleton]
  constructor
  · intro inside
    have header : 58 ≤ bytes.length := headerReads_iff.mp fun a listed => inside a (.inl (.inl (.inl listed)))
    obtain ⟨offset, count⟩ := count_eq file.holds header
    rw [offset, count] at inside
    have table : TableInFile bytes :=
      (tableReads_iff file.holds).mp fun a listed => inside a (.inl (.inl (.inr listed)))
    have image := imageOf_eq file.holds header table 0
    rw [image] at got inside
    obtain ⟨start, window⟩ := file.window table got
    rw [start] at inside
    have segments := (copyLog_iff window (Nat.zero_add _)).mp fun a listed => inside a (.inl (.inr listed))
    exact ⟨header, fun _ => table, fun _ i loads => segments i (Nat.zero_le i) loads⟩
  · intro bounds a listed
    obtain ⟨offset, count⟩ := count_eq file.holds bounds.header
    have elf : IsElf bytes := (validateElf_eq file.holds bounds.header).symm.trans valid
    have image := imageOf_eq file.holds bounds.header (bounds.table elf) 0
    rw [image] at got listed ⊢
    obtain ⟨start, window⟩ := file.window (bounds.table elf) got
    rw [offset, count, start] at listed
    rw [start]
    rcases listed with ((front | table) | copies) | rfl
    · exact headerReads_iff.mpr bounds.header a front
    · exact (tableReads_iff file.holds).mpr (bounds.table elf) a table
    · exact (copyLog_iff window (Nat.zero_add _)).mpr (fun i _ loads => bounds.segments elf i loads) a copies
    · have long := bounds.header
      exact read_near_inside (by omega)

theorem loggedSpawn_inside_iff {cpu : Nat} {path bytes : List UInt8} {log : SpawnLog} (heap : Heap A s.kernel live)
    (stored : Stored fs s cpu path bytes) (h : loggedSpawn A.kmalloc fs cpu path s = .ok (some log, s')) :
    (∀ a ∈ log.accesses, a.Inside log.buffer log.flength log.copyTo log.pages) ↔ InBounds bytes := by
  obtain ⟨f, opens, length, content⟩ := stored
  unfold loggedSpawn at h
  obtain ⟨found, s₁, opened, h⟩ := bind_ok h
  unfold openAt at opened
  obtain ⟨same, rfl⟩ := pure_ok opened
  obtain rfl : found = some f := same.symm.trans opens
  dsimp only at h
  rw [bind_eq run_get] at h
  obtain ⟨⟨buffer, status⟩, s₂, reads, h⟩ := bind_ok h
  obtain ⟨rfl, tasks, file⟩ :=
    readProgram_stored (s := { s with files := (openedBy fs s cpu path).2 }) heap length content reads
  dsimp only at h
  rw [if_neg (by simp), bind_eq run_get] at h
  have flength : fs.fileLength (openedBy fs s cpu path).2 f = bytes.length := length
  split at h
  · rename_i invalid
    obtain ⟨same, _⟩ := pure_ok h
    obtain rfl := Option.some.inj same
    show (∀ a ∈ headerReads s₂.kernel.mem buffer, a.Inside buffer
      (fs.fileLength (openedBy fs s cpu path).2 f) 0 0) ↔ _
    rw [flength]
    exact rejected_inside_iff file invalid
  · rename_i valid
    rw [bind_eq run_get] at h
    obtain ⟨run, k₂, got, h⟩ := bind_onKernel_ok h
    rw [bind_eq run_get] at h
    obtain ⟨same, _⟩ := pure_ok h
    obtain rfl := Option.some.inj same
    have bounds := loaded_inside_iff file (Decidable.not_not.mp valid) got
    rw [← flength] at bounds
    exact bounds

end file

/-! ### The states of a successful call -/

section steps

variable {A : PageAllocator} {φ : Type} {fs : FileAccess φ} {s s' : System φ} {live : List (Nat × Nat)}

/-- The image of the file, with its frames at `run`. -/
def imageAt (bytes : List UInt8) (run : Nat) : Image := { fileImage bytes with copytoPages := run }

/-- The frames of the image after the copy loop: the rounds start from cleared frames. -/
structure Copied (A : PageAllocator) (k₁ k₂ : Kernel) (pid buffer run : Nat) (bytes : List UInt8) : Prop where
  touches : Touches A (fun g => g.owner = .image pid) k₁ k₂
  granted : ⟨.image pid, run, (fileImage bytes).pagesToMap⟩ ∈ k₂.granted
  frames : run % 4096 = 0 ∧ 1 ≤ (fileImage bytes).pagesToMap ∧ (fileImage bytes).pagesToMap < 2 ^ 40 ∧
    run + (fileImage bytes).pagesToMap * 4096 + k₁.hhdm ≤ 2 ^ 64
  mem : ∃ m, Window m buffer (run + k₁.hhdm) bytes ∧
    (∀ x, InRange (run + k₁.hhdm) ((fileImage bytes).pagesToMap * 4096) x → m x = 0) ∧
    k₂.mem = placeSegments buffer (add64 buffer (headersAt bytes)) (run + k₁.hhdm)
      (fileImage bytes).first.virtualAddress (entryCount bytes) 0 m

theorem loadImage_ok {k k₁ k₂ : Kernel} {pid buffer : Nat} {image : Image} {bytes : List UInt8}
    (file : Buffered A k k₁ buffer live bytes) (valid : validateElf k₁.mem buffer = true) (bounds : InBounds bytes)
    (h : loadImage A.kmalloc pid buffer k₁ = .ok (image, k₂)) :
    ∃ run, image = imageAt bytes run ∧ Copied A k₁ k₂ pid buffer run bytes := by
  have elf : IsElf bytes := (validateElf_eq file.holds bounds.header).symm.trans valid
  obtain ⟨offset, count⟩ := count_eq file.holds bounds.header
  unfold loadImage at h
  rw [bind_eq run_get, imageOf_eq file.holds bounds.header (bounds.table elf), offset, count] at h
  obtain ⟨run, k₀, got, h⟩ := bind_ok h
  dsimp only at got h
  have alloc := A.allocates file.touches.ready got
  have hhdm : k₀.hhdm = k₁.hhdm := alloc.setup.hhdm
  obtain ⟨start, window⟩ := file.window (bounds.table elf) got
  rw [bind_eq run_get, start, bind_eq (copySegments_run ..)] at h
  obtain ⟨rfl, rfl⟩ := pure_ok h
  have taken : (⟨.image pid, run, (fileImage bytes).pagesToMap⟩ : Grant) ∈ k₀.granted := alloc.taken
  have first : Touches A (fun g => g.owner = .image pid) k₁ k₀ := .kmalloc file.touches.ready got rfl
  have zero : ∀ x, InRange (run + k₁.hhdm) ((fileImage bytes).pagesToMap * 4096) x → k₀.mem x = 0 := by
    intro x inside
    have byte := alloc.zero (x - k₁.hhdm) (by unfold InRange at *; omega)
    have shift : x - k₁.hhdm + k₁.hhdm = x := by
      unfold InRange at inside
      omega
    rwa [Kernel.phys, hhdm, shift] at byte
  refine ⟨run, rfl, ?_, taken, ⟨alloc.aligned, alloc.pages.1, alloc.pages.2, alloc.mapped⟩, k₀.mem, ?_, zero, ?_⟩
  · refine first.trans (.write first.ready fun x changed => ⟨_, taken, rfl, ?_⟩)
    by_contra far
    exact changed (placeSegments_outside window (fun i loads => bounds.segments elf i loads) (Nat.zero_add _) far)
  · rwa [hhdm] at window
  · rw [hhdm]
    rfl

/-- The states of a successful `spawn`: `k₂` behind the copy loop, `k₃` behind
`init_paging_task`, `k₄` with the whole tree. -/
structure Steps (A : PageAllocator) (bytes : List UInt8) (argv : List (List UInt8)) (s s' : System φ)
    (root run : Nat) (k₂ k₃ k₄ : Kernel) : Prop where
  loaded : Touches A (fun g => OfHeap g ∨ g.owner = .image s.tasks.list.length) s.kernel k₂
  copied : ∃ k₁ buffer, k₁.hhdm = s.kernel.hhdm ∧ Copied A k₁ k₂ s.tasks.list.length buffer run bytes
  made : initPagingTask A.kmalloc k₂ = .ok (root, k₃)
  tree : Touches A (OfTask s.kernel.hhdm root) k₂ k₃
  ok : TreeOk (OfTree s.kernel.hhdm root) k₃ root
  opened : OpenTables k₃ root
  fresh : ∀ g ∈ k₂.granted, ¬ InRange (g.addr + s.kernel.hhdm) (g.pages * 4096) root
  filled : Filled A k₃ k₄ s.tasks.list.length root (argsLength argv) (imageAt bytes run) argv
  freed : Touches A OfHeap k₄ s'.kernel
  heap : ∃ live, Heap A s'.kernel live
  task : ∃ task, s'.tasks.list.nodes = s.tasks.list.nodes ++ [task] ∧ task.pml4Addr + s.kernel.hhdm = root ∧
    task.argc = argv.length ∧ task.argv = argvDataAddr + argsLength argv ∧ task.errno = userStackPtr - 8

theorem Spawned.pages {cpu : Nat} {path bytes : List UInt8} {argv : List (List UInt8)} (heap : Heap A s.kernel live)
    (stored : Stored fs s cpu path bytes) (header : 58 ≤ bytes.length) (table : TableInFile bytes)
    (spawned : Spawned A.kmalloc fs cpu path argv s s') : 1 ≤ (fileImage bytes).pagesToMap := by
  obtain ⟨opened, reads, _, loads, _, _, _⟩ := spawned
  obtain ⟨f, opens, length, content⟩ := stored
  obtain rfl := Option.some.inj (opens.symm.trans opened)
  obtain ⟨_, _, file⟩ :=
    readProgram_stored (s := { s with files := (openedBy fs s cpu path).2 }) heap length content reads
  unfold loadImage at loads
  rw [bind_eq run_get, imageOf_eq file.holds header table] at loads
  obtain ⟨run, k, got, _⟩ := bind_ok loads
  exact (A.allocates file.touches.ready got).pages.1

section final

variable {bytes : List UInt8} {argv : List (List UInt8)} {root run : Nat} {k₂ k₃ k₄ : Kernel}

theorem Steps.setup (steps : Steps A bytes argv s s' root run k₂ k₃ k₄) : SameSetup s.kernel k₂ := steps.loaded.setup

theorem Steps.setup₃ (steps : Steps A bytes argv s s' root run k₂ k₃ k₄) : SameSetup s.kernel k₃ :=
  steps.setup.trans steps.tree.setup

theorem Steps.final (steps : Steps A bytes argv s s' root run k₂ k₃ k₄) : SameSetup s.kernel s'.kernel :=
  (steps.setup₃.trans steps.filled.grows.touches.setup).trans steps.freed.setup

theorem Steps.slots (steps : Steps A bytes argv s s' root run k₂ k₃ k₄) :
    ∀ d ≤ 3, ∀ n < 512 ^ (d + 1), slot s'.kernel root d n = slot k₄ root d n :=
  (steps.filled.grows.ok.of_touches (fun _ => OfTree.not_heap) steps.freed).2.1

theorem Steps.space (steps : Steps A bytes argv s s' root run k₂ k₃ k₄) {task : Task}
    (nodes : s'.tasks.list.nodes = s.tasks.list.nodes ++ [task]) : task.space.root s'.kernel = root ∧
      task.argc = argv.length ∧ task.argv = argvDataAddr + argsLength argv ∧ task.errno = userStackPtr - 8 := by
  obtain ⟨task', nodes', place, rest⟩ := steps.task
  obtain rfl : task = task' := by
    have same := nodes.symm.trans nodes'
    exact List.singleton_inj.mp (List.append_cancel_left same)
  refine ⟨?_, rest⟩
  rw [AddressSpace.root, steps.final.hhdm]
  exact place

end final

theorem Spawned.steps {cpu : Nat} {path bytes : List UInt8} {argv : List (List UInt8)} (heap : Heap A s.kernel live)
    (stored : Stored fs s cpu path bytes) (bounds : InBounds bytes)
    (fits : argsLength argv + argv.length * 8 ≤ 4096) (spawned : Spawned A.kmalloc fs cpu path argv s s') :
    ∃ root run k₂ k₃ k₄, Steps A bytes argv s s' root run k₂ k₃ k₄ := by
  obtain ⟨opened, reads, valid, loads, tree, fills, starts⟩ := spawned
  obtain ⟨f, opens, length, content⟩ := stored
  obtain rfl := Option.some.inj (opens.symm.trans opened)
  obtain ⟨_, tasks, file⟩ :=
    readProgram_stored (s := { s with files := (openedBy fs s cpu path).2 }) heap length content reads
  obtain ⟨run, rfl, copied⟩ := loadImage_ok file valid bounds loads
  rw [tasks] at copied fills
  have setup := file.touches.setup.trans copied.touches.setup
  have hhdm : _ = s.kernel.hhdm := setup.hhdm
  obtain ⟨built, ok, open', fresh⟩ := initPagingTask_ok copied.touches.ready tree
  rw [hhdm] at built ok fresh
  have hhdm₃ : _ = s.kernel.hhdm := (setup.trans built.setup).hhdm
  have frames := copied.frames
  have count : (imageAt bytes run).pagesToMap < 2 ^ 64 := by
    change (fileImage bytes).pagesToMap < 2 ^ 64
    omega
  have filled := fillTree_ok built.ready (hhdm₃.symm ▸ ok) count fits fills
  obtain rfl := filled.size
  have heap₄ := file.behind copied.touches built filled.grows.touches
  obtain ⟨frees, task, nodes, pml4, argc, argv', errno, _⟩ := startTask_ok starts
  obtain ⟨ready₄, cells, rep⟩ := heap₄
  obtain ⟨k', freed, after, touched, _⟩ := rep.free_ok ready₄ List.mem_cons_self
  obtain ⟨_, same⟩ := Prod.mk.inj (Except.ok.inj (freed.symm.trans frees))
  rw [same] at touched after
  have loaded : Touches A (fun g => OfHeap g ∨ g.owner = .image s.tasks.list.length) s.kernel _ :=
    (file.touches.mono fun _ => .inl).trans (copied.touches.mono fun _ => .inr)
  refine ⟨_, run, _, _, _, loaded, ⟨_, _, file.touches.setup.hhdm, copied⟩, tree, built, ok, open', fresh, filled, touched,
    ⟨_, touched.ready, after⟩, task, ?_, ?_, argc, argv', errno⟩
  · rw [nodes]
    exact congrArg (fun t : Tasklist => t.list.nodes ++ [task]) tasks
  · have final : _ = s.kernel.hhdm := ((setup.trans built.setup).trans filled.grows.touches.setup).hhdm
    have below := ok.start.1
    rw [pml4, sub64_of_le (by rw [final]; omega), final]
    omega

end steps

/-! ### Files of one segment -/

def littleEndian (v : Nat) : Nat → List UInt8
  | 0 => []
  | n + 1 => UInt8.ofNat v :: littleEndian (v / 256) n

/-- The headers of an ELF file with one loadable segment. -/
def oneSegment (offset virtualAddress sizeInFile sizeInMemory : Nat) : List UInt8 :=
  [0x7F, 0x45, 0x4C, 0x46, 2, 1, 1, 0] ++ List.replicate 8 0 ++ [2, 0, 0x3E, 0, 1, 0, 0, 0] ++
    littleEndian virtualAddress 8 ++ littleEndian 64 8 ++ List.replicate 8 0 ++
    [0, 0, 0, 0, 64, 0, 56, 0, 1, 0] ++ List.replicate 6 0 ++
    [1, 0, 0, 0, 5, 0, 0, 0] ++ littleEndian offset 8 ++ littleEndian virtualAddress 8 ++ List.replicate 8 0 ++
    littleEndian sizeInFile 8 ++ littleEndian sizeInMemory 8 ++ List.replicate 8 0

/-- Every path leads to this file. -/
def filesOf (bytes : List UInt8) (small : bytes.length < 2 ^ 63) : FileAccess Unit where
  openFile _ _ _ _ files := (some 0, files)
  close _ files := files
  fileLength _ _ := bytes.length
  read _ maxLen files := ((0, bytes.take maxLen), files)
  small := fun _ _ => small
  bounded := fun _ maxLen _ => List.length_take_le maxLen bytes

theorem stored_filesOf {bytes : List UInt8} (small : bytes.length < 2 ^ 63) (s : System Unit) (cpu : Nat)
    (path : List UInt8) : Stored (filesOf bytes small) s cpu path bytes := by
  refine ⟨0, rfl, rfl, ?_⟩
  show (0, bytes.take bytes.length) = (0, bytes)
  rw [List.take_length]

/-- The machine of `bootMachine` with the direct map in the upper half, after `initPMM`. -/
def highMachine : Kernel :=
  { bootMachine with hhdm := 0xFFFF800000000000, lapicAddr := 0xFFFF800000000000 + 0xFEE00000 }

def highMachineReady : Kernel :=
  { highMachine with
    mem := fill highMachine.mem 0xFFFF800000000000 (48 * 4096) 0
    lastFreedPage := -1
    lastFreedSection := -1 }

theorem highMachineReady_ready : pmm.Ready highMachineReady := by
  have run : initPMM highMachine = .ok ((), highMachineReady) := rfl
  have map : WellFormedMap highMachine.memmap := by
    refine ⟨by simp [highMachine, bootMachine], ?_, ?_⟩ <;> simp [highMachine, bootMachine]
  refine ⟨PmmInv.of_initPMM map rfl rfl run, ?_⟩
  simp [DirectMapped, highMachineReady, highMachine, bootMachine]

theorem highMachineReady_heap {k : Kernel} (h : initKheap pmm.kmalloc highMachineReady = .ok ((), k)) :
    Heap pmm k [] := by
  obtain ⟨ready, cells, rep⟩ := initKheap_ok highMachineReady_ready
    (by simp [highMachineReady, highMachine, bootMachine, smallMachine]) h
  exact ⟨ready, cells, rep⟩

def plainElf : List UInt8 := oneSegment 0 0x400000 120 4096

def plainFiles : FileAccess Unit := filesOf plainElf (by decide)

theorem plainElf_inBounds : InBounds plainElf := by
  have one : entryCount plainElf = 1 := by decide +kernel
  have start : headersAt plainElf = 64 := by decide +kernel
  have only : ∀ i, Loads plainElf i → i = 0 := by
    intro i loads
    have := loads.1
    omega
  refine ⟨by decide +kernel, fun _ => ⟨?_, ?_, by decide +kernel, by decide +kernel⟩, ?_⟩
  · intro i small
    obtain rfl : i = 0 := by omega
    decide +kernel
  · intro i loads
    obtain rfl := only i loads
    decide +kernel
  · intro _ i loads
    obtain rfl := only i loads
    exact ⟨by decide +kernel, by decide +kernel, by decide +kernel⟩

/-- The program is spawned on a machine with an empty heap. -/
def spawnsPlain (argv : List (List UInt8)) : Bool :=
  match initKheap pmm.kmalloc highMachineReady with
  | .error _ => false
  | .ok (_, k) =>
    match spawn pmm.kmalloc plainFiles 0 [82, 58, 47, 97] argv (systemOf k) with
    | .ok (0, _) => true
    | _ => false

theorem spawnsPlain_ok {argv : List (List UInt8)} (h : spawnsPlain argv = true) :
    ∃ k s', initKheap pmm.kmalloc highMachineReady = .ok ((), k) ∧
      spawn pmm.kmalloc plainFiles 0 [82, 58, 47, 97] argv (systemOf k) = .ok (0, s') := by
  unfold spawnsPlain at h
  split at h
  · cases h
  · rename_i k started
    split at h
    · rename_i s' spawned
      exact ⟨k, s', started, spawned⟩
    · cases h

theorem spawnsPlain_none : spawnsPlain [] = true := by decide +kernel

end PotatOS.Tasks
