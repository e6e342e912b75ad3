import PotatOS.Tasks.Placement

/-!
# The kernel half of an address space

`init_paging_task` and `map_apic_into_task` map the upper half of a new tree.
`spawn` and `syscall_mmap` map whatever pages they are asked for, in either half.
A leaf that none of these ranges covers stays as it was made.
-/

namespace PotatOS.Tasks

open Memory Mem Prog

section spawn

variable {A : PageAllocator} {φ : Type} {fs : FileAccess φ} {s s' : System φ} {bytes : List UInt8}
  {argv : List (List UInt8)} {root run : Nat} {k₂ k₃ k₄ : Kernel}

/-- The runs that a successful `spawn` gets or writes. -/
def OfCall (hhdm root pid : Nat) (g : Grant) : Prop :=
  OfHeap g ∨ g.owner = .image pid ∨ OfSpawn hhdm root pid g

theorem Steps.touches (steps : Steps A bytes argv s s' root run k₂ k₃ k₄) :
    Touches A (OfCall s.kernel.hhdm root s.tasks.list.length) s.kernel s'.kernel := by
  have first : Touches A (OfCall s.kernel.hhdm root s.tasks.list.length) s.kernel k₂ :=
    steps.loaded.mono fun g own => own.imp id .inl
  have second : Touches A (OfCall s.kernel.hhdm root s.tasks.list.length) k₂ k₃ :=
    steps.tree.mono fun g own => .inr (.inr (.inl own))
  have third : Touches A (OfCall s.kernel.hhdm root s.tasks.list.length) k₃ k₄ := by
    refine steps.filled.grows.touches.mono fun g own => .inr (.inr ?_)
    rwa [steps.setup₃.hhdm] at own
  exact ((first.trans second).trans third).trans (steps.freed.mono fun g => .inl)

/-- The trees that are there already are none of these runs. -/
theorem Steps.other_tree (steps : Steps A bytes argv s s' root run k₂ k₃ k₄) {old : Nat}
    (tree : TreeOk (OfTree s.kernel.hhdm old) s.kernel old) :
    old ≠ root ∧ ∀ g, OfTree s.kernel.hhdm old g → ¬ OfCall s.kernel.hhdm root s.tasks.list.length g := by
  have different : old ≠ root := by
    rintro rfl
    obtain ⟨g, taken, _, lower, upper⟩ := tree.owned 0 (by omega) 0 (by omega) old rfl
    exact steps.fresh g (steps.loaded.granted taken) ⟨lower, by omega⟩
  refine ⟨different, fun g own call => ?_⟩
  have none := own.no_user
  rcases call with heap | owner | (tree' | owner) | owner | owner
  · exact own.not_heap heap
  · rw [owner] at none
    cases none
  · exact different (own.root_eq tree')
  · rcases own with here | ⟨here, _⟩ <;> cases here.symm.trans owner
  · rw [owner] at none
    cases none
  · rw [owner] at none
    cases none

theorem Steps.errnoOk (steps : Steps A bytes argv s s' root run k₂ k₃ k₄) (upper : UpperMap s.kernel) {task : Task}
    (nodes : s'.tasks.list.nodes = s.tasks.list.nodes ++ [task]) :
    ErrnoOk s'.kernel s.tasks.list.length task.space := by
  obtain ⟨place, _, _, errno⟩ := steps.space nodes
  have page : task.space.errno = userStackPtr - 8 := errno
  rw [ErrnoOk, place, page]
  have onStack : StackPage (pageOf (userStackPtr - 8)) := by
    unfold StackPage
    decide
  obtain ⟨g, taken, owner, pages, leaf⟩ := steps.filled.stack _ (pageOf_lt _) onStack fun apic =>
    absurd ((upper.congr steps.setup₃).apic apic) (by decide)
  refine ⟨by decide, .inr ⟨g, steps.freed.granted taken, by rw [owner]; rfl, ?_⟩⟩
  have aligned := (A.ledger steps.freed.ready).aligned g (steps.freed.granted taken)
  rw [steps.slots 3 (by omega) _ (pageOf_lt _), leaf, or_low aligned (by decide), pages]
  have low : userFlags < 4096 := by decide
  unfold pageAlignDown InRange
  omega

theorem Steps.listed (steps : Steps A bytes argv s s' root run k₂ k₃ k₄) : ∃ task,
    s'.tasks.list.nodes = s.tasks.list.nodes ++ [task] ∧ spaces s'.tasks = spaces s.tasks ++ [task.space] := by
  obtain ⟨task, nodes, _⟩ := steps.task
  refine ⟨task, nodes, ?_⟩
  unfold spaces
  rw [nodes, List.map_append]
  rfl

theorem getElem?_append_singleton {α : Type} {l : List α} {a b : α} {i : Nat} (found : (l ++ [a])[i]? = some b) :
    l[i]? = some b ∨ i = l.length ∧ b = a := by
  rw [List.getElem?_append] at found
  split at found
  · exact .inl found
  · rename_i above
    have index : i - l.length = 0 := by
      by_contra positive
      rw [List.getElem?_eq_none (by simp; omega)] at found
      cases found
    rw [index] at found
    exact .inr ⟨by omega, (Option.some.inj found).symm⟩

theorem Steps.spacesOk (steps : Steps A bytes argv s s' root run k₂ k₃ k₄) (upper : UpperMap s.kernel)
    (ok : SpacesOk A s.kernel (spaces s.tasks)) : SpacesOk A s'.kernel (spaces s'.tasks) := by
  obtain ⟨live, _, heap⟩ := steps.heap
  have others := ok.of_touches steps.touches ⟨live, heap⟩ fun pid space found =>
    .inl (steps.other_tree (ok.trees found)).2
  obtain ⟨task, nodes, list⟩ := steps.listed
  obtain ⟨place, _⟩ := steps.space nodes
  have count : (spaces s.tasks).length = s.tasks.list.length := List.length_map ..
  have hhdm : s'.kernel.hhdm = s.kernel.hhdm := steps.final.hhdm
  rw [list]
  refine ⟨others.ready, others.heap, fun found => ?_, ?_, fun found => ?_⟩
  · rcases getElem?_append_singleton found with old | ⟨_, rfl⟩
    · exact others.trees old
    · rw [place, hhdm, ← steps.setup₃.hhdm]
      exact (steps.filled.grows.ok.of_touches (fun _ => OfTree.not_heap) steps.freed).2.2
  · rw [List.map_append, List.nodup_append]
    refine ⟨ok.distinct, by simp, ?_⟩
    intro a listed b last same
    obtain ⟨space, member, rfl⟩ := List.mem_map.mp listed
    obtain rfl := List.mem_singleton.mp last
    obtain ⟨pid, found⟩ := List.getElem?_of_mem member
    refine (steps.other_tree (ok.trees found)).1 ?_
    rw [← place, AddressSpace.root, AddressSpace.root, hhdm, same]
  · rcases getElem?_append_singleton found with old | ⟨last, rfl⟩
    · exact others.errno old
    · rw [last, count]
      exact steps.errnoOk upper nodes

end spawn

/-! ### Runs -/

section runs

variable {A : PageAllocator} {φ : Type} {fs : FileAccess φ} {s s' : System φ} {bytes : List UInt8}
  {argv : List (List UInt8)}

/-- The calls that write only memory they own: the programs that `spawn` loads keep
to their file and their pages, the arguments to theirs, and no `mmap` maps the
page behind `errno` to a frame that it did not get. -/
def Tame (fs : FileAccess φ) (s : System φ) : Call φ → Prop
  | .spawn cpu path argv => Rejected fs s cpu path ∨
      ∃ bytes, Stored fs s cpu path bytes ∧ InBounds bytes ∧ argsLength argv + argv.length * 8 ≤ 4096
  | .mmap cpu addr length _ _ _ _ => ∀ task, getTask s.tasks (currentIndex s.tasks cpu) = some task →
      ¬ (pageOf (mmapTarget task addr.toNat) + pageAlignUp length.toNat / 4096 ≤ pageOf task.errno ∧
        pageOf task.errno < pageOf (mmapTarget task addr.toNat) + length.toNat)
  | .schedule _ | .other _ => True

/-- The call is no `mmap` of task `pid` over page `u`. -/
def Spares (pid u : Nat) (s : System φ) : Call φ → Prop
  | .mmap cpu addr length _ _ _ _ => currentIndex s.tasks cpu = pid → ∀ task, getTask s.tasks pid = some task →
      ¬ InPages (pageOf (mmapTarget task addr.toNat)) length.toNat u
  | .spawn _ _ _ | .schedule _ | .other _ => True

/-- What a tame call does to the page trees. -/
structure TameStep (A : PageAllocator) (s s' : System φ) (c : Call φ) : Prop where
  ok : SpacesOk A s'.kernel (spaces s'.tasks)
  setup : SameSetup s.kernel s'.kernel
  longer : ∀ {pid : Nat} {space : AddressSpace}, (spaces s.tasks)[pid]? = some space → (spaces s'.tasks)[pid]? = some space
  upper : ∀ {pid : Nat} {space : AddressSpace}, (spaces s.tasks)[pid]? = some space →
    UpperKept s.kernel s'.kernel (space.root s.kernel)
  leaves : ∀ {pid u : Nat} {space : AddressSpace}, (spaces s.tasks)[pid]? = some space → u < 512 ^ 4 → Spares pid u s c →
    slot s'.kernel (space.root s.kernel) 3 u = slot s.kernel (space.root s.kernel) 3 u
  added : ∀ {pid : Nat} {space : AddressSpace}, (spaces s'.tasks)[pid]? = some space →
    (spaces s.tasks)[pid]? = some space ∨ OpenTables s'.kernel (space.root s'.kernel)

section step

variable {c : Call φ}

theorem TameStep.of_touches {who : Grant → Prop} (before : SpacesOk A s.kernel (spaces s.tasks))
    (ok : SpacesOk A s'.kernel (spaces s'.tasks)) (step : Touches A who s.kernel s'.kernel)
    (longer : ∀ {pid : Nat} {space : AddressSpace}, (spaces s.tasks)[pid]? = some space → (spaces s'.tasks)[pid]? = some space)
    (added : ∀ {pid : Nat} {space : AddressSpace}, (spaces s'.tasks)[pid]? = some space →
      (spaces s.tasks)[pid]? = some space ∨ OpenTables s'.kernel (space.root s'.kernel))
    (others : ∀ {pid : Nat} {space : AddressSpace}, (spaces s.tasks)[pid]? = some space →
      ∀ g, OfTree s.kernel.hhdm (space.root s.kernel) g → ¬ who g) : TameStep A s s' c := by
  refine ⟨ok, step.setup, longer, fun found => ?_, fun found bound _ => ?_, added⟩
  · exact upperKept_of_same ((before.trees found).of_touches (others found) step).2.1
  · exact before.slots_kept step found (others found) _ bound

theorem tame_spawn {cpu r : Nat} {path : List UInt8} (before : SpacesOk A s.kernel (spaces s.tasks))
    (upper : UpperMap s.kernel) (tame : Tame fs s (.spawn cpu path argv))
    (h : spawn A.kmalloc fs cpu path argv s = .ok (r, s')) : TameStep A s s' c := by
  by_cases away : r ≠ 0 ∨ Rejected fs s cpu path
  · obtain ⟨tasks, touched, heap⟩ := spawn_rejected before away h
    have ok := before.of_plain touched heap fun _ => .inl
    rw [← tasks] at ok
    exact .of_touches before ok touched (by rw [tasks]; exact id) (by rw [tasks]; exact .inl)
      fun _ _ tree heap => tree.not_heap heap
  · obtain ⟨failed, accepted⟩ := not_or.mp away
    obtain rfl : r = 0 := Decidable.not_not.mp failed
    obtain ⟨bytes, stored, bounds, fits⟩ := tame.resolve_left accepted
    have spawned := ((spawn_cases h).resolve_left fun failed => failed.1 rfl).2
    obtain ⟨live, cells, rep⟩ := before.heap
    obtain ⟨root', run, k₂, k₃, k₄, steps⟩ := spawned.steps ⟨before.ready, cells, rep⟩ stored bounds fits
    obtain ⟨task, nodes, list⟩ := steps.listed
    refine .of_touches before (steps.spacesOk upper before) steps.touches (fun found => ?_) (fun found => ?_)
      fun found => (steps.other_tree (before.trees found)).2
    · rw [list, List.getElem?_append_left (List.getElem?_eq_some_iff.mp found).1]
      exact found
    · rw [list] at found
      rcases getElem?_append_singleton found with old | ⟨_, rfl⟩
      · exact .inl old
      · rw [(steps.space nodes).1]
        exact .inr ((steps.opened.grows steps.filled.grows).of_kept (upperKept_of_same steps.slots))

theorem spawn_opened {cpu : Nat} {path : List UInt8} {task : Task}
    (ok : SpacesOk A s.kernel (spaces s.tasks)) (upper : UpperMap s.kernel)
    (stored : Stored fs s cpu path bytes) (bounds : InBounds bytes) (fits : argsLength argv + argv.length * 8 ≤ 4096)
    (h : spawn A.kmalloc fs cpu path argv s = .ok (0, s'))
    (found : getTask s'.tasks s.tasks.list.length = some task) : OpenTables s'.kernel (task.space.root s'.kernel) := by
  have step := tame_spawn (c := .spawn cpu path argv) ok upper (.inr ⟨bytes, stored, bounds, fits⟩) h
  refine (step.added (spaces_get found)).resolve_left fun old => ?_
  have inside := (List.getElem?_eq_some_iff.mp old).1
  unfold spaces Vec.length at inside
  simp at inside

theorem MmapDone.upperKept {pid root target length flags run : Nat} {k k₁ k₂ k' : Kernel}
    (done : MmapDone A pid root target length flags run k k₁ k₂ k') : UpperKept k k' root :=
  ((upperKept_of_same done.slots).trans (upperKept_of_grows done.grows)).trans (upperKept_of_same done.slots')

theorem tame_mmap {cpu : Nat} {addr length offset : UInt64} {prot flags fd : UInt32} {r : Nat}
    (before : SpacesOk A s.kernel (spaces s.tasks)) (tame : Tame fs s (.mmap cpu addr length prot flags fd offset))
    (h : syscallMmap A.kmalloc fs cpu addr.toNat length.toNat prot.toNat flags.toNat fd.toNat offset.toNat s =
      .ok (r, s')) : TameStep A s s' (.mmap cpu addr length prot flags fd offset) := by
  obtain ⟨task, caller, same, steps⟩ := syscallMmap_ok before length.toNat_lt h
  rcases steps with ⟨_, touched⟩ | ⟨positive, run, aligned, mapped⟩
  · have ok := before.of_user touched
    rw [← same] at ok
    exact .of_touches before ok touched (by rw [same]; exact id) (by rw [same]; exact .inl)
      fun _ _ tree mine => tree.not_plain (plain_of_user mine)
  · have mine := spaces_get caller
    have ok := mapped.spacesOk before mine aligned (mmapFlags_lt flags.toNat) (tame task caller)
    rw [← same] at ok
    refine ⟨ok, mapped.touches.setup, by rw [same]; exact id, fun {pid space} found => ?_,
      fun {pid u space} found bound spares => ?_, by rw [same]; exact .inl⟩
    · by_cases me : pid = currentIndex s.tasks cpu
      · subst me
        obtain rfl := Option.some.inj (mine.symm.trans found)
        rw [syscallMmap_eq positive caller] at h
        obtain ⟨_, _, _, _, steps⟩ := mmapAt_steps h
        exact (steps.done (s := { s with tasks := advanced s.tasks _ addr.toNat length.toNat }) before.ready
          (before.trees mine) length.toNat_lt).upperKept
      · exact upperKept_of_same ((before.trees found).of_touches (before.treesOk.other_tree mine found me) mapped.touches).2.1
    · by_cases me : pid = currentIndex s.tasks cpu
      · subst me
        obtain rfl := Option.some.inj (mine.symm.trans found)
        have out := spares rfl task caller
        unfold InPages at out
        rw [mapped.leaves u bound, mappedLeaves, if_neg out]
      · exact before.slots_kept mapped.touches found (before.treesOk.other_tree mine found me) u bound

theorem tame_step (before : SpacesOk A s.kernel (spaces s.tasks)) (upper : UpperMap s.kernel)
    (tame : Tame fs s c) (h : c.run A.kmalloc fs s = .ok ((), s')) : TameStep A s s' c := by
  cases c with
  | spawn cpu path argv =>
    obtain ⟨_, s₁, call, h⟩ := bind_ok h
    obtain ⟨_, rfl⟩ := pure_ok h
    exact tame_spawn before upper tame call
  | mmap cpu addr length prot flags fd offset =>
    obtain ⟨_, s₁, call, h⟩ := bind_ok h
    obtain ⟨_, rfl⟩ := pure_ok h
    exact tame_mmap before tame call
  | schedule currentTasks =>
    obtain rfl := modify_ok h
    exact ⟨before, .refl _, id, fun _ => upperKept_of_same fun _ _ _ _ => rfl, fun _ _ _ => rfl, .inl⟩
  | other files =>
    obtain rfl := modify_ok h
    exact ⟨before, .refl _, id, fun _ => upperKept_of_same fun _ _ _ _ => rfl, fun _ _ _ => rfl, .inl⟩

end step

/-- The trees are in order, and page `u` of task `pid` has this leaf entry. -/
structure Leaf (A : PageAllocator) (pid u root leaf : Nat) (s : System φ) : Prop where
  ok : SpacesOk A s.kernel (spaces s.tasks)
  upper : UpperMap s.kernel
  space : ∃ space, (spaces s.tasks)[pid]? = some space ∧ space.root s.kernel = root
  entry : slot s.kernel root 3 u = leaf

section step

variable {pid u root leaf : Nat}

theorem Leaf.step {c : Call φ} (before : Leaf A pid u root leaf s) (bound : u < 512 ^ 4) (tame : Tame fs s c)
    (spares : Spares pid u s c) (h : c.run A.kmalloc fs s = .ok ((), s')) : Leaf A pid u root leaf s' := by
  obtain ⟨space, found, rfl⟩ := before.space
  have step := tame_step before.ok before.upper tame h
  refine ⟨step.ok, before.upper.congr step.setup, ⟨space, step.longer found, ?_⟩, ?_⟩
  · rw [AddressSpace.root, step.setup.hhdm, AddressSpace.root]
  · rw [step.leaves found bound spares, before.entry]

theorem Leaf.run (before : Leaf A pid u root leaf s) (bound : u < 512 ^ 4)
    (run : Run A.kmalloc fs (fun s c => Tame fs s c ∧ Spares pid u s c) s s') : Leaf A pid u root leaf s' := by
  induction run with
  | start => exact before
  | step _ meets h ih => exact ih.step bound meets.1 meets.2 h

end step

end runs

/-! ### One run -/

theorem twoTrees_setup {k : Kernel} {a b : Nat} (h : twoTrees pmm.kmalloc highMachineReady = .ok ((a, b), k)) :
    UpperMap k ∧ DirectWindow k.hhdm k.memmap := by
  unfold twoTrees at h
  obtain ⟨_, k₁, heap, h⟩ := bind_ok h
  obtain ⟨first, k₂, got, h⟩ := bind_ok h
  obtain ⟨second, k₃, got', h⟩ := bind_ok h
  obtain ⟨_, rfl⟩ := pure_ok h
  have ready := (highMachineReady_heap heap).ready
  have setup := (pmm.allocates ready got).setup.trans (pmm.allocates (pmm.ready ready got) got').setup
  refine ⟨(highMachineReady_upper heap).congr setup, ?_⟩
  rw [setup.memmap, setup.hhdm]
  exact highMachineReady_window heap

/-- The new task asks for a page at the start of the direct map. -/
def mapKernelPage : Call Unit := .mmap 0 0xFFFF800000000000 1 0 0x22 0 0

end PotatOS.Tasks
