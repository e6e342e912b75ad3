import PotatOS.Tasks.Exit
import PotatOS.Tasks.Protection

/-!
# Running out of memory for tasks

`spawn` builds a page tree with the direct map for every task, and no call gives
a frame back: `syscall_exit` only clears a flag. One tree takes more than one
usable frame in 512, so the successful calls of `spawn` are fewer than 512 on
every machine.
-/

namespace PotatOS.Tasks

open Memory Mem Prog

/-! ### The direct map of a new tree -/

section tree

variable {A : PageAllocator} {k k' : Kernel} {root : Nat}

theorem DirectLeaves.tables (leaves : DirectLeaves k root) : DirectTables k root := by
  intro f usable
  refine slot_above_ne_zero (d := 2) (by decide) ?_
  rw [leaves f usable]
  intro zero
  have flagged := (Nat.or_eq_zero_iff.mp zero).2
  cases flagged

theorem directTables_kept (direct : DirectTables k root) (setup : SameSetup k k') (pages : DirectPages k)
    (kept : UpperKept k k' root) : DirectTables k' root := by
  intro f usable
  rw [setup.memmap] at usable
  rw [setup.hhdm]
  have bound := pages f usable
  rcases kept 2 (by decide) ((pageOf k.hhdm + f) / 512) (by omega) with same | flags
  · rw [same]
    exact direct f usable
  · intro zero
    rw [zero] at flags
    cases flags

end tree

/-! ### Runs -/

/-- What happens on a machine whose tasks come and go. The kernel uses the heap for more than `spawn`. -/
inductive Life (φ : Type) where
  | call (c : Call φ)
  | exit (cpu exitCode : Nat)
  | select (cpu : Nat)
  | malloc (size : Nat)
  | free (p : Nat)

section runs

variable {φ : Type} (kmalloc : Owner → Nat → KernelM Nat) (fs : FileAccess φ)

def Life.run : Life φ → SysM φ Unit
  | .call c => c.run kmalloc fs
  | .exit cpu exitCode => onTasks (syscallExit cpu exitCode)
  | .select cpu => do let _ ← onTasks (taskSelect cpu (2 ^ 64))
  | .malloc size => do let _ ← onKernel (Mem.malloc kmalloc size)
  | .free p => onKernel (Mem.free p)

/-- Tame calls, and a heap that is used as it should be. -/
def Mild (A : PageAllocator) (s : System φ) : Life φ → Prop
  | .call c => Tame fs s c
  | .malloc size => size < 2 ^ 63
  | .free p => ∃ size live, Heap A s.kernel ((p, size) :: live)
  | .exit _ _ | .select _ => True

/-- The runs of mild steps. -/
def LifeRun (A : PageAllocator) : System φ → System φ → Prop :=
  Relation.ReflTransGen fun s s' => ∃ life, Mild fs A s life ∧ life.run A.kmalloc fs s = .ok ((), s')

end runs

section step

variable {A : PageAllocator} {φ : Type} {fs : FileAccess φ} {s s' : System φ} {argv : List (List UInt8)}

/-- Trees that a step adds have the direct map. -/
def AddsDirect (s s' : System φ) : Prop :=
  ∀ (pid : Nat) (space : AddressSpace), (spaces s'.tasks)[pid]? = some space →
    (spaces s.tasks)[pid]? = some space ∨ DirectTables s'.kernel (space.root s'.kernel)

theorem addsDirect_same (same : spaces s'.tasks = spaces s.tasks) : AddsDirect s s' := by
  intro pid space found
  rw [same] at found
  exact .inl found

theorem spawn_adds {cpu r : Nat} {path : List UInt8} (before : SpacesOk A s.kernel (spaces s.tasks))
    (direct : DirectBoot s.kernel) (tame : Tame fs s (.spawn cpu path argv))
    (h : spawn A.kmalloc fs cpu path argv s = .ok (r, s')) : AddsDirect s s' := by
  by_cases away : r ≠ 0 ∨ Rejected fs s cpu path
  · apply addsDirect_same
    rw [(spawn_rejected before away h).1]
  · obtain ⟨failed, accepted⟩ := not_or.mp away
    obtain rfl : r = 0 := Decidable.not_not.mp failed
    obtain ⟨bytes, stored, bounds, fits⟩ := tame.resolve_left accepted
    have spawned := ((spawn_cases h).resolve_left fun failed => failed.1 rfl).2
    obtain ⟨live, cells, rep⟩ := before.heap
    obtain ⟨root, run, k₂, k₃, k₄, steps⟩ := spawned.steps ⟨before.ready, cells, rep⟩ stored bounds fits
    obtain ⟨task, nodes, list⟩ := steps.listed
    intro pid space found
    rw [list] at found
    rcases getElem?_append_singleton found with old | ⟨_, rfl⟩
    · exact .inl old
    · have made := (initPagingTask_leaves steps.loaded.ready (direct.congr steps.loaded.setup) steps.made).tables
      have kept := (upperKept_of_grows steps.filled.grows).trans (upperKept_of_same steps.slots)
      have setup := steps.filled.grows.touches.setup.trans steps.freed.setup
      rw [(steps.space nodes).1]
      exact .inr (directTables_kept made setup (direct.congr steps.setup₃).pages kept)

theorem call_adds {c : Call φ} (before : SpacesOk A s.kernel (spaces s.tasks))
    (direct : DirectBoot s.kernel) (tame : Tame fs s c) (h : c.run A.kmalloc fs s = .ok ((), s')) : AddsDirect s s' := by
  cases c with
  | spawn cpu path argv =>
    obtain ⟨_, s₁, call, h⟩ := bind_ok h
    obtain ⟨_, rfl⟩ := pure_ok h
    exact spawn_adds before direct tame call
  | mmap cpu addr length prot flags fd offset =>
    obtain ⟨_, s₁, call, h⟩ := bind_ok h
    obtain ⟨_, rfl⟩ := pure_ok h
    obtain ⟨_, _, same, _⟩ := syscallMmap_ok before length.toNat_lt call
    exact addsDirect_same same
  | schedule currentTasks =>
    obtain rfl := modify_ok h
    exact addsDirect_same rfl
  | other files =>
    obtain rfl := modify_ok h
    exact addsDirect_same rfl

/-! ### Steps -/

theorem spaces_settled (t : Tasklist) : spaces t = (settled t).map Task.space := by
  unfold spaces settled
  rw [List.map_map]
  rfl

theorem map_modify_kept {α β : Type} {g : α → β} {f : α → α} (kept : ∀ a, g (f a) = g a) (l : List α) (i : Nat) :
    (l.modify i f).map g = l.map g := by
  apply List.ext_getElem?
  intro j
  simp only [List.getElem?_map, List.getElem?_modify]
  split <;> simp [Function.comp_def, kept]

theorem spaces_exit {cpu exitCode : Nat} {t t' : Tasklist} (h : syscallExit cpu exitCode t = .ok ((), t')) :
    spaces t' = spaces t := by
  cases current : getCurrentTask t cpu with
  | none =>
    unfold syscallExit at h
    rw [bind_eq run_get, bind_eq run_get, current] at h
    rw [(pure_ok h).2]
  | some task =>
    by_cases user : task.isUser = true
    · obtain ⟨_, _, _, _, _, _, _, after⟩ := syscallExit_settled current user h
      rw [spaces_settled, after, map_modify_kept, map_modify_kept, ← spaces_settled]
      · exact fun _ => rfl
      · exact fun _ => rfl
    · unfold syscallExit at h
      rw [bind_eq run_get, bind_eq run_get, current] at h
      dsimp only at h
      rw [if_pos (by simpa using user)] at h
      rw [(pure_ok h).2]

theorem spaces_select {cpu fuel pid : Nat} {t t' : Tasklist} (h : taskSelect cpu fuel t = .ok (pid, t')) :
    spaces t' = spaces t := by
  have same : settled t' = settled t := by
    by_cases alone : t.list.length = 1
    · exact (taskSelect_alone alone h).1
    · exact (taskSelect_settled alone h).1
  rw [spaces_settled, spaces_settled, same]

theorem tameStep_tasks {c : Call φ} (before : SpacesOk A s.kernel (spaces s.tasks)) (kernel : s'.kernel = s.kernel)
    (same : spaces s'.tasks = spaces s.tasks) : TameStep A s s' c := by
  have touched : Touches A (fun _ => False) s.kernel s'.kernel := by
    rw [kernel]
    exact .refl before.ready
  exact .of_touches before (by rwa [kernel, same]) touched (by rw [same]; exact id) (by rw [same]; exact .inl)
    fun _ _ _ => id

theorem tameStep_heap {c : Call φ} (before : SpacesOk A s.kernel (spaces s.tasks))
    (touched : Touches A OfHeap s.kernel s'.kernel) (heap : ∃ live cells, HeapRep s'.kernel live cells)
    (tasks : s'.tasks = s.tasks) : TameStep A s s' c := by
  have ok := before.of_plain touched heap fun _ => .inl
  rw [← tasks] at ok
  exact .of_touches before ok touched (by rw [tasks]; exact id) (by rw [tasks]; exact .inl)
    fun _ _ tree heap => tree.not_heap heap

theorem life_step {life : Life φ} (before : SpacesOk A s.kernel (spaces s.tasks))
    (upper : UpperMap s.kernel) (direct : DirectBoot s.kernel) (mild : Mild fs A s life)
    (h : life.run A.kmalloc fs s = .ok ((), s')) : (∃ c, TameStep A s s' c) ∧ AddsDirect s s' := by
  cases life with
  | call c => exact ⟨⟨c, tame_step before upper mild h⟩, call_adds before direct mild h⟩
  | exit cpu exitCode =>
    obtain ⟨t, exits, rfl⟩ := onTasks_ok h
    have same := spaces_exit exits
    exact ⟨⟨.other s.files, tameStep_tasks before rfl same⟩, addsDirect_same same⟩
  | select cpu =>
    obtain ⟨pid, t, selects, h⟩ := bind_onTasks_ok h
    obtain ⟨_, rfl⟩ := pure_ok h
    have same := spaces_select selects
    exact ⟨⟨.other s.files, tameStep_tasks before rfl same⟩, addsDirect_same same⟩
  | malloc size =>
    obtain ⟨p, k, mallocs, h⟩ := bind_onKernel_ok h
    obtain ⟨_, rfl⟩ := pure_ok h
    obtain ⟨live, cells, rep⟩ := before.heap
    obtain ⟨⟨cells', after⟩, touched, _⟩ := rep.malloc_ok before.ready mild mallocs
    exact ⟨⟨.other s.files, tameStep_heap before touched ⟨_, cells', after⟩ rfl⟩, addsDirect_same rfl⟩
  | free p =>
    obtain ⟨k, frees, rfl⟩ := onKernel_ok h
    obtain ⟨size, live, _, cells, rep⟩ := mild
    obtain ⟨k', same, ⟨cells', after⟩, touched, _⟩ := rep.free_ok before.ready List.mem_cons_self
    obtain ⟨_, rfl⟩ := Prod.mk.inj (Except.ok.inj (same.symm.trans frees))
    exact ⟨⟨.other s.files, tameStep_heap before touched ⟨_, cells', after⟩ rfl⟩, addsDirect_same rfl⟩

/-! ### Runs from a given number of tasks -/

/-- The trees are in order, and those of the tasks from `first` on have the direct map. -/
structure Peopled (A : PageAllocator) (first : Nat) (s : System φ) : Prop where
  ok : SpacesOk A s.kernel (spaces s.tasks)
  upper : UpperMap s.kernel
  direct : DirectBoot s.kernel
  trees : ∀ pid space, first ≤ pid → (spaces s.tasks)[pid]? = some space →
    DirectTables s.kernel (space.root s.kernel)

theorem Peopled.step {life : Life φ} {first : Nat} (before : Peopled A first s) (mild : Mild fs A s life)
    (h : life.run A.kmalloc fs s = .ok ((), s')) : Peopled A first s' := by
  obtain ⟨⟨c, step⟩, adds⟩ := life_step before.ok before.upper before.direct mild h
  refine ⟨step.ok, before.upper.congr step.setup, before.direct.congr step.setup, ?_⟩
  intro pid space late found
  rcases adds pid space found with old | direct
  · rw [AddressSpace.root, step.setup.hhdm]
    exact directTables_kept (before.trees pid space late old) step.setup before.direct.pages (step.upper old)
  · exact direct

theorem Peopled.run {first : Nat} (before : Peopled A first s) (run : LifeRun fs A s s') : Peopled A first s' := by
  induction run with
  | refl => exact before
  | tail _ next ih =>
    obtain ⟨life, mild, h⟩ := next
    exact ih.step mild h

theorem Peopled.few {first : Nat} (peopled : Peopled pmm first s) : s.tasks.list.length < first + 512 := by
  have count : (spaces s.tasks).length = s.tasks.list.length := List.length_map ..
  let root (pid : Nat) : Nat := ((spaces s.tasks).getD pid ⟨0, 0⟩).root s.kernel
  have found : ∀ pid ∈ Finset.Ico first s.tasks.list.length, ∃ space, (spaces s.tasks)[pid]? = some space ∧
      root pid = space.root s.kernel := by
    intro pid listed
    have inside : pid < (spaces s.tasks).length := by
      rw [count]
      exact (Finset.mem_Ico.mp listed).2
    exact ⟨_, List.getElem?_eq_getElem inside, by simp only [root, List.getD_eq_getElem _ _ inside]⟩
  have few : (Finset.Ico first s.tasks.list.length).card < 512 := by
    apply few_direct_trees root (fun pid => OfTree s.kernel.hhdm (root pid)) peopled.ok.ready.1 peopled.direct.pages
    · intro pid listed
      obtain ⟨space, here, place⟩ := found pid listed
      rw [place]
      exact peopled.ok.trees here
    · intro pid listed
      obtain ⟨space, here, place⟩ := found pid listed
      rw [place]
      exact peopled.trees pid space (Finset.mem_Ico.mp listed).1 here
    · intro pid listed pid' listed' unlike g own own'
      obtain ⟨space, here, place⟩ := found pid listed
      obtain ⟨space', here', place'⟩ := found pid' listed'
      rw [place] at own
      rw [place'] at own'
      exact peopled.ok.treesOk.root_ne here here' unlike (own.root_eq own')
  rw [Nat.card_Ico] at few
  omega

theorem Peopled.start (ok : SpacesOk A s.kernel (spaces s.tasks)) (upper : UpperMap s.kernel)
    (direct : DirectBoot s.kernel) : Peopled A s.tasks.list.length s := by
  refine ⟨ok, upper, direct, fun pid space late found => ?_⟩
  have inside := (List.getElem?_eq_some_iff.mp found).1
  unfold spaces at inside
  rw [List.length_map] at inside
  exact absurd inside (Nat.not_lt.mpr late)

/-- However long a machine runs and however many of its tasks exit, it spawns fewer than 512 tasks. -/
theorem fewer_than_512_spawns (ok : SpacesOk pmm s.kernel (spaces s.tasks))
    (upper : UpperMap s.kernel) (window : DirectWindow s.kernel.hhdm s.kernel.memmap) (run : LifeRun fs pmm s s') :
    s'.tasks.list.length < s.tasks.list.length + 512 :=
  ((Peopled.start ok upper (.of_window ok.ready window)).run run).few

end step

theorem fewer_than_512_spawns_plainElf : ∃ k a b s', twoTrees pmm.kmalloc highMachineReady = .ok ((a, b), k) ∧
    LifeRun plainFiles pmm (twoTasks k a b) s' ∧ s'.tasks.list.length = 3 ∧
    s'.tasks.list.length < (twoTasks k a b).tasks.list.length + 512 := by
  have check : returns (twoTrees pmm.kmalloc) highMachineReady (fun r k =>
      returns (spawn pmm.kmalloc plainFiles 0 [82, 58, 47, 97] []) (twoTasks k r.1 r.2) fun error _ => error == 0) = true := by
    decide +kernel
  obtain ⟨⟨a, b⟩, k, trees, check⟩ := returns_iff.mp check
  obtain ⟨error, s₁, spawned, zero⟩ := returns_iff.mp check
  obtain rfl := beq_iff_eq.mp zero
  obtain ⟨ok, _⟩ := twoTrees_ok highMachineReady_ready
    (by simp [highMachineReady, highMachine, bootMachine, smallMachine]) trees
  obtain ⟨upper, window⟩ := twoTrees_setup trees
  have stored : Stored plainFiles (twoTasks k a b) 0 [82, 58, 47, 97] plainElf := stored_filesOf _ _ _ _
  have step : (Life.call (.spawn 0 [82, 58, 47, 97] [])).run pmm.kmalloc plainFiles (twoTasks k a b) = .ok ((), s₁) :=
    (bind_eq spawned).trans rfl
  have tame : Tame plainFiles (twoTasks k a b) (.spawn 0 [82, 58, 47, 97] []) :=
    .inr ⟨plainElf, stored, plainElf_inBounds, by decide⟩
  have run : LifeRun plainFiles pmm (twoTasks k a b) s₁ := .single ⟨.call (.spawn 0 [82, 58, 47, 97] []), tame, step⟩
  have longer := (spawn_status spawned).resolve_left fun failed => failed.1 rfl
  exact ⟨k, a, b, s₁, trees, run, longer.2, fewer_than_512_spawns (s := twoTasks k a b) ok upper window run⟩

end PotatOS.Tasks
