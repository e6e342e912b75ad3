import PotatOS.Tasks.Mmap

/-!
# What a task may do with the pages of `mmap`

An access needs its bit in all four entries of the walk. The tables are open, so
the leaf decides, and `syscall_mmap` takes its write bit from `flags`, not from `prot`.
-/

namespace PotatOS.Tasks

open Memory Mem Prog

/-- The present, write and user bits that all entries on the walk have in common. -/
def permissions (k : Kernel) (root virtAddr : Nat) : Nat :=
  slot k root 0 (pageOf virtAddr / 512 ^ 3) &&& (slot k root 1 (pageOf virtAddr / 512 ^ 2) &&&
    (slot k root 2 (pageOf virtAddr / 512) &&& slot k root 3 (pageOf virtAddr))) &&&
    (pflagPresent ||| pflagWrite ||| pflagUser)

def UserWritable (k : Kernel) (root virtAddr : Nat) : Prop :=
  permissions k root virtAddr = pflagPresent ||| pflagWrite ||| pflagUser

instance (k : Kernel) (root virtAddr : Nat) : Decidable (UserWritable k root virtAddr) :=
  inferInstanceAs (Decidable (_ = _))

section walk

variable {k k' : Kernel} {root v : Nat}

/-- Every table on the way to a mapped page is there. -/
theorem slot_above_ne_zero {d u : Nat} (depth : d ≤ 3) (mapped : slot k root 3 u ≠ 0) :
    slot k root d (u / 512 ^ (3 - d)) ≠ 0 := by
  intro zero
  have below := slot_zero_of_above zero
  rw [Nat.add_sub_cancel' depth] at below
  exact mapped below

theorem and_open {a b : Nat} (flags : a &&& 7 = 7) : a &&& b &&& 7 = b &&& 7 := by
  rw [Nat.and_comm a b, Nat.and_assoc, flags]

/-- In an open tree the leaf entry decides. -/
theorem OpenTables.permissions_eq (opened : OpenTables k root) (mapped : slot k root 3 (pageOf v) ≠ 0) :
    permissions k root v = slot k root 3 (pageOf v) &&& 7 := by
  have bound := pageOf_lt v
  have each : ∀ d < 3, slot k root d (pageOf v / 512 ^ (3 - d)) &&& 7 = 7 := by
    intro d upper
    refine opened d upper _ ?_ (slot_above_ne_zero (by omega) mapped)
    rw [Nat.div_lt_iff_lt_mul (by positivity), ← Nat.pow_add]
    have whole : d + 1 + (3 - d) = 4 := by omega
    rwa [whole]
  unfold permissions
  exact (and_open (each 0 (by decide))).trans ((and_open (each 1 (by decide))).trans (and_open (each 2 (by decide))))

end walk

section call

variable {A : PageAllocator} {φ : Type} {fs : FileAccess φ} {s s' : System φ} {task : Task}
  {cpu addr length prot flags fd offset r : Nat}

theorem mmapFlags_writable : mmapFlags flags = pflagPresent ||| pflagWrite ||| pflagUser ↔ flags &&& protWrite ≠ 0 := by
  unfold mmapFlags
  split
  · rename_i write
    exact ⟨fun _ => write, fun _ => rfl⟩
  · rename_i none
    exact ⟨fun same => absurd same (by decide), fun write => absurd write none⟩

/-- The bytes of a range that fits lie in the pages that the code maps. -/
theorem pageOf_add {i : Nat} (space : pageOf r + length ≤ 512 ^ 4) (inside : i < length) :
    pageOf r ≤ pageOf (r + i) ∧ pageOf (r + i) < pageOf r + length := by
  unfold pageOf at *
  omega

/-- All pages of the range get the permissions that `flags` ask for. -/
theorem syscallMmap_permissions (ok : TreesOk A s.kernel (spaces s.tasks))
    (found : getTask s.tasks (currentIndex s.tasks cpu) = some task)
    (opened : OpenTables s.kernel (task.space.root s.kernel)) (positive : 0 < length) (count : length < 2 ^ 64)
    (h : syscallMmap A.kmalloc fs cpu addr length prot flags fd offset s = .ok (r, s')) {i : Nat} (inside : i < length) :
    permissions s'.kernel (task.space.root s.kernel) (r + i) = mmapFlags flags := by
  rw [syscallMmap_eq positive found] at h
  obtain ⟨rfl, run, k₁, k₂, steps⟩ := mmapAt_steps h
  have aligned := (A.allocates ok.ready steps.got).aligned
  have done := steps.done (s := { s with tasks := advanced s.tasks _ addr length }) ok.ready
    (ok.trees (spaces_get found)) count
  have page := pageOf_add done.space.2 inside
  generalize mmapTarget task addr + i = v at *
  have leaf : slot s'.kernel (task.space.root s.kernel) 3 (pageOf v) =
      (run + 4096 * (pageOf v - pageOf (mmapTarget task addr))) % 2 ^ 64 ||| mmapFlags flags := by
    rw [done.slots' 3 (by omega) _ (pageOf_lt v), done.leaves _ (pageOf_lt v), mappedLeaves, if_pos page]
  have some : slot s'.kernel (task.space.root s.kernel) 3 (pageOf v) ≠ 0 := by
    rw [leaf]
    intro zero
    have flagged := (Nat.or_eq_zero_iff.mp zero).2
    rcases mmapFlags_cases flags with same | same <;> rw [same] at flagged <;> cases flagged
  rw [(opened.of_kept done.upperKept).permissions_eq some, leaf, Nat.and_or_distrib_right]
  have frame : (run + 4096 * (pageOf v - pageOf (mmapTarget task addr))) % 2 ^ 64 &&& 7 = 0 := by
    rw [Nat.and_two_pow_sub_one_eq_mod _ 3]
    omega
  rw [frame, Nat.zero_or]
  rcases mmapFlags_cases flags with same | same <;> rw [same] <;> rfl

/-- The permissions follow `prot` exactly when `flags` and `prot` agree in the bit of
`PROT_WRITE`, and two calls that differ in `flags` give the same permissions exactly
when `flags` agree in it. -/
theorem mmap_protection_iff (ok : TreesOk A s.kernel (spaces s.tasks))
    (found : getTask s.tasks (currentIndex s.tasks cpu) = some task)
    (opened : OpenTables s.kernel (task.space.root s.kernel)) (positive : 0 < length) (count : length < 2 ^ 64)
    (h : syscallMmap A.kmalloc fs cpu addr length prot flags fd offset s = .ok (r, s')) :
    ((∀ i < length, UserWritable s'.kernel (task.space.root s.kernel) (r + i) ↔ prot &&& protWrite ≠ 0) ↔
      (flags &&& protWrite ≠ 0 ↔ prot &&& protWrite ≠ 0)) ∧
    ∀ {flags' r' : Nat} {s'' : System φ},
      syscallMmap A.kmalloc fs cpu addr length prot flags' fd offset s = .ok (r', s'') →
      ((∀ i < length, permissions s'.kernel (task.space.root s.kernel) (r + i) =
        permissions s''.kernel (task.space.root s.kernel) (r' + i)) ↔
        (flags &&& protWrite ≠ 0 ↔ flags' &&& protWrite ≠ 0)) := by
  have granted := fun i (inside : i < length) => syscallMmap_permissions ok found opened positive count h inside
  constructor
  · have writable : ∀ i < length, UserWritable s'.kernel (task.space.root s.kernel) (r + i) ↔ flags &&& protWrite ≠ 0 := by
      intro i inside
      rw [UserWritable, granted i inside]
      exact mmapFlags_writable
    constructor
    · intro follows
      rw [← writable 0 positive, follows 0 positive]
    · intro agree i inside
      rw [writable i inside, agree]
  · intro flags' r' s'' h'
    have granted' := fun i (inside : i < length) => syscallMmap_permissions ok found opened positive count h' inside
    constructor
    · intro same
      have both := same 0 positive
      rw [granted 0 positive, granted' 0 positive] at both
      rw [← mmapFlags_writable, ← mmapFlags_writable, both]
    · intro agree i inside
      rw [granted i inside, granted' i inside]
      unfold mmapFlags
      simp only [agree]

end call

/-! ### All tasks -/

/-- The trees of all tasks are in order and their tables are open. -/
structure TasksOk {φ : Type} (A : PageAllocator) (s : System φ) : Prop where
  ok : SpacesOk A s.kernel (spaces s.tasks)
  upper : UpperMap s.kernel
  opened : ∀ {pid : Nat} {space : AddressSpace}, (spaces s.tasks)[pid]? = some space →
    OpenTables s.kernel (space.root s.kernel)

section runs

variable {A : PageAllocator} {φ : Type} {fs : FileAccess φ} {s s' : System φ} {c : Call φ}

theorem TasksOk.step (before : TasksOk A s) (tame : Tame fs s c) (h : c.run A.kmalloc fs s = .ok ((), s')) :
    TasksOk A s' := by
  have step := tame_step before.ok before.upper tame h
  refine ⟨step.ok, before.upper.congr step.setup, fun {pid space} found => ?_⟩
  rcases step.added found with old | opened
  · have kept := (before.opened old).of_kept (step.upper old)
    rwa [AddressSpace.root, step.setup.hhdm]
  · exact opened

/-- Whatever tame calls the tasks make, the tables stay open. -/
theorem TasksOk.run (before : TasksOk A s) (run : Run A.kmalloc fs (Tame fs) s s') : TasksOk A s' :=
  Run.inv run before fun _ _ _ before tame h => before.step tame h

end runs

/-- A new task asks for a page that it may write, in `flags` and in `prot`. -/
theorem mmap_protection_plainElf : ∃ k a b s₁ s₂ task r,
    twoTrees pmm.kmalloc highMachineReady = .ok ((a, b), k) ∧
    spawn pmm.kmalloc plainFiles 0 [82, 58, 47, 97] [] (twoTasks k a b) = .ok (0, s₁) ∧
    getTask s₁.tasks 2 = some task ∧
    syscallMmap pmm.kmalloc plainFiles 0 0 1 2 0x22 0 0 (onCore 2 s₁) = .ok (r, s₂) ∧
    UserWritable s₂.kernel (task.space.root s₁.kernel) r := by
  have check : returns (twoTrees pmm.kmalloc) highMachineReady (fun p k =>
      returns (spawn pmm.kmalloc plainFiles 0 [82, 58, 47, 97] []) (twoTasks k p.1 p.2) fun error s₁ =>
        error == 0 && returns (syscallMmap pmm.kmalloc plainFiles 0 0 1 2 0x22 0 0) (onCore 2 s₁) fun _ _ => true) =
      true := by
    decide +kernel
  obtain ⟨⟨a, b⟩, k, trees, check⟩ := returns_iff.mp check
  obtain ⟨error, s₁, spawned, check⟩ := returns_iff.mp check
  obtain ⟨zero, check⟩ := Bool.and_eq_true_iff.mp check
  obtain rfl := beq_iff_eq.mp zero
  obtain ⟨r, s₂, call, _⟩ := returns_iff.mp check
  obtain ⟨task, found, ok, _, opened⟩ := plainTask_ok trees spawned
  have caller : getTask (onCore 2 s₁).tasks (currentIndex (onCore 2 s₁).tasks 0) = some task := found
  have follows := (mmap_protection_iff (s := onCore 2 s₁) ok caller opened (by decide) (by decide) call).1.mpr (by decide)
  exact ⟨k, a, b, s₁, s₂, task, r, trees, spawned, found, call, (follows 0 (by decide)).mpr (by decide)⟩

/-- `PROT_WRITE` in `prot` does not make the page writable; the same bit in `flags` does. -/
theorem mmap_ignores_prot : ∃ k a b s' s'', twoTrees pmm.kmalloc smallMachineReady = .ok ((a, b), k) ∧
    syscallMmap pmm.kmalloc tinyFiles 0 0x400000 1 2 0x20 0 0 (twoTasks k a b) = .ok (0x400000, s') ∧
    syscallMmap pmm.kmalloc tinyFiles 0 0x400000 1 2 0x22 0 0 (twoTasks k a b) = .ok (0x400000, s'') ∧
    ¬ UserWritable s'.kernel (b + k.hhdm) 0x400000 ∧ UserWritable s''.kernel (b + k.hhdm) 0x400000 := by
  have check : returns (twoTrees pmm.kmalloc) smallMachineReady (fun p k =>
      returns (syscallMmap pmm.kmalloc tinyFiles 0 0x400000 1 2 0x20 0 0) (twoTasks k p.1 p.2) (fun r s' =>
        r == 0x400000 && decide (¬ UserWritable s'.kernel (p.2 + k.hhdm) 0x400000)) &&
      returns (syscallMmap pmm.kmalloc tinyFiles 0 0x400000 1 2 0x22 0 0) (twoTasks k p.1 p.2) fun r s'' =>
        r == 0x400000 && decide (UserWritable s''.kernel (p.2 + k.hhdm) 0x400000)) = true := by
    decide +kernel
  obtain ⟨⟨a, b⟩, k, trees, check⟩ := returns_iff.mp check
  obtain ⟨first, second⟩ := Bool.and_eq_true_iff.mp check
  obtain ⟨r, s', call, first⟩ := returns_iff.mp first
  obtain ⟨r', s'', call', second⟩ := returns_iff.mp second
  obtain ⟨same, closed⟩ := Bool.and_eq_true_iff.mp first
  obtain ⟨same', opened⟩ := Bool.and_eq_true_iff.mp second
  obtain rfl := beq_iff_eq.mp same
  obtain rfl := beq_iff_eq.mp same'
  exact ⟨k, a, b, s', s'', trees, call, call', of_decide_eq_true closed, of_decide_eq_true opened⟩

end PotatOS.Tasks
