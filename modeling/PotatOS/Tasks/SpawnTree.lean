import PotatOS.Mem.TreeFrames
import PotatOS.Tasks.Isolation

/-!
# The page tree of a new task

What `init_paging_task` and the second half of `spawn` do to the tables of the
tree they build. With the memory map that Limine promises, usable memory is seen
through the direct map of the new tree and closed to users; the entries of the
upper levels are open.
-/

namespace PotatOS.Tasks

open Memory Mem Prog

/-- Limine's promises about usable memory, which overlaps no other entry, and about the direct map. -/
structure DirectBoot (k : Kernel) : Prop where
  apart : ∀ e ∈ k.memmap, e.type = .usable → ∀ f ∈ k.memmap, f ≠ e → Apart e.base e.length f.base f.length
  aligned : ∀ e ∈ k.memmap, e.type = .usable → e.base % 4096 = 0 ∧ e.length % 4096 = 0
  window : DirectWindow k.hhdm k.memmap

section boot

variable {k k' : Kernel}

theorem DirectBoot.congr (boot : DirectBoot k) (setup : SameSetup k k') : DirectBoot k' := by
  obtain ⟨apart, aligned, window⟩ := boot
  exact ⟨by rwa [setup.memmap], by rwa [setup.memmap], by rwa [setup.memmap, setup.hhdm]⟩

/-- The allocator works on such a map. -/
theorem DirectBoot.of_window (ready : pmm.Ready k) (window : DirectWindow k.hhdm k.memmap) : DirectBoot k := by
  have map := ready.1.map
  exact ⟨fun e member _ f member' other => map.entries_apart member member' other.symm, map.aligned, window⟩

theorem DirectBoot.counted {f : Nat} (boot : DirectBoot k) (usable : f ∈ usableFrames k.memmap) :
    pageOf k.hhdm + f < 512 ^ 4 ∧ f < 2 ^ 36 ∧ ∃ e ∈ k.memmap, isMapped e.type ∧
      Counted k.hhdm e (pageOf k.hhdm + f) ∧ Alone k.hhdm k.memmap e (pageOf k.hhdm + f) ∧
      e.base + 4096 * (pageOf k.hhdm + f - (pageOf k.hhdm + e.base / 4096)) = f * 4096 := by
  obtain ⟨e, member, type, lower, upper⟩ := mem_usableFrames.mp usable
  have listed : isMapped e.type := by
    rw [type]
    decide
  have room := boot.window.room e member listed
  obtain ⟨base, length⟩ := boot.aligned e member type
  refine ⟨?_, by omega, e, member, listed, ?_, fun f' member' _ counted => ?_, by omega⟩
  · unfold pageOf
    omega
  · unfold Counted
    omega
  · by_contra other
    obtain ⟨b, inside, there⟩ := counted.address
    have apart := boot.apart e member type f' member' other
    unfold Apart at apart
    unfold InRange at inside
    omega

theorem DirectBoot.pages (boot : DirectBoot k) : DirectPages k := fun _ usable => (boot.counted usable).1

end boot

/-- The leaf entries of usable memory in the direct map of the tree. -/
def DirectLeaves (k : Kernel) (root : Nat) : Prop :=
  ∀ f ∈ usableFrames k.memmap, slot k root 3 (pageOf k.hhdm + f) = f * 4096 ||| (pflagPresent ||| pflagWrite)

section build

variable {A : PageAllocator} {own who : Grant → Prop} {root : Nat} {k k' k'' : Kernel}

theorem mapKernel_grows (ready : A.Ready k) (ok : TreeOk own k root)
    (mine : ∀ a, own ⟨.table root, a, 1⟩) (sub : ∀ g, own g → who g) (stack : ∀ a, who ⟨.kernelStack, a, 1⟩)
    (h : mapKernel A.kmalloc root k = .ok ((), k')) : Grows A own who root k k' := by
  unfold mapKernel at h
  rw [bind_eq run_get] at h
  obtain ⟨_, k₁, text, h⟩ := bind_ok h
  obtain ⟨_, k₂, data, h⟩ := bind_ok h
  have pages : ∀ x, pageAlignUp x / 4096 < 2 ^ 64 := by
    intro x
    unfold pageAlignUp add64
    omega
  have first := (mapPages_ok ready ok mine sub (by decide) (pages _) text).2.2.1
  have second := (mapPages_ok first.touches.ready first.ok mine sub (by decide) (pages _) data).2.2.1
  have third := (allocPages_ok second.touches.ready second.ok mine sub stack (by decide) (by decide) (by decide) h).1
  exact (first.trans second).trans third

theorem mapSections_grows {entries : List MemmapEntry} (ready : A.Ready k) (ok : TreeOk own k root)
    (mine : ∀ a, own ⟨.table root, a, 1⟩) (sub : ∀ g, own g → who g)
    (h : mapSections A.kmalloc root entries k = .ok ((), k')) : Grows A own who root k k' := by
  induction entries generalizing k with
  | nil =>
    obtain ⟨_, rfl⟩ := pure_ok h
    exact .refl ready ok
  | cons entry rest ih =>
    rw [mapSections] at h
    have fits := entry.fits
    split at h
    · rw [bind_eq run_get] at h
      obtain ⟨_, k₁, maps, h⟩ := bind_ok h
      have first := (mapPages_ok ready ok mine sub (by decide) (by omega) maps).2.2.1
      exact first.trans (ih first.touches.ready first.ok h)
    · exact ih ready ok h

end build

/-- The entries of the upper levels are present, writable and open to users. -/
def OpenTables (k : Kernel) (root : Nat) : Prop :=
  ∀ d < 3, ∀ n < 512 ^ (d + 1), slot k root d n ≠ 0 → slot k root d n &&& 7 = 7

/-- Each entry of the upper levels stays as it was or is open now. -/
def UpperKept (k k' : Kernel) (root : Nat) : Prop :=
  ∀ d < 3, ∀ n < 512 ^ (d + 1), slot k' root d n = slot k root d n ∨ slot k' root d n &&& 7 = 7

/-- What `init_paging_task` gets for the tree at `root`. -/
def OfTask (hhdm root : Nat) (g : Grant) : Prop := OfTree hhdm root g ∨ g.owner = .kernelStack

section task

variable {A : PageAllocator} {own who : Grant → Prop} {root : Nat} {k k' : Kernel}

theorem OpenTables.of_kept (opened : OpenTables k root) (kept : UpperKept k k' root) : OpenTables k' root := by
  intro d upper n bound some
  rcases kept d upper n bound with same | flags
  · rw [same] at some ⊢
    exact opened d upper n bound some
  · exact flags

theorem upperKept_of_grows (grows : Grows A own who root k k') : UpperKept k k' root := by
  intro d upper n bound
  by_cases zero : slot k root d n = 0
  · by_cases some : slot k' root d n = 0
    · exact .inl (some.trans zero.symm)
    · exact .inr (grows.created d upper n bound zero some)
  · exact .inl (grows.kept d upper n bound zero)

theorem upperKept_of_same (same : ∀ d ≤ 3, ∀ n < 512 ^ (d + 1), slot k' root d n = slot k root d n) :
    UpperKept k k' root :=
  fun d upper n bound => .inl (same d (by omega) n bound)

theorem UpperKept.trans {k'' : Kernel} (first : UpperKept k k' root) (second : UpperKept k' k'' root) :
    UpperKept k k'' root := by
  intro d upper n bound
  rcases second d upper n bound with same | flags
  · rw [same]
    exact first d upper n bound
  · exact .inr flags

theorem OpenTables.grows (opened : OpenTables k root) (grows : Grows A own who root k k') : OpenTables k' root :=
  opened.of_kept (upperKept_of_grows grows)

/-- The steps of `init_paging_task`: `k₂` with the cleared root, `k₃` with the kernel mapped. -/
structure TreeSteps (A : PageAllocator) (k k₂ k₃ k' : Kernel) (root : Nat) : Prop where
  cleared : Touches A (OfTask k.hhdm root) k k₂
  start : TreeOk (OfTree k.hhdm root) k₂ root
  zero : ∀ d n, slot k₂ root d n = 0
  fresh : ∀ g ∈ k.granted, ¬ InRange (g.addr + k.hhdm) (g.pages * 4096) root
  kernel : mapKernel A.kmalloc root k₂ = .ok ((), k₃)
  sections : mapSections A.kmalloc root k₃.memmap k₃ = .ok ((), k')

theorem clearedRoot_ok {frame : Nat} {k₁ : Kernel} (ready : A.Ready k) (got : A.kmalloc .pml4 1 k = .ok (frame, k₁)) :
    add64 frame k₁.hhdm = frame + k.hhdm ∧
      Touches A (OfTask k.hhdm (frame + k.hhdm)) k (k₁.setMem (fill k₁.mem (frame + k.hhdm) 4096 0)) ∧
      TreeOk (OfTree k.hhdm (frame + k.hhdm)) (k₁.setMem (fill k₁.mem (frame + k.hhdm) 4096 0)) (frame + k.hhdm) ∧
      (∀ d n, slot (k₁.setMem (fill k₁.mem (frame + k.hhdm) 4096 0)) (frame + k.hhdm) d n = 0) ∧
      ∀ g ∈ k.granted, ¬ InRange (g.addr + k.hhdm) (g.pages * 4096) (frame + k.hhdm) := by
  have alloc := A.allocates ready got
  have mapped := alloc.mapped
  have hhdm : k₁.hhdm = k.hhdm := alloc.setup.hhdm
  have taken : (⟨.pml4, frame, 1⟩ : Grant) ∈ k₁.granted := alloc.taken
  have first : Touches A (OfTask k.hhdm (frame + k.hhdm)) k k₁ := .kmalloc ready got (.inl (.inr ⟨rfl, rfl⟩))
  have cleared : Touches A (OfTask k.hhdm (frame + k.hhdm)) k₁ (k₁.setMem (fill k₁.mem (frame + k.hhdm) 4096 0)) := by
    refine .write first.ready fun x changed => ⟨_, taken, .inl (.inr ⟨rfl, rfl⟩), ?_⟩
    have inside : InRange (frame + k.hhdm) 4096 x := by
      by_contra far
      exact changed (fill_outside far)
    rw [hhdm]
    simpa using inside
  have touched := first.trans cleared
  generalize empty : k₁.setMem (fill k₁.mem (frame + k.hhdm) 4096 0) = k₂ at touched ⊢
  have same : k₂.hhdm = k.hhdm := touched.setup.hhdm
  have blank : ∀ x, InRange (frame + k₂.hhdm) 4096 x → k₂.mem x = 0 := by
    intro x inside
    rw [same] at inside
    rw [← empty]
    exact fill_inside inside
  have start : TreeOk (OfTree k.hhdm (frame + k.hhdm)) k₂ (frame + k₂.hhdm) ∧ ∀ d n, slot k₂ (frame + k₂.hhdm) d n = 0 := by
    apply TreeOk.of_zero (g := ⟨.pml4, frame, 1⟩)
    · rw [← empty]
      exact taken
    · exact .inr ⟨rfl, rfl⟩
    · exact Nat.le_refl 1
    · exact alloc.aligned
    · exact blank
  rw [same] at start
  refine ⟨?_, touched, start.1, start.2, ?_⟩
  · rw [hhdm]
    exact add64_of_lt (by omega)
  · intro g old inside
    have separate := alloc.fresh g old
    unfold Grant.Apart Apart at separate
    unfold InRange at inside
    dsimp only at separate
    omega

theorem initPagingTask_steps (ready : A.Ready k) (h : initPagingTask A.kmalloc k = .ok (root, k')) :
    ∃ k₂ k₃, TreeSteps A k k₂ k₃ k' root := by
  unfold initPagingTask at h
  obtain ⟨frame, k₁, got, h⟩ := bind_ok h
  obtain ⟨place, cleared, start, zero, fresh⟩ := clearedRoot_ok ready got
  rw [bind_eq run_get, place, kuMemset, bind_eq (run_modify _)] at h
  obtain ⟨_, k₄, maps, h⟩ := bind_ok h
  obtain ⟨rfl, rfl⟩ := pure_ok h
  unfold mapAll at maps
  obtain ⟨_, k₃, kernel, maps⟩ := bind_ok maps
  rw [bind_eq run_get] at maps
  exact ⟨_, k₃, cleared, start, zero, fresh, kernel, maps⟩

theorem TreeSteps.grows {k₂ k₃ : Kernel} (steps : TreeSteps A k k₂ k₃ k' root) :
    Grows A (OfTree k.hhdm root) (OfTask k.hhdm root) root k₂ k₃ ∧
      Grows A (OfTree k.hhdm root) (OfTask k.hhdm root) root k₃ k' := by
  have mine : ∀ a, OfTree k.hhdm root ⟨.table root, a, 1⟩ := fun a => .inl rfl
  have sub : ∀ g, OfTree k.hhdm root g → OfTask k.hhdm root g := fun g => .inl
  have first := mapKernel_grows steps.cleared.ready steps.start mine sub (fun a => .inr rfl) steps.kernel
  exact ⟨first, mapSections_grows first.touches.ready first.ok mine sub steps.sections⟩

theorem initPagingTask_ok (ready : A.Ready k) (h : initPagingTask A.kmalloc k = .ok (root, k')) :
    Touches A (OfTask k.hhdm root) k k' ∧ TreeOk (OfTree k.hhdm root) k' root ∧ OpenTables k' root ∧
      ∀ g ∈ k.granted, ¬ InRange (g.addr + k.hhdm) (g.pages * 4096) root := by
  obtain ⟨k₂, k₃, steps⟩ := initPagingTask_steps ready h
  obtain ⟨kernel, sections⟩ := steps.grows
  have all := kernel.trans sections
  refine ⟨steps.cleared.trans all.touches, all.ok, ?_, steps.fresh⟩
  have opened : OpenTables k₂ root := fun d _ n _ some => (some (steps.zero d n)).elim
  exact opened.grows all

/-- The direct map of a new tree has a leaf entry for every usable frame. -/
theorem initPagingTask_leaves (ready : A.Ready k) (boot : DirectBoot k)
    (h : initPagingTask A.kmalloc k = .ok (root, k')) : DirectLeaves k' root := by
  obtain ⟨k₂, k₃, steps⟩ := initPagingTask_steps ready h
  obtain ⟨kernel, sections⟩ := steps.grows
  have setup := steps.cleared.setup.trans kernel.touches.setup
  have boot₃ := boot.congr setup
  obtain ⟨leaves, hhdm⟩ := mapSections_leaves kernel.touches.ready kernel.ok.any boot₃.window steps.sections
  intro f usable
  rw [sections.touches.setup.memmap] at usable
  obtain ⟨bound, small, e, member, listed, counted, alone, place⟩ := boot₃.counted usable
  rw [hhdm, leaves.counted e member listed _ bound counted alone, place, Nat.mod_eq_of_lt (by omega)]

end task

/-! ### The arguments -/

/-- The bytes that the strings take, with their terminators. -/
def argsLength : List (List UInt8) → Nat
  | [] => 0
  | arg :: rest => arg.length + 1 + argsLength rest

theorem copyArgs_run (k : Kernel) (argPage : Nat) (argv : List (List UInt8)) (start : Nat) :
    ∃ m, copyArgs argPage argv start k = .ok (start + argsLength argv, k.setMem m) ∧
      ∀ x, ¬ InRange (argPage + start) (argsLength argv) x → m x = k.mem x := by
  induction argv generalizing k start with
  | nil => exact ⟨k.mem, rfl, fun _ _ => rfl⟩
  | cons arg rest ih =>
    obtain ⟨m, run, outside⟩ := ih (k.setMem (writeBytes k.mem (argPage + start) (arg ++ [0]))) (start + (arg.length + 1))
    refine ⟨m, ?_, fun x far => ?_⟩
    · rw [copyArgs, bind_eq (run_modify _), run, argsLength, Nat.add_assoc]
      rfl
    · rw [argsLength] at far
      rw [outside x (by unfold InRange at *; omega), Kernel.setMem_mem, writeBytes_outside]
      rw [List.length_append, List.length_singleton]
      unfold InRange at *
      omega

theorem pointArgs_run (k : Kernel) (argPage argSize : Nat) (argv : List (List UInt8)) (i hitherto : Nat) :
    ∃ m, pointArgs argPage argSize argv i hitherto k = .ok ((), k.setMem m) ∧
      (∀ x, ¬ InRange (argPage + argSize + i * 8) (argv.length * 8) x → m x = k.mem x) ∧
      (argv ≠ [] → load m (argPage + argSize + i * 8) 8 = (argPage + hitherto) % 2 ^ 64) := by
  induction argv generalizing k i hitherto with
  | nil => exact ⟨k.mem, rfl, fun _ _ => rfl, fun none => (none rfl).elim⟩
  | cons arg rest ih =>
    obtain ⟨m, run, outside, _⟩ := ih (k.setMem (store k.mem (argPage + argSize + i * 8) 8 (argPage + hitherto))) (i + 1)
      (hitherto + (arg.length + 1))
    refine ⟨m, ?_, fun x far => ?_, fun _ => ?_⟩
    · rw [pointArgs, bind_eq (run_modify _), run]
      rfl
    · rw [List.length_cons] at far
      rw [outside x (by unfold InRange at *; omega), Kernel.setMem_mem, store_outside]
      unfold InRange at *
      omega
    · -- The later pointers lie behind this one.
      have same : load m (argPage + argSize + i * 8) 8 =
          load (store k.mem (argPage + argSize + i * 8) 8 (argPage + hitherto)) (argPage + argSize + i * 8) 8 :=
        load_congr fun x inside => outside x (by unfold InRange at *; omega)
      rw [same, load_store_self]
      rfl

section args

variable {A : PageAllocator} {who : Grant → Prop} {own : Grant → Prop} {root : Nat} {k k' : Kernel}

/-- The argument page: it is mapped, and the strings and pointers stay inside it when
they fit. -/
theorem giveArgs_ok {pid argSize : Nat} {argv : List (List UInt8)} (ready : A.Ready k) (ok : TreeOk own k root)
    (mine : ∀ a, own ⟨.table root, a, 1⟩) (sub : ∀ g, own g → who g) (theirs : ∀ g, g.owner = .arguments pid → who g ∧ ¬ own g)
    (fits : argsLength argv + argv.length * 8 ≤ 4096)
    (h : giveArgs A.kmalloc pid root argv k = .ok (argSize, k')) :
    argSize = argsLength argv ∧ Grows A own who root k k' ∧ ∃ run, ⟨.arguments pid, run, 1⟩ ∈ k'.granted ∧
      run % 4096 = 0 ∧ (∀ u < 512 ^ 4, slot k' root 3 u = mappedLeaves k root (pageOf argvDataAddr) run 2 userFlags u) ∧
      (argv ≠ [] → load k'.mem (run + k.hhdm + argSize) 8 = run + k.hhdm) := by
  unfold giveArgs at h
  obtain ⟨run, k₁, got, h⟩ := bind_ok h
  have alloc := A.allocates ready got
  have mapped := alloc.mapped
  have hhdm : k₁.hhdm = k.hhdm := alloc.setup.hhdm
  have page : add64 run k.hhdm = run + k.hhdm := add64_of_lt (by omega)
  rw [bind_eq run_get, bind_eq run_get, hhdm, page, sub64_of_le (by omega), Nat.add_sub_cancel] at h
  obtain ⟨_, k₂, maps, h⟩ := bind_ok h
  have both := theirs ⟨.arguments pid, run, 1⟩ rfl
  have first : Touches A (fun g => g.owner = .arguments pid) k k₁ := .kmalloc ready got rfl
  have apart : ∀ g, own g → ¬ g.owner = .arguments pid := fun g tree owner => (theirs g owner).2 tree
  obtain ⟨start, slots⟩ := ok.grows_of_same (first.mono fun g owner => (theirs g owner).1) fun d depth n bound t place x inside =>
    ok.kept_of_touches apart first depth bound place inside
  obtain ⟨_, _, grows, leaves⟩ := mapPages_ok start.touches.ready start.ok mine sub (by decide) (by decide) maps
  obtain ⟨m₁, copied, outside₁⟩ := copyArgs_run k₂ (run + k.hhdm) argv 0
  rw [bind_eq copied, Nat.zero_add] at h
  obtain ⟨m₂, pointed, outside₂, pointer⟩ := pointArgs_run (k₂.setMem m₁) (run + k.hhdm) (argsLength argv) argv 0 0
  rw [bind_eq pointed] at h
  obtain ⟨rfl, rfl⟩ := pure_ok h
  have taken : (⟨.arguments pid, run, 1⟩ : Grant) ∈ k₂.granted := grows.touches.granted alloc.taken
  have writes : Touches A (fun g => g.owner = .arguments pid) k₂ (k₂.setMem m₂) := by
    refine .write grows.touches.ready fun x changed => ⟨_, taken, rfl, ?_⟩
    by_contra far
    rw [grows.touches.setup.hhdm, hhdm] at far
    dsimp only at far
    refine changed ?_
    rw [outside₂ x (by unfold InRange at *; omega), Kernel.setMem_mem, outside₁ x (by unfold InRange at *; omega)]
  obtain ⟨last, slots'⟩ := grows.ok.grows_of_same
    (writes.mono fun g owner => (theirs g owner).1) fun d depth n bound t place x inside =>
    grows.ok.kept_of_touches apart writes depth bound place inside
  refine ⟨rfl, (start.trans grows).trans last, run, writes.granted taken, alloc.aligned, ?_, ?_⟩
  · intro u bound
    show slot (k₂.setMem m₂) root 3 u = _
    rw [slots' 3 (by omega) u bound, leaves u bound, mappedLeaves, mappedLeaves, slots 3 (by omega) u bound]
  · intro some
    have word := pointer some
    rw [Nat.zero_mul, Nat.add_zero, Nat.add_zero, Nat.mod_eq_of_lt (by omega)] at word
    exact word

end args

/-! ### The whole tree -/

def InPages (v n u : Nat) : Prop := v ≤ u ∧ u < v + n

instance (v n u : Nat) : Decidable (InPages v n u) := inferInstanceAs (Decidable (_ ∧ _))

def Image.Covers (image : Image) (u : Nat) : Prop :=
  InPages (pageOf image.first.virtualAddress) image.pagesToMap u

def StackPage (u : Nat) : Prop := InPages (pageOf userStackAddr) kernelStackPages u

def ArgumentPage (u : Nat) : Prop := InPages (pageOf argvDataAddr) 2 u

def ApicPage (k : Kernel) (u : Nat) : Prop := u = pageOf (add64 k.ioapicAddr k.hhdm) ∨ u = pageOf k.lapicAddr

/-- The leaf entry of page `u` after `map_apic_into_task`, from the one before it. -/
def apicLeaf (k : Kernel) (u leaf : Nat) : Nat :=
  if u = pageOf k.lapicAddr then sub64 k.lapicAddr k.hhdm % 2 ^ 64 ||| 3
  else if u = pageOf (add64 k.ioapicAddr k.hhdm) then k.ioapicAddr % 2 ^ 64 ||| 3
  else leaf

theorem apicLeaf_of_not {k : Kernel} {u leaf : Nat} (other : ¬ ApicPage k u) : apicLeaf k u leaf = leaf := by
  unfold ApicPage at other
  rw [apicLeaf, if_neg fun same => other (.inr same), if_neg fun same => other (.inl same)]

/-- The runs of a task that `spawn` creates, without the image. -/
def OfSpawn (hhdm root pid : Nat) (g : Grant) : Prop :=
  OfTask hhdm root g ∨ g.owner = .stack pid ∨ g.owner = .arguments pid

/-- What `fillTree` did to the tree at `root`. -/
structure Filled (A : PageAllocator) (k k' : Kernel) (pid root argSize : Nat) (image : Image) (argv : List (List UInt8)) :
    Prop where
  grows : Grows A (OfTree k.hhdm root) (OfSpawn k.hhdm root pid) root k k'
  space : pageOf image.first.virtualAddress + image.pagesToMap ≤ 512 ^ 4
  size : argSize = argsLength argv
  arguments : ∃ run, ⟨.arguments pid, run, 1⟩ ∈ k'.granted ∧ run % 4096 = 0 ∧
    (argv ≠ [] → load k'.mem (run + k.hhdm + argSize) 8 = run + k.hhdm) ∧
    ∀ u < 512 ^ 4, ArgumentPage u → ¬ ApicPage k u →
      slot k' root 3 u = (run + 4096 * (u - pageOf argvDataAddr)) % 2 ^ 64 ||| userFlags
  stack : ∀ u < 512 ^ 4, StackPage u → ¬ ApicPage k u →
    ∃ g ∈ k'.granted, g.owner = .stack pid ∧ g.pages = 1 ∧ slot k' root 3 u = g.addr ||| userFlags
  loaded : ∀ u < 512 ^ 4, image.Covers u → ¬ StackPage u → ¬ ArgumentPage u → ¬ ApicPage k u →
    slot k' root 3 u = (image.copytoPages + 4096 * (u - pageOf image.first.virtualAddress)) % 2 ^ 64 ||| userFlags
  others : ∀ u < 512 ^ 4, ¬ image.Covers u → ¬ StackPage u → ¬ ArgumentPage u →
    slot k' root 3 u = apicLeaf k u (slot k root 3 u)

section fill

variable {A : PageAllocator} {root : Nat} {k k' : Kernel} {own who : Grant → Prop}

theorem grows_mono {who' : Grant → Prop} (grows : Grows A own who root k k') (more : ∀ g, who g → who' g) :
    Grows A own who' root k k' :=
  ⟨grows.touches.mono more, grows.ok, grows.kept, grows.created⟩

theorem mapApicIntoTask_ok (ready : A.Ready k) (ok : TreeOk own k root)
    (mine : ∀ a, own ⟨.table root, a, 1⟩) (sub : ∀ g, own g → who g) (small : root < 2 ^ 64)
    (h : mapApicIntoTask A.kmalloc (sub64 root k.hhdm) k = .ok ((), k')) :
    Grows A own who root k k' ∧ ∀ u < 512 ^ 4, slot k' root 3 u = apicLeaf k u (slot k root 3 u) := by
  unfold mapApicIntoTask at h
  have start : add64 (sub64 root k.hhdm) k.hhdm = root := by
    rw [sub64_of_le ok.start.1, add64_of_lt (by have := ok.start.1; omega)]
    have := ok.start.1
    omega
  rw [bind_eq run_get, start] at h
  obtain ⟨_, k₁, first, h⟩ := bind_ok h
  obtain ⟨_, _, grows, leaves⟩ := mapPages_ok ready ok mine sub (by decide) (by decide) first
  obtain ⟨_, _, grows', leaves'⟩ := mapPages_ok grows.touches.ready grows.ok mine sub (by decide) (by decide) h
  refine ⟨grows.trans grows', fun u bound => ?_⟩
  rw [leaves' u bound, mappedLeaves, apicLeaf]
  by_cases lapic : u = pageOf k.lapicAddr
  · rw [if_pos (by omega), if_pos lapic, lapic, Nat.sub_self, Nat.mul_zero, Nat.add_zero]
    rfl
  · rw [if_neg (by omega), if_neg lapic, leaves u bound, mappedLeaves]
    by_cases ioapic : u = pageOf (add64 k.ioapicAddr k.hhdm)
    · rw [if_pos (by omega), if_pos ioapic, ioapic, Nat.sub_self, Nat.mul_zero, Nat.add_zero]
      rfl
    · rw [if_neg (by omega), if_neg ioapic]

theorem fillTree_ok {pid argSize : Nat} {image : Image} {argv : List (List UInt8)} (ready : A.Ready k)
    (ok : TreeOk (OfTree k.hhdm root) k root) (count : image.pagesToMap < 2 ^ 64)
    (fits : argsLength argv + argv.length * 8 ≤ 4096)
    (h : fillTree A.kmalloc pid root image argv k = .ok (argSize, k')) : Filled A k k' pid root argSize image argv := by
  have mine : ∀ a, OfTree k.hhdm root ⟨.table root, a, 1⟩ := fun a => .inl rfl
  have sub : ∀ g, OfTree k.hhdm root g → OfSpawn k.hhdm root pid g := fun g tree => .inl (.inl tree)
  have theirs : ∀ g : Grant, g.owner = .arguments pid → OfSpawn k.hhdm root pid g ∧ ¬ OfTree k.hhdm root g := by
    intro g owner
    refine ⟨.inr (.inr owner), fun tree => ?_⟩
    have none := tree.no_user
    rw [owner] at none
    cases none
  unfold fillTree at h
  obtain ⟨_, k₁, maps, h⟩ := bind_ok h
  obtain ⟨_, space, grows₁, leaves₁⟩ := mapPages_ok (k := k) ready ok mine sub (by decide) count maps
  obtain ⟨_, k₂, allocs, h⟩ := bind_ok h
  have theirStack : ∀ a, OfSpawn k.hhdm root pid ⟨.stack pid, a, 1⟩ := fun a => .inr (.inl rfl)
  obtain ⟨grows₂, others₂, stack₂⟩ := allocPages_ok grows₁.touches.ready grows₁.ok mine sub theirStack (by decide)
    (by decide) (by decide) allocs
  obtain ⟨size, k₃, gives, h⟩ := bind_ok h
  obtain ⟨rfl, grows₃, run, taken, aligned, leaves₃, pointer⟩ :=
    giveArgs_ok grows₂.touches.ready grows₂.ok mine sub theirs fits gives
  rw [bind_eq run_get] at h
  obtain ⟨_, k₄, apic, h⟩ := bind_ok h
  obtain ⟨rfl, rfl⟩ := pure_ok h
  have grows := (grows₁.trans grows₂).trans grows₃
  have setup := grows.touches.setup
  -- The last step touches tables only.
  obtain ⟨grows₄, leaves₄⟩ := mapApicIntoTask_ok grows₃.touches.ready grows₃.ok mine (fun g tree => tree)
    (grows₃.ok.root_lt grows₃.touches.ready) apic
  have same : ∀ u leaf, apicLeaf k₃ u leaf = apicLeaf k u leaf := by
    intro u leaf
    rw [apicLeaf, setup.lapic, setup.ioapic, setup.hhdm, apicLeaf]
  have final : ∀ u < 512 ^ 4, slot k₄ root 3 u =
      apicLeaf k u (mappedLeaves k₂ root (pageOf argvDataAddr) run 2 userFlags u) := by
    intro u bound
    rw [leaves₄ u bound, same, leaves₃ u bound]
  have plain : ∀ u < 512 ^ 4, ¬ ArgumentPage u → slot k₄ root 3 u = apicLeaf k u (slot k₂ root 3 u) := by
    intro u bound other
    unfold ArgumentPage InPages at other
    rw [final u bound, mappedLeaves, if_neg other]
  refine ⟨grows.trans (grows_mono grows₄ sub), space, rfl, ⟨run, grows₄.touches.granted taken, aligned, ?_, ?_⟩, ?_, ?_, ?_⟩
  · intro some
    have hhdm : k₂.hhdm = k.hhdm := (grows₁.trans grows₂).touches.setup.hhdm
    have strings : argsLength argv + 8 ≤ 4096 := by
      have positive := List.length_pos_iff.mpr some
      omega
    have word := pointer some
    rw [hhdm] at word
    have same : load k₄.mem (run + k.hhdm + argsLength argv) 8 = load k₃.mem (run + k.hhdm + argsLength argv) 8 := by
      refine load_congr fun x inside => grows₄.touches.byte_kept taken (theirs _ rfl).2 ?_
      rw [setup.hhdm]
      unfold InRange at *
      dsimp only
      omega
    exact same.trans word
  · intro u bound page other
    unfold ArgumentPage InPages at page
    rw [final u bound, apicLeaf_of_not other, mappedLeaves, if_pos page]
  · intro u bound page other
    have below : ¬ ArgumentPage u := fun above => by
      have stackTop : pageOf userStackAddr + kernelStackPages ≤ pageOf argvDataAddr := by decide
      unfold StackPage ArgumentPage InPages at *
      omega
    obtain ⟨g, granted, owner, pages, leaf⟩ := stack₂ u bound page.1 page.2
    refine ⟨g, grows₄.touches.granted (grows₃.touches.granted granted), owner, pages, ?_⟩
    rw [plain u bound below, apicLeaf_of_not other, leaf]
  · intro u bound covers noStack noArgs other
    unfold Image.Covers InPages at covers
    rw [plain u bound noArgs, apicLeaf_of_not other, others₂ u bound noStack, leaves₁ u bound, mappedLeaves, if_pos covers]
  · intro u bound out noStack noArgs
    unfold Image.Covers InPages at out
    rw [plain u bound noArgs, others₂ u bound noStack, leaves₁ u bound, mappedLeaves, if_neg out]

end fill

end PotatOS.Tasks
