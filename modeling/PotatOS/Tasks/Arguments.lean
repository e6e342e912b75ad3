import PotatOS.Tasks.Spawn

/-!
# Arguments of a program

`spawn` writes the strings and the pointers to them through the direct map, and
the pointers are addresses of the direct map. User code reads the pointers
through its own mapping of the page; the addresses in them are closed to it.
-/

namespace PotatOS.Tasks

open Memory Mem Prog

/-- Every level of the walk to page `u` is present and open to users. -/
def UserWalk (k : Kernel) (root u : Nat) : Prop := ∀ d < 4, slot k root d (u / 512 ^ (3 - d)) &&& 5 = 5

instance (k : Kernel) (root u : Nat) : Decidable (UserWalk k root u) := Nat.decidableBallLT _ _

/-- The byte that user code sees at a virtual address. -/
def userByte (k : Kernel) (root virtAddr : Nat) : Option UInt8 :=
  if UserWalk k root (pageOf virtAddr) then some (k.phys (virtToPhys k root virtAddr)) else none

/-- The little-endian word that user code sees. -/
def userLoad (k : Kernel) (root virtAddr : Nat) : Nat → Option Nat
  | 0 => some 0
  | n + 1 =>
    match userByte k root virtAddr, userLoad k root (virtAddr + 1) n with
    | some b, some rest => some (b.toNat + 256 * rest)
    | _, _ => none

/-- User code sees the string and its terminator. -/
def UserString (k : Kernel) (root virtAddr : Nat) (string : List UInt8) : Prop :=
  ∀ i b, (string ++ [0])[i]? = some b → userByte k root (virtAddr + i) = some b

/-- The task finds the arguments through its page tree. -/
structure ArgsReach (k : Kernel) (task : Task) (argv : List (List UInt8)) : Prop where
  count : task.argc = argv.length
  strings : ∀ i arg, argv[i]? = some arg → ∃ p,
    userLoad k (task.space.root k) (task.argv + 8 * i) 8 = some p ∧ UserString k (task.space.root k) p arg

section read

variable {k : Kernel} {root : Nat}

theorem userLoad_eq {m : Mem} {a v n p : Nat} (h : userLoad k root v n = some p)
    (same : ∀ j < n, k.phys (virtToPhys k root (v + j)) = m (a + j)) : p = load m a n := by
  induction n generalizing a v p with
  | zero => exact (Option.some.inj h).symm
  | succ n ih =>
    rw [userLoad] at h
    split at h
    · rename_i b rest byte later
      obtain rfl := Option.some.inj h
      have tail : rest = load m (a + 1) n := ih later fun j small => by
        rw [Nat.add_assoc, Nat.add_assoc, Nat.add_comm 1]
        exact same (j + 1) (by omega)
      have head : b = m a := by
        unfold userByte at byte
        split at byte
        · exact (Option.some.inj byte).symm.trans (same 0 (by omega))
        · cases byte
      rw [load, head, tail]
    · cases h

/-- Users see nothing behind a leaf without the user flag. -/
theorem userByte_closed {v : Nat} (closed : slot k root 3 (pageOf v) &&& pflagUser = 0) : userByte k root v = none := by
  refine if_neg fun walk => ?_
  have leaf := walk 3 (by decide)
  rw [Nat.sub_self, Nat.pow_zero, Nat.div_one] at leaf
  have bits : slot k root 3 (pageOf v) &&& 5 &&& pflagUser = slot k root 3 (pageOf v) &&& pflagUser := by
    rw [Nat.and_assoc]
    rfl
  rw [leaf, closed] at bits
  exact absurd bits (by decide)

theorem phys_of_leaf {v frame flags : Nat} (leaf : slot k root 3 (pageOf v) = frame ||| flags)
    (aligned : frame % 4096 = 0) (small : flags < 4096) (some : 0 < flags) (mapped : frame + 4096 ≤ 2 ^ 64) :
    k.phys (virtToPhys k root v) = k.mem (frame + v % 4096 + k.hhdm) := by
  have word : slot k root 3 (pageOf v) = frame + flags := by rw [leaf, or_low aligned small]
  have place : virtToPhys k root v = frame + v % 4096 := by
    rw [virtToPhys_eq, if_neg (by omega), word, add64_of_lt (by unfold pageAlignDown; omega)]
    unfold pageAlignDown
    omega
  rw [place, Kernel.phys]

end read

/-- The direct map and the interrupt controllers are mapped in the upper half. -/
structure UpperMap (k : Kernel) : Prop where
  hhdm : 2 ^ 64 - 2 ^ 47 ≤ k.hhdm
  lapic : 2 ^ 35 ≤ pageOf k.lapicAddr
  ioapic : 2 ^ 35 ≤ pageOf (add64 k.ioapicAddr k.hhdm)

theorem UpperMap.apic {k : Kernel} (upper : UpperMap k) {u : Nat} (page : ApicPage k u) : 2 ^ 35 ≤ u := by
  rcases page with rfl | rfl
  · exact upper.ioapic
  · exact upper.lapic

theorem UpperMap.congr {k k' : Kernel} (upper : UpperMap k) (setup : SameSetup k k') : UpperMap k' := by
  refine ⟨?_, ?_, ?_⟩
  · rw [setup.hhdm]; exact upper.hhdm
  · rw [setup.lapic]; exact upper.lapic
  · rw [setup.ioapic, setup.hhdm]; exact upper.ioapic

/-- The pages of the image lie in the lower half. -/
def LowImage (bytes : List UInt8) : Prop :=
  pageOf (fileImage bytes).first.virtualAddress + (fileImage bytes).pagesToMap ≤ 2 ^ 35

section reach

variable {A : PageAllocator} {φ : Type} {fs : FileAccess φ} {s s' : System φ} {live : List (Nat × Nat)}
  {bytes : List UInt8} {argv : List (List UInt8)} {root run : Nat} {k₂ k₃ k₄ : Kernel} {task : Task}

/-- The entries of the upper half, right after `spawn`. -/
theorem Steps.upper_leaf (steps : Steps A bytes argv s s' root run k₂ k₃ k₄) {u : Nat}
    (bound : u < 512 ^ 4) (high : 2 ^ 35 ≤ u) (out : ¬ (fileImage bytes).Covers u) :
    slot s'.kernel root 3 u = apicLeaf k₃ u (slot k₃ root 3 u) := by
  have noStack : ¬ StackPage u := fun page => by
    have top : pageOf userStackAddr + kernelStackPages ≤ 2 ^ 35 := by decide
    unfold StackPage InPages at page
    omega
  have noArgs : ¬ ArgumentPage u := fun page => by
    have top : pageOf argvDataAddr + 2 ≤ 2 ^ 35 := by decide
    unfold ArgumentPage InPages at page
    omega
  rw [steps.slots 3 (by omega) u bound]
  exact steps.filled.others u bound out noStack noArgs

/-- Users do not see a frame that is mapped for the kernel. -/
theorem frame_and_user {x : Nat} (aligned : x % 4096 = 0) : (x ||| (pflagPresent ||| pflagWrite)) &&& pflagUser = 0 := by
  have low : (x ||| (pflagPresent ||| pflagWrite)) &&& pflagUser =
      ((x ||| (pflagPresent ||| pflagWrite)) &&& (2 ^ 3 - 1)) &&& pflagUser := by
    rw [Nat.and_assoc]
    rfl
  have flags : (x ||| (pflagPresent ||| pflagWrite)) % 2 ^ 3 = 3 := by
    have three : pflagPresent ||| pflagWrite = 3 := rfl
    rw [three, or_low aligned (by decide)]
    omega
  rw [low, Nat.and_two_pow_sub_one_eq_mod, flags]
  rfl

/-- The interrupt controllers are no usable memory. -/
def ApicApart (k : Kernel) : Prop := ∀ f ∈ usableFrames k.memmap, ¬ ApicPage k (pageOf k.hhdm + f)

theorem ApicApart.congr {k k' : Kernel} (apart : ApicApart k) (setup : SameSetup k k') : ApicApart k' := by
  intro f usable
  rw [setup.memmap] at usable
  unfold ApicPage
  rw [setup.lapic, setup.ioapic, setup.hhdm]
  exact apart f usable

/-- Usable memory is closed to the program where the direct map shows it. -/
theorem Steps.direct_closed (steps : Steps A bytes argv s s' root run k₂ k₃ k₄) (boot : DirectBoot s.kernel)
    (upper : UpperMap s.kernel) (apart : ApicApart s.kernel) (low : LowImage bytes) {f : Nat}
    (usable : f ∈ usableFrames s.kernel.memmap) :
    slot s'.kernel root 3 (pageOf s.kernel.hhdm + f) &&& pflagUser = 0 := by
  have high := upper.hhdm
  have address := boot.window.address
  obtain ⟨bound, _⟩ := boot.counted usable
  have page : 2 ^ 35 ≤ pageOf s.kernel.hhdm + f := by
    unfold pageOf
    omega
  have out : ¬ (fileImage bytes).Covers (pageOf s.kernel.hhdm + f) := fun covers => by
    unfold LowImage at low
    unfold Image.Covers InPages at covers
    omega
  have leaves := initPagingTask_leaves steps.loaded.ready (boot.congr steps.setup) steps.made
  have usable₃ : f ∈ usableFrames k₃.memmap := by rwa [steps.setup₃.memmap]
  have leaf := leaves f usable₃
  have other := (apart.congr steps.setup₃) f usable₃
  rw [steps.setup₃.hhdm] at leaf other
  rw [steps.upper_leaf bound page out, apicLeaf_of_not other, leaf]
  exact frame_and_user (Nat.mul_mod_left f 4096)

/-- The first pointer that user code reads is the address of the argument page in the direct map. -/
theorem Steps.first_pointer (steps : Steps A bytes argv s s' root run k₂ k₃ k₄) (upper : UpperMap s.kernel)
    (fits : argsLength argv + argv.length * 8 ≤ 4096) (given : argv ≠ []) {p : Nat}
    (h : userLoad s'.kernel root (argvDataAddr + argsLength argv) 8 = some p) :
    ∃ frame, ⟨.arguments s.tasks.list.length, frame, 1⟩ ∈ s'.kernel.granted ∧ p = frame + s.kernel.hhdm := by
  obtain ⟨frame, taken, aligned, word, leaves⟩ := steps.filled.arguments
  have hhdm₃ : k₃.hhdm = s.kernel.hhdm := steps.setup₃.hhdm
  have hhdm : s'.kernel.hhdm = s.kernel.hhdm := steps.final.hhdm
  have mapped := (A.ledger steps.freed.ready).mapped _ (steps.freed.granted taken)
  dsimp only at mapped
  rw [hhdm] at mapped
  have positive := List.length_pos_iff.mpr given
  have high := upper.hhdm
  have page : ∀ j < 8, pageOf (argvDataAddr + argsLength argv + j) = pageOf argvDataAddr ∧
      (argvDataAddr + argsLength argv + j) % 4096 = argsLength argv + j := by
    intro j small
    unfold pageOf argvDataAddr
    omega
  have first : pageOf argvDataAddr < 2 ^ 35 := by decide
  have leaf : slot s'.kernel root 3 (pageOf argvDataAddr) = frame ||| userFlags := by
    rw [steps.slots 3 (by omega) _ (pageOf_lt _), leaves _ (pageOf_lt _) ⟨Nat.le_refl _, by omega⟩]
    · rw [Nat.sub_self, Nat.mul_zero, Nat.add_zero, Nat.mod_eq_of_lt (by omega)]
    · intro apic
      have := (upper.congr steps.setup₃).apic apic
      omega
  -- The word that the kernel wrote is the word that the user reads.
  have kept : load s'.kernel.mem (frame + s.kernel.hhdm + argsLength argv) 8 =
      load k₄.mem (frame + s.kernel.hhdm + argsLength argv) 8 := by
    have hhdm₄ : k₄.hhdm = s.kernel.hhdm := (steps.setup₃.trans steps.filled.grows.touches.setup).hhdm
    refine load_congr fun x inside => steps.freed.byte_kept taken (fun heap => by cases heap) ?_
    rw [hhdm₄]
    unfold InRange at *
    dsimp only
    omega
  have pointer : p = load s'.kernel.mem (frame + s.kernel.hhdm + argsLength argv) 8 := by
    refine userLoad_eq h fun j small => ?_
    obtain ⟨here, offset⟩ := page j small
    rw [← here] at leaf
    have byte := phys_of_leaf leaf aligned (by decide) (by decide) (by omega)
    rw [byte, offset, hhdm, show frame + (argsLength argv + j) + s.kernel.hhdm =
      frame + s.kernel.hhdm + argsLength argv + j by omega]
  rw [kept, ← hhdm₃, word given, hhdm₃] at pointer
  exact ⟨frame, steps.freed.granted taken, pointer⟩

/-- With arguments that fit their page, a program with arguments does not get them. -/
theorem not_argsReach (steps : Steps pmm bytes argv s s' root run k₂ k₃ k₄) (boot : DirectBoot s.kernel)
    (upper : UpperMap s.kernel) (apart : ApicApart s.kernel) (low : LowImage bytes)
    (fits : argsLength argv + argv.length * 8 ≤ 4096)
    (nodes : s'.tasks.list.nodes = s.tasks.list.nodes ++ [task]) (given : argv ≠ []) :
    ¬ ArgsReach s'.kernel task argv := by
  intro reach
  obtain ⟨place, _, start, _⟩ := steps.space nodes
  obtain ⟨arg, rest, rfl⟩ := List.exists_cons_of_ne_nil given
  obtain ⟨p, pointer, string⟩ := reach.strings 0 arg rfl
  rw [place, start, Nat.mul_zero, Nat.add_zero] at pointer
  obtain ⟨frame, taken, direct⟩ := steps.first_pointer upper fits given pointer
  have inv := steps.freed.ready.1
  have usable : frame / 4096 ∈ usableFrames s.kernel.memmap := by
    have granted := granted_usable inv taken (p := frame) ⟨Nat.le_refl _, by simp⟩
    rwa [steps.final.memmap] at granted
  have page : pageOf p = pageOf s.kernel.hhdm + frame / 4096 := by
    have aligned := (pmm.ledger steps.freed.ready).aligned _ taken
    have start := boot.window.page
    obtain ⟨bound, _⟩ := boot.counted usable
    dsimp only at aligned
    unfold pageOf at *
    omega
  have leaf := steps.direct_closed boot upper apart low usable
  rw [← page] at leaf
  have closed := userByte_closed leaf
  obtain ⟨b, first⟩ : ∃ b, (arg ++ [0])[0]? = some b :=
    ⟨_, List.getElem?_eq_getElem (by simp)⟩
  have byte := string 0 b first
  rw [place, Nat.add_zero, closed] at byte
  cases byte

/-- Arguments reach the program when there are none, and, with strings that fit
the page and an image in the lower half, only then. -/
theorem arguments_reach_iff {cpu : Nat} {path : List UInt8} (heap : Heap pmm s.kernel live)
    (window : DirectWindow s.kernel.hhdm s.kernel.memmap) (upper : UpperMap s.kernel) (apart : ApicApart s.kernel)
    (stored : Stored fs s cpu path bytes) (h : spawn pmm.kmalloc fs cpu path argv s = .ok (0, s')) :
    ∃ task, s'.tasks.list.nodes = s.tasks.list.nodes ++ [task] ∧ (argv = [] → ArgsReach s'.kernel task argv) ∧
      (InBounds bytes → LowImage bytes → argsLength argv + argv.length * 8 ≤ 4096 →
        (ArgsReach s'.kernel task argv ↔ argv = [])) := by
  have spawned := ((spawn_cases h).resolve_left fun failed => failed.1 rfl).2
  obtain ⟨task, nodes, count⟩ := spawned.added
  have none : argv = [] → ArgsReach s'.kernel task argv := by
    rintro rfl
    exact ⟨count, fun i arg listed => by cases listed⟩
  refine ⟨task, nodes, none, fun bounds low fits => ⟨fun reach => ?_, none⟩⟩
  obtain ⟨root, run, k₂, k₃, k₄, steps⟩ := spawned.steps heap stored bounds fits
  by_contra given
  exact not_argsReach steps (.of_window heap.ready window) upper apart low fits nodes given reach

end reach

section machine

variable {k : Kernel}

theorem highMachineReady_setup (h : initKheap pmm.kmalloc highMachineReady = .ok ((), k)) :
    k.memmap = highMachineReady.memmap ∧ k.hhdm = highMachineReady.hhdm ∧ k.lapicAddr = highMachineReady.lapicAddr ∧
      k.ioapicAddr = highMachineReady.ioapicAddr := by
  unfold initKheap at h
  obtain ⟨run, k₁, got, h⟩ := bind_ok h
  rw [bind_eq (run_modify _)] at h
  obtain rfl := modify_ok h
  have setup := (pmm.allocates highMachineReady_ready got).setup
  exact ⟨setup.memmap, setup.hhdm, setup.lapic, setup.ioapic⟩

theorem highMachineReady_upper (h : initKheap pmm.kmalloc highMachineReady = .ok ((), k)) : UpperMap k := by
  obtain ⟨_, hhdm, lapic, ioapic⟩ := highMachineReady_setup h
  constructor
  · rw [hhdm]
    decide
  · rw [lapic]
    decide
  · rw [ioapic, hhdm]
    decide

theorem highMachineReady_window (h : initKheap pmm.kmalloc highMachineReady = .ok ((), k)) :
    DirectWindow k.hhdm k.memmap := by
  obtain ⟨memmap, hhdm, _⟩ := highMachineReady_setup h
  rw [memmap, hhdm]
  constructor <;> simp [highMachineReady, highMachine, bootMachine]

theorem highMachineReady_apart (h : initKheap pmm.kmalloc highMachineReady = .ok ((), k)) : ApicApart k := by
  obtain ⟨memmap, hhdm, lapic, ioapic⟩ := highMachineReady_setup h
  intro f usable
  rw [memmap] at usable
  unfold ApicPage
  rw [lapic, ioapic, hhdm]
  revert f
  decide +kernel

end machine

theorem plainElf_low : LowImage plainElf := by
  unfold LowImage
  decide +kernel

theorem arguments_reach_none : ∃ k s' task, initKheap pmm.kmalloc highMachineReady = .ok ((), k) ∧
    spawn pmm.kmalloc plainFiles 0 [82, 58, 47, 97] [] (systemOf k) = .ok (0, s') ∧
    s'.tasks.list.nodes = (systemOf k).tasks.list.nodes ++ [task] ∧
    (ArgsReach s'.kernel task [] ↔ ([] : List (List UInt8)) = []) := by
  obtain ⟨k, s', started, spawned⟩ := spawnsPlain_ok spawnsPlain_none
  have stored : Stored plainFiles (systemOf k) 0 [82, 58, 47, 97] plainElf := stored_filesOf _ _ _ _
  obtain ⟨task, nodes, _, only⟩ := arguments_reach_iff (s := systemOf k) (highMachineReady_heap started)
    (highMachineReady_window started) (highMachineReady_upper started) (highMachineReady_apart started) stored spawned
  exact ⟨k, s', task, started, spawned, nodes, only plainElf_inBounds plainElf_low (by decide)⟩

/-- One argument, and the program cannot read it. -/
theorem argument_out_of_reach : ∃ k s' task, initKheap pmm.kmalloc highMachineReady = .ok ((), k) ∧
    spawn pmm.kmalloc plainFiles 0 [82, 58, 47, 97] [[97]] (systemOf k) = .ok (0, s') ∧
    s'.tasks.list.nodes = (systemOf k).tasks.list.nodes ++ [task] ∧ ¬ ArgsReach s'.kernel task [[97]] := by
  obtain ⟨k, s', started, spawned⟩ := spawnsPlain_ok (show spawnsPlain [[97]] = true by decide +kernel)
  have stored : Stored plainFiles (systemOf k) 0 [82, 58, 47, 97] plainElf := stored_filesOf _ _ _ _
  have run := ((spawn_cases spawned).resolve_left fun failed => failed.1 rfl).2
  obtain ⟨task, nodes, _⟩ := run.added
  obtain ⟨root, frames, k₂, k₃, k₄, steps⟩ := run.steps (s := systemOf k) (highMachineReady_heap started) stored
    plainElf_inBounds (by decide)
  have boot : DirectBoot k := .of_window (highMachineReady_heap started).ready (highMachineReady_window started)
  exact ⟨k, s', task, started, spawned, nodes, not_argsReach steps boot (highMachineReady_upper started)
    (highMachineReady_apart started) plainElf_low (by decide) nodes (by decide)⟩

end PotatOS.Tasks
