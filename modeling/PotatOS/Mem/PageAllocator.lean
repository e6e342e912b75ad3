import PotatOS.Mem.PmmSafety

/-!
# The contract of `kmalloc`

The heap and the page tables rely on `kmalloc` only through this contract: a
returning call hands out a zeroed run that was never handed out before and
leaves every granted byte alone. `pmm` is the allocator of `pmm.c`.
-/

namespace PotatOS.Mem

open Memory Prog

/-- The fields other than the memory and the allocator's own accounts agree. -/
structure SameSetup (k k' : Kernel) : Prop where
  memmap : k'.memmap = k.memmap
  hhdm : k'.hhdm = k.hhdm
  freed : k'.lastFreedPage = k.lastFreedPage
  heap : k'.kheapStart = k.kheapStart
  cr3 : k'.cr3 = k.cr3
  lapic : k'.lapicAddr = k.lapicAddr
  ioapic : k'.ioapicAddr = k.ioapicAddr
  image : k'.image = k.image

theorem SameSetup.refl (k : Kernel) : SameSetup k k := ⟨rfl, rfl, rfl, rfl, rfl, rfl, rfl, rfl⟩

theorem SameSetup.trans {k₁ k₂ k₃ : Kernel} (first : SameSetup k₁ k₂) (second : SameSetup k₂ k₃) :
    SameSetup k₁ k₃ :=
  ⟨second.memmap.trans first.memmap, second.hhdm.trans first.hhdm, second.freed.trans first.freed,
    second.heap.trans first.heap, second.cr3.trans first.cr3, second.lapic.trans first.lapic,
    second.ioapic.trans first.ioapic, second.image.trans first.image⟩

theorem SameSetup.setMem (k : Kernel) (m : Mem) : SameSetup k (k.setMem m) :=
  ⟨rfl, rfl, rfl, rfl, rfl, rfl, rfl, rfl⟩

/-- What a call `kmalloc owner n` that returned `addr` did. Runs lie in physical
memory, which has at most `2 ^ 52` bytes, and in the direct map. -/
structure Allocates (k k' : Kernel) (owner : Owner) (n addr : Nat) : Prop where
  setup : SameSetup k k'
  ledger : k'.granted = k.granted ++ [⟨owner, addr, n⟩]
  pages : 1 ≤ n ∧ n < 2 ^ 40
  aligned : addr % 4096 = 0
  positive : 0 < addr
  mapped : addr + n * 4096 + k.hhdm ≤ 2 ^ 64
  fresh : ∀ g ∈ k.granted, Grant.Apart g ⟨owner, addr, n⟩
  zero : ∀ p, InRange addr (n * 4096) p → k'.phys p = 0
  kept : ∀ p, Granted k p → k'.phys p = k.phys p

theorem Allocates.taken {k k' : Kernel} {owner : Owner} {n addr : Nat} (alloc : Allocates k k' owner n addr) :
    ⟨owner, addr, n⟩ ∈ k'.granted := by
  simp [alloc.ledger]

theorem Allocates.granted {k k' : Kernel} {owner : Owner} {n addr : Nat} {g : Grant}
    (alloc : Allocates k k' owner n addr) (taken : g ∈ k.granted) : g ∈ k'.granted := by
  simp [alloc.ledger, taken]

/-- The runs handed out so far are disjoint runs of pages in the direct map. -/
structure LedgerOk (k : Kernel) : Prop where
  apart : k.granted.Pairwise Grant.Apart
  pages : ∀ g ∈ k.granted, 1 ≤ g.pages ∧ g.pages < 2 ^ 40
  aligned : ∀ g ∈ k.granted, g.addr % 4096 = 0
  positive : ∀ g ∈ k.granted, 0 < g.addr
  mapped : ∀ g ∈ k.granted, g.addr + g.pages * 4096 + k.hhdm ≤ 2 ^ 64

/-- The bytes of all runs together. -/
def grantedBytes (k : Kernel) : Nat := (k.granted.map fun g => g.pages * 4096).sum

/-- The direct map has room for all runs together. -/
theorem LedgerOk.grantedBytes_le {k : Kernel} (ledger : LedgerOk k) (some : k.granted ≠ []) :
    grantedBytes k + k.hhdm ≤ 2 ^ 64 := by
  have room : ∀ g ∈ k.granted, g.addr + g.pages * 4096 ≤ 2 ^ 64 - k.hhdm := by
    intro g taken
    have := ledger.mapped g taken
    omega
  have total : grantedBytes k ≤ 2 ^ 64 - k.hhdm := sum_le_of_apart ledger.apart room
  obtain ⟨g, taken⟩ := List.exists_mem_of_ne_nil _ some
  have := ledger.mapped g taken
  omega

structure PageAllocator where
  kmalloc : Owner → Nat → KernelM Nat
  /-- The allocator's own invariant. -/
  Ready : Kernel → Prop
  ledger : ∀ {k : Kernel}, Ready k → LedgerOk k
  /-- Clients may write the bytes they were granted. -/
  frame : ∀ {k k' : Kernel}, Ready k → k'.memmap = k.memmap → k'.hhdm = k.hhdm →
    k'.lastFreedPage = k.lastFreedPage → k'.granted = k.granted →
    k'.totalMemoryAllocated = k.totalMemoryAllocated →
    (∀ p, ¬ Granted k p → k'.phys p = k.phys p) → Ready k'
  ready : ∀ {k k' : Kernel} {owner : Owner} {n addr : Nat}, Ready k →
    kmalloc owner n k = .ok (addr, k') → Ready k'
  allocates : ∀ {k k' : Kernel} {owner : Owner} {n addr : Nat}, Ready k →
    kmalloc owner n k = .ok (addr, k') → Allocates k k' owner n addr

/-- The direct map has room for every usable entry. -/
def DirectMapped (k : Kernel) : Prop :=
  ∀ e ∈ k.memmap, e.type = .usable → e.base + e.length + k.hhdm ≤ 2 ^ 64

theorem kmalloc_allocates {k k' : Kernel} {owner : Owner} {n addr : Nat} (inv : PmmInv k)
    (window : DirectMapped k) (h : kmalloc owner n k = .ok (addr, k')) : Allocates k k' owner n addr := by
  obtain ⟨zero, kept, _⟩ := inv.kmalloc_effect h
  obtain ⟨one, e, member, usable, pages, few, f, free, rfl, rfl⟩ := kmalloc_ok inv.noFreed h
  have room := tracked_fits pages
  have small := tracked_lt few
  have fits := free.1
  have mapped := window e member usable
  have aligned := (inv.map.aligned e member usable).1
  refine ⟨⟨rfl, rfl, rfl, rfl, rfl, rfl, rfl, rfl⟩, rfl, ⟨one, by omega⟩, by omega, by omega, by omega, ?_, zero, kept⟩
  intro g taken
  exact (inv.marked g taken).apart owner inv.map member usable free

theorem PmmInv.ledgerOk {k : Kernel} (inv : PmmInv k) (window : DirectMapped k) : LedgerOk k := by
  have each : ∀ g ∈ k.granted, g.pages < 2 ^ 40 ∧ g.addr % 4096 = 0 ∧ 0 < g.addr ∧
      g.addr + g.pages * 4096 + k.hhdm ≤ 2 ^ 64 := by
    intro g taken
    obtain ⟨e, member, usable, f, start, bound, _⟩ := inv.marked g taken
    have sized := inv.map.sized e member usable
    have room := tracked_fits sized.1
    have few := tracked_lt sized.2
    have aligned := (inv.map.aligned e member usable).1
    have mapped := window e member usable
    exact ⟨by omega, by omega, by omega, by omega⟩
  exact ⟨inv.apart, fun g taken => ⟨inv.pages g taken, (each g taken).1⟩,
    fun g taken => (each g taken).2.1, fun g taken => (each g taken).2.2.1,
    fun g taken => (each g taken).2.2.2⟩

/-- The allocator of `pmm.c`. -/
def pmm : PageAllocator where
  kmalloc := kmalloc
  Ready k := PmmInv k ∧ DirectMapped k
  ledger := fun ready => ready.1.ledgerOk ready.2
  frame := by
    rintro k k' ⟨inv, window⟩ memmap hhdm freed granted total same
    refine ⟨inv.frame memmap hhdm freed granted total same, ?_⟩
    unfold DirectMapped
    rw [memmap, hhdm]
    exact window
  ready := by
    rintro k k' owner n addr ⟨inv, window⟩ h
    have setup := (kmalloc_allocates inv window h).setup
    refine ⟨inv.of_kmalloc h, ?_⟩
    unfold DirectMapped
    rw [setup.memmap, setup.hhdm]
    exact window
  allocates := fun ready h => kmalloc_allocates ready.1 ready.2 h

/-! ### Steps of clients -/

/-- A step from `k` to `k'` of a client that owns the runs in `who`: it may get
new runs for itself and write its own ones. -/
structure Touches (A : PageAllocator) (who : Grant → Prop) (k k' : Kernel) : Prop where
  ready : A.Ready k'
  setup : SameSetup k k'
  ledger : ∃ new, k'.granted = k.granted ++ new ∧ ∀ g ∈ new, who g
  kept : ∀ g ∈ k.granted, ¬ who g → ∀ p, InRange g.addr (g.pages * 4096) p → k'.phys p = k.phys p

namespace Touches

variable {A : PageAllocator} {who : Grant → Prop} {k k' k'' : Kernel}

theorem refl (ready : A.Ready k) : Touches A who k k :=
  ⟨ready, .refl k, ⟨[], by simp⟩, fun _ _ _ _ _ => rfl⟩

theorem granted (step : Touches A who k k') {g : Grant} (taken : g ∈ k.granted) : g ∈ k'.granted := by
  obtain ⟨new, ledger, _⟩ := step.ledger
  rw [ledger]
  exact List.mem_append_left _ taken

theorem trans (first : Touches A who k k') (second : Touches A who k' k'') : Touches A who k k'' := by
  obtain ⟨new, ledger, mine⟩ := first.ledger
  obtain ⟨new', ledger', mine'⟩ := second.ledger
  refine ⟨second.ready, first.setup.trans second.setup, ⟨new ++ new', ?_, ?_⟩, ?_⟩
  · rw [ledger', ledger, List.append_assoc]
  · intro g member
    rcases List.mem_append.mp member with here | there
    · exact mine g here
    · exact mine' g there
  · intro g taken other p inside
    rw [second.kept g (first.granted taken) other p inside, first.kept g taken other p inside]

theorem mono {who' : Grant → Prop} (step : Touches A who k k') (more : ∀ g, who g → who' g) :
    Touches A who' k k' := by
  obtain ⟨new, ledger, mine⟩ := step.ledger
  exact ⟨step.ready, step.setup, ⟨new, ledger, fun g member => more g (mine g member)⟩,
    fun g taken other => step.kept g taken fun own => other (more g own)⟩

/-- The same in addresses of the direct map. -/
theorem byte_kept (step : Touches A who k k') {g : Grant} (taken : g ∈ k.granted) (other : ¬ who g) {x : Nat}
    (inside : InRange (g.addr + k.hhdm) (g.pages * 4096) x) : k'.mem x = k.mem x := by
  have byte := step.kept g taken other (x - k.hhdm) (by unfold InRange at *; omega)
  unfold Kernel.phys at byte
  have shift : x - k.hhdm + k.hhdm = x := by unfold InRange at inside; omega
  rwa [step.setup.hhdm, shift] at byte

theorem kmalloc {owner : Owner} {n addr : Nat} (ready : A.Ready k)
    (h : A.kmalloc owner n k = .ok (addr, k')) (mine : who ⟨owner, addr, n⟩) : Touches A who k k' := by
  have allocates := A.allocates ready h
  refine ⟨A.ready ready h, allocates.setup, ⟨_, allocates.ledger, ?_⟩, ?_⟩
  · intro g member
    obtain rfl := List.mem_singleton.mp member
    exact mine
  · intro g taken _ p inside
    exact allocates.kept p ⟨g, taken, inside⟩

theorem write {m : Mem} (ready : A.Ready k)
    (own : ∀ x, m x ≠ k.mem x → ∃ g ∈ k.granted, who g ∧ InRange (g.addr + k.hhdm) (g.pages * 4096) x) :
    Touches A who k (k.setMem m) := by
  refine ⟨A.frame ready rfl rfl rfl rfl rfl ?_, .setMem k m, ⟨[], by simp⟩, ?_⟩
  · intro p free
    by_contra changed
    obtain ⟨g, taken, _, inside⟩ := own _ changed
    rw [Kernel.setMem_hhdm] at inside
    exact free ⟨g, taken, by unfold InRange at *; omega⟩
  · intro g taken other p inside
    by_contra changed
    obtain ⟨g', taken', mine, inside'⟩ := own _ changed
    have symmetric : Std.Symm Grant.Apart := ⟨fun _ _ => apart_comm.mp⟩
    have separate := (A.ledger ready).apart.forall taken taken' (by rintro rfl; exact other mine)
    refine not_inRange_of_apart separate inside ?_
    rw [Kernel.setMem_hhdm] at inside'
    unfold InRange at *
    omega

end Touches

end PotatOS.Mem
