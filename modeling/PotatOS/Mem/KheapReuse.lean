import PotatOS.Mem.KheapRuns

/-!
# Reuse of freed heap space

Whether `malloc` needs new pages is decided by the sizes of the pools: both of its
comparisons are strict, and a pool that was cut is exactly as large as its block.
-/

namespace PotatOS.Mem

open Memory Prog

/-- The pool can serve a request, whole or by its end. -/
def Cell.Fits (c : Cell) (size : Nat) : Prop :=
  c.free = true ∧ size + 26 < c.size ∨ c.required + size + 26 < c.size

/-- `free(p)` followed at once by `malloc(s)`. -/
def freeMalloc (A : PageAllocator) (p s : Nat) : KernelM Nat := do
  free p
  malloc A.kmalloc s

/-- The block is served without a call of `kmalloc`. -/
def Reuses (A : PageAllocator) (k : Kernel) (p s : Nat) : Prop :=
  ∃ q k', freeMalloc A p s k = .ok (q, k') ∧ k'.granted = k.granted

section reuse

variable {A : PageAllocator} {k k' : Kernel} {live : List (Nat × Nat)} {cells : List Cell} {size : Nat}

/-- The first pool that fits serves the request. -/
theorem mallocFrom_fits (kmalloc : Owner → Nat → KernelM Nat) {fuel : Nat} (small : size < 2 ^ 63)
    (linked : Linked k.mem 0 cells) (cell : ∀ c ∈ cells, 0 < c.addr ∧ c.size < 2 ^ 52 ∧ c.required ≤ c.size + 1)
    (enough : cells.length ≤ fuel) (some : ∃ c ∈ cells, c.Fits size) :
    ∃ p m, mallocFrom kmalloc size fuel (headAddr 0 cells) k = .ok (p, k.setMem m) := by
  induction cells generalizing fuel with
  | nil => simp at some
  | cons c rest ih =>
    obtain ⟨fuel, rfl⟩ : ∃ n, fuel = n + 1 := ⟨fuel - 1, by simp at enough; omega⟩
    rw [headAddr, mallocFrom_cons kmalloc small linked cell]
    by_cases reuse : c.free = true ∧ size + 26 < c.size
    · rw [if_pos reuse]
      exact ⟨_, _, rfl⟩
    by_cases slack : c.required + size + 26 < c.size
    · rw [if_neg reuse, if_pos slack]
      exact ⟨_, _, rfl⟩
    have later : ∃ d ∈ rest, d.Fits size := by
      obtain ⟨d, member, fits⟩ := some
      rcases List.mem_cons.mp member with rfl | tail
      · exact absurd fits (by unfold Cell.Fits; tauto)
      · exact ⟨d, tail, fits⟩
    have more : rest ≠ [] := by
      rintro rfl
      simp at later
    rw [if_neg reuse, if_neg slack, if_neg more]
    exact ih linked.2 (fun d member => cell d (List.mem_cons_of_mem _ member)) (by simpa using enough) later

theorem mallocFrom_full (kmalloc : Owner → Nat → KernelM Nat) {fuel : Nat} (small : size < 2 ^ 63)
    (nonempty : cells ≠ []) (linked : Linked k.mem 0 cells)
    (cell : ∀ c ∈ cells, 0 < c.addr ∧ c.size < 2 ^ 52 ∧ c.required ≤ c.size + 1) (enough : cells.length ≤ fuel)
    (none : ∀ c ∈ cells, ¬ c.Fits size) :
    ∃ c ∈ cells, mallocFrom kmalloc size fuel (headAddr 0 cells) k = growHeap kmalloc c.addr size k := by
  have found := mallocFrom_cases kmalloc small nonempty linked cell enough
  generalize mallocFrom kmalloc size fuel (headAddr 0 cells) k = r at found ⊢
  cases found with
  | take front back c split free fits => exact absurd (.inl ⟨free, fits⟩) (none c (by simp [split]))
  | cut front back c split fits => exact absurd (.inr fits) (none c (by simp [split]))
  | grow front c split => exact ⟨c, by simp [split], rfl⟩

/-- `malloc` returns without new pages exactly when a pool fits. -/
theorem malloc_reuses_iff (ready : A.Ready k) (rep : HeapRep k live cells) (small : size < 2 ^ 63) :
    (∃ p k', malloc A.kmalloc size k = .ok (p, k') ∧ k'.granted = k.granted) ↔ ∃ c ∈ cells, c.Fits size := by
  have cell : ∀ c ∈ cells, 0 < c.addr ∧ c.size < 2 ^ 52 ∧ c.required ≤ c.size + 1 := fun c member =>
    ⟨(rep.bounds member).1, (rep.bounds member).2.2, (rep.sized c member).2.2⟩
  rw [malloc, bind_eq run_get, rep.start]
  constructor
  · rintro ⟨p, k', h, same⟩
    by_contra full
    have none : ∀ c ∈ cells, ¬ c.Fits size := fun c member fits => full ⟨c, member, fits⟩
    obtain ⟨c, _, grows⟩ := mallocFrom_full A.kmalloc small rep.nonempty rep.linked cell rep.few none
    rw [grows] at h
    obtain ⟨run, n, k₁, d, _, got, _, _, _, _, _, _, rfl⟩ := HeapRep.growHeap_ok ready small h
    rw [Kernel.setMem_granted, (A.allocates ready got).ledger] at same
    simp at same
  · intro some
    obtain ⟨p, m, h⟩ := mallocFrom_fits A.kmalloc small rep.linked cell rep.few some
    exact ⟨p, _, h, rfl⟩

/-- A freed block is reused exactly when its own pool is larger than the block needs, or
another pool of the chain fits. -/
theorem free_malloc_reuses_iff {boot : Kernel} {b : Nat × Nat} (ready : A.Ready boot)
    (none : ∀ g ∈ boot.granted, ¬ OfHeap g) (run : HeapRun A boot k live) (member : b ∈ live) :
    ∃ cells : List Cell, k.kheapStart = headAddr 0 cells ∧ Linked k.mem 0 cells ∧ (∀ c ∈ cells, 0 < c.addr) ∧
      (Reuses A k b.1 b.2 ↔
        ∃ c ∈ cells, c.addr + 26 = b.1 ∧ b.2 + 26 < c.size ∨ c.addr + 26 ≠ b.1 ∧ c.Fits b.2) := by
  obtain ⟨ready, cells, rep⟩ := run.inv ready none
  refine ⟨cells, rep.start, rep.linked, fun c inCells => (rep.bounds inCells).1, ?_⟩
  obtain ⟨c, inCells, taken, start, required⟩ := rep.blocks b member
  obtain ⟨front, back, rfl⟩ := List.append_of_mem inCells
  have bounds := rep.bounds inCells
  have sized := rep.sized c inCells
  have freed := rep.free_run start
  have after := rep.freed member start
  obtain ⟨k₁, same, _, touched, _⟩ := rep.free_ok ready member
  obtain ⟨_, rfl⟩ := Prod.mk.inj (Except.ok.inj (freed.symm.trans same))
  have served : Reuses A k b.1 b.2 ↔ ∃ d ∈ front ++ ([⟨c.addr, c.size, 26, true⟩] ++ back), d.Fits b.2 := by
    rw [Reuses, ← malloc_reuses_iff touched.ready after (by omega), freeMalloc, bind_eq freed]
    rfl
  have own : Cell.Fits ⟨c.addr, c.size, 26, true⟩ b.2 ↔ b.2 + 26 < c.size := by
    simp only [Cell.Fits, true_and]
    omega
  have apart : ∀ d ∈ front ++ back, d.addr ≠ c.addr := by
    have nodup := rep.addr_nodup
    rw [List.map_append, List.map_cons] at nodup
    intro d listed here
    have distinct := (List.nodup_middle.mp nodup)
    refine (List.nodup_cons.mp distinct).1 ?_
    rw [← here, ← List.map_append]
    exact List.mem_map_of_mem listed
  rw [served]
  constructor
  · rintro ⟨d, listed, fits⟩
    by_cases same : d = ⟨c.addr, c.size, 26, true⟩
    · subst same
      exact ⟨c, inCells, .inl ⟨start.symm, own.mp fits⟩⟩
    · have other : d ∈ front ++ back := by simpa [same] using listed
      have far := apart d other
      exact ⟨d, by simp at other ⊢; tauto, .inr ⟨by omega, fits⟩⟩
  · rintro ⟨d, listed, ⟨here, fits⟩ | ⟨other, fits⟩⟩
    · obtain rfl := rep.cell_eq listed inCells (by omega)
      exact ⟨_, by simp, own.mpr fits⟩
    · have different : d ≠ c := by
        rintro rfl
        exact other start.symm
      exact ⟨d, by simp [different] at listed ⊢; tauto, fits⟩

/-- Two blocks on a new heap: the first pool is cut behind the first block. -/
def cutHeap : KernelM (Nat × Nat) := do
  initKheap pmm.kmalloc
  let p ← malloc pmm.kmalloc 4070
  let q ← malloc pmm.kmalloc 100
  return (p, q)

theorem cutHeap_run {boot : Kernel} {p q : Nat} (h : cutHeap boot = .ok ((p, q), k)) :
    HeapRun pmm boot k [(q, 100), (p, 4070)] := by
  obtain ⟨_, k₁, started, h⟩ := bind_ok h
  obtain ⟨p', k₂, first, h⟩ := bind_ok h
  obtain ⟨q', k₃, second, h⟩ := bind_ok h
  obtain ⟨same, rfl⟩ := pure_ok h
  obtain ⟨rfl, rfl⟩ := Prod.mk.inj same
  exact .malloc (.malloc (.init started) (by decide) first) (by decide) second

theorem free_malloc_reuses_iff_smallMachine : ∃ k live b, HeapRun pmm smallMachineReady k live ∧ b ∈ live ∧
    ∃ cells : List Cell, k.kheapStart = headAddr 0 cells ∧ Linked k.mem 0 cells ∧ (∀ c ∈ cells, 0 < c.addr) ∧
      (Reuses pmm k b.1 b.2 ↔
        ∃ c ∈ cells, c.addr + 26 = b.1 ∧ b.2 + 26 < c.size ∨ c.addr + 26 ≠ b.1 ∧ c.Fits b.2) := by
  have check : returns cutHeap smallMachineReady (fun _ _ => true) = true := by decide +kernel
  obtain ⟨⟨p, q⟩, k, h, _⟩ := returns_iff.mp check
  have run := cutHeap_run h
  exact ⟨k, _, (p, 4070), run, by simp, free_malloc_reuses_iff smallMachineReady_ready
    (by simp [smallMachineReady, smallMachine]) run (by simp)⟩

/-- Freeing the first block and asking for it again takes a new page. -/
theorem freed_block_not_reused : ∃ k p q, HeapRun pmm smallMachineReady k [(q, 100), (p, 4070)] ∧
    ¬ Reuses pmm k p 4070 := by
  have check : returns cutHeap smallMachineReady (fun r k =>
      returns (freeMalloc pmm r.1 4070) k fun _ k' => k'.granted.length == k.granted.length + 1) = true := by
    decide +kernel
  obtain ⟨⟨p, q⟩, k, h, check⟩ := returns_iff.mp check
  obtain ⟨a, k', served, more⟩ := returns_iff.mp check
  refine ⟨k, p, q, cutHeap_run h, ?_⟩
  rintro ⟨a', k'', served', same⟩
  obtain ⟨_, rfl⟩ := Prod.mk.inj (Except.ok.inj (served.symm.trans served'))
  simp [same] at more

end reuse

end PotatOS.Mem
