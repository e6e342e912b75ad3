import PotatOS.Mem.KheapSafety

/-!
# Whole runs of the kernel heap

`malloc` and `free` keep the representation and touch only the heap's own runs,
whatever allocator of pages is underneath.
-/

namespace PotatOS.Mem

open Memory Prog

def OfHeap (g : Grant) : Prop := g.owner = .heap

theorem heapRuns_append {k k' : Kernel} {addr n : Nat} (hhdm : k'.hhdm = k.hhdm)
    (ledger : k'.granted = k.granted ++ [⟨.heap, addr, n⟩]) :
    heapRuns k' = heapRuns k ++ [(addr + k.hhdm, addr + k.hhdm + n * 4096)] := by
  simp [heapRuns, ledger, hhdm]

theorem heapRuns_congr {k k' : Kernel} {new : List Grant} (hhdm : k'.hhdm = k.hhdm)
    (ledger : k'.granted = k.granted ++ new) (others : ∀ g ∈ new, ¬ OfHeap g) : heapRuns k' = heapRuns k := by
  have none : new.filter (fun g => g.owner = .heap) = [] := by
    rw [List.filter_eq_nil_iff]
    intro g member heap
    exact others g member (by simpa [OfHeap] using heap)
  simp [heapRuns, ledger, hhdm, none]

namespace HeapRep

variable {A : PageAllocator} {k k' : Kernel} {live : List (Nat × Nat)} {cells : List Cell}

theorem frame (rep : HeapRep k live cells) (start : k'.kheapStart = k.kheapStart)
    (runs : heapRuns k' = heapRuns k)
    (same : ∀ c ∈ cells, ∀ x, InRange c.addr 26 x → k'.mem x = k.mem x) : HeapRep k' live cells := by
  refine ⟨start.trans rep.start, rep.nonempty, linked_congr same rep.linked, ?_, ?_, ?_, rep.sized,
    rep.blocks, rep.distinct⟩
  · rw [runs]; exact rep.tiled
  · rw [runs]; exact rep.runs
  · rw [runs]; exact rep.runsApart

theorem cells_kept (rep : HeapRep k live cells) (hhdm : k'.hhdm = k.hhdm)
    (kept : ∀ g ∈ k.granted, OfHeap g → ∀ p, InRange g.addr (g.pages * 4096) p → k'.phys p = k.phys p) :
    ∀ c ∈ cells, ∀ x, InRange c.addr (c.size + 1) x → k'.mem x = k.mem x := by
  intro c member x inside
  obtain ⟨g, taken, heap, here⟩ := rep.owned member inside
  have byte := kept g taken heap (x - k.hhdm) (by unfold InRange at *; omega)
  unfold Kernel.phys at byte
  have shift : x - k.hhdm + k.hhdm = x := by unfold InRange at here; omega
  rwa [hhdm, shift] at byte

theorem touches (rep : HeapRep k live cells) (ready : A.Ready k) {c : Cell} {m : Mem} (member : c ∈ cells)
    (outside : ∀ x, ¬ InRange c.addr (c.size + 1) x → m x = k.mem x) : Touches A OfHeap k (k.setMem m) := by
  refine .write ready fun x changed => ?_
  have inside : InRange c.addr (c.size + 1) x := by
    by_contra far
    exact changed (outside x far)
  exact rep.owned member inside

theorem extend {front : List Cell} {c d : Cell} {size : Nat} (rep : HeapRep k live (front ++ [c]))
    (start : k'.kheapStart = k.kheapStart)
    (runs : heapRuns k' = heapRuns k ++ [(d.addr, d.addr + d.size + 1)])
    (same : ∀ e ∈ front, ∀ x, InRange e.addr 26 x → k'.mem x = k.mem x)
    (last : loadPool k'.mem c.addr = c.pool d.addr) (new : loadPool k'.mem d.addr = d.pool 0)
    (bounds : 0 < d.addr ∧ d.addr + d.size + 1 ≤ 2 ^ 64 ∧ d.size < 2 ^ 52)
    (fresh : ∀ r ∈ heapRuns k, r.2 ≤ d.addr ∨ d.addr + d.size + 1 ≤ r.1)
    (sized : 26 ≤ d.size ∧ d.required ≤ d.size + 1) (taken : d.free = false)
    (required : d.required = size + 26) :
    HeapRep k' ((d.addr + 26, size) :: live) (front ++ [c] ++ [d]) := by
  have pieces := linked_append.mp rep.linked
  refine ⟨?_, by simp, ?_, ?_, ?_, ?_, ?_, ?_, ?_⟩
  · rw [start, rep.start]
    cases front <;> rfl
  · rw [List.append_assoc]
    exact linked_append.mpr ⟨linked_congr same pieces.1, last, new, trivial⟩
  · rw [runs]
    exact tiled_append rep.tiled
  · rw [runs]
    intro r member
    rcases List.mem_append.mp member with old | fresh
    · exact rep.runs r old
    · obtain rfl := List.mem_singleton.mp fresh
      exact ⟨by dsimp only; omega, by dsimp only; omega, by dsimp only; omega, by dsimp only; omega⟩
  · rw [runs]
    refine List.pairwise_append.mpr ⟨rep.runsApart, List.pairwise_singleton _ _, ?_⟩
    intro r old s member
    obtain rfl := List.mem_singleton.mp member
    exact fresh r old
  · intro e member
    rcases List.mem_append.mp member with old | fresh
    · exact rep.sized e old
    · obtain rfl := List.mem_singleton.mp fresh
      exact ⟨sized.1, by omega, sized.2⟩
  · intro b member
    rcases List.mem_cons.mp member with rfl | old
    · exact ⟨d, by simp, taken, rfl, required⟩
    · exact rep.blocks_mono (fun e listed used => ⟨e, List.mem_append_left _ listed, used, rfl, rfl⟩) b old
  · refine List.nodup_cons.mpr ⟨rep.fresh_block ?_, rep.distinct⟩
    intro e listed _ here
    obtain ⟨r, inRuns, lower, upper⟩ := tiled_inside rep.tiled e listed
    have separate := fresh r inRuns
    omega

theorem fresh_run {owner : Owner} {n addr : Nat} (rep : HeapRep k live cells) (alloc : Allocates k k' owner n addr) :
    ∀ r ∈ heapRuns k, r.2 ≤ addr + k.hhdm ∨ addr + k.hhdm + n * 4096 ≤ r.1 := by
  intro r member
  have some := rep.runs r member
  have pages := alloc.pages
  obtain ⟨g, inLedger, rfl⟩ := List.mem_map.mp member
  have separate := alloc.fresh g (List.mem_filter.mp inLedger).1
  unfold Grant.Apart Apart at separate
  dsimp only at *
  omega

/-- What `growHeap` does, with the new pool as a cell `d`. -/
theorem growHeap_ok {thisPool size p : Nat} (ready : A.Ready k) (small : size < 2 ^ 63)
    (h : growHeap A.kmalloc thisPool size k = .ok (p, k')) :
    ∃ (run n : Nat) (k₁ : Kernel) (d : Cell), n = (size + 26 + 4095) / 4096 ∧ A.kmalloc .heap n k = .ok (run, k₁) ∧
      d.addr = run + k.hhdm ∧ d.size + 1 = n * 4096 ∧ d.required = size + 26 ∧ d.free = false ∧ d.required ≤ d.size + 1 ∧
      d.addr + 26 = p ∧
      k₁.setMem (storePool (setNextPool k₁.mem thisPool d.addr) d.addr (d.pool 0)) = k' := by
  have total : add64 size sizeofPool = size + 26 := add64_of_lt (by unfold sizeofPool; omega)
  have aligned : pageAlignUp (size + 26) = (size + 26 + 4095) / 4096 * 4096 := by
    rw [pageAlignUp, add64_of_lt (by omega)]
  unfold growHeap at h
  rw [total] at h
  generalize pageAlignUp (size + 26) = newPoolSize at aligned h
  obtain ⟨run, k₁, got, h⟩ := bind_ok h
  have alloc := A.allocates ready got
  have mapped := alloc.mapped
  have pages := alloc.pages
  have pool : createPool newPoolSize (size + 26) 0 false =
      Cell.pool ⟨run + k.hhdm, newPoolSize - 1, size + 26, false⟩ 0 := by
    rw [createPool, sub64_of_le (by omega)]
    rfl
  rw [bind_eq run_get, alloc.setup.hhdm, add64_of_lt (by omega), pool, bind_eq (run_modify _),
    bind_eq (run_modify _)] at h
  obtain ⟨rfl, rfl⟩ := pure_ok h
  exact ⟨run, newPoolSize / 4096, k₁, ⟨run + k.hhdm, newPoolSize - 1, size + 26, false⟩, by omega, got, rfl,
    by dsimp only; omega, rfl, rfl, by dsimp only; omega, rfl, rfl⟩

theorem grow {front : List Cell} {c : Cell} {size p : Nat} (rep : HeapRep k live (front ++ [c]))
    (ready : A.Ready k) (small : size < 2 ^ 63) (h : growHeap A.kmalloc c.addr size k = .ok (p, k')) :
    (∃ d : Cell, HeapRep k' ((p, size) :: live) (front ++ [c] ++ [d]) ∧ d.free = false ∧ d.addr + 26 = p ∧
      d.required = size + 26 ∧ d.size + 1 = (size + 26 + 4095) / 4096 * 4096) ∧ Touches A OfHeap k k' ∧
      ∀ d ∈ front ++ [c], ∀ x, InRange d.addr (d.size + 1) x → ¬ InRange c.addr 26 x → k'.mem x = k.mem x := by
  obtain ⟨run, n, k₁, d, whole, got, start, extent, required, used, fits, rfl, rfl⟩ := growHeap_ok ready small h
  have alloc := A.allocates ready got
  have mapped := alloc.mapped
  have pages := alloc.pages
  have positive := alloc.positive
  have first : Touches A OfHeap k k₁ := .kmalloc ready got rfl
  have inCells : c ∈ front ++ [c] := by simp
  have sized := rep.sized c inCells
  have fresh : ∀ r ∈ heapRuns k, r.2 ≤ d.addr ∨ d.addr + d.size + 1 ≤ r.1 := by
    intro r member
    have separate := rep.fresh_run alloc r member
    omega
  have apart : ∀ e ∈ front ++ [c], ∀ x, InRange e.addr (e.size + 1) x → ¬ InRange d.addr 26 x := by
    intro e member x inside
    obtain ⟨r, inRuns, lower, upper⟩ := tiled_inside rep.tiled e member
    have separate := fresh r inRuns
    unfold InRange at *
    omega
  have granted := rep.cells_kept alloc.setup.hhdm fun g taken _ q inside => alloc.kept q ⟨g, taken, inside⟩
  have header : loadPool k₁.mem c.addr = c.pool 0 := by
    rw [← show loadPool k.mem c.addr = c.pool 0 from (linked_append.mp rep.linked).2.1]
    exact loadPool_congr fun x inside => granted c inCells x (by unfold InRange at *; omega)
  have kept : ∀ e ∈ front ++ [c], ∀ x, InRange e.addr (e.size + 1) x → ¬ InRange c.addr 26 x →
      storePool (setNextPool k₁.mem c.addr d.addr) d.addr (d.pool 0) x = k.mem x := by
    intro e member x inside other
    rw [storePool_outside (apart e member x inside), setNextPool_outside other, granted e member x inside]
  refine ⟨⟨d, ?_, used, rfl, required, by rw [extent, whole]⟩, ?_, kept⟩
  · refine rep.extend alloc.setup.heap ?_ ?_ ?_ ?_ ?_ fresh ⟨by omega, fits⟩ used required
    · rw [Nat.add_assoc, extent, start]
      exact heapRuns_append alloc.setup.hhdm alloc.ledger
    · intro e member x inside
      have listed : e ∈ front ++ [c] := List.mem_append_left _ member
      have eSized := rep.sized e listed
      have different : e ≠ c := by
        rintro rfl
        have nodup := rep.addr_nodup
        rw [List.map_append] at nodup
        exact (List.nodup_append.mp nodup).2.2 _ (List.mem_map_of_mem member) _ (by simp) rfl
      have separate := rep.cells_apart listed inCells different
      unfold Cell.Apart Apart at separate
      exact kept e listed x (by unfold InRange at *; omega) (by unfold InRange at *; omega)
    · have near : loadPool (storePool (setNextPool k₁.mem c.addr d.addr) d.addr (d.pool 0)) c.addr =
          loadPool (setNextPool k₁.mem c.addr d.addr) c.addr :=
        loadPool_congr fun x inside =>
          storePool_outside (apart c inCells x (by unfold InRange at *; omega))
      rw [Kernel.setMem_mem, near, loadPool_setNextPool (by omega), header]
      rfl
    · exact loadPool_storePool (by show 69 < 256; omega) (by show d.size < _; omega)
        (by show d.required < _; omega) (by show 0 < 2 ^ 64; omega)
    · exact ⟨by omega, by omega, by omega⟩
  · refine first.trans (.write first.ready fun x changed => ?_)
    by_cases here : InRange c.addr 26 x
    · obtain ⟨g, taken, heap, inside⟩ := rep.owned inCells (x := x) (by unfold InRange at *; omega)
      exact ⟨g, first.granted taken, heap, by rwa [alloc.setup.hhdm]⟩
    · refine ⟨⟨.heap, run, n⟩, alloc.taken, rfl, ?_⟩
      by_contra far
      rw [alloc.setup.hhdm] at far
      dsimp only at far
      refine changed ?_
      rw [storePool_outside (by unfold InRange at *; omega), setNextPool_outside here]

/-- What a returning `malloc` does. -/
theorem malloc_ok {size p : Nat} (rep : HeapRep k live cells) (ready : A.Ready k) (small : size < 2 ^ 63)
    (h : malloc A.kmalloc size k = .ok (p, k')) :
    (∃ cells', HeapRep k' ((p, size) :: live) cells') ∧ Touches A OfHeap k k' ∧
      ∀ b ∈ live, ∀ x, InRange b.1 b.2 x → k'.mem x = k.mem x := by
  have found := rep.malloc_cases A.kmalloc small
  rw [h] at found
  generalize result : Except.ok (p, k') = r at found
  cases found with
  | take front back c split free fits =>
    subst split
    obtain ⟨rfl, rfl⟩ := Prod.mk.inj (Except.ok.inj result)
    have inCells : c ∈ front ++ c :: back := by simp
    have outside : ∀ x, ¬ InRange c.addr 26 x →
        setRequiredSize (setFree k.mem c.addr false) c.addr (size + 26) x = k.mem x := by
      intro x far
      rw [setRequiredSize_outside far, setFree_outside far]
    refine ⟨⟨_, rep.take free fits⟩, rep.touches ready inCells ?_, ?_⟩
    · intro x far
      exact outside x (by unfold InRange at *; omega)
    · intro b member x inside
      exact outside x (not_inRange_of_apart (rep.block_header_apart member inCells) inside)
  | cut front back c split fits =>
    subst split
    have inCells : c ∈ front ++ c :: back := by simp
    have sized := rep.sized c inCells
    obtain ⟨m, run, outside, after⟩ := rep.cut fits
    rw [bind_eq run, run_pure] at result
    obtain ⟨rfl, rfl⟩ := Prod.mk.inj (Except.ok.inj result)
    refine ⟨⟨_, after⟩, rep.touches ready inCells ?_, ?_⟩
    · intro x far
      exact outside x (by unfold InRange at *; omega) (by unfold InRange at *; omega)
    · intro b member x inside
      refine outside x (not_inRange_of_apart (rep.block_header_apart member inCells) inside) ?_
      -- The new header lies behind the bytes that the cell's own block needs.
      obtain ⟨d, inCells', _, start, required, fitsBlock⟩ := rep.block member
      by_cases same : d = c
      · subst d
        unfold InRange at *
        omega
      · have separate := rep.cells_apart inCells' inCells same
        unfold Cell.Apart Apart at separate
        unfold InRange at *
        omega
  | grow front c split =>
    subst split
    obtain ⟨⟨d, after, _⟩, touched, kept⟩ := rep.grow ready small result.symm
    refine ⟨⟨_, after⟩, touched, ?_⟩
    intro b member x inside
    obtain ⟨d, inCells, _, start, _, fits⟩ := rep.block member
    refine kept d inCells x (by unfold InRange at *; omega) ?_
    exact not_inRange_of_apart (rep.block_header_apart member (by simp)) inside

theorem malloc_error {size : Nat} {reason : Stop} (rep : HeapRep k live cells) (small : size < 2 ^ 63)
    (h : malloc A.kmalloc size k = .error reason) : ∃ n, A.kmalloc .heap n k = .error reason := by
  have found := rep.malloc_cases A.kmalloc small
  rw [h] at found
  generalize result : Except.error reason = r at found
  cases found with
  | take => cases result
  | cut front back c split fits =>
    subst split
    obtain ⟨m, run, _⟩ := rep.cut fits
    rw [bind_eq run] at result
    cases result
  | grow front c split =>
    cases got : A.kmalloc .heap (pageAlignUp (add64 size sizeofPool) / 4096) k with
    | error e =>
      refine ⟨_, got.trans ?_⟩
      simp only [growHeap, bind, StateT.bind, Except.bind, got]
    | ok pair =>
      unfold growHeap at result
      rw [bind_eq got, bind_eq run_get, bind_eq (run_modify _), bind_eq (run_modify _)] at result
      cases result

/-- `free` of a live block writes the header of its cell. -/
theorem free_run {front back : List Cell} {c : Cell} {p : Nat} (rep : HeapRep k live (front ++ c :: back))
    (start : p = c.addr + 26) :
    free p k = .ok ((), k.setMem (setRequiredSize (setFree k.mem c.addr true) c.addr 26)) := by
  have header := (linked_append.mp rep.linked).2.1
  have pool : sub64 p sizeofPool = c.addr := by
    rw [start, sizeofPool, sub64_of_le (by omega)]
    omega
  rw [free, bind_eq run_get, pool, if_neg (by rw [header]; simp [Cell.pool]), bind_eq (run_modify _)]
  rfl

theorem free_ok {b : Nat × Nat} (rep : HeapRep k live cells) (ready : A.Ready k) (member : b ∈ live) :
    ∃ k', free b.1 k = .ok ((), k') ∧ (∃ cells', HeapRep k' (live.erase b) cells') ∧ Touches A OfHeap k k' ∧
      ∀ b' ∈ live, ∀ x, InRange b'.1 b'.2 x → k'.mem x = k.mem x := by
  obtain ⟨c, inCells, _, start, _⟩ := rep.block member
  obtain ⟨front, back, rfl⟩ := List.append_of_mem inCells
  have sized := rep.sized c inCells
  have outside : ∀ x, ¬ InRange c.addr 26 x →
      setRequiredSize (setFree k.mem c.addr true) c.addr 26 x = k.mem x := by
    intro x far
    rw [setRequiredSize_outside far, setFree_outside far]
  refine ⟨_, rep.free_run start, ⟨_, rep.freed member start⟩, rep.touches ready inCells ?_, ?_⟩
  · intro x far
    exact outside x (by unfold InRange at *; omega)
  · intro b' other x inside
    exact outside x (not_inRange_of_apart (rep.block_header_apart other inCells) inside)

theorem of_touches {who : Grant → Prop} (rep : HeapRep k live cells) (others : ∀ g, who g → ¬ OfHeap g)
    (step : Touches A who k k') : HeapRep k' live cells := by
  obtain ⟨new, ledger, mine⟩ := step.ledger
  have kept := rep.cells_kept step.setup.hhdm fun g taken heap p inside =>
    step.kept g taken (fun own => others g own heap) p inside
  refine rep.frame step.setup.heap (heapRuns_congr step.setup.hhdm ledger fun g member =>
    others g (mine g member)) fun c member x inside => kept c member x ?_
  have sized := rep.sized c member
  unfold InRange at *
  omega

theorem write_block {b : Nat × Nat} {m : Mem} (rep : HeapRep k live cells) (ready : A.Ready k) (member : b ∈ live)
    (outside : ∀ x, ¬ InRange b.1 b.2 x → m x = k.mem x) :
    HeapRep (k.setMem m) live cells ∧ Touches A OfHeap k (k.setMem m) := by
  obtain ⟨c, inCells, _, start, _, fits⟩ := rep.block member
  constructor
  · refine rep.frame rfl rfl fun d listed y header => outside y fun inside => ?_
    exact not_inRange_of_apart (rep.block_header_apart member listed) inside header
  · refine rep.touches ready inCells fun y far => outside y ?_
    unfold InRange at *
    omega

end HeapRep

theorem initKheap_ok {A : PageAllocator} {k k' : Kernel} (ready : A.Ready k)
    (none : ∀ g ∈ k.granted, ¬ OfHeap g) (h : initKheap A.kmalloc k = .ok ((), k')) :
    A.Ready k' ∧ ∃ cells, HeapRep k' [] cells := by
  unfold initKheap at h
  obtain ⟨run, k₁, got, h⟩ := bind_ok h
  rw [bind_eq (run_modify _)] at h
  obtain rfl := modify_ok h
  have alloc := A.allocates ready got
  have mapped := alloc.mapped
  have positive := alloc.positive
  have start : add64 run k₁.hhdm = run + k.hhdm := by
    rw [alloc.setup.hhdm, add64_of_lt (by omega)]
  have empty : heapRuns k = [] := by
    rw [heapRuns, List.map_eq_nil_iff, List.filter_eq_nil_iff]
    intro g member heap
    exact none g member (by simpa [OfHeap] using heap)
  have runs := heapRuns_append alloc.setup.hhdm alloc.ledger
  rw [empty, List.nil_append] at runs
  refine ⟨A.frame (A.ready ready got) rfl rfl rfl rfl rfl ?_, [⟨run + k.hhdm, 8191, 26, true⟩], ?_⟩
  · intro p free
    refine storePool_outside fun inside => free ⟨⟨.heap, run, 2⟩, alloc.taken, ?_⟩
    change InRange (add64 run k₁.hhdm) 26 (p + k₁.hhdm) at inside
    rw [start, alloc.setup.hhdm] at inside
    show InRange run (2 * 4096) p
    unfold InRange at *
    omega
  · refine ⟨start, by simp, ⟨?_, trivial⟩, ?_, ?_, ?_, ?_, by simp, by simp⟩
    · show loadPool (storePool k₁.mem (add64 run k₁.hhdm) _) (run + k.hhdm) = _
      rw [start]
      exact loadPool_storePool (by decide) (by decide) (by decide) (by decide)
    · show Tiled (heapRuns k₁) _
      rw [runs]
      exact ⟨rfl, .inl ⟨rfl, trivial⟩⟩
    · show ∀ r ∈ heapRuns k₁, _
      rw [runs]
      intro r member
      obtain rfl := List.mem_singleton.mp member
      exact ⟨by dsimp only; omega, by dsimp only; omega, by dsimp only; omega, by dsimp only; omega⟩
    · show (heapRuns k₁).Pairwise _
      rw [runs]
      exact List.pairwise_singleton _ _
    · intro c member
      obtain rfl := List.mem_singleton.mp member
      simp

/-- The states after `initKheap` with the live blocks. Between the calls of
`malloc` and `free` a client writes its own blocks, and the rest of the kernel
takes runs from `kmalloc` and writes those. -/
inductive HeapRun (A : PageAllocator) (boot : Kernel) : Kernel → List (Nat × Nat) → Prop where
  | init {k : Kernel} (h : initKheap A.kmalloc boot = .ok ((), k)) : HeapRun A boot k []
  | malloc {k k' : Kernel} {live : List (Nat × Nat)} {s p : Nat} (before : HeapRun A boot k live)
      (small : s < 2 ^ 63) (h : malloc A.kmalloc s k = .ok (p, k')) : HeapRun A boot k' ((p, s) :: live)
  | free {k k' : Kernel} {live : List (Nat × Nat)} {b : Nat × Nat} (before : HeapRun A boot k live)
      (member : b ∈ live) (h : free b.1 k = .ok ((), k')) : HeapRun A boot k' (live.erase b)
  | write {k : Kernel} {live : List (Nat × Nat)} {b : Nat × Nat} {x v : Nat} (before : HeapRun A boot k live)
      (member : b ∈ live) (inside : InRange b.1 b.2 x) : HeapRun A boot (k.setMem (store k.mem x 1 v)) live
  | kmalloc {k k' : Kernel} {live : List (Nat × Nat)} {owner : Owner} {n addr : Nat}
      (before : HeapRun A boot k live) (other : owner ≠ .heap)
      (h : A.kmalloc owner n k = .ok (addr, k')) : HeapRun A boot k' live
  | writeRun {k : Kernel} {live : List (Nat × Nat)} {g : Grant} {p v : Nat} (before : HeapRun A boot k live)
      (taken : g ∈ k.granted) (other : g.owner ≠ .heap) (inside : InRange g.addr (g.pages * 4096) p) :
      HeapRun A boot (k.setMem (store k.mem (p + k.hhdm) 1 v)) live

theorem HeapRun.inv {A : PageAllocator} {boot k : Kernel} {live : List (Nat × Nat)} (ready : A.Ready boot)
    (none : ∀ g ∈ boot.granted, ¬ OfHeap g) (run : HeapRun A boot k live) :
    A.Ready k ∧ ∃ cells, HeapRep k live cells := by
  induction run with
  | init h => exact initKheap_ok ready none h
  | malloc before small h ih =>
    obtain ⟨ready, cells, rep⟩ := ih
    obtain ⟨after, touched, _⟩ := rep.malloc_ok ready small h
    exact ⟨touched.ready, after⟩
  | free before member h ih =>
    obtain ⟨ready, cells, rep⟩ := ih
    obtain ⟨k', same, after, touched, _⟩ := rep.free_ok ready member
    obtain ⟨_, rfl⟩ := Prod.mk.inj (Except.ok.inj (same.symm.trans h))
    exact ⟨touched.ready, after⟩
  | @write k live b x v before member inside ih =>
    obtain ⟨ready, cells, rep⟩ := ih
    have outside : ∀ y, ¬ InRange b.1 b.2 y → store k.mem x 1 v y = k.mem y := by
      intro y far
      exact store_outside (by unfold InRange at *; omega)
    obtain ⟨after, touched⟩ := rep.write_block ready member outside
    exact ⟨touched.ready, cells, after⟩
  | kmalloc before other h ih =>
    obtain ⟨ready, cells, rep⟩ := ih
    have step : Touches A (fun g => ¬ OfHeap g) _ _ := .kmalloc ready h other
    exact ⟨step.ready, cells, rep.of_touches (fun g own => own) step⟩
  | @writeRun k live g p v before taken other inside ih =>
    obtain ⟨ready, cells, rep⟩ := ih
    have step : Touches A (fun g => ¬ OfHeap g) k (k.setMem (store k.mem (p + k.hhdm) 1 v)) := by
      refine .write ready fun x changed => ⟨g, taken, other, ?_⟩
      have here : InRange (p + k.hhdm) 1 x := by
        by_contra far
        exact changed (store_outside far)
      unfold InRange at *
      omega
    exact ⟨step.ready, cells, rep.of_touches (fun g own => own) step⟩

/-- Safety of the kernel heap over whole runs. -/
theorem heap_runs_safe {A : PageAllocator} {boot k : Kernel} {live : List (Nat × Nat)}
    (ready : A.Ready boot) (none : ∀ g ∈ boot.granted, ¬ OfHeap g) (run : HeapRun A boot k live) :
    ∃ cells : List Cell,
      (k.kheapStart = headAddr 0 cells ∧ cells ≠ [] ∧ Linked k.mem 0 cells ∧
        (cells.map Cell.addr).Nodup ∧ (∀ c ∈ cells, c.addr ≠ 0) ∧ Tiled (heapRuns k) cells ∧
        ∀ s < 2 ^ 63, (∃ p k', malloc A.kmalloc s k = .ok (p, k')) ∨
          ∃ reason n, malloc A.kmalloc s k = .error reason ∧ A.kmalloc .heap n k = .error reason) ∧
      ((∀ b ∈ live, ∃ c ∈ cells, c.free = false ∧ b.1 = c.addr + 26 ∧ b.1 + b.2 ≤ c.addr + c.size + 1) ∧
        (live.map Prod.fst).Nodup ∧ (live.Pairwise fun b b' => Apart b.1 b.2 b'.1 b'.2) ∧
        ∀ b ∈ live, ∀ c ∈ cells, Apart b.1 b.2 c.addr 26) ∧
      (∀ s < 2 ^ 63, ∀ p k', malloc A.kmalloc s k = .ok (p, k') →
        ∀ b ∈ live, ∀ x, InRange b.1 b.2 x → k'.mem x = k.mem x) ∧
      ∀ b ∈ live, ∃ k', free b.1 k = .ok ((), k') ∧
        ∀ b' ∈ live, ∀ x, InRange b'.1 b'.2 x → k'.mem x = k.mem x := by
  obtain ⟨ready, cells, rep⟩ := run.inv ready none
  refine ⟨cells, ⟨rep.start, rep.nonempty, rep.linked, rep.addr_nodup, ?_, rep.tiled, ?_⟩,
    ⟨?_, rep.distinct, rep.blocks_apart, fun b member c listed => rep.block_header_apart member listed⟩,
    ?_, ?_⟩
  · intro c member
    exact Nat.ne_of_gt (rep.bounds member).1
  · intro s small
    cases h : malloc A.kmalloc s k with
    | ok pair => exact .inl ⟨pair.1, pair.2, rfl⟩
    | error reason =>
      obtain ⟨n, stopped⟩ := rep.malloc_error small h
      exact .inr ⟨reason, n, rfl, stopped⟩
  · intro b member
    obtain ⟨c, listed, taken, start, _, fits⟩ := rep.block member
    exact ⟨c, listed, taken, start, fits⟩
  · intro s small p k' h
    exact (rep.malloc_ok ready small h).2.2
  · intro b member
    obtain ⟨k', h, _, _, kept⟩ := rep.free_ok ready member
    exact ⟨k', h, kept⟩

/-- `smallMachine` after `initPMM`. -/
def smallMachineReady : Kernel :=
  { smallMachine with
    mem := fill smallMachine.mem (2 ^ 47) (64 * 4096) 0
    lastFreedPage := -1
    lastFreedSection := -1 }

theorem smallMachineReady_ready : pmm.Ready smallMachineReady := by
  have run : initPMM smallMachine = .ok ((), smallMachineReady) := rfl
  refine ⟨PmmInv.of_initPMM smallMachine_map rfl rfl run, ?_⟩
  simp [DirectMapped, smallMachineReady, smallMachine]

theorem heap_runs_safe_smallMachine : ∃ k live, HeapRun pmm smallMachineReady k live ∧ live ≠ [] ∧
    (live.Pairwise fun b b' => Apart b.1 b.2 b'.1 b'.2) := by
  have run : HeapRun pmm smallMachineReady _ _ :=
    .malloc (s := 100) (.malloc (s := 5000) (.init rfl) (by decide) rfl) (by decide) rfl
  obtain ⟨cells, _, blocks, _⟩ := heap_runs_safe smallMachineReady_ready (by simp [smallMachineReady, smallMachine]) run
  exact ⟨_, _, run, by simp, blocks.2.2.1⟩

end PotatOS.Mem
