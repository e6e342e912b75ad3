import PotatOS.Mem.KheapChain
import PotatOS.Mem.PageAllocator

/-!
# The heap representation invariant

`HeapRep` relates the memory to a list of cells and to the live blocks. Each
branch of `malloc` and `free` keeps it; `MallocCase` lists those branches once.
-/

namespace PotatOS.Mem

open Memory Prog

/-- The runs `kmalloc` gave to the heap, as ranges of the direct map. -/
def heapRuns (k : Kernel) : List (Nat × Nat) :=
  (k.granted.filter fun g => g.owner = .heap).map fun g =>
    (g.addr + k.hhdm, g.addr + k.hhdm + g.pages * 4096)

/-- A block `(p, s)` is the `s` bytes that `malloc s` returned at `p`. -/
structure HeapRep (k : Kernel) (live : List (Nat × Nat)) (cells : List Cell) : Prop where
  start : k.kheapStart = headAddr 0 cells
  nonempty : cells ≠ []
  linked : Linked k.mem 0 cells
  tiled : Tiled (heapRuns k) cells
  runs : ∀ r ∈ heapRuns k, 0 < r.1 ∧ r.1 < r.2 ∧ r.2 ≤ 2 ^ 64 ∧ r.2 ≤ r.1 + 2 ^ 52
  runsApart : (heapRuns k).Pairwise fun r s => r.2 ≤ s.1 ∨ s.2 ≤ r.1
  sized : ∀ c ∈ cells, 26 ≤ c.size ∧ 26 ≤ c.required ∧ c.required ≤ c.size + 1
  blocks : ∀ b ∈ live, ∃ c ∈ cells, c.free = false ∧ b.1 = c.addr + 26 ∧ c.required = b.2 + 26
  distinct : (live.map Prod.fst).Nodup

namespace HeapRep

variable {k : Kernel} {live : List (Nat × Nat)} {cells : List Cell}

theorem apart (rep : HeapRep k live cells) : cells.Pairwise Cell.Apart :=
  tiled_apart rep.runsApart rep.tiled

theorem bounds (rep : HeapRep k live cells) {c : Cell} (member : c ∈ cells) :
    0 < c.addr ∧ c.addr + c.size + 1 ≤ 2 ^ 64 ∧ c.size < 2 ^ 52 := by
  obtain ⟨r, inRuns, lower, upper⟩ := tiled_inside rep.tiled c member
  have limits := rep.runs r inRuns
  omega

theorem cells_apart (rep : HeapRep k live cells) {c d : Cell} (hc : c ∈ cells) (hd : d ∈ cells)
    (other : c ≠ d) : c.Apart d := by
  have symmetric : Std.Symm Cell.Apart := ⟨fun _ _ => apart_comm.mp⟩
  exact rep.apart.forall hc hd other

theorem cell_eq (rep : HeapRep k live cells) {c d : Cell} (hc : c ∈ cells) (hd : d ∈ cells)
    (same : c.addr = d.addr) : c = d := by
  by_contra other
  have separate := rep.cells_apart hc hd other
  unfold Cell.Apart Apart at separate
  omega

theorem addr_nodup (rep : HeapRep k live cells) : (cells.map Cell.addr).Nodup := by
  rw [List.Nodup, List.pairwise_map]
  refine rep.apart.imp ?_
  intro c d separate same
  unfold Cell.Apart Apart at separate
  omega

theorem owned (rep : HeapRep k live cells) {c : Cell} (member : c ∈ cells) {x : Nat}
    (inside : InRange c.addr (c.size + 1) x) :
    ∃ g ∈ k.granted, g.owner = .heap ∧ InRange (g.addr + k.hhdm) (g.pages * 4096) x := by
  obtain ⟨r, inRuns, lower, upper⟩ := tiled_inside rep.tiled c member
  obtain ⟨g, inLedger, rfl⟩ := List.mem_map.mp inRuns
  obtain ⟨taken, heap⟩ := List.mem_filter.mp inLedger
  refine ⟨g, taken, of_decide_eq_true heap, ?_⟩
  dsimp only at lower upper
  unfold InRange at *
  omega

theorem block (rep : HeapRep k live cells) {b : Nat × Nat} (member : b ∈ live) :
    ∃ c ∈ cells, c.free = false ∧ b.1 = c.addr + 26 ∧ c.required = b.2 + 26 ∧
      b.1 + b.2 ≤ c.addr + c.size + 1 := by
  obtain ⟨c, inCells, taken, start, required⟩ := rep.blocks b member
  have sized := rep.sized c inCells
  exact ⟨c, inCells, taken, start, required, by omega⟩

theorem blocks_apart (rep : HeapRep k live cells) :
    live.Pairwise fun b b' => Apart b.1 b.2 b'.1 b'.2 := by
  have distinct := List.pairwise_map.mp rep.distinct
  refine List.Pairwise.imp_of_mem ?_ distinct
  intro b b' hb hb' different
  obtain ⟨c, inCells, _, start, _, inside⟩ := rep.block hb
  obtain ⟨d, inCells', _, start', _, inside'⟩ := rep.block hb'
  have separate := rep.cells_apart inCells inCells' (by rintro rfl; omega)
  unfold Cell.Apart Apart at *
  omega

theorem block_header_apart (rep : HeapRep k live cells) {b : Nat × Nat} (member : b ∈ live) {c : Cell}
    (inCells : c ∈ cells) : Apart b.1 b.2 c.addr 26 := by
  obtain ⟨d, inCells', _, start, _, inside⟩ := rep.block member
  have sized := rep.sized c inCells
  by_cases same : d = c
  · subst d
    unfold Apart
    omega
  · have separate := rep.cells_apart inCells' inCells same
    unfold Cell.Apart Apart at *
    omega

/-- A change inside one cell leaves the rest of the chain linked. -/
theorem linked_around {front back : List Cell} {c : Cell} {m : Mem}
    (rep : HeapRep k live (front ++ c :: back))
    (outside : ∀ x, ¬ InRange c.addr (c.size + 1) x → m x = k.mem x) :
    Linked m c.addr front ∧ Linked m 0 back := by
  have pieces := linked_append.mp rep.linked
  have others : ∀ d ∈ front ++ c :: back, d ≠ c → ∀ x, InRange d.addr 26 x → m x = k.mem x := by
    intro d member other x inside
    apply outside
    have sized := rep.sized d member
    have separate := rep.cells_apart member (by simp) other
    unfold Cell.Apart Apart at separate
    unfold InRange at *
    omega
  have nodup := rep.addr_nodup
  rw [List.map_append, List.map_cons] at nodup
  obtain ⟨_, tail, cross⟩ := List.nodup_append.mp nodup
  constructor
  · refine linked_congr (fun d member => others d (by simp [member]) ?_) pieces.1
    rintro rfl
    exact cross _ (List.mem_map_of_mem member) _ List.mem_cons_self rfl
  · refine linked_congr (fun d member => others d (by simp [member]) ?_) pieces.2.2
    rintro rfl
    exact (List.nodup_cons.mp tail).1 (List.mem_map_of_mem member)

end HeapRep

/-! ### The branches of `malloc` -/

/-- What `malloc` does on a chain of cells: reuse a free pool, cut the end off
a pool, or grow the heap behind the last one. -/
inductive MallocCase (kmalloc : Owner → Nat → KernelM Nat) (k : Kernel) (size : Nat) (cells : List Cell) :
    Except Stop (Nat × Kernel) → Prop where
  | take (front back : List Cell) (c : Cell) (split : cells = front ++ c :: back)
      (free : c.free = true) (fits : size + 26 < c.size) :
      MallocCase kmalloc k size cells (.ok (c.addr + 26,
        k.setMem (setRequiredSize (setFree k.mem c.addr false) c.addr (size + 26))))
  | cut (front back : List Cell) (c : Cell) (split : cells = front ++ c :: back)
      (fits : c.required + size + 26 < c.size) :
      MallocCase kmalloc k size cells ((splitPool c.addr size >>= fun p => pure (p + 26)) k)
  | grow (front : List Cell) (c : Cell) (split : cells = front ++ [c]) :
      MallocCase kmalloc k size cells (growHeap kmalloc c.addr size k)

theorem MallocCase.cons {kmalloc : Owner → Nat → KernelM Nat} {k : Kernel} {size : Nat}
    {cells : List Cell} {r : Except Stop (Nat × Kernel)} (c : Cell)
    (found : MallocCase kmalloc k size cells r) : MallocCase kmalloc k size (c :: cells) r := by
  cases found with
  | take front back d split free fits => exact .take (c :: front) back d (by rw [split]; rfl) free fits
  | cut front back d split fits => exact .cut (c :: front) back d (by rw [split]; rfl) fits
  | grow front d split => exact .grow (c :: front) d (by rw [split]; rfl)

/-- One round of the loop of `malloc`, on a chain that starts with `c`. -/
theorem mallocFrom_cons (kmalloc : Owner → Nat → KernelM Nat) {k : Kernel} {size fuel : Nat} {c : Cell}
    {rest : List Cell} (small : size < 2 ^ 63) (linked : Linked k.mem 0 (c :: rest))
    (cell : ∀ d ∈ c :: rest, 0 < d.addr ∧ d.size < 2 ^ 52 ∧ d.required ≤ d.size + 1) :
    mallocFrom kmalloc size (fuel + 1) c.addr k =
      if c.free = true ∧ size + 26 < c.size then
        .ok (c.addr + 26, k.setMem (setRequiredSize (setFree k.mem c.addr false) c.addr (size + 26)))
      else if c.required + size + 26 < c.size then (splitPool c.addr size >>= fun p => pure (p + 26)) k
      else if rest = [] then growHeap kmalloc c.addr size k
      else mallocFrom kmalloc size fuel (headAddr 0 rest) k := by
  have bounds := cell c List.mem_cons_self
  have sum : add64 size sizeofPool = size + 26 := add64_of_lt (by unfold sizeofPool; omega)
  have total : add64 (add64 c.required size) sizeofPool = c.required + size + 26 := by
    have inner : add64 c.required size = c.required + size := add64_of_lt (by omega)
    rw [inner, sizeofPool, add64_of_lt (by omega)]
  rw [mallocFrom, bind_eq run_get, linked.1]
  by_cases reuse : c.free = true ∧ size + 26 < c.size
  · rw [if_pos (by simpa [Cell.pool, sum] using reuse), if_pos reuse, sum]
    rfl
  rw [if_neg (by simpa [Cell.pool, sum] using reuse), if_neg reuse]
  by_cases slack : c.required + size + 26 < c.size
  · rw [if_pos (by simpa [Cell.pool, total] using slack), if_pos slack]
    rfl
  rw [if_neg (by simpa [Cell.pool, total] using slack), if_neg slack]
  cases rest with
  | nil => rfl
  | cons d rest =>
    have next := (cell d (by simp)).1
    rw [if_neg (show (c.pool (headAddr 0 (d :: rest))).nextPool ≠ 0 by show d.addr ≠ 0; omega), if_neg (by simp)]
    rfl

theorem mallocFrom_cases (kmalloc : Owner → Nat → KernelM Nat) {k : Kernel} {size fuel : Nat}
    {cells : List Cell} (small : size < 2 ^ 63) (nonempty : cells ≠ []) (linked : Linked k.mem 0 cells)
    (cell : ∀ c ∈ cells, 0 < c.addr ∧ c.size < 2 ^ 52 ∧ c.required ≤ c.size + 1)
    (enough : cells.length ≤ fuel) :
    MallocCase kmalloc k size cells (mallocFrom kmalloc size fuel (headAddr 0 cells) k) := by
  induction cells generalizing fuel with
  | nil => exact (nonempty rfl).elim
  | cons c rest ih =>
    obtain ⟨fuel, rfl⟩ : ∃ n, fuel = n + 1 := ⟨fuel - 1, by simp at enough; omega⟩
    rw [headAddr, mallocFrom_cons kmalloc small linked cell]
    split
    · rename_i reuse
      exact .take [] rest c rfl reuse.1 reuse.2
    split
    · rename_i slack
      exact .cut [] rest c rfl slack
    split
    · rename_i last
      subst last
      exact .grow [] c rfl
    · rename_i more
      exact (ih more linked.2 (fun d member => cell d (List.mem_cons_of_mem _ member)) (by simpa using enough)).cons c

theorem HeapRep.few {k : Kernel} {live : List (Nat × Nat)} {cells : List Cell} (rep : HeapRep k live cells) :
    cells.length ≤ 2 ^ 64 := by
  have sub : (cells.map Cell.addr).toFinset ⊆ Finset.range (2 ^ 64) := by
    intro a member
    obtain ⟨c, inCells, rfl⟩ := List.mem_map.mp (List.mem_toFinset.mp member)
    have bounds := rep.bounds inCells
    exact Finset.mem_range.mpr (by omega)
  have card := Finset.card_le_card sub
  rwa [List.toFinset_card_of_nodup rep.addr_nodup, Finset.card_range, List.length_map] at card

theorem HeapRep.malloc_cases {k : Kernel} {size : Nat} {live : List (Nat × Nat)} {cells : List Cell}
    (rep : HeapRep k live cells) (kmalloc : Owner → Nat → KernelM Nat) (small : size < 2 ^ 63) :
    MallocCase kmalloc k size cells (malloc kmalloc size k) := by
  have cases := mallocFrom_cases kmalloc small rep.nonempty rep.linked
    (fun c member => ⟨(rep.bounds member).1, (rep.bounds member).2.2, (rep.sized c member).2.2⟩) rep.few
  rw [malloc, bind_eq run_get, rep.start]
  exact cases

/-! ### Each branch keeps the representation -/

namespace HeapRep

variable {k : Kernel} {live : List (Nat × Nat)} {cells : List Cell}

theorem blocks_mono {cells' : List Cell} (rep : HeapRep k live cells)
    (kept : ∀ c ∈ cells, c.free = false → ∃ d ∈ cells', d.free = false ∧ d.addr = c.addr ∧ d.required = c.required) :
    ∀ b ∈ live, ∃ c ∈ cells', c.free = false ∧ b.1 = c.addr + 26 ∧ c.required = b.2 + 26 := by
  intro b member
  obtain ⟨c, inCells, taken, start, required⟩ := rep.blocks b member
  obtain ⟨d, inCells', taken', addr, same⟩ := kept c inCells taken
  exact ⟨d, inCells', taken', by omega, by omega⟩

theorem fresh_block {a : Nat} (rep : HeapRep k live cells)
    (unused : ∀ c ∈ cells, c.free = false → c.addr ≠ a) : a + 26 ∉ live.map Prod.fst := by
  intro listed
  obtain ⟨b, member, same⟩ := List.mem_map.mp listed
  obtain ⟨c, inCells, taken, start, _⟩ := rep.blocks b member
  exact unused c inCells taken (by omega)

theorem replace {front back mid : List Cell} {c : Cell} {m : Mem} {live' : List (Nat × Nat)}
    (rep : HeapRep k live (front ++ c :: back))
    (outside : ∀ x, ¬ InRange c.addr (c.size + 1) x → m x = k.mem x)
    (head : headAddr (headAddr 0 back) mid = c.addr) (linked : Linked m (headAddr 0 back) mid)
    (tiled : Tiled (heapRuns k) (front ++ (mid ++ back)))
    (sized : ∀ d ∈ mid, 26 ≤ d.size ∧ 26 ≤ d.required ∧ d.required ≤ d.size + 1)
    (blocks : ∀ b ∈ live', ∃ d ∈ front ++ (mid ++ back),
      d.free = false ∧ b.1 = d.addr + 26 ∧ d.required = b.2 + 26)
    (distinct : (live'.map Prod.fst).Nodup) :
    HeapRep (k.setMem m) live' (front ++ (mid ++ back)) := by
  obtain ⟨before, after⟩ := rep.linked_around outside
  have first : headAddr 0 (mid ++ back) = c.addr := (headAddr_append 0 mid back).trans head
  have positive := (rep.bounds (c := c) (by simp)).1
  refine ⟨?_, ?_, ?_, tiled, rep.runs, rep.runsApart, ?_, blocks, distinct⟩
  · rw [headAddr_append, first]
    exact rep.start.trans (headAddr_append ..)
  · intro empty
    rw [List.append_eq_nil_iff] at empty
    rw [empty.2, headAddr] at first
    omega
  · refine linked_append.mpr ⟨first.symm ▸ before, linked_append.mpr ⟨linked, after⟩⟩
  · intro d member
    rcases List.mem_append.mp member with here | there
    · exact rep.sized d (by simp [here])
    · rcases List.mem_append.mp there with new | here
      · exact sized d new
      · exact rep.sized d (by simp [here])

theorem kept_around {front back mid : List Cell} {c d : Cell} (member : d ∈ front ++ c :: back)
    (other : d ≠ c) : d ∈ front ++ (mid ++ back) := by
  simp only [List.mem_append, List.mem_cons] at member ⊢
  rcases member with here | same | here
  · exact .inl here
  · exact absurd same other
  · exact .inr (.inr here)

theorem relabel {front back : List Cell} {c : Cell} {required : Nat} {free : Bool} {live' : List (Nat × Nat)}
    (rep : HeapRep k live (front ++ c :: back)) (positive : 26 ≤ required) (fits : required ≤ c.size + 1)
    (blocks : ∀ b ∈ live', ∃ d ∈ front ++ ([⟨c.addr, c.size, required, free⟩] ++ back),
      d.free = false ∧ b.1 = d.addr + 26 ∧ d.required = b.2 + 26)
    (distinct : (live'.map Prod.fst).Nodup) :
    HeapRep (k.setMem (setRequiredSize (setFree k.mem c.addr free) c.addr required)) live'
      (front ++ ([⟨c.addr, c.size, required, free⟩] ++ back)) := by
  have inCells : c ∈ front ++ c :: back := by simp
  have bounds := rep.bounds inCells
  have sized := rep.sized c inCells
  have header := (linked_append.mp rep.linked).2.1
  refine rep.replace ?_ rfl ⟨?_, trivial⟩ (tiled_update (c := c) rfl rfl rep.tiled) ?_ blocks distinct
  · intro x far
    have outside : ¬ InRange c.addr 26 x := by unfold InRange at *; omega
    rw [setRequiredSize_outside outside, setFree_outside outside]
  · rw [loadPool_setRequiredSize (by omega), loadPool_setFree, header]
    rfl
  · simpa using ⟨sized.1, positive, fits⟩

theorem take {front back : List Cell} {c : Cell} {size : Nat} (rep : HeapRep k live (front ++ c :: back))
    (free : c.free = true) (fits : size + 26 < c.size) :
    HeapRep (k.setMem (setRequiredSize (setFree k.mem c.addr false) c.addr (size + 26)))
      ((c.addr + 26, size) :: live) (front ++ ([⟨c.addr, c.size, size + 26, false⟩] ++ back)) := by
  have inCells : c ∈ front ++ c :: back := by simp
  have other : ∀ d : Cell, d.free = false → d ≠ c := by
    rintro d taken rfl
    rw [free] at taken
    cases taken
  refine rep.relabel (by omega) (by omega) ?_ ?_
  · intro b member
    rcases List.mem_cons.mp member with rfl | old
    · exact ⟨⟨c.addr, c.size, size + 26, false⟩, by simp, rfl, rfl, rfl⟩
    · exact rep.blocks_mono (fun d listed taken =>
        ⟨d, kept_around listed (other d taken), taken, rfl, rfl⟩) b old
  · refine List.nodup_cons.mpr ⟨rep.fresh_block ?_, rep.distinct⟩
    intro d listed taken same
    exact other d taken (rep.cell_eq listed inCells same)

theorem freed {front back : List Cell} {c : Cell} {b : Nat × Nat}
    (rep : HeapRep k live (front ++ c :: back)) (member : b ∈ live) (start : b.1 = c.addr + 26) :
    HeapRep (k.setMem (setRequiredSize (setFree k.mem c.addr true) c.addr 26))
      (live.erase b) (front ++ ([⟨c.addr, c.size, 26, true⟩] ++ back)) := by
  have sized := rep.sized c (by simp)
  refine rep.relabel (by omega) (by omega) ?_ ?_
  · intro b' left
    obtain ⟨different, listed⟩ := (List.Nodup.mem_erase_iff (List.Nodup.of_map _ rep.distinct)).mp left
    obtain ⟨d, inCells', taken, start', required⟩ := rep.blocks b' listed
    refine ⟨d, kept_around inCells' ?_, taken, start', required⟩
    rintro rfl
    exact different (List.inj_on_of_nodup_map rep.distinct listed member (by omega))
  · exact rep.distinct.sublist (List.erase_sublist.map _)

theorem splitPool_eq {c : Cell} {next size : Nat} (header : loadPool k.mem c.addr = c.pool next)
    (addr : c.addr + c.size + 1 ≤ 2 ^ 64) (required : 26 ≤ c.required)
    (fits : c.required + size + 26 < c.size) :
    ∃ m, splitPool c.addr size k = .ok (c.addr + c.required + 1, k.setMem m) ∧
      loadPool m c.addr = { c.pool (c.addr + c.required + 1) with size := c.required } ∧
      loadPool m (c.addr + c.required + 1) =
        { verify := 69, size := c.size - c.required - 1, requiredSize := size + 26, nextPool := next, free := false } ∧
      ∀ x, ¬ InRange c.addr 26 x → ¬ InRange (c.addr + c.required + 1) 26 x → m x = k.mem x := by
  have nextSmall : next < 2 ^ 64 := by
    have bound := load_lt k.mem (c.addr + 17) 8
    have same : load k.mem (c.addr + 17) 8 = next := congrArg Pool.nextPool header
    omega
  have newAddr : add64 (add64 c.addr c.required) 1 = c.addr + c.required + 1 := by
    have inner : add64 c.addr c.required = c.addr + c.required := add64_of_lt (by omega)
    rw [inner, add64_of_lt (by omega)]
  have newSize : add64 sizeofPool size = size + 26 := by
    rw [sizeofPool, add64_of_lt (by omega), Nat.add_comm]
  have newPool : createPool (sub64 c.size c.required) (size + 26) next false =
      { verify := 69, size := c.size - c.required - 1, requiredSize := size + 26, nextPool := next, free := false } := by
    have rest : sub64 c.size c.required = c.size - c.required := sub64_of_le (by omega)
    rw [createPool, rest, sub64_of_le (by omega)]
  let m₁ := storePool k.mem (c.addr + c.required + 1)
    { verify := 69, size := c.size - c.required - 1, requiredSize := size + 26, nextPool := next, free := false }
  have low : loadPool m₁ c.addr = c.pool next := by
    rw [← header]
    apply loadPool_congr
    intro x inside
    exact storePool_outside (by unfold InRange at *; omega)
  refine ⟨setNextPool (setSize m₁ c.addr c.required) c.addr (c.addr + c.required + 1), ?_, ?_, ?_, ?_⟩
  · unfold splitPool
    rw [bind_eq run_get, header]
    simp only [Cell.pool] at newAddr ⊢
    rw [newAddr, newSize, newPool, bind_eq (run_modify _), bind_eq (run_modify _), bind_eq (run_modify _)]
    simp only [Kernel.setMem_mem]
    rw [show (loadPool m₁ c.addr).requiredSize = c.required by rw [low]; rfl]
    rfl
  · rw [loadPool_setNextPool (by omega), loadPool_setSize (by omega), low]
    rfl
  · have kept : loadPool (setNextPool (setSize m₁ c.addr c.required) c.addr (c.addr + c.required + 1))
        (c.addr + c.required + 1) = loadPool m₁ (c.addr + c.required + 1) := by
      apply loadPool_congr
      intro x inside
      have far : ¬ InRange c.addr 26 x := by unfold InRange at *; omega
      rw [setNextPool_outside far, setSize_outside far]
    rw [kept]
    exact loadPool_storePool (by dsimp only; omega) (by dsimp only; omega) (by dsimp only; omega) nextSmall
  · intro x far beyond
    rw [setNextPool_outside far, setSize_outside far]
    exact storePool_outside beyond

theorem cut {front back : List Cell} {c : Cell} {size : Nat} (rep : HeapRep k live (front ++ c :: back))
    (fits : c.required + size + 26 < c.size) :
    ∃ m, splitPool c.addr size k = .ok (c.addr + c.required + 1, k.setMem m) ∧
      (∀ x, ¬ InRange c.addr 26 x → ¬ InRange (c.addr + c.required + 1) 26 x → m x = k.mem x) ∧
      HeapRep (k.setMem m) ((c.addr + c.required + 1 + 26, size) :: live)
        (front ++ ([⟨c.addr, c.required, c.required, c.free⟩,
          ⟨c.addr + c.required + 1, c.size - c.required - 1, size + 26, false⟩] ++ back)) := by
  have inCells : c ∈ front ++ c :: back := by simp
  have bounds := rep.bounds inCells
  have sized := rep.sized c inCells
  have header := (linked_append.mp rep.linked).2.1
  obtain ⟨m, run, low, high, outside⟩ := splitPool_eq header bounds.2.1 sized.2.1 fits
  refine ⟨m, run, outside, rep.replace ?_ rfl ⟨low, high, trivial⟩ ?_ ?_ ?_ ?_⟩
  · intro x far
    exact outside x (by unfold InRange at *; omega) (by unfold InRange at *; omega)
  · exact tiled_split (c := c) ⟨rfl, rfl, by dsimp only; omega⟩ rep.tiled
  · intro d member
    rcases List.mem_pair.mp member with rfl | rfl
    · exact ⟨by dsimp only; omega, by dsimp only; omega, by dsimp only; omega⟩
    · exact ⟨by dsimp only; omega, by dsimp only; omega, by dsimp only; omega⟩
  · intro b member
    rcases List.mem_cons.mp member with rfl | old
    · exact ⟨⟨c.addr + c.required + 1, c.size - c.required - 1, size + 26, false⟩, by simp, rfl, rfl, rfl⟩
    · refine rep.blocks_mono (fun d listed taken => ?_) b old
      by_cases same : d = c
      · subst d
        exact ⟨⟨c.addr, c.required, c.required, c.free⟩, by simp, taken, rfl, rfl⟩
      · exact ⟨d, kept_around listed same, taken, rfl, rfl⟩
  · refine List.nodup_cons.mpr ⟨rep.fresh_block ?_, rep.distinct⟩
    intro d listed taken same
    by_cases here : d = c
    · subst d
      omega
    · have separate := rep.cells_apart listed inCells here
      unfold Cell.Apart Apart at separate
      omega

end HeapRep
end PotatOS.Mem
