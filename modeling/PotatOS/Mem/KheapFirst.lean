import PotatOS.Mem.KheapReuse
import PotatOS.Mem.KheapClients

/-!
# First fit

Which pool `malloc` takes, and what it leaves alone in the others. `Slack` is for
a block with one more byte of its own pool behind it: that byte survives as the
block does.
-/

namespace PotatOS.Mem

open Memory Prog

/-! ### The pool that serves a request -/

instance (c : Cell) (size : Nat) : Decidable (c.Fits size) := inferInstanceAs (Decidable (_ ∨ _))

def firstFit (cells : List Cell) (size : Nat) : Option Cell := cells.find? fun c => c.Fits size

/-- What `malloc` does at the first pool that fits. -/
inductive Serves (kmalloc : Owner → Nat → KernelM Nat) (k : Kernel) (size : Nat) (cells : List Cell) :
    Except Stop (Nat × Kernel) → Prop where
  | take (c : Cell) (first : firstFit cells size = some c) (free : c.free = true) (fits : size + 26 < c.size) :
      Serves kmalloc k size cells (.ok (c.addr + 26,
        k.setMem (setRequiredSize (setFree k.mem c.addr false) c.addr (size + 26))))
  | cut (c : Cell) (first : firstFit cells size = some c) (whole : ¬ (c.free = true ∧ size + 26 < c.size)) :
      Serves kmalloc k size cells ((splitPool c.addr size >>= fun p => pure (p + 26)) k)
  | grow (front : List Cell) (c : Cell) (split : cells = front ++ [c]) (none : firstFit cells size = none) :
      Serves kmalloc k size cells (growHeap kmalloc c.addr size k)

section first

variable {kmalloc : Owner → Nat → KernelM Nat} {k k' : Kernel} {live : List (Nat × Nat)} {cells : List Cell}
  {c e : Cell} {size fuel q x : Nat}

theorem firstFit_cons_fit (fits : c.Fits size) : firstFit (c :: cells) size = some c := List.find?_cons_of_pos (by simpa)

theorem firstFit_cons_unfit (unfit : ¬ c.Fits size) : firstFit (c :: cells) size = firstFit cells size :=
  List.find?_cons_of_neg (by simpa)

theorem firstFit_split (first : firstFit cells size = some c) :
    c.Fits size ∧ ∃ front back, cells = front ++ c :: back ∧ ∀ d ∈ front, ¬ d.Fits size := by
  obtain ⟨fits, front, back, split, skipped⟩ := List.find?_eq_some_iff_append.mp first
  exact ⟨by simpa using fits, front, back, split, fun d member => by simpa using skipped d member⟩

theorem Serves.cons {r : Except Stop (Nat × Kernel)} (unfit : ¬ c.Fits size) (found : Serves kmalloc k size cells r) :
    Serves kmalloc k size (c :: cells) r := by
  have same : firstFit (c :: cells) size = firstFit cells size := firstFit_cons_unfit unfit
  cases found with
  | take d first free fits => exact .take d (same.trans first) free fits
  | cut d first whole => exact .cut d (same.trans first) whole
  | grow front d split none => exact .grow (c :: front) d (by rw [split]; rfl) (same.trans none)

theorem mallocFrom_first (small : size < 2 ^ 63) (nonempty : cells ≠ []) (linked : Linked k.mem 0 cells)
    (cell : ∀ c ∈ cells, 0 < c.addr ∧ c.size < 2 ^ 52 ∧ c.required ≤ c.size + 1) (enough : cells.length ≤ fuel) :
    Serves kmalloc k size cells (mallocFrom kmalloc size fuel (headAddr 0 cells) k) := by
  induction cells generalizing fuel with
  | nil => exact (nonempty rfl).elim
  | cons c rest ih =>
    obtain ⟨fuel, rfl⟩ : ∃ n, fuel = n + 1 := ⟨fuel - 1, by simp at enough; omega⟩
    rw [headAddr, mallocFrom_cons kmalloc small linked cell]
    by_cases reuse : c.free = true ∧ size + 26 < c.size
    · rw [if_pos reuse]
      exact .take c (firstFit_cons_fit (.inl reuse)) reuse.1 reuse.2
    by_cases slack : c.required + size + 26 < c.size
    · rw [if_neg reuse, if_pos slack]
      exact .cut c (firstFit_cons_fit (.inr slack)) reuse
    have unfit : ¬ c.Fits size := fun fits => fits.elim reuse slack
    rw [if_neg reuse, if_neg slack]
    by_cases last : rest = []
    · subst last
      rw [if_pos rfl]
      exact .grow [] c rfl (firstFit_cons_unfit unfit)
    · rw [if_neg last]
      exact (ih last linked.2 (fun d member => cell d (List.mem_cons_of_mem _ member)) (by simpa using enough)).cons unfit

theorem HeapRep.first (rep : HeapRep k live cells) (kmalloc : Owner → Nat → KernelM Nat) (small : size < 2 ^ 63) :
    Serves kmalloc k size cells (malloc kmalloc size k) := by
  have found : Serves kmalloc k size cells _ := mallocFrom_first small rep.nonempty rep.linked
    (fun c member => ⟨(rep.bounds member).1, (rep.bounds member).2.2, (rep.sized c member).2.2⟩) rep.few
  rw [malloc, bind_eq run_get, rep.start]
  exact found

theorem HeapRep.malloc_take (rep : HeapRep k live cells) (kmalloc : Owner → Nat → KernelM Nat) (small : size < 2 ^ 63)
    (first : firstFit cells size = some c) (free : c.free = true) (fits : size + 26 < c.size) : malloc kmalloc size k =
      .ok (c.addr + 26, k.setMem (setRequiredSize (setFree k.mem c.addr false) c.addr (size + 26))) := by
  have found := rep.first kmalloc small
  generalize malloc kmalloc size k = r at found ⊢
  cases found with
  | take d first' => rw [Option.some.inj (first.symm.trans first')]
  | cut d first' whole =>
    obtain rfl := Option.some.inj (first.symm.trans first')
    exact absurd ⟨free, fits⟩ whole
  | grow front d split none =>
    rw [first] at none
    cases none

end first

/-! ### What `malloc` does to the pools -/

/-- The bytes from `low` to `high` stay, and the new block lies on none of them. -/
def Spares (k k' : Kernel) (q size low high : Nat) : Prop :=
  ∀ x, low ≤ x → x ≤ high → k'.mem x = k.mem x ∧ ¬ InRange q size x

/-- What a returning `malloc` leaves of the cells, and of the bytes behind their headers. -/
structure Served (k k' : Kernel) (live : List (Nat × Nat)) (cells : List Cell) (size q : Nat) (cells' : List Cell) : Prop where
  rep : HeapRep k' ((q, size) :: live) cells'
  /-- A block that does not fill its pool still does not, and keeps the next byte, too. -/
  taken : ∀ e ∈ cells, e.free = false → e.required ≤ e.size →
    (∃ e' ∈ cells', e'.free = false ∧ e'.addr = e.addr ∧ e'.required = e.required ∧ e'.required ≤ e'.size) ∧
      Spares k k' q size (e.addr + 26) (e.addr + e.required)
  /-- A pool that does not serve keeps all its bytes. -/
  others : ∀ e ∈ cells, firstFit cells size ≠ some e → Spares k k' q size (e.addr + 26) (e.addr + e.size)
  new : ∃ d ∈ cells', d.free = false ∧ d.addr + 26 = q ∧ d.required = size + 26 ∧ ((size + 26) % 4096 ≠ 0 → d.required ≤ d.size)

section served

variable {A : PageAllocator} {k k' : Kernel} {live : List (Nat × Nat)} {cells cells' front back : List Cell} {c e : Cell}
  {size q x : Nat} {m : Mem}

theorem Spares.mono {low high low' high' : Nat} (spares : Spares k k' q size low high) (lower : low ≤ low')
    (upper : high' ≤ high) :
    Spares k k' q size low' high' := fun x above below => spares x (by omega) (by omega)

/-- A change inside the cell `c`, where the new block lies, too, leaves the other cells alone. -/
theorem HeapRep.spares_others (rep : HeapRep k live cells) (inCells : c ∈ cells)
    (outside : ∀ x, ¬ InRange c.addr (c.size + 1) x → m x = k.mem x)
    (block : ∀ x, InRange q size x → InRange c.addr (c.size + 1) x) (member : e ∈ cells) (other : e ≠ c) :
    Spares k (k.setMem m) q size (e.addr + 26) (e.addr + e.size) := by
  intro x lower upper
  have separate := rep.cells_apart member inCells other
  have far : ¬ InRange c.addr (c.size + 1) x := by
    unfold Cell.Apart Apart at separate
    unfold InRange
    omega
  exact ⟨outside x far, fun inside => far (block x inside)⟩

theorem HeapRep.served_take (rep : HeapRep k live (front ++ c :: back))
    (first : firstFit (front ++ c :: back) size = some c) (free : c.free = true) (fits : size + 26 < c.size) :
    Served k (k.setMem (setRequiredSize (setFree k.mem c.addr false) c.addr (size + 26))) live (front ++ c :: back) size
      (c.addr + 26) (front ++ ([⟨c.addr, c.size, size + 26, false⟩] ++ back)) := by
  have inCells : c ∈ front ++ c :: back := by simp
  have outside : ∀ x, ¬ InRange c.addr (c.size + 1) x →
      setRequiredSize (setFree k.mem c.addr false) c.addr (size + 26) x = k.mem x := by
    intro x far
    have header : ¬ InRange c.addr 26 x := by unfold InRange at *; omega
    rw [setRequiredSize_outside header, setFree_outside header]
  have block : ∀ x, InRange (c.addr + 26) size x → InRange c.addr (c.size + 1) x := by
    intro x inside
    unfold InRange at *
    omega
  refine ⟨rep.take free fits, fun e member taken room => ?_, fun e member other => ?_, ?_⟩
  · have other : e ≠ c := by
      rintro rfl
      rw [free] at taken
      cases taken
    exact ⟨⟨e, kept_around member other, taken, rfl, rfl, room⟩,
      (rep.spares_others inCells outside block member other).mono le_rfl (by omega)⟩
  · refine rep.spares_others inCells outside block member ?_
    rintro rfl
    exact other first
  · exact ⟨⟨c.addr, c.size, size + 26, false⟩, by simp, rfl, rfl, rfl, fun _ => by dsimp only; omega⟩

theorem HeapRep.served_cut (rep : HeapRep k live (front ++ c :: back))
    (first : firstFit (front ++ c :: back) size = some c) (fits : c.required + size + 26 < c.size) :
    ∃ m cells', splitPool c.addr size k = .ok (c.addr + c.required + 1, k.setMem m) ∧
      Served k (k.setMem m) live (front ++ c :: back) size (c.addr + c.required + 1 + 26) cells' := by
  have inCells : c ∈ front ++ c :: back := by simp
  have sized := rep.sized c inCells
  obtain ⟨m, run, kept, after⟩ := rep.cut fits
  have outside : ∀ x, ¬ InRange c.addr (c.size + 1) x → m x = k.mem x := fun x far =>
    kept x (by unfold InRange at *; omega) (by unfold InRange at *; omega)
  have block : ∀ x, InRange (c.addr + c.required + 1 + 26) size x → InRange c.addr (c.size + 1) x := by
    intro x inside
    unfold InRange at *
    omega
  refine ⟨m, _, run, after, fun e member taken room => ?_, fun e member other => ?_, ?_⟩
  · by_cases same : e = c
    · subst same
      refine ⟨⟨⟨e.addr, e.required, e.required, e.free⟩, by simp, taken, rfl, rfl, le_rfl⟩, fun x lower upper => ?_⟩
      exact ⟨kept x (by unfold InRange; omega) (by unfold InRange; omega), by unfold InRange; omega⟩
    · exact ⟨⟨e, kept_around member same, taken, rfl, rfl, room⟩,
        (rep.spares_others inCells outside block member same).mono le_rfl (by omega)⟩
  · refine rep.spares_others inCells outside block member ?_
    rintro rfl
    exact other first
  · exact ⟨⟨c.addr + c.required + 1, c.size - c.required - 1, size + 26, false⟩, by simp, rfl, rfl, rfl,
      fun _ => by dsimp only; omega⟩

theorem HeapRep.served_grow (rep : HeapRep k live (front ++ [c])) (ready : A.Ready k) (small : size < 2 ^ 63)
    (h : growHeap A.kmalloc c.addr size k = .ok (q, k')) : ∃ cells', Served k k' live (front ++ [c]) size q cells' := by
  obtain ⟨⟨d, after, taken, start, required, extent⟩, -, kept⟩ := rep.grow ready small h
  have spares : ∀ e ∈ front ++ [c], Spares k k' q size (e.addr + 26) (e.addr + e.size) := by
    intro e member x lower upper
    have inside : InRange e.addr (e.size + 1) x := by unfold InRange; omega
    have apart : e.Apart d := (List.pairwise_append.mp after.apart).2.2 e member d (by simp)
    have sized := after.sized d (by simp)
    unfold Cell.Apart Apart at apart
    refine ⟨kept e member x inside ?_, by unfold InRange; omega⟩
    by_cases same : e = c
    · subst same
      unfold InRange
      omega
    · have separate := rep.cells_apart member (by simp) same
      have header := rep.sized c (by simp)
      unfold Cell.Apart Apart at separate
      unfold InRange
      omega
  refine ⟨_, after, fun e member unfree room => ?_, fun e member _ => spares e member, d, by simp, taken, start, required, ?_⟩
  · exact ⟨⟨e, List.mem_append_left _ member, unfree, rfl, rfl, room⟩, (spares e member).mono le_rfl (by omega)⟩
  · have sized := after.sized d (by simp)
    intro odd
    omega

theorem HeapRep.malloc_served (rep : HeapRep k live cells) (ready : A.Ready k) (small : size < 2 ^ 63)
    (h : malloc A.kmalloc size k = .ok (q, k')) : ∃ cells', Served k k' live cells size q cells' := by
  have found := rep.first A.kmalloc small
  rw [h] at found
  generalize result : Except.ok (q, k') = r at found
  cases found with
  | take c first free fits =>
    obtain ⟨rfl, rfl⟩ := Prod.mk.inj (Except.ok.inj result)
    obtain ⟨-, front, back, rfl, -⟩ := firstFit_split first
    exact ⟨_, rep.served_take first free fits⟩
  | cut c first whole =>
    obtain ⟨fits, front, back, rfl, -⟩ := firstFit_split first
    obtain ⟨m, cells', run, served⟩ := rep.served_cut first (fits.resolve_left whole)
    rw [bind_eq run, run_pure] at result
    obtain ⟨rfl, rfl⟩ := Prod.mk.inj (Except.ok.inj result)
    exact ⟨cells', served⟩
  | grow front c split none =>
    subst split
    exact rep.served_grow ready small result.symm

end served

/-! ### The byte behind a block -/

/-- The block is smaller than its pool, so that the byte behind it is nobody else's. -/
def Slack (k : Kernel) (live : List (Nat × Nat)) (b : Nat × Nat) : Prop :=
  ∃ cells, HeapRep k live cells ∧ ∃ c ∈ cells, c.free = false ∧ c.addr + 26 = b.1 ∧ c.required = b.2 + 26 ∧ c.required ≤ c.size

section slack

variable {A : PageAllocator} {k k' : Kernel} {live : List (Nat × Nat)} {b : Nat × Nat} {size q : Nat} {m : Mem}

/-- A block that does not end with its pages is smaller than its pool. -/
theorem Heap.malloc_slack (heap : Heap A k live) (small : size < 2 ^ 63) (odd : (size + 26) % 4096 ≠ 0)
    (h : Mem.malloc A.kmalloc size k = .ok (q, k')) : Slack k' ((q, size) :: live) (q, size) := by
  obtain ⟨ready, cells, rep⟩ := heap
  obtain ⟨cells', served⟩ := rep.malloc_served ready small h
  obtain ⟨d, member, taken, start, required, room⟩ := served.new
  exact ⟨cells', served.rep, d, member, taken, start, required, room odd⟩

theorem Slack.malloc (slack : Slack k live b) (ready : A.Ready k) (small : size < 2 ^ 63)
    (h : malloc A.kmalloc size k = .ok (q, k')) : Slack k' ((q, size) :: live) b ∧ Spares k k' q size b.1 (b.1 + b.2) := by
  obtain ⟨cells, rep, c, member, taken, start, required, room⟩ := slack
  obtain ⟨cells', served⟩ := rep.malloc_served ready small h
  obtain ⟨⟨d, member', taken', addr, same, room'⟩, spares⟩ := served.taken c member taken room
  exact ⟨⟨cells', served.rep, d, member', taken', by omega, by omega, room'⟩, spares.mono (by omega) (by omega)⟩

/-- Writing into a block and the byte behind it leaves the cells. -/
theorem HeapRep.write_pool {cells : List Cell} {c : Cell} (rep : HeapRep k live cells) (member : c ∈ cells)
    (start : c.addr + 26 = b.1)
    (required : c.required = b.2 + 26) (room : c.required ≤ c.size) (outside : ∀ x, ¬ InRange b.1 (b.2 + 1) x → m x = k.mem x) :
    HeapRep (k.setMem m) live cells := by
  refine rep.frame rfl rfl fun d listed x header => outside x ?_
  have sized := rep.sized d listed
  by_cases same : d = c
  · subst same
    unfold InRange at *
    omega
  · have separate := rep.cells_apart listed member same
    unfold Cell.Apart Apart at separate
    unfold InRange at *
    omega

theorem Slack.write (slack : Slack k live b) (ready : A.Ready k)
    (outside : ∀ x, ¬ InRange b.1 (b.2 + 1) x → m x = k.mem x) : Slack (k.setMem m) live b ∧ Heap A (k.setMem m) live := by
  obtain ⟨cells, rep, c, member, taken, start, required, room⟩ := slack
  have after : HeapRep (k.setMem m) live cells := rep.write_pool member start required room outside
  have touched : Touches A OfHeap k (k.setMem m) :=
    rep.touches ready member fun x far => outside x (by unfold InRange at *; omega)
  exact ⟨⟨cells, after, c, member, taken, start, required, room⟩, touched.ready, cells, after⟩

end slack

/-! ### `free` and `malloc` in turn -/

/-- After `free(p)` the pool of `p` is the first one that fits `size` bytes. -/
def TakesOver (k : Kernel) (live : List (Nat × Nat)) (p size : Nat) : Prop :=
  ∃ front c back, HeapRep k live (front ++ c :: back) ∧ c.addr + 26 = p ∧ size + 26 < c.size ∧ ∀ d ∈ front, ¬ d.Fits size

section takesOver

variable {A : PageAllocator} {k k₁ k₂ : Kernel} {live : List (Nat × Nat)} {b : Nat × Nat} {size q : Nat}

theorem free_frame {p : Nat} (h : free p k = .ok ((), k₁)) (positive : 26 ≤ p) : ∀ x, p ≤ x → k₁.mem x = k.mem x := by
  intro x above
  unfold free at h
  rw [bind_eq run_get] at h
  split at h
  · cases h
  · rw [bind_eq (run_modify _)] at h
    obtain rfl := modify_ok h
    have pool : sub64 p sizeofPool = p - 26 := sub64_of_le positive
    have outside : ¬ InRange (p - 26) 26 x := by unfold InRange; omega
    simp only [Kernel.setMem_mem, pool]
    rw [setRequiredSize_outside outside, setFree_outside outside]

theorem TakesOver.run (takes : TakesOver k live b.1 size) (kmalloc : Owner → Nat → KernelM Nat) (member : b ∈ live)
    (small : size < 2 ^ 63) (freed : free b.1 k = .ok ((), k₁)) :
    ∃ k₂, malloc kmalloc size k₁ = .ok (b.1, k₂) ∧ ∀ x, b.1 ≤ x → k₂.mem x = k.mem x := by
  obtain ⟨front, c, back, rep, start, fits, unfit⟩ := takes
  have after := rep.freed member start.symm
  have same := rep.free_run start.symm
  have kept := free_frame freed (by omega)
  rw [freed] at same
  obtain ⟨-, rfl⟩ := Prod.mk.inj (Except.ok.inj same)
  have first : firstFit (front ++ ([⟨c.addr, c.size, 26, true⟩] ++ back)) size = some ⟨c.addr, c.size, 26, true⟩ := by
    have own : Cell.Fits ⟨c.addr, c.size, 26, true⟩ size := .inl ⟨rfl, fits⟩
    rw [firstFit, List.find?_append, List.find?_eq_none.mpr (by simpa using unfit), List.singleton_append,
      List.find?_cons_of_pos (by simpa using own)]
    rfl
  have taken := after.malloc_take kmalloc small first rfl fits
  rw [start] at taken
  refine ⟨_, taken, fun x above => ?_⟩
  have outside : ¬ InRange c.addr 26 x := by unfold InRange; omega
  rw [Kernel.setMem_mem, setRequiredSize_outside outside, setFree_outside outside]
  exact kept x above

/-- When the pool is not taken over, the freed bytes stay as they are, the one behind them included. -/
theorem spares_of_not_takesOver (slack : Slack k live b) (ready : A.Ready k) (member : b ∈ live) (small : size < 2 ^ 63)
    (elsewhere : ¬ TakesOver k live b.1 size) (freed : free b.1 k = .ok ((), k₁))
    (h : malloc A.kmalloc size k₁ = .ok (q, k₂)) : Spares k k₂ q size b.1 (b.1 + b.2) := by
  obtain ⟨cells, rep, c, inCells, taken, start, required, room⟩ := slack
  obtain ⟨front, back, rfl⟩ := List.append_of_mem inCells
  have after := rep.freed member start.symm
  have same := rep.free_run start.symm
  obtain ⟨k', run, -, touched, -⟩ := rep.free_ok ready member
  obtain ⟨-, rfl⟩ := Prod.mk.inj (Except.ok.inj (run.symm.trans freed))
  have kept := free_frame freed (by omega)
  rw [freed] at same
  obtain ⟨-, rfl⟩ := Prod.mk.inj (Except.ok.inj same)
  obtain ⟨cells', served⟩ := after.malloc_served touched.ready small h
  have other : firstFit (front ++ ([⟨c.addr, c.size, 26, true⟩] ++ back)) size ≠ some ⟨c.addr, c.size, 26, true⟩ := by
    intro first
    have own := (firstFit_split first).1
    refine elsewhere ⟨front, c, back, rep, start, ?_, fun d listed fits => ?_⟩
    · rcases own with whole | part
      · exact whole.2
      · dsimp only at part
        omega
    · rw [firstFit, List.find?_append] at first
      cases found : front.find? fun d => d.Fits size with
      | none => exact List.find?_eq_none.mp found d listed (by simpa using fits)
      | some e =>
        rw [found] at first
        obtain rfl := Option.some.inj first
        have nodup := rep.addr_nodup
        rw [List.map_append, List.map_cons] at nodup
        exact (List.nodup_append.mp nodup).2.2 _ (List.mem_map_of_mem (List.mem_of_find?_eq_some found)) _ List.mem_cons_self rfl
  have spares := served.others ⟨c.addr, c.size, 26, true⟩ (by simp) other
  intro x lower upper
  obtain ⟨byte, far⟩ := spares x (by dsimp only; omega) (by dsimp only; omega)
  exact ⟨byte.trans (kept x lower), far⟩

end takesOver

end PotatOS.Mem
