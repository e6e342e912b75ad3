import PotatOS.Mem.KheapRuns

/-!
# Clients that share the kernel heap

`Heap A k live` packs the heap's invariant with the allocator's. Two clients
split the live blocks between them: a step of one keeps the bytes of the other.
-/

namespace PotatOS.Mem

open Memory Prog

/-- The heap in `k` has the live blocks `live`. -/
structure Heap (A : PageAllocator) (k : Kernel) (live : List (Nat × Nat)) : Prop where
  ready : A.Ready k
  rep : ∃ cells, HeapRep k live cells

/-- The bytes of the blocks stay. -/
def Keeps (k k' : Kernel) (blocks : List (Nat × Nat)) : Prop :=
  ∀ b ∈ blocks, ∀ x, InRange b.1 b.2 x → k'.mem x = k.mem x

theorem Keeps.refl (k : Kernel) (blocks : List (Nat × Nat)) : Keeps k k blocks := fun _ _ _ _ => rfl

theorem Keeps.trans {k k' k'' : Kernel} {blocks : List (Nat × Nat)} (first : Keeps k k' blocks)
    (second : Keeps k' k'' blocks) : Keeps k k'' blocks := by
  intro b member x inside
  rw [second b member x inside, first b member x inside]

theorem Keeps.mono {k k' : Kernel} {blocks fewer : List (Nat × Nat)} (keeps : Keeps k k' blocks)
    (sub : ∀ b ∈ fewer, b ∈ blocks) : Keeps k k' fewer := fun b member => keeps b (sub b member)

theorem Keeps.load {k k' : Kernel} {blocks : List (Nat × Nat)} {b : Nat × Nat} {a n : Nat} (keeps : Keeps k k' blocks)
    (member : b ∈ blocks) (lower : b.1 ≤ a) (upper : a + n ≤ b.1 + b.2) : load k'.mem a n = load k.mem a n := by
  refine load_congr fun x inside => keeps b member x ?_
  unfold InRange at *
  omega

namespace Heap

variable {A : PageAllocator} {k k' : Kernel} {live live' : List (Nat × Nat)}

theorem perm (heap : Heap A k live) (same : live.Perm live') : Heap A k live' := by
  obtain ⟨ready, cells, rep⟩ := heap
  refine ⟨ready, cells, rep.start, rep.nonempty, rep.linked, rep.tiled, rep.runs, rep.runsApart, rep.sized, ?_, ?_⟩
  · intro b member
    exact rep.blocks b (same.mem_iff.mpr member)
  · exact (same.map Prod.fst).nodup_iff.mp rep.distinct

theorem bounds {b : Nat × Nat} (heap : Heap A k live) (member : b ∈ live) :
    0 < b.1 ∧ b.1 < 2 ^ 64 ∧ b.1 + b.2 ≤ 2 ^ 64 := by
  obtain ⟨_, cells, rep⟩ := heap
  obtain ⟨c, inCells, _, start, _, fits⟩ := rep.block member
  have limits := rep.bounds inCells
  have sized := rep.sized c inCells
  omega

theorem nodup (heap : Heap A k live) : live.Nodup := by
  obtain ⟨_, cells, rep⟩ := heap
  exact .of_map _ rep.distinct

theorem pairwise (heap : Heap A k live) : live.Pairwise fun b c => Apart b.1 b.2 c.1 c.2 := by
  obtain ⟨_, cells, rep⟩ := heap
  exact rep.blocks_apart

theorem apart {b c : Nat × Nat} (heap : Heap A k live) (hb : b ∈ live) (hc : c ∈ live) (other : b ≠ c) :
    Apart b.1 b.2 c.1 c.2 := by
  have symmetric : Std.Symm fun b c : Nat × Nat => Apart b.1 b.2 c.1 c.2 := ⟨fun _ _ => apart_comm.mp⟩
  exact heap.pairwise.forall hb hc other

theorem few (heap : Heap A k live) : live.length < 2 ^ 64 := by
  have sub : (live.map Prod.fst).toFinset ⊆ Finset.Ioo 0 (2 ^ 64) := by
    intro a listed
    obtain ⟨b, member, rfl⟩ := List.mem_map.mp (List.mem_toFinset.mp listed)
    have limits := heap.bounds member
    exact Finset.mem_Ioo.mpr ⟨limits.1, limits.2.1⟩
  have card := Finset.card_le_card sub
  obtain ⟨_, cells, rep⟩ := heap
  rw [List.toFinset_card_of_nodup rep.distinct, Nat.card_Ioo, List.length_map] at card
  omega

theorem malloc {size p : Nat} (heap : Heap A k live) (small : size < 2 ^ 63) (h : malloc A.kmalloc size k = .ok (p, k')) :
    Heap A k' ((p, size) :: live) ∧ Keeps k k' live := by
  obtain ⟨ready, cells, rep⟩ := heap
  obtain ⟨after, touched, kept⟩ := rep.malloc_ok ready small h
  exact ⟨⟨touched.ready, after⟩, kept⟩

theorem malloc_valid {size p : Nat} (heap : Heap A k live) (small : size < 2 ^ 63)
    (h : Mem.malloc A.kmalloc size k = .ok (p, k')) : 0 < p :=
  ((heap.malloc small h).1.bounds List.mem_cons_self).1

theorem malloc_error {size : Nat} {reason : Stop} (heap : Heap A k live) (small : size < 2 ^ 63)
    (h : Mem.malloc A.kmalloc size k = .error reason) : ∃ n, A.kmalloc .heap n k = .error reason := by
  obtain ⟨_, cells, rep⟩ := heap
  exact rep.malloc_error small h

theorem free {b : Nat × Nat} (heap : Heap A k (b :: live)) :
    ∃ k', free b.1 k = .ok ((), k') ∧ Heap A k' live ∧ Keeps k k' (b :: live) := by
  obtain ⟨ready, cells, rep⟩ := heap
  obtain ⟨k', h, after, touched, kept⟩ := rep.free_ok ready (List.mem_cons_self (a := b) (l := live))
  rw [List.erase_cons_head] at after
  exact ⟨k', h, ⟨touched.ready, after⟩, kept⟩

theorem write {b : Nat × Nat} {m : Mem} (heap : Heap A k live) (member : b ∈ live)
    (outside : ∀ x, ¬ InRange b.1 b.2 x → m x = k.mem x) : Heap A (k.setMem m) live := by
  obtain ⟨ready, cells, rep⟩ := heap
  obtain ⟨after, touched⟩ := rep.write_block ready member outside
  exact ⟨touched.ready, cells, after⟩

theorem store {b : Nat × Nat} {a n v : Nat} (heap : Heap A k live) (member : b ∈ live) (lower : b.1 ≤ a)
    (upper : a + n ≤ b.1 + b.2) : Heap A (k.setMem (store k.mem a n v)) live := by
  refine heap.write member fun x outside => store_outside fun inside => outside ?_
  unfold InRange at *
  omega

theorem owned {b : Nat × Nat} (heap : Heap A k live) (member : b ∈ live) {x : Nat} (inside : InRange b.1 b.2 x) :
    ∃ g ∈ k.granted, OfHeap g ∧ InRange (g.addr + k.hhdm) (g.pages * 4096) x := by
  obtain ⟨_, cells, rep⟩ := heap
  obtain ⟨c, inCells, _, start, _, fits⟩ := rep.block member
  exact rep.owned inCells (by unfold InRange at *; omega)

theorem of_touches {who : Grant → Prop} (heap : Heap A k live) (others : ∀ g, who g → ¬ OfHeap g)
    (step : Touches A who k k') : Heap A k' live ∧ Keeps k k' live := by
  constructor
  · obtain ⟨_, cells, rep⟩ := heap
    exact ⟨step.ready, cells, rep.of_touches others step⟩
  · intro b member x inside
    obtain ⟨g, taken, mine, here⟩ := heap.owned member inside
    exact step.byte_kept taken (fun own => others g own mine) here

theorem apart_run {b : Nat × Nat} {owner : Owner} {n addr : Nat} (heap : Heap A k live) (member : b ∈ live)
    (alloc : Allocates k k' owner n addr) : Apart b.1 b.2 (addr + k.hhdm) (n * 4096) := by
  refine apart_of_forall fun x inside there => ?_
  obtain ⟨g, taken, _, here⟩ := heap.owned member inside
  have separate := alloc.fresh g taken
  unfold Grant.Apart Apart at separate
  unfold InRange at *
  dsimp only at separate
  omega

/-- Between two blocks lies at least the header of the later one. -/
theorem gap {b c : Nat × Nat} (heap : Heap A k live) (hb : b ∈ live) (hc : c ∈ live) (other : b ≠ c) :
    b.1 + b.2 + 26 ≤ c.1 ∨ c.1 + c.2 + 26 ≤ b.1 := by
  obtain ⟨_, cells, rep⟩ := heap
  obtain ⟨d, inCells, _, start, required, inside⟩ := rep.block hb
  obtain ⟨e, inCells', _, start', required', inside'⟩ := rep.block hc
  have different : d ≠ e := by
    rintro rfl
    exact other (Prod.ext (by omega) (by omega))
  have separate := rep.cells_apart inCells inCells' different
  unfold Cell.Apart Apart at separate
  omega

end Heap

/-- What the other users of the heap do, with the blocks they own. -/
inductive ClientStep (A : PageAllocator) : Kernel → List (Nat × Nat) → Kernel → List (Nat × Nat) → Prop where
  | malloc {k k' : Kernel} {own : List (Nat × Nat)} {s p : Nat} (small : s < 2 ^ 63)
      (h : malloc A.kmalloc s k = .ok (p, k')) : ClientStep A k own k' ((p, s) :: own)
  | free {k k' : Kernel} {own : List (Nat × Nat)} {b : Nat × Nat} (member : b ∈ own)
      (h : free b.1 k = .ok ((), k')) : ClientStep A k own k' (own.erase b)
  | write {k : Kernel} {own : List (Nat × Nat)} {b : Nat × Nat} {x v : Nat} (member : b ∈ own)
      (inside : InRange b.1 b.2 x) : ClientStep A k own (k.setMem (store k.mem x 1 v)) own

/-- A step of the others keeps the heap and every block that is not theirs. -/
theorem ClientStep.ok {A : PageAllocator} {k k' : Kernel} {mine own own' : List (Nat × Nat)}
    (step : ClientStep A k own k' own') (heap : Heap A k (mine ++ own)) :
    Heap A k' (mine ++ own') ∧ Keeps k k' mine := by
  cases step with
  | malloc small h =>
    obtain ⟨after, kept⟩ := heap.malloc small h
    exact ⟨after.perm List.perm_middle.symm, kept.mono fun b member => List.mem_append_left _ member⟩
  | @free _ _ b member h =>
    have front : (mine ++ own).Perm (b :: (mine ++ own.erase b)) :=
      ((List.perm_cons_erase member).append_left mine).trans List.perm_middle
    obtain ⟨k', same, after, kept⟩ := (heap.perm front).free
    obtain ⟨_, rfl⟩ := Prod.mk.inj (Except.ok.inj (same.symm.trans h))
    exact ⟨after, kept.mono fun c listed => List.mem_cons_of_mem _ (List.mem_append_left _ listed)⟩
  | @write _ b x v member inside =>
    have listed : b ∈ mine ++ own := List.mem_append_right _ member
    refine ⟨heap.store listed inside.1 inside.2, fun c inMine y here => store_outside fun byte => ?_⟩
    have other : c ≠ b := by
      rintro rfl
      exact (List.nodup_append.mp heap.nodup).2.2 c inMine c member rfl
    have separate := heap.apart (List.mem_append_left _ inMine) listed other
    unfold InRange at *
    unfold Apart at separate
    omega

/-- Any number of steps of the others. -/
inductive ClientSteps (A : PageAllocator) (k : Kernel) (own : List (Nat × Nat)) : Kernel → List (Nat × Nat) → Prop where
  | refl : ClientSteps A k own k own
  | step {k' k'' : Kernel} {own' own'' : List (Nat × Nat)} (before : ClientSteps A k own k' own')
      (h : ClientStep A k' own' k'' own'') : ClientSteps A k own k'' own''

theorem ClientSteps.ok {A : PageAllocator} {k k' : Kernel} {mine own own' : List (Nat × Nat)}
    (steps : ClientSteps A k own k' own') (heap : Heap A k (mine ++ own)) :
    Heap A k' (mine ++ own') ∧ Keeps k k' mine := by
  induction steps with
  | refl => exact ⟨heap, .refl k mine⟩
  | step before h ih =>
    obtain ⟨between, first⟩ := ih
    obtain ⟨after, second⟩ := h.ok between
    exact ⟨after, first.trans second⟩

end PotatOS.Mem
