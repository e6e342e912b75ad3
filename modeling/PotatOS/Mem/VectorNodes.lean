import PotatOS.Mem.KheapClients

/-!
# Vectors in the heap (`vector.c`)

The chain of nodes as the code keeps it: `Vector` is `data_size`, `length` and
`first_node`, `VectorNode` is `index`, `next_node` and `data_addr`, eight bytes
each. The counter and the chain are separate here.
-/

namespace PotatOS.Mem.VectorNodes

open Memory Prog

/-- A read of a field through a pointer; the page at address 0 is not mapped. -/
def deref (a offset n : Nat) : KernelM Nat := do
  if a = 0 then Prog.stop .fault else return load (← get).mem (a + offset) n

def assign (a offset n v : Nat) : KernelM Unit :=
  if a = 0 then Prog.stop .fault else modify fun k => k.setMem (store k.mem (a + offset) n v)

def sizeofVector : Nat := 24
def sizeofVectorNode : Nat := 24

/-- `*node = (VectorNode) {…}`. -/
def setNode (node index nextNode dataAddr : Nat) : KernelM Unit := do
  assign node 0 8 index
  assign node 8 8 nextNode
  assign node 16 8 dataAddr

/-- The loop of `vector_push`, with a bound on its iterations. -/
def lastNode : Nat → Nat → KernelM Nat
  | 0, _ => Prog.stop .hang
  | fuel + 1, thisNode => do
    let nextNode ← deref thisNode 8 8
    if nextNode ≠ 0 then lastNode fuel nextNode else return thisNode

/-- `for (; current_idx < idx; current_idx++) this_node = this_node->next_node`. -/
def nodeAt : Nat → Nat → KernelM Nat
  | 0, thisNode => return thisNode
  | idx + 1, thisNode => do nodeAt idx (← deref thisNode 8 8)

section vector

variable (kmalloc : Owner → Nat → KernelM Nat)

def newVector (elementSize : Nat) : KernelM Nat := do
  let vec ← malloc kmalloc sizeofVector
  assign vec 0 8 elementSize
  assign vec 8 8 0
  assign vec 16 8 0
  return vec

def vectorPush (vec valAddr : Nat) : KernelM Unit := do
  let firstNode ← deref vec 16 8
  if firstNode = 0 then
    let node ← malloc kmalloc sizeofVectorNode
    assign vec 16 8 node
    setNode node 0 0 valAddr
    assign vec 8 8 (add64 (← deref vec 8 8) 1)
  else
    -- A chain that does not repeat a node has at most `2 ^ 64` of them.
    let thisNode ← lastNode (2 ^ 64) firstNode
    let node ← malloc kmalloc sizeofVectorNode
    assign thisNode 8 8 node
    setNode node (← deref thisNode 0 8) 0 valAddr
    assign vec 8 8 (add64 (← deref vec 8 8) 1)

end vector

def vectorSet (vec idx val : Nat) : KernelM Unit := do
  if (← deref vec 8 8) ≤ idx then return
  else
    let thisNode ← nodeAt idx (← deref vec 16 8)
    assign thisNode 16 8 val

/-- The null pointer past the end. -/
def vectorAt (vec idx : Nat) : KernelM Nat := do
  if (← deref vec 8 8) ≤ idx then return 0
  else
    let thisNode ← nodeAt idx (← deref vec 16 8)
    deref thisNode 16 8

def vectorPop (vec idx : Nat) : KernelM Unit := do
  if (← deref vec 8 8) = 0 then return
  else
    let firstNode ← deref vec 16 8
    if idx = 0 then
      assign vec 16 8 (← deref firstNode 8 8)
      assign vec 8 8 (sub64 (← deref vec 8 8) 1)
    else
      let thisNode ← nodeAt idx firstNode
      -- The loop stops at node `idx` itself, not at the one before it.
      let nextNode ← deref (← deref thisNode 8 8) 8 8
      assign thisNode 8 8 nextNode
      assign vec 8 8 (sub64 (← deref vec 8 8) 1)

/-! ### The representation -/

/-- A node and the address it holds. -/
structure Slot where
  node : Nat
  data : Nat
  deriving DecidableEq, Repr

/-- The pointer stored at `a` leads through the slots, in this order, to `last`. -/
def Path (m : Mem) (last : Nat) : Nat → List Slot → Prop
  | a, [] => load m a 8 = last
  | a, s :: rest => load m a 8 = s.node ∧ load m (s.node + 16) 8 = s.data ∧ Path m last (s.node + 8) rest

/-- Where the last pointer of a path is stored. -/
def endField : Nat → List Slot → Nat
  | a, [] => a
  | _, s :: rest => endField (s.node + 8) rest

structure VectorRep (m : Mem) (vec : Nat) (slots : List Slot) : Prop where
  length : load m (vec + 8) 8 = slots.length
  path : Path m 0 (vec + 16) slots

def nodeBlocks (slots : List Slot) : List (Nat × Nat) := slots.map fun s => (s.node, 24)

def vectorBlocks (vec : Nat) (slots : List Slot) : List (Nat × Nat) := (vec, 24) :: nodeBlocks slots

theorem mem_nodeBlocks {slots : List Slot} {s : Slot} (member : s ∈ slots) : (s.node, 24) ∈ nodeBlocks slots :=
  List.mem_map_of_mem member

theorem endField_append (a : Nat) (front : List Slot) (s : Slot) : endField a (front ++ [s]) = s.node + 8 := by
  induction front generalizing a with
  | nil => rfl
  | cons t rest ih => exact ih _

theorem endField_cases (a : Nat) (slots : List Slot) :
    endField a slots = a ∨ ∃ s ∈ slots, endField a slots = s.node + 8 := by
  induction slots using List.reverseRecOn with
  | nil => exact .inl rfl
  | append_singleton front s _ => exact .inr ⟨s, by simp, endField_append a front s⟩

theorem path_move {m m' : Mem} {last a b : Nat} {slots : List Slot} (field : load m' b 8 = load m a 8)
    (nodes : ∀ s ∈ slots, ∀ x, InRange (s.node + 8) 16 x → m' x = m x) (path : Path m last a slots) :
    Path m' last b slots := by
  induction slots generalizing a b with
  | nil => exact field.trans path
  | cons s rest ih =>
    obtain ⟨first, data, tail⟩ := path
    have here := nodes s List.mem_cons_self
    refine ⟨field.trans first, ?_, ih ?_ (fun t member => nodes t (List.mem_cons_of_mem _ member)) tail⟩
    · rw [← data]
      exact load_congr fun x inside => here x (by unfold InRange at *; omega)
    · exact load_congr fun x inside => here x (by unfold InRange at *; omega)

theorem path_congr {m m' : Mem} {last a : Nat} {slots : List Slot} (field : ∀ x, InRange a 8 x → m' x = m x)
    (nodes : ∀ s ∈ slots, ∀ x, InRange (s.node + 8) 16 x → m' x = m x) (path : Path m last a slots) :
    Path m' last a slots := path_move (load_congr field) nodes path

theorem path_store {m : Mem} {last new a : Nat} {slots : List Slot} (small : new < 2 ^ 64)
    (field : ∀ s ∈ slots, Apart a 8 s.node 24) (nodes : slots.Pairwise fun s t => Apart s.node 24 t.node 24)
    (path : Path m last a slots) : Path (store m (endField a slots) 8 new) new a slots := by
  induction slots generalizing a with
  | nil => exact load_store_same small
  | cons s rest ih =>
    obtain ⟨first, data, tail⟩ := path
    obtain ⟨others, nodes⟩ := List.pairwise_cons.mp nodes
    have near := field s List.mem_cons_self
    refine ⟨?_, ?_, ih ?_ nodes tail⟩
    · rw [← first]
      refine load_store_apart ?_
      rcases endField_cases (s.node + 8) rest with same | ⟨t, member, same⟩
      · rw [endField, same]
        unfold Apart at *
        omega
      · have far := field t (List.mem_cons_of_mem _ member)
        rw [endField, same]
        unfold Apart at *
        omega
    · rw [← data]
      refine load_store_apart ?_
      rcases endField_cases (s.node + 8) rest with same | ⟨t, member, same⟩
      · rw [endField, same]
        unfold Apart
        omega
      · have far := others t member
        rw [endField, same]
        unfold Apart at *
        omega
    · intro t member
      have far := others t member
      unfold Apart at *
      omega

theorem path_snoc {m : Mem} {last a : Nat} {slots : List Slot} {s : Slot} (path : Path m s.node a slots)
    (data : load m (s.node + 16) 8 = s.data) (next : load m (s.node + 8) 8 = last) :
    Path m last a (slots ++ [s]) := by
  induction slots generalizing a with
  | nil => exact ⟨path, data, next⟩
  | cons t rest ih =>
    obtain ⟨first, stored, tail⟩ := path
    exact ⟨first, stored, ih tail⟩

theorem path_slot {m : Mem} {last a : Nat} {front back : List Slot} {s : Slot}
    (path : Path m last a (front ++ s :: back)) :
    load m (s.node + 16) 8 = s.data ∧ Path m last (s.node + 8) back := by
  induction front generalizing a with
  | nil => exact path.2
  | cons t rest ih => exact ih path.2.2

theorem path_append {m : Mem} {last a : Nat} {front back : List Slot} :
    Path m last a (front ++ back) ↔ Path m (load m (endField a front) 8) a front ∧ Path m last (endField a front) back := by
  induction front generalizing a with
  | nil => simp [Path, endField]
  | cons s rest ih => simp [Path, endField, ih, and_assoc]

/-- Where the pointer to the slot after `front` is stored, no later node is. -/
theorem endField_apart {a : Nat} {front : List Slot} {s : Slot} (field : Apart a 8 s.node 24)
    (nodes : ∀ t ∈ front, Apart t.node 24 s.node 24) : Apart (endField a front) 8 s.node 24 := by
  rcases endField_cases a front with same | ⟨t, member, same⟩
  · rw [same]
    exact field
  · have far := nodes t member
    rw [same]
    unfold Apart at *
    omega

/-- The pointer to a slot is replaced by the slot's own pointer. -/
theorem path_remove {m : Mem} {last a : Nat} {front back : List Slot} {t : Slot}
    (field : ∀ s ∈ front ++ t :: back, Apart a 8 s.node 24)
    (nodes : (front ++ t :: back).Pairwise fun s t => Apart s.node 24 t.node 24)
    (path : Path m last a (front ++ t :: back)) :
    Path (store m (endField a front) 8 (load m (t.node + 8) 8)) last a (front ++ back) := by
  obtain ⟨before, _, _, tail⟩ := path_append.mp path
  obtain ⟨ahead, _, cross⟩ := List.pairwise_append.mp nodes
  have small := load_lt m (t.node + 8) 8
  refine path_append.mpr ⟨?_, path_move (load_store_same small) ?_ tail⟩
  · rw [load_store_same small]
    exact path_store small (fun s member => field s (List.mem_append_left _ member)) ahead before
  · intro s member x inside
    have later : s ∈ t :: back := List.mem_cons_of_mem _ member
    have far := endField_apart (field s (List.mem_append_right _ later)) fun u listed => cross u listed s later
    refine store_outside ?_
    unfold Apart InRange at *
    omega

theorem path_set {m : Mem} {last a val : Nat} {front back : List Slot} {s : Slot} (small : val < 2 ^ 64)
    (field : Apart a 8 s.node 24) (nodes : (front ++ s :: back).Pairwise fun s t => Apart s.node 24 t.node 24)
    (path : Path m last a (front ++ s :: back)) :
    Path (store m (s.node + 16) 8 val) last a (front ++ ⟨s.node, val⟩ :: back) := by
  obtain ⟨before, first, _, tail⟩ := path_append.mp path
  obtain ⟨_, rest, cross⟩ := List.pairwise_append.mp nodes
  have far := endField_apart field fun t member => cross t member s List.mem_cons_self
  have kept : load (store m (s.node + 16) 8 val) (endField a front) 8 = load m (endField a front) 8 :=
    load_store_apart (by unfold Apart at *; omega)
  refine path_append.mpr ⟨?_, kept.trans first, load_store_same small, path_congr ?_ ?_ tail⟩
  · rw [kept]
    refine path_congr (fun x inside => ?_) (fun t member x inside => ?_) before
    · exact store_outside (by unfold Apart InRange at *; omega)
    · have away := cross t member s List.mem_cons_self
      exact store_outside (by unfold Apart InRange at *; omega)
  · intro x inside
    exact store_outside (by unfold InRange at *; dsimp only at inside; omega)
  · intro t member x inside
    have away := (List.pairwise_cons.mp rest).1 t member
    exact store_outside (by unfold Apart InRange at *; omega)

theorem VectorRep.keeps {k k' : Kernel} {vec : Nat} {slots : List Slot} (rep : VectorRep k.mem vec slots)
    (keeps : Keeps k k' (vectorBlocks vec slots)) : VectorRep k'.mem vec slots := by
  refine ⟨?_, path_congr ?_ ?_ rep.path⟩
  · rw [← rep.length]
    exact keeps.load List.mem_cons_self (by dsimp only; omega) (by dsimp only; omega)
  · intro x inside
    exact keeps (vec, 24) List.mem_cons_self x (by unfold InRange at *; dsimp only; omega)
  · intro s member x inside
    exact keeps _ (List.mem_cons_of_mem _ (mem_nodeBlocks member)) x (by unfold InRange at *; dsimp only; omega)

/-! ### What each operation does -/

theorem deref_run {k : Kernel} {a offset n : Nat} (valid : 0 < a) :
    deref a offset n k = .ok (load k.mem (a + offset) n, k) := by
  rw [deref, if_neg (by omega)]
  rfl

theorem assign_run {k : Kernel} {a offset n v : Nat} (valid : 0 < a) :
    assign a offset n v k = .ok ((), k.setMem (store k.mem (a + offset) n v)) := by
  rw [assign, if_neg (by omega)]
  rfl

theorem deref_null {k : Kernel} {offset n : Nat} : deref 0 offset n k = .error .fault := rfl

/-- The memory after `setNode`. -/
def withNode (m : Mem) (node index nextNode dataAddr : Nat) : Mem :=
  store (store (store m (node + 0) 8 index) (node + 8) 8 nextNode) (node + 16) 8 dataAddr

theorem setNode_run {k : Kernel} {node index nextNode dataAddr : Nat} (valid : 0 < node) :
    setNode node index nextNode dataAddr k = .ok ((), k.setMem (withNode k.mem node index nextNode dataAddr)) := by
  rw [setNode, bind_eq (assign_run valid), bind_eq (assign_run valid), assign_run valid]
  rfl

theorem withNode_outside {m : Mem} {node index nextNode dataAddr x : Nat} (outside : ¬ InRange node 24 x) :
    withNode m node index nextNode dataAddr x = m x := by
  unfold InRange at outside
  rw [withNode, store_outside (by unfold InRange; omega), store_outside (by unfold InRange; omega),
    store_outside (by unfold InRange; omega)]

theorem withNode_next {m : Mem} {node index nextNode dataAddr : Nat} (small : nextNode < 2 ^ 64) :
    load (withNode m node index nextNode dataAddr) (node + 8) 8 = nextNode := by
  rw [withNode, load_store_apart (by unfold Apart; omega), load_store_same small]

theorem withNode_data {m : Mem} {node index nextNode dataAddr : Nat} (small : dataAddr < 2 ^ 64) :
    load (withNode m node index nextNode dataAddr) (node + 16) 8 = dataAddr := by
  rw [withNode, load_store_same small]

theorem nodeAt_run {k : Kernel} {last a : Nat} {front back : List Slot} {s : Slot}
    (path : Path k.mem last a (front ++ s :: back)) (valid : ∀ t ∈ front, 0 < t.node) :
    nodeAt front.length (load k.mem a 8) k = .ok (s.node, k) := by
  induction front generalizing a with
  | nil =>
    rw [path.1]
    rfl
  | cons t rest ih =>
    obtain ⟨first, _, tail⟩ := path
    rw [first, List.length_cons, nodeAt, bind_eq (deref_run (valid t List.mem_cons_self))]
    exact ih tail fun u member => valid u (List.mem_cons_of_mem _ member)

theorem nodeAt_beyond {k : Kernel} {a idx : Nat} {slots : List Slot} (path : Path k.mem 0 a slots)
    (valid : ∀ t ∈ slots, 0 < t.node) (beyond : slots.length < idx) :
    nodeAt idx (load k.mem a 8) k = .error .fault := by
  induction slots generalizing a idx with
  | nil =>
    obtain ⟨n, rfl⟩ : ∃ n, idx = n + 1 := ⟨idx - 1, by simp at beyond; omega⟩
    rw [show load k.mem a 8 = 0 from path]
    exact bind_error deref_null
  | cons t rest ih =>
    obtain ⟨n, rfl⟩ : ∃ n, idx = n + 1 := ⟨idx - 1, by simp at beyond; omega⟩
    obtain ⟨first, _, tail⟩ := path
    rw [first, nodeAt, bind_eq (deref_run (valid t List.mem_cons_self))]
    exact ih tail (fun u member => valid u (List.mem_cons_of_mem _ member)) (by simpa using beyond)

/-- A walk of as many steps as there are nodes ends at the null pointer. -/
theorem nodeAt_end {k : Kernel} {a : Nat} {slots : List Slot} (path : Path k.mem 0 a slots)
    (valid : ∀ t ∈ slots, 0 < t.node) : nodeAt slots.length (load k.mem a 8) k = .ok (0, k) := by
  induction slots generalizing a with
  | nil =>
    rw [show load k.mem a 8 = 0 from path]
    rfl
  | cons t rest ih =>
    obtain ⟨first, _, tail⟩ := path
    rw [first, List.length_cons, nodeAt, bind_eq (deref_run (valid t List.mem_cons_self))]
    exact ih tail fun u member => valid u (List.mem_cons_of_mem _ member)

theorem lastNode_run {k : Kernel} {a : Nat} {front : List Slot} {s : Slot} {fuel : Nat}
    (path : Path k.mem 0 a (front ++ [s])) (valid : ∀ t ∈ front ++ [s], 0 < t.node)
    (enough : front.length < fuel) : lastNode fuel (load k.mem a 8) k = .ok (s.node, k) := by
  induction front generalizing a fuel with
  | nil =>
    cases fuel with
    | zero => simp at enough
    | succ fuel =>
      obtain ⟨first, _, next⟩ := path
      rw [first, lastNode, bind_eq (deref_run (valid s (by simp))), show load k.mem (s.node + 8) 8 = 0 from next,
        if_neg (by simp)]
      rfl
  | cons t rest ih =>
    cases fuel with
    | zero => simp at enough
    | succ fuel =>
      rw [List.cons_append] at path
      obtain ⟨first, _, tail⟩ := path
      have ahead : load k.mem (t.node + 8) 8 ≠ 0 := by
        cases rest with
        | nil =>
          rw [tail.1]
          exact Nat.ne_of_gt (valid s (by simp))
        | cons u _ =>
          rw [tail.1]
          exact Nat.ne_of_gt (valid u (by simp))
      rw [first, lastNode, bind_eq (deref_run (valid t List.mem_cons_self)), if_pos ahead]
      exact ih tail (fun u member => valid u (List.mem_cons_of_mem _ member)) (by simpa using enough)

section steps

variable {A : PageAllocator} {k k' : Kernel} {live : List (Nat × Nat)} {vec : Nat} {slots : List Slot}

theorem newVector_ok {elementSize : Nat} (heap : Heap A k live)
    (h : newVector A.kmalloc elementSize k = .ok (vec, k')) :
    Heap A k' ((vec, 24) :: live) ∧ Keeps k k' live ∧ VectorRep k'.mem vec [] := by
  unfold newVector at h
  obtain ⟨p, k₁, got, h⟩ := bind_ok h
  obtain ⟨heap₁, kept⟩ := heap.malloc (by decide) got
  have valid : 0 < p := (heap₁.bounds List.mem_cons_self).1
  rw [bind_eq (assign_run valid), bind_eq (assign_run valid), bind_eq (assign_run valid)] at h
  obtain ⟨rfl, rfl⟩ := pure_ok h
  have outside : ∀ x, ¬ InRange p 24 x →
      withNode k₁.mem p elementSize 0 0 x = k₁.mem x := fun x => withNode_outside
  refine ⟨heap₁.write List.mem_cons_self outside, ?_, ?_⟩
  · intro b member x inside
    have separate := (List.pairwise_cons.mp heap₁.pairwise).1 b member
    exact (outside x (not_inRange_of_apart (apart_comm.mp separate) inside)).trans (kept b member x inside)
  · exact ⟨withNode_next (by decide), withNode_data (by decide)⟩

theorem record_valid (heap : Heap A k (vectorBlocks vec slots ++ live)) : 0 < vec :=
  (heap.bounds (b := (vec, 24)) (by simp [vectorBlocks])).1

theorem valid_nodes (heap : Heap A k (vectorBlocks vec slots ++ live)) : ∀ s ∈ slots, 0 < s.node := by
  intro s member
  have listed : (s.node, 24) ∈ vectorBlocks vec slots ++ live :=
    List.mem_append_left _ (List.mem_cons_of_mem _ (mem_nodeBlocks member))
  exact (heap.bounds listed).1

theorem vector_apart (heap : Heap A k (vectorBlocks vec slots ++ live)) :
    (∀ s ∈ slots, Apart vec 24 s.node 24) ∧ (slots.Pairwise fun s t => Apart s.node 24 t.node 24) ∧
      ∀ b ∈ live, Apart vec 24 b.1 b.2 ∧ ∀ s ∈ slots, Apart s.node 24 b.1 b.2 := by
  obtain ⟨record, rest⟩ := List.pairwise_cons.mp heap.pairwise
  obtain ⟨chain, _, cross⟩ := List.pairwise_append.mp rest
  refine ⟨fun s member => ?_, List.pairwise_map.mp chain, fun b member => ?_⟩
  · exact record _ (List.mem_append_left _ (mem_nodeBlocks member))
  · exact ⟨record b (List.mem_append_right _ member), fun s inSlots => cross _ (mem_nodeBlocks inSlots) b member⟩

theorem blocks_apart {node : Nat} (heap : Heap A k ((node, 24) :: (vectorBlocks vec slots ++ live))) :
    Apart node 24 vec 24 ∧ (∀ s ∈ slots, Apart node 24 s.node 24 ∧ Apart vec 24 s.node 24) ∧
      (slots.Pairwise fun s t => Apart s.node 24 t.node 24) ∧
      ∀ b ∈ live, Apart node 24 b.1 b.2 ∧ Apart vec 24 b.1 b.2 ∧ ∀ s ∈ slots, Apart s.node 24 b.1 b.2 := by
  have moved : Heap A k (vectorBlocks vec slots ++ (node, 24) :: live) := heap.perm List.perm_middle.symm
  obtain ⟨record, nodes, others⟩ := vector_apart moved
  obtain ⟨away, near⟩ := others _ List.mem_cons_self
  have new := (List.pairwise_cons.mp heap.pairwise).1
  refine ⟨apart_comm.mp away, fun s member => ⟨apart_comm.mp (near s member), record s member⟩, nodes, ?_⟩
  intro b member
  obtain ⟨first, chain⟩ := others b (List.mem_cons_of_mem _ member)
  exact ⟨new b (List.mem_append_right _ member), first, chain⟩

theorem store_link {blocks : List (Nat × Nat)} {front : List Slot} (heap : Heap A k blocks)
    (record : (vec, 24) ∈ blocks) (nodes : ∀ s ∈ front, (s.node, 24) ∈ blocks) (v : Nat) :
    Heap A (k.setMem (store k.mem (endField (vec + 16) front) 8 v)) blocks := by
  rcases endField_cases (vec + 16) front with same | ⟨s, member, same⟩
  · rw [same]
    exact heap.store record (by dsimp only; omega) (by dsimp only; omega)
  · rw [same]
    exact heap.store (nodes s member) (by dsimp only; omega) (by dsimp only; omega)

/-- The memory after `vector_push` got `node`: it is linked, filled and counted. -/
def withPush (m : Mem) (vec field node index val : Nat) : Mem :=
  let linked := withNode (store m field 8 node) node index 0 val
  store linked (vec + 8) 8 (add64 (load linked (vec + 8) 8) 1)

theorem withPush_outside {m : Mem} {field node index val x : Nat} (record : ¬ InRange (vec + 8) 8 x)
    (link : ¬ InRange field 8 x) (new : ¬ InRange node 24 x) : withPush m vec field node index val x = m x := by
  rw [withPush, store_outside record, withNode_outside new, store_outside link]

theorem perm_push (node val : Nat) :
    ((node, 24) :: (vectorBlocks vec slots ++ live)).Perm (vectorBlocks vec (slots ++ [⟨node, val⟩]) ++ live) := by
  have nodes : nodeBlocks (slots ++ [⟨node, val⟩]) = nodeBlocks slots ++ [(node, 24)] := by simp [nodeBlocks]
  rw [vectorBlocks, vectorBlocks, nodes, List.cons_append, List.cons_append, List.append_assoc]
  exact (List.Perm.swap _ _ _).trans (List.Perm.cons _ List.perm_middle.symm)

theorem withPush_heap {node index val : Nat} (heap : Heap A k ((node, 24) :: (vectorBlocks vec slots ++ live))) :
    Heap A (k.setMem (withPush k.mem vec (endField (vec + 16) slots) node index val))
      (vectorBlocks vec (slots ++ [⟨node, val⟩]) ++ live) := by
  have record : (vec, 24) ∈ (node, 24) :: (vectorBlocks vec slots ++ live) := by simp [vectorBlocks]
  have nodes : ∀ s ∈ slots, (s.node, 24) ∈ (node, 24) :: (vectorBlocks vec slots ++ live) := fun s member =>
    List.mem_cons_of_mem _ (List.mem_append_left _ (List.mem_cons_of_mem _ (mem_nodeBlocks member)))
  have linked := store_link heap record nodes node
  have filled := linked.write (b := (node, 24)) (m := withNode (store k.mem (endField (vec + 16) slots) 8 node)
    node index 0 val) List.mem_cons_self fun x => withNode_outside
  have counted := filled.store (b := (vec, 24)) (a := vec + 8) (n := 8) (v := add64 (load (withNode
    (store k.mem (endField (vec + 16) slots) 8 node) node index 0 val) (vec + 8) 8) 1) (by simp [vectorBlocks])
    (by dsimp only; omega) (by dsimp only; omega)
  exact counted.perm (perm_push node val)

theorem withPush_keeps {node index val : Nat} (heap : Heap A k ((node, 24) :: (vectorBlocks vec slots ++ live))) :
    Keeps k (k.setMem (withPush k.mem vec (endField (vec + 16) slots) node index val)) live := by
  obtain ⟨_, _, _, others⟩ := blocks_apart heap
  intro b member x inside
  obtain ⟨new, record, nodes⟩ := others b member
  apply withPush_outside
  · unfold Apart InRange at *
    omega
  · rcases endField_cases (vec + 16) slots with same | ⟨s, inSlots, same⟩
    · rw [same]
      unfold Apart InRange at *
      omega
    · have far := nodes s inSlots
      rw [same]
      unfold Apart InRange at *
      omega
  · exact not_inRange_of_apart (apart_comm.mp new) inside

theorem withPush_rep {node index val : Nat} (heap : Heap A k ((node, 24) :: (vectorBlocks vec slots ++ live)))
    (rep : VectorRep k.mem vec slots) (small : val < 2 ^ 64) :
    VectorRep (withPush k.mem vec (endField (vec + 16) slots) node index val) vec (slots ++ [⟨node, val⟩]) := by
  obtain ⟨away, near, nodes, _⟩ := blocks_apart heap
  have limits := heap.bounds (b := (node, 24)) List.mem_cons_self
  have few : slots.length + 1 < 2 ^ 64 := by
    have total := heap.few
    simp only [vectorBlocks, nodeBlocks, List.length_cons, List.length_append, List.length_map] at total
    omega
  -- After the first store the path leads to the new node.
  have linked : Path (store k.mem (endField (vec + 16) slots) 8 node) node (vec + 16) slots := by
    refine path_store limits.2.1 (fun s member => ?_) nodes rep.path
    have far := (near s member).2
    unfold Apart at *
    omega
  have filled : Path (withNode (store k.mem (endField (vec + 16) slots) 8 node) node index 0 val) 0 (vec + 16)
      (slots ++ [⟨node, val⟩]) := by
    refine path_snoc (path_congr ?_ ?_ linked) (withNode_data small) (withNode_next (by decide))
    · intro x inside
      refine withNode_outside ?_
      unfold Apart InRange at *
      omega
    · intro s member x inside
      have far := (near s member).1
      refine withNode_outside ?_
      unfold Apart InRange at *
      omega
  have counter : load (withNode (store k.mem (endField (vec + 16) slots) 8 node) node index 0 val) (vec + 8) 8 =
      slots.length := by
    rw [← rep.length]
    refine load_congr fun x inside => ?_
    rw [withNode_outside (by unfold Apart InRange at *; omega), store_outside]
    rcases endField_cases (vec + 16) slots with same | ⟨s, member, same⟩
    · rw [same]
      unfold InRange at *
      omega
    · have far := (near s member).2
      rw [same]
      unfold Apart InRange at *
      omega
  refine ⟨?_, path_congr ?_ ?_ filled⟩
  · rw [withPush, counter, add64_of_lt few, load_store_same few, List.length_append, List.length_singleton]
  · intro x inside
    exact store_outside (by unfold InRange at *; omega)
  · intro s member x inside
    refine store_outside ?_
    have far : Apart vec 24 s.node 24 := by
      rcases List.mem_append.mp member with old | new
      · exact (near s old).2
      · obtain rfl := List.mem_singleton.mp new
        exact apart_comm.mp away
    unfold Apart InRange at *
    omega

theorem eq_nil_or_snoc (slots : List Slot) : slots = [] ∨ ∃ front s, slots = front ++ [s] := by
  induction slots using List.reverseRecOn with
  | nil => exact .inl rfl
  | append_singleton front s _ => exact .inr ⟨front, s, rfl⟩

/-- `vector_push` is `malloc` and the stores that append its block. -/
theorem vectorPush_eq (val : Nat) (heap : Heap A k (vectorBlocks vec slots ++ live)) (rep : VectorRep k.mem vec slots) :
    (∃ node index k₁, malloc A.kmalloc sizeofVectorNode k = .ok (node, k₁) ∧ vectorPush A.kmalloc vec val k =
      .ok ((), k₁.setMem (withPush k₁.mem vec (endField (vec + 16) slots) node index val))) ∨
    ∃ reason, malloc A.kmalloc sizeofVectorNode k = .error reason ∧
      vectorPush A.kmalloc vec val k = .error reason := by
  have vecValid := record_valid heap
  have nodesValid := valid_nodes heap
  rw [vectorPush, bind_eq (deref_run vecValid)]
  rcases eq_nil_or_snoc slots with rfl | ⟨front, s, rfl⟩
  · rw [if_pos (show load k.mem (vec + 16) 8 = 0 from rep.path)]
    cases got : malloc A.kmalloc sizeofVectorNode k with
    | error reason => exact .inr ⟨reason, rfl, bind_error got⟩
    | ok pair =>
      obtain ⟨node, k₁⟩ := pair
      have valid := heap.malloc_valid (by decide) got
      refine .inl ⟨node, 0, k₁, rfl, ?_⟩
      rw [bind_eq got, bind_eq (assign_run vecValid), bind_eq (setNode_run valid), bind_eq (deref_run vecValid),
        assign_run vecValid]
      rfl
  · have first : load k.mem (vec + 16) 8 ≠ 0 := by
      cases front with
      | nil =>
        rw [rep.path.1]
        exact Nat.ne_of_gt (nodesValid s (by simp))
      | cons t rest =>
        rw [rep.path.1]
        exact Nat.ne_of_gt (nodesValid t (by simp))
    have enough : front.length < 2 ^ 64 := by
      have total := heap.few
      simp only [vectorBlocks, nodeBlocks, List.length_cons, List.length_append, List.length_map] at total
      omega
    have lastValid : 0 < s.node := nodesValid s (by simp)
    rw [if_neg first, bind_eq (lastNode_run rep.path nodesValid enough)]
    cases got : malloc A.kmalloc sizeofVectorNode k with
    | error reason => exact .inr ⟨reason, rfl, bind_error got⟩
    | ok pair =>
      obtain ⟨node, k₁⟩ := pair
      have valid := heap.malloc_valid (by decide) got
      refine .inl ⟨node, load (store k₁.mem (s.node + 8) 8 node) (s.node + 0) 8, k₁, rfl, ?_⟩
      rw [bind_eq got, bind_eq (assign_run lastValid), bind_eq (deref_run lastValid), bind_eq (setNode_run valid),
        bind_eq (deref_run vecValid), assign_run vecValid, endField_append]
      rfl

theorem vectorPush_ok {val : Nat} (heap : Heap A k (vectorBlocks vec slots ++ live)) (rep : VectorRep k.mem vec slots)
    (small : val < 2 ^ 64) (h : vectorPush A.kmalloc vec val k = .ok ((), k')) :
    ∃ node, Heap A k' (vectorBlocks vec (slots ++ [⟨node, val⟩]) ++ live) ∧ Keeps k k' live ∧
      VectorRep k'.mem vec (slots ++ [⟨node, val⟩]) := by
  rcases vectorPush_eq val heap rep with ⟨node, index, k₁, got, same⟩ | ⟨reason, _, stopped⟩
  · obtain ⟨_, rfl⟩ := Prod.mk.inj (Except.ok.inj (same.symm.trans h))
    obtain ⟨heap₁, kept⟩ := heap.malloc (by decide) got
    have rep₁ := rep.keeps (kept.mono fun b member => List.mem_append_left _ member)
    exact ⟨node, withPush_heap heap₁, (kept.mono fun b member => List.mem_append_right _ member).trans
      (withPush_keeps heap₁), withPush_rep heap₁ rep₁ small⟩
  · rw [stopped] at h
    cases h

theorem vectorPush_error {val : Nat} {reason : Stop} (heap : Heap A k (vectorBlocks vec slots ++ live))
    (rep : VectorRep k.mem vec slots) (h : vectorPush A.kmalloc vec val k = .error reason) :
    ∃ n, A.kmalloc .heap n k = .error reason := by
  rcases vectorPush_eq val heap rep with ⟨node, index, k₁, got, same⟩ | ⟨reason', got, stopped⟩
  · rw [same] at h
    cases h
  · obtain rfl := Except.error.inj (stopped.symm.trans h)
    exact heap.malloc_error (by decide) got

theorem vectorAt_run {front back : List Slot} {s : Slot} (heap : Heap A k (vectorBlocks vec (front ++ s :: back) ++ live))
    (rep : VectorRep k.mem vec (front ++ s :: back)) : vectorAt vec front.length k = .ok (s.data, k) := by
  have vecValid := record_valid heap
  have nodesValid := valid_nodes heap
  rw [vectorAt, bind_eq (deref_run vecValid), rep.length, if_neg (by simp), bind_eq (deref_run vecValid),
    bind_eq (nodeAt_run rep.path fun t member => nodesValid t (List.mem_append_left _ member)),
    deref_run (nodesValid s (by simp)), (path_slot rep.path).1]

theorem vectorAt_beyond {idx : Nat} (beyond : slots.length ≤ idx) (heap : Heap A k (vectorBlocks vec slots ++ live))
    (rep : VectorRep k.mem vec slots) : vectorAt vec idx k = .ok (0, k) := by
  have vecValid := record_valid heap
  rw [vectorAt, bind_eq (deref_run vecValid), rep.length, if_pos beyond]
  rfl

theorem vectorSet_beyond {idx val : Nat} (beyond : slots.length ≤ idx)
    (heap : Heap A k (vectorBlocks vec slots ++ live)) (rep : VectorRep k.mem vec slots) :
    vectorSet vec idx val k = .ok ((), k) := by
  have vecValid := record_valid heap
  rw [vectorSet, bind_eq (deref_run vecValid), rep.length, if_pos beyond]
  rfl

theorem vectorSet_ok {front back : List Slot} {s : Slot} {val : Nat} (small : val < 2 ^ 64)
    (heap : Heap A k (vectorBlocks vec (front ++ s :: back) ++ live)) (rep : VectorRep k.mem vec (front ++ s :: back)) :
    ∃ k', vectorSet vec front.length val k = .ok ((), k') ∧
      Heap A k' (vectorBlocks vec (front ++ ⟨s.node, val⟩ :: back) ++ live) ∧ Keeps k k' live ∧
      VectorRep k'.mem vec (front ++ ⟨s.node, val⟩ :: back) := by
  have vecValid := record_valid heap
  have nodesValid := valid_nodes heap
  obtain ⟨record, nodes, others⟩ := vector_apart heap
  have near := record s (by simp)
  have blocks : vectorBlocks vec (front ++ ⟨s.node, val⟩ :: back) = vectorBlocks vec (front ++ s :: back) := by
    simp [vectorBlocks, nodeBlocks]
  refine ⟨k.setMem (store k.mem (s.node + 16) 8 val), ?_, ?_, fun b member x inside => ?_, ?_, ?_⟩
  · rw [vectorSet, bind_eq (deref_run vecValid), rep.length, if_neg (by simp), bind_eq (deref_run vecValid),
      bind_eq (nodeAt_run rep.path fun t member => nodesValid t (List.mem_append_left _ member)),
      assign_run (nodesValid s (by simp))]
  · rw [blocks]
    exact heap.store (b := (s.node, 24)) (by simp [vectorBlocks, nodeBlocks]) (by dsimp only; omega) (by dsimp only; omega)
  · have far := (others b member).2 s (by simp)
    exact store_outside (by unfold Apart InRange at *; omega)
  · rw [Kernel.setMem_mem, load_store_apart (by unfold Apart at *; omega), rep.length]
    simp
  · exact path_set small (by unfold Apart at *; omega) nodes rep.path

/-- The memory after the first node is taken out of the chain. -/
def withoutFirst (m : Mem) (vec node length : Nat) : Mem :=
  store (store m (vec + 16) 8 (load m (node + 8) 8)) (vec + 8) 8 length

theorem vectorPop_run {s : Slot} {rest : List Slot} (heap : Heap A k (vectorBlocks vec (s :: rest) ++ live))
    (rep : VectorRep k.mem vec (s :: rest)) :
    vectorPop vec 0 k = .ok ((), k.setMem (withoutFirst k.mem vec s.node rest.length)) := by
  have vecValid := record_valid heap
  have nodeValid : 0 < s.node := valid_nodes heap s List.mem_cons_self
  have count : load k.mem (vec + 8) 8 = rest.length + 1 := rep.length
  have few := load_lt k.mem (vec + 8) 8
  have counter : load (store k.mem (vec + 16) 8 (load k.mem (s.node + 8) 8)) (vec + 8) 8 = rest.length + 1 := by
    rw [load_store_apart (by unfold Apart; omega), count]
  rw [vectorPop, bind_eq (deref_run vecValid), count, if_neg (by omega), bind_eq (deref_run vecValid), rep.path.1,
    if_pos rfl, bind_eq (deref_run nodeValid), bind_eq (assign_run vecValid), bind_eq (deref_run vecValid),
    assign_run vecValid, Kernel.setMem_mem, counter, sub64_of_le (by omega)]
  rfl

/-- The memory after the node whose pointer is stored at `field` is taken out of the chain. -/
def withoutNode (m : Mem) (vec field node length : Nat) : Mem :=
  store (store m field 8 (load m (node + 8) 8)) (vec + 8) 8 length

theorem perm_remove (front back : List Slot) (t : Slot) :
    (vectorBlocks vec (front ++ t :: back) ++ live).Perm (vectorBlocks vec (front ++ back) ++ (t.node, 24) :: live) := by
  simp only [vectorBlocks, nodeBlocks, List.map_append, List.map_cons, List.cons_append, List.append_assoc]
  exact (List.perm_middle.symm.append_left _).cons _

section removal

variable {front back : List Slot} {t : Slot}

/-- The stores that remove a node stay in the vector's blocks, the node's own left out. -/
theorem withoutNode_outside {n : Nat} (heap : Heap A k (vectorBlocks vec (front ++ t :: back) ++ live))
    {b : Nat × Nat} (member : b ∈ (t.node, 24) :: live) {x : Nat} (inside : InRange b.1 b.2 x) :
    withoutNode k.mem vec (endField (vec + 16) front) t.node n x = k.mem x := by
  obtain ⟨record, _, others⟩ := vector_apart (heap.perm (perm_remove front back t))
  obtain ⟨away, nodes⟩ := others b member
  rw [withoutNode, store_outside (by unfold Apart InRange at *; omega), store_outside]
  rcases endField_cases (vec + 16) front with same | ⟨s, inFront, same⟩
  · rw [same]
    unfold Apart InRange at *
    omega
  · have far := nodes s (List.mem_append_left _ inFront)
    rw [same]
    unfold Apart InRange at *
    omega

theorem withoutNode_rep (heap : Heap A k (vectorBlocks vec (front ++ t :: back) ++ live))
    (rep : VectorRep k.mem vec (front ++ t :: back)) :
    VectorRep (withoutNode k.mem vec (endField (vec + 16) front) t.node (front ++ back).length) vec (front ++ back) := by
  obtain ⟨record, nodes, _⟩ := vector_apart heap
  have few := load_lt k.mem (vec + 8) 8
  rw [rep.length, List.length_append, List.length_cons] at few
  refine ⟨load_store_same (by rw [List.length_append]; omega), ?_⟩
  have removed := path_remove (fun s member => ?_) nodes rep.path
  · refine path_congr (fun x inside => ?_) (fun s member x inside => ?_) removed
    · exact store_outside (by unfold InRange at *; omega)
    · have far : Apart vec 24 s.node 24 := record s (by grind)
      exact store_outside (by unfold Apart InRange at *; omega)
  · have far := record s member
    unfold Apart at *
    omega

/-- What taking a node out of the chain does. -/
theorem withoutNode_ok (heap : Heap A k (vectorBlocks vec (front ++ t :: back) ++ live))
    (rep : VectorRep k.mem vec (front ++ t :: back))
    (same : k' = k.setMem (withoutNode k.mem vec (endField (vec + 16) front) t.node (front ++ back).length)) :
    Heap A k' (vectorBlocks vec (front ++ back) ++ (t.node, 24) :: live) ∧ Keeps k k' ((t.node, 24) :: live) ∧
      VectorRep k'.mem vec (front ++ back) := by
  subst same
  refine ⟨?_, fun b member x inside => withoutNode_outside heap member inside, withoutNode_rep heap rep⟩
  have record : (vec, 24) ∈ vectorBlocks vec (front ++ t :: back) ++ live := by simp [vectorBlocks]
  have nodes : ∀ s ∈ front, (s.node, 24) ∈ vectorBlocks vec (front ++ t :: back) ++ live := fun s member =>
    List.mem_append_left _ (List.mem_cons_of_mem _ (mem_nodeBlocks (List.mem_append_left _ member)))
  have linked := store_link heap record nodes (load k.mem (t.node + 8) 8)
  have counted := linked.store (b := (vec, 24)) (a := vec + 8) (n := 8) (v := (front ++ back).length)
    (by simp [vectorBlocks]) (by dsimp only; omega) (by dsimp only; omega)
  exact counted.perm (perm_remove front back t)

end removal

theorem vectorPop_first {s : Slot} {rest : List Slot} (heap : Heap A k (vectorBlocks vec (s :: rest) ++ live))
    (rep : VectorRep k.mem vec (s :: rest)) :
    ∃ k', vectorPop vec 0 k = .ok ((), k') ∧ Heap A k' (vectorBlocks vec rest ++ (s.node, 24) :: live) ∧
      Keeps k k' ((s.node, 24) :: live) ∧ VectorRep k'.mem vec rest :=
  ⟨_, vectorPop_run heap rep, @withoutNode_ok A k _ live vec [] rest s heap rep rfl⟩

/-- At an index behind the first, the element after the one asked for is removed. -/
theorem vectorPop_behind {front back : List Slot} {s t : Slot} (several : front ≠ [])
    (heap : Heap A k (vectorBlocks vec (front ++ [s] ++ t :: back) ++ live))
    (rep : VectorRep k.mem vec (front ++ [s] ++ t :: back)) :
    ∃ k', vectorPop vec front.length k = .ok ((), k') ∧
      Heap A k' (vectorBlocks vec (front ++ [s] ++ back) ++ (t.node, 24) :: live) ∧ Keeps k k' ((t.node, 24) :: live) ∧
      VectorRep k'.mem vec (front ++ [s] ++ back) := by
  have vecValid := record_valid heap
  have nodesValid := valid_nodes heap
  have chain : Path k.mem 0 (vec + 16) (front ++ s :: t :: back) := by simpa using rep.path
  have count : load k.mem (vec + 8) 8 = (front ++ [s] ++ back).length + 1 := by
    rw [rep.length]
    simp
    omega
  have position : front.length ≠ 0 := by simpa using several
  obtain ⟨_, tail⟩ := path_slot chain
  have near := (vector_apart heap).1 s (by simp)
  have counter (v : Nat) : load (store k.mem (s.node + 8) 8 v) (vec + 8) 8 = (front ++ [s] ++ back).length + 1 := by
    rw [load_store_apart (by unfold Apart at *; omega), count]
  refine ⟨_, ?_, withoutNode_ok heap rep rfl⟩
  rw [vectorPop, bind_eq (deref_run vecValid), if_neg (by omega), bind_eq (deref_run vecValid), if_neg position,
    bind_eq (nodeAt_run chain fun u member => nodesValid u (by simp [member])),
    bind_eq (deref_run (nodesValid s (by simp))), tail.1, bind_eq (deref_run (nodesValid t (by simp))),
    bind_eq (assign_run (nodesValid s (by simp))), bind_eq (deref_run vecValid), assign_run vecValid, Kernel.setMem_mem,
    counter, sub64_of_le (by omega), endField_append]
  rfl

/-- At the last index of several, and past it, the walk follows a null pointer. -/
theorem vectorPop_beyond {idx : Nat} (position : idx ≠ 0) (some : slots ≠ []) (beyond : slots.length ≤ idx + 1)
    (heap : Heap A k (vectorBlocks vec slots ++ live)) (rep : VectorRep k.mem vec slots) :
    vectorPop vec idx k = .error .fault := by
  have vecValid := record_valid heap
  have nodesValid := valid_nodes heap
  have count : load k.mem (vec + 8) 8 ≠ 0 := by
    rw [rep.length]
    simpa using some
  rw [vectorPop, bind_eq (deref_run vecValid), if_neg count, bind_eq (deref_run vecValid), if_neg position]
  by_cases far : slots.length < idx
  · exact bind_error (nodeAt_beyond rep.path nodesValid far)
  by_cases at_end : idx = slots.length
  · rw [at_end, bind_eq (nodeAt_end rep.path nodesValid)]
    exact bind_error deref_null
  · obtain rfl | ⟨front, s, rfl⟩ := eq_nil_or_snoc slots
    · exact absurd rfl some
    have here : idx = front.length := by
      rw [List.length_append, List.length_singleton] at *
      omega
    have last : load k.mem (s.node + 8) 8 = 0 := (path_slot rep.path).2
    rw [here, bind_eq (nodeAt_run rep.path fun t member => nodesValid t (List.mem_append_left _ member)),
      bind_eq (deref_run (nodesValid s (by simp))), last]
    exact bind_error deref_null

theorem vectorPop_empty (idx : Nat) (heap : Heap A k (vectorBlocks vec [] ++ live)) (rep : VectorRep k.mem vec []) :
    vectorPop vec idx k = .ok ((), k) := by
  have vecValid := record_valid heap
  rw [vectorPop, bind_eq (deref_run vecValid), if_pos (show load k.mem (vec + 8) 8 = 0 from rep.length)]
  rfl

end steps

end PotatOS.Mem.VectorNodes
