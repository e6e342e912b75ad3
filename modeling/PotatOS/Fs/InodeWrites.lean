import PotatOS.Fs.AddEntry

/-!
# Writes to the files of a heap (`tempfs_write`)

The nodes of the files form chains. A write follows them and makes new nodes, so of
the other blocks it touches the length and the first node of its file and no more.
-/

namespace PotatOS.Fs.Layout

open Memory Prog
open Mem (PageAllocator)

/-- Every node of a file is followed by another or by none. -/
def NodesOk (m : Mem) (live : List (Nat × Nat)) (nodes : List Nat) : Prop :=
  ∀ n ∈ nodes, (n, sizeofFileNode) ∈ live ∧ (nextFileNode.of m n = 0 ∨ nextFileNode.of m n ∈ nodes)

/-- A file that is not a device has no node yet or begins with one. -/
structure FilesOk (m : Mem) (live : List (Nat × Nat)) (files nodes : List Nat) : Prop where
  chains : NodesOk m live nodes
  blocks : ∀ f ∈ files, (f, sizeofInode) ∈ live
  first : ∀ f ∈ files, Inode.type.of m f = filetypeDevice ∨ Inode.firstNode.of m f = 0 ∨ Inode.firstNode.of m f ∈ nodes

/-- From one state to another, file nodes were written and added. -/
structure Wrote (A : PageAllocator) (k : Kernel) (live : List (Nat × Nat)) (nodes : List Nat) (k' : Kernel)
    (live' : List (Nat × Nat)) (nodes' : List Nat) : Prop where
  heap : Mem.Heap A k' live'
  blocks : ∀ b ∈ live, b ∈ live'
  more : ∀ n ∈ nodes, n ∈ nodes'
  nodes : NodesOk k'.mem live' nodes'
  kept : ∀ b ∈ live, b.2 ≠ sizeofFileNode → ∀ x, InRange b.1 b.2 x → k'.mem x = k.mem x

section write

variable {A : PageAllocator} {devices : Nat → Option (Mem → Nat → Nat)} {k k' k'' : Kernel}
  {live live' live'' : List (Nat × Nat)} {nodes nodes' nodes'' files : List Nat}
  {file len this i lenLeft rounds n x status : Nat} {data : Mem}

theorem Wrote.trans (first : Wrote A k live nodes k' live' nodes')
    (second : Wrote A k' live' nodes' k'' live'' nodes'') :
    Wrote A k live nodes k'' live'' nodes'' where
  heap := second.heap
  blocks b member := second.blocks b (first.blocks b member)
  more n member := second.more n (first.more n member)
  nodes := second.nodes
  kept b member other x inside :=
    (second.kept b (first.blocks b member) other x inside).trans (first.kept b member other x inside)

theorem Wrote.refl (heap : Mem.Heap A k live) (ok : NodesOk k.mem live nodes) : Wrote A k live nodes k live nodes :=
  ⟨heap, fun _ member => member, fun _ member => member, ok, fun _ _ _ _ _ => rfl⟩

theorem nodes_apart (heap : Mem.Heap A k live) {a b : Nat} (ha : (a, sizeofFileNode) ∈ live)
    (hb : (b, sizeofFileNode) ∈ live)
    (other : a ≠ b) : Apart a sizeofFileNode b sizeofFileNode :=
  heap.apart ha hb fun same => other (congrArg Prod.fst same)

/-- A new node is linked behind a node, or is the first of a file. -/
theorem NodesOk.cons {m : Mem} (ok : NodesOk k.mem live nodes) (heap : Mem.Heap A k' ((n, sizeofFileNode) :: live))
    (ends : nextFileNode.of m n = 0)
    (same : ∀ a ∈ nodes, a ≠ n → nextFileNode.of m a = nextFileNode.of k.mem a ∨ nextFileNode.of m a = n) :
    NodesOk m ((n, sizeofFileNode) :: live) (n :: nodes) := by
  have new : (n, sizeofFileNode) ∉ live := (List.nodup_cons.mp heap.nodup).1
  intro a member
  rcases List.mem_cons.mp member with rfl | old
  · exact ⟨List.mem_cons_self, .inl ends⟩
  · obtain ⟨block, next⟩ := ok a old
    have other : a ≠ n := by
      rintro rfl
      exact new block
    refine ⟨List.mem_cons_of_mem _ block, ?_⟩
    rcases same a old other with kept | link
    · rw [kept]
      exact next.imp_right (List.mem_cons_of_mem _)
    · rw [link]
      exact .inr List.mem_cons_self

theorem extendNodes_ok {r : Unit} (heap : Mem.Heap A k live) (ok : NodesOk k.mem live nodes) (here : this ∈ nodes)
    (run : extendNodes A.kmalloc this k = .ok (r, k')) :
    ∃ live' nodes', Wrote A k live nodes k' live' nodes' ∧ nextFileNode.of k'.mem this ∈ nodes' := by
  obtain ⟨block, next⟩ := ok this here
  have nonnull : this ≠ 0 := (heap.bounds block).1.ne'
  unfold extendNodes at run
  rw [bind_eq (nextFileNode.get_run k nonnull)] at run
  split at run
  · obtain ⟨n, k₁, got, run⟩ := bind_ok run
    obtain ⟨heap₁, kept⟩ := heap.malloc (by decide) got
    have bounds := heap₁.bounds List.mem_cons_self
    have other : this ≠ n := by
      rintro rfl
      exact (List.nodup_cons.mp heap₁.nodup).1 block
    have apart := nodes_apart heap₁ (List.mem_cons_of_mem _ block) List.mem_cons_self other
    simp only [Apart, sizeofFileNode] at apart
    have link : nextFileNode.of (nextFileNode.set k₁.mem this n) this = n := Field.of_set_self bounds.2.1
    obtain ⟨⟨⟩, k₂, put, run⟩ := bind_ok run
    obtain ⟨-, rfl⟩ := Field.put_ok put
    rw [bind_eq (nextFileNode.get_run _ nonnull), Kernel.setMem_mem, link] at run
    obtain ⟨-, rfl⟩ := Field.put_ok run
    rw [Kernel.setMem_mem, Kernel.setMem_setMem]
    have linked : nextFileNode.of (nextFileNode.set (nextFileNode.set k₁.mem this n) n 0) this = n := by
      rw [Field.of_set_apart (by simp only [Apart, nextFileNode]; omega), link]
    have heap₂ := heap₁.store (n := 8) (v := n) (List.mem_cons_of_mem _ block) (Nat.le_add_right this 4088)
      (by simp only [sizeofFileNode]; omega)
    have heap₃ := heap₂.store (n := 8) (v := 0) List.mem_cons_self (Nat.le_add_right n 4088)
      (by simp only [sizeofFileNode]; omega)
    refine ⟨(n, sizeofFileNode) :: live, n :: nodes,
      ⟨heap₃, fun _ => List.mem_cons_of_mem _, fun _ => List.mem_cons_of_mem _, ?_, ?_⟩, ?_⟩
    · refine ok.cons heap₁ (Field.of_set_self (by decide)) fun a member different => ?_
      by_cases same : a = this
      · subst same
        exact .inr linked
      · have aBlock := (ok a member).1
        have fromNew := nodes_apart heap₁ (List.mem_cons_of_mem _ aBlock) List.mem_cons_self different
        have fromThis := nodes_apart heap aBlock block same
        simp only [Apart, sizeofFileNode] at fromNew fromThis
        left
        rw [Kernel.setMem_mem, Field.of_set_apart (by simp only [Apart, nextFileNode]; omega),
          Field.of_set_apart (by simp only [Apart, nextFileNode]; omega)]
        exact kept.load aBlock (Nat.le_add_right a 4088) (by simp only [nextFileNode, sizeofFileNode]; omega)
    · intro b member notNode x inside
      have fromNew := outside_of_ne heap₁ (List.mem_cons_of_mem _ member) List.mem_cons_self
        (fun same => notNode (congrArg Prod.snd same)) inside
      have fromThis := outside_of_ne heap member block (fun same => notNode (congrArg Prod.snd same)) inside
      simp only [InRange, sizeofFileNode] at fromNew fromThis
      rw [Kernel.setMem_mem, Field.set_outside (by simp only [InRange, nextFileNode]; omega),
        Field.set_outside (by simp only [InRange, nextFileNode]; omega), kept b member x inside]
    · rw [Kernel.setMem_mem, linked]
      exact List.mem_cons_self
  next more =>
    obtain ⟨-, rfl⟩ := pure_ok run
    exact ⟨live, nodes, .refl heap ok, next.resolve_left more⟩

/-- The bytes of one round go to the data of the node. -/
theorem copy_wrote (heap : Mem.Heap A k live) (ok : NodesOk k.mem live nodes) (here : this ∈ nodes) (data : Mem)
    {amount : Nat}
    (fits : amount ≤ filenodeDataSize) :
    Wrote A k live nodes (k.setMem (copyBytes k.mem this data amount)) live nodes ∧
      nextFileNode.of (copyBytes k.mem this data amount) this = nextFileNode.of k.mem this := by
  have block := (ok this here).1
  have outside : ∀ x, ¬ InRange this filenodeDataSize x → copyBytes k.mem this data amount x = k.mem x :=
    fun x far => if_neg (by unfold InRange at *; omega)
  have next : ∀ a ∈ nodes, nextFileNode.of (copyBytes k.mem this data amount) a = nextFileNode.of k.mem a := by
    intro a member
    refine Field.of_congr fun x inside => outside x ?_
    by_cases same : a = this
    · subst same
      simp only [InRange, nextFileNode, filenodeDataSize] at *
      omega
    · have apart := nodes_apart heap (ok a member).1 block same
      simp only [InRange, Apart, nextFileNode, filenodeDataSize, sizeofFileNode] at *
      omega
  refine ⟨⟨?_, fun _ member => member, fun _ member => member, fun a member => ?_, ?_⟩, next this here⟩
  · refine heap.write block fun x far => outside x fun near => far ?_
    simp only [InRange, filenodeDataSize, sizeofFileNode] at *
    omega
  · rw [Kernel.setMem_mem, next a member]
    exact ok a member
  · intro b member notNode x inside
    have far := outside_of_ne heap member block (fun same => notNode (congrArg Prod.snd same)) inside
    refine outside x fun near => far ?_
    simp only [InRange, filenodeDataSize, sizeofFileNode] at *
    omega

theorem writeNodes_ok {r : Unit} (heap : Mem.Heap A k live) (ok : NodesOk k.mem live nodes) (here : this ∈ nodes)
    (run : writeNodes A.kmalloc data len rounds i lenLeft this k = .ok (r, k')) :
    ∃ live' nodes', Wrote A k live nodes k' live' nodes' := by
  induction rounds generalizing k live nodes i lenLeft this with
  | zero =>
    unfold writeNodes at run
    split at run
    · cases run
    · obtain ⟨-, rfl⟩ := pure_ok run
      exact ⟨live, nodes, .refl heap ok⟩
  | succ rounds ih =>
    unfold writeNodes at run
    split at run
    · obtain ⟨⟨⟩, k₁, extend, run⟩ := bind_ok run
      obtain ⟨live₁, nodes₁, extended, next⟩ := extendNodes_ok heap ok here extend
      have here₁ := extended.more this here
      have nonnull : this ≠ 0 := (extended.heap.bounds (extended.nodes this here₁).1).1.ne'
      have amount : amountToCopy lenLeft ≤ filenodeDataSize := by
        unfold amountToCopy
        split <;> omega
      obtain ⟨copied, same⟩ := copy_wrote extended.heap extended.nodes here₁ (fun x => data (i + x)) amount
      rw [bind_eq (run_modify _), bind_eq (nextFileNode.get_run _ nonnull), Kernel.setMem_mem, same] at run
      obtain ⟨live₂, nodes₂, later⟩ := ih copied.heap copied.nodes next run
      exact ⟨live₂, nodes₂, (extended.trans copied).trans later⟩
    · obtain ⟨-, rfl⟩ := pure_ok run
      exact ⟨live, nodes, .refl heap ok⟩

/-- If the file gets its first node now, the block for it ends in zeros. -/
def Cleared (A : PageAllocator) (k : Kernel) (file len : Nat) : Prop :=
  Inode.type.of k.mem file ≠ filetypeDevice → Inode.firstNode.of k.mem file = 0 →
    ∀ n k', Mem.malloc A.kmalloc sizeofFileNode (k.setMem (Inode.length.set k.mem file len)) = .ok (n, k') →
      nextFileNode.of k'.mem n = 0

/-- What writes to the files leave alone: everything in the other blocks but the lengths and the first nodes. -/
def Spares (live : List (Nat × Nat)) (files : List Nat) (m m' : Mem) : Prop :=
  ∀ b ∈ live, b.2 ≠ sizeofFileNode → ∀ x, InRange b.1 b.2 x →
    (∀ f ∈ files, ¬ InRange (f + 32) 8 x ∧ ¬ InRange (f + 88) 8 x) → m' x = m x

/-- The length and the first node of a file are set. -/
theorem FilesOk.set (heap : Mem.Heap A k live) (ok : FilesOk k.mem live files nodes) (listed : file ∈ files) {m : Mem}
    (more : ∀ n ∈ nodes, n ∈ nodes') (blocks : ∀ b ∈ live, b ∈ live') (nodesOk : NodesOk m live' nodes')
    (first : Inode.firstNode.of m file ∈ nodes')
    (same : ∀ f ∈ files, ∀ x, InRange f sizeofInode x → ¬ InRange (file + 32) 8 x → ¬ InRange (file + 88) 8 x →
      m x = k.mem x) :
    FilesOk m live' files nodes' := by
  refine ⟨nodesOk, fun f member => blocks _ (ok.blocks f member), fun f member => ?_⟩
  by_cases here : f = file
  · subst here
    exact .inr (.inr first)
  · have apart : Apart f sizeofInode file sizeofInode :=
      heap.apart (ok.blocks f member) (ok.blocks file listed) fun eq => here (congrArg Prod.fst eq)
    have field : ∀ g : Field, g.offset + g.size ≤ sizeofInode → g.of m f = g.of k.mem f := by
      intro g fits
      refine Field.of_congr fun x inside => same f member x ?_ ?_ ?_
      all_goals
        simp only [InRange, Apart, sizeofInode] at *
        omega
    rw [field Inode.type (by decide), field Inode.firstNode (by decide)]
    exact (ok.first f member).imp_right fun first => first.imp_right (more _)

end write

/-- `tempfs_write` in front of its loop: the length is set, and the file has a node. -/
structure Started (A : PageAllocator) (k : Kernel) (live : List (Nat × Nat)) (nodes : List Nat) (file : Nat)
    (k' : Kernel)
    (live' : List (Nat × Nat)) (nodes' : List Nat) : Prop where
  heap : Mem.Heap A k' live'
  blocks : ∀ b ∈ live, b ∈ live'
  more : ∀ n ∈ nodes, n ∈ nodes'
  chains : NodesOk k'.mem live' nodes'
  first : Inode.firstNode.of k'.mem file ∈ nodes'
  kept : ∀ b ∈ live, ∀ x, InRange b.1 b.2 x → ¬ InRange (file + 32) 8 x → ¬ InRange (file + 88) 8 x → k'.mem x = k.mem x

/-- After any number of writes to the files. -/
structure Written (A : PageAllocator) (k : Kernel) (live : List (Nat × Nat)) (files : List Nat) (k' : Kernel)
    (live' : List (Nat × Nat)) (nodes' : List Nat) : Prop where
  heap : Mem.Heap A k' live'
  blocks : ∀ b ∈ live, b ∈ live'
  filesOk : FilesOk k'.mem live' files nodes'
  spares : Spares live files k.mem k'.mem

section writes

variable {A : PageAllocator} {devices : Nat → Option (Mem → Nat → Nat)} {k k' k'' : Kernel}
  {live live' live'' : List (Nat × Nat)} {nodes nodes' nodes'' files : List Nat}
  {file len this i lenLeft rounds n x status : Nat} {data : Mem}

theorem inode_ne_node : sizeofInode ≠ sizeofFileNode := by decide

theorem Started.written {r : Unit} (started : Started A k live nodes file k' live' nodes') (heap : Mem.Heap A k live)
    (ok : FilesOk k.mem live files nodes) (listed : file ∈ files)
    (run : writeNodes A.kmalloc data len rounds i lenLeft (Inode.firstNode.of k'.mem file) k' = .ok (r, k'')) :
    ∃ live'' nodes'', Written A k live files k'' live'' nodes'' := by
  obtain ⟨live'', nodes'', wrote⟩ := writeNodes_ok started.heap started.chains started.first run
  have block := ok.blocks file listed
  have first : Inode.firstNode.of k''.mem file = Inode.firstNode.of k'.mem file := by
    refine Field.of_congr fun x inside => wrote.kept _ (started.blocks _ block) inode_ne_node x ?_
    simp only [InRange, Inode.firstNode, sizeofInode] at *
    omega
  have kept : ∀ b ∈ live, b.2 ≠ sizeofFileNode → ∀ x, InRange b.1 b.2 x → ¬ InRange (file + 32) 8 x →
      ¬ InRange (file + 88) 8 x → k''.mem x = k.mem x := by
    intro b member other x inside notLength notFirst
    rw [wrote.kept b (started.blocks b member) other x inside, started.kept b member x inside notLength notFirst]
  refine ⟨live'', nodes'', wrote.heap, fun b member => wrote.blocks b (started.blocks b member), ?_, ?_⟩
  · refine ok.set heap listed (fun n member => wrote.more n (started.more n member))
      (fun b member => wrote.blocks b (started.blocks b member)) wrote.nodes (first ▸ wrote.more _ started.first) ?_
    intro f member x inside notLength notFirst
    exact kept _ (ok.blocks f member) inode_ne_node x inside notLength notFirst
  · intro b member other x inside outside
    exact kept b member other x inside (outside file listed).1 (outside file listed).2

theorem length_apart (m : Mem) (file len : Nat) :
    Inode.firstNode.of (Inode.length.set m file len) file = Inode.firstNode.of m file :=
  Field.of_set_apart (by simp only [Apart, Inode.firstNode, Inode.length]; omega)

theorem tempfsWrite_ok (heap : Mem.Heap A k live) (ok : FilesOk k.mem live files nodes) (listed : file ∈ files)
    (cleared : Cleared A k file len) (run : tempfsWrite A.kmalloc devices file data len k = .ok (status, k')) :
    ∃ live' nodes', Written A k live files k' live' nodes' := by
  have block := ok.blocks file listed
  have nonnull : file ≠ 0 := (heap.bounds block).1.ne'
  unfold tempfsWrite at run
  rw [bind_eq (Inode.type.get_run k nonnull)] at run
  split at run
  · rw [bind_eq (Inode.writeOp.get_run k nonnull)] at run
    cases target : devices (Inode.writeOp.of k.mem file) with
    | none =>
      rw [target] at run
      cases run
    | some writes =>
      rw [target] at run
      obtain ⟨-, rfl⟩ := pure_ok run
      exact ⟨live, nodes, heap, fun _ member => member, ok, fun _ _ _ _ _ _ => rfl⟩
  next regular =>
    have sized := heap.store (n := 8) (v := len) block (Nat.le_add_right file 32) (by simp only [sizeofInode]; omega)
    rw [bind_eq (Inode.length.put_run len k nonnull), bind_eq (Inode.firstNode.get_run _ nonnull), Kernel.setMem_mem,
      length_apart] at run
    split at run
    next null =>
      obtain ⟨n, k₁, got, run⟩ := bind_ok run
      obtain ⟨heap₁, kept⟩ := sized.malloc (by decide) got
      rw [bind_eq (Inode.firstNode.put_run n k₁ nonnull)] at run
      dsimp only at run
      rw [bind_eq (Inode.firstNode.get_run _ nonnull)] at run
      obtain ⟨⟨⟩, k₂, loop, run⟩ := bind_ok run
      obtain ⟨-, rfl⟩ := pure_ok run
      have new : (n, sizeofFileNode) ∉ live := (List.nodup_cons.mp heap₁.nodup).1
      have placed := heap₁.store (n := 8) (v := n) (List.mem_cons_of_mem _ block) (Nat.le_add_right file 88)
        (by simp only [sizeofInode]; omega)
      have fileApart : Apart n sizeofFileNode file sizeofInode :=
        heap₁.apart List.mem_cons_self (List.mem_cons_of_mem _ block) fun same => by cases congrArg Prod.snd same
      simp only [Apart, sizeofFileNode, sizeofInode] at fileApart
      have unwritten : ∀ b ∈ live, ∀ x, InRange b.1 b.2 x → ¬ InRange (file + 32) 8 x → ¬ InRange (file + 88) 8 x →
          Inode.firstNode.set k₁.mem file n x = k.mem x := by
        intro b member x inside notLength notFirst
        rw [Field.set_outside notFirst, kept b member x inside]
        exact Field.set_outside (f := Inode.length) notLength
      have started : Started A k live nodes file (k₁.setMem (Inode.firstNode.set k₁.mem file n))
          ((n, sizeofFileNode) :: live) (n :: nodes) := by
        refine ⟨placed, fun _ => List.mem_cons_of_mem _, fun _ => List.mem_cons_of_mem _, ?_, ?_, unwritten⟩
        · refine ok.chains.cons heap₁ ?_ fun a member different => .inl ?_
          · rw [Kernel.setMem_mem, Field.of_set_apart (by simp only [Apart, nextFileNode, Inode.firstNode]; omega)]
            exact cleared regular null n k₁ got
          · have aBlock := (ok.chains a member).1
            refine Field.of_congr fun x inside => ?_
            have within : InRange a sizeofFileNode x := by
              simp only [InRange, nextFileNode, sizeofFileNode] at *
              omega
            have far := outside_of_ne heap aBlock block (fun same => by cases congrArg Prod.snd same) within
            simp only [InRange, sizeofInode] at far
            exact unwritten _ aBlock x within (by unfold InRange; omega) (by unfold InRange; omega)
        · rw [Kernel.setMem_mem, Field.of_set_self (heap₁.bounds List.mem_cons_self).2.1]
          exact List.mem_cons_self
      exact started.written heap ok listed loop
    next some =>
      dsimp only at run
      rw [bind_eq (Inode.firstNode.get_run _ nonnull), Kernel.setMem_mem] at run
      obtain ⟨⟨⟩, k₂, loop, run⟩ := bind_ok run
      obtain ⟨-, rfl⟩ := pure_ok run
      have unwritten : ∀ b ∈ live, ∀ x, InRange b.1 b.2 x → ¬ InRange (file + 32) 8 x → ¬ InRange (file + 88) 8 x →
          Inode.length.set k.mem file len x = k.mem x := fun _ _ _ _ notLength _ =>
        Field.set_outside (f := Inode.length) notLength
      have first : Inode.firstNode.of k.mem file ∈ nodes := by
        rcases ok.first file listed with device | null | inside
        · exact absurd device regular
        · exact absurd null some
        · exact inside
      have started : Started A k live nodes file (k.setMem (Inode.length.set k.mem file len)) live nodes := by
        refine ⟨sized, fun _ member => member, fun _ member => member, fun a member => ?_, ?_, unwritten⟩
        · obtain ⟨aBlock, next⟩ := ok.chains a member
          have same : nextFileNode.of (Inode.length.set k.mem file len) a = nextFileNode.of k.mem a := by
            have far := heap.apart aBlock block fun same => by cases congrArg Prod.snd same
            refine Field.of_set_apart ?_
            simp only [Apart, nextFileNode, Inode.length, sizeofFileNode, sizeofInode] at *
            omega
          rw [Kernel.setMem_mem, same]
          exact ⟨aBlock, next⟩
        · rw [Kernel.setMem_mem, length_apart]
          exact first
      exact started.written heap ok listed loop

/-- Writes to the files, with cleared blocks for their first nodes. -/
inductive Writes (A : PageAllocator) (devices : Nat → Option (Mem → Nat → Nat)) (files : List Nat)
    (k : Kernel) : Kernel → Prop where
  | none : Writes A devices files k k
  | write {k' k'' : Kernel} {file len status : Nat} {data : Mem} (before : Writes A devices files k k')
      (listed : file ∈ files)
      (cleared : Cleared A k' file len) (run : tempfsWrite A.kmalloc devices file data len k' = .ok (status, k'')) :
      Writes A devices files k k''

theorem Writes.written (writes : Writes A devices files k k') (heap : Mem.Heap A k live)
    (ok : FilesOk k.mem live files nodes) : ∃ live' nodes', Written A k live files k' live' nodes' := by
  induction writes with
  | none => exact ⟨live, nodes, heap, fun _ member => member, ok, fun _ _ _ _ _ _ => rfl⟩
  | write before listed cleared run ih =>
    obtain ⟨live', nodes', between⟩ := ih
    obtain ⟨live'', nodes'', after⟩ := tempfsWrite_ok between.heap between.filesOk listed cleared run
    refine ⟨live'', nodes'', after.heap, fun b member => after.blocks b (between.blocks b member), after.filesOk, ?_⟩
    intro b member other x inside outside
    rw [after.spares b (between.blocks b member) other x inside outside, between.spares b member other x inside outside]

end writes

end PotatOS.Fs.Layout
