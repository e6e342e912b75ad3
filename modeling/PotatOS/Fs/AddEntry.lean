import PotatOS.Fs.InodeLayout

/-!
# A new entry (`tempfs_addentry`, `tempfs_find`)

`withEntry` is the memory after `tempfs_addentry`. As long as the name fits into
its field, the other blocks keep their bytes, apart from the link and the count.
-/

namespace PotatOS.Fs.Layout

open Memory Prog
open Mem (PageAllocator)

theorem outside_of_ne {A : PageAllocator} {k : Kernel} {live : List (Nat × Nat)} {b c : Nat × Nat} {x : Nat}
    (heap : Mem.Heap A k live) (hb : b ∈ live) (hc : c ∈ live) (other : b ≠ c) (inside : InRange b.1 b.2 x) :
    ¬ InRange c.1 c.2 x :=
  not_inRange_of_apart (heap.apart hb hc other) inside

theorem inode_ne_entry (a b : Nat) : (a, sizeofInode) ≠ (b, sizeofDirEntryNode) := by
  intro same
  cases congrArg Prod.snd same

theorem second_mem {b c : Nat × Nat} {live : List (Nat × Nat)} : c ∈ b :: c :: live :=
  List.mem_cons_of_mem _ List.mem_cons_self

theorem old_mem {a b c : Nat × Nat} {live : List (Nat × Nat)} (member : a ∈ live) : a ∈ b :: c :: live :=
  List.mem_cons_of_mem _ (List.mem_cons_of_mem _ member)

/-! ### `tempfs_addentry` -/

section addentry

variable {A : PageAllocator} {k k₁ k₂ : Kernel} {live : List (Nat × Nat)} {dir p q last a n x : Nat}
  {front es : List Nat}
  {name : Name} {isDir : Bool}

theorem entryAt_run (linked : Linked (Function.update (DirEntry.nextNode.of k.mem) last 0) a (front ++ [last])) :
    entryAt front.length a k = .ok (last, k) := by
  induction front generalizing a with
  | nil =>
    obtain ⟨rfl, -⟩ := linked
    rfl
  | cons e front ih =>
    have distinct := linked.nodup
    obtain ⟨rfl, nonnull, tail⟩ := linked
    have other : a ≠ last := by
      rintro rfl
      simp at distinct
    rw [Function.update_of_ne other] at tail
    rw [List.length_cons, entryAt, bind_eq (DirEntry.nextNode.get_run k nonnull)]
    exact ih tail

theorem entryAt_past (linked : Linked (DirEntry.nextNode.of k.mem) a es) (past : es.length ≤ n) :
    entryAt n a k = .ok (0, k) ∨ entryAt n a k = .error .fault := by
  induction es generalizing a n with
  | nil =>
    obtain rfl : a = 0 := linked
    cases n with
    | zero => exact .inl rfl
    | succ n => exact .inr rfl
  | cons e es ih =>
    obtain ⟨rfl, nonnull, tail⟩ := linked
    cases n with
    | zero => cases past
    | succ n =>
      rw [entryAt, bind_eq (DirEntry.nextNode.get_run k nonnull)]
      exact ih tail (Nat.le_of_succ_le_succ past)

/-- `malloc` has room for the inode, at `p`, and the entry, at `q`. -/
structure Room (A : PageAllocator) (k k₁ k₂ : Kernel) (p q : Nat) : Prop where
  inode : Mem.malloc A.kmalloc sizeofInode k = .ok (p, k₁)
  entry : Mem.malloc A.kmalloc sizeofDirEntryNode k₁ = .ok (q, k₂)

/-- The new blocks lie apart from the others. -/
structure Fresh (live : List (Nat × Nat)) (p q : Nat) : Prop where
  inode : ∀ b ∈ live, Apart b.1 b.2 p sizeofInode
  entry : ∀ b ∈ live, Apart b.1 b.2 q sizeofDirEntryNode
  apart : Apart p sizeofInode q sizeofDirEntryNode
  inodeBounds : 0 < p ∧ p < 2 ^ 64
  entryBounds : 0 < q ∧ q < 2 ^ 64

theorem Room.heap (room : Room A k k₁ k₂ p q) (heap : Mem.Heap A k live) :
    Mem.Heap A k₂ ((q, sizeofDirEntryNode) :: (p, sizeofInode) :: live) ∧ Mem.Keeps k k₂ live := by
  obtain ⟨heap₁, kept₁⟩ := heap.malloc (by decide) room.inode
  obtain ⟨heap₂, kept₂⟩ := heap₁.malloc (by decide) room.entry
  exact ⟨heap₂, kept₁.trans (kept₂.mono fun b member => List.mem_cons_of_mem _ member)⟩

theorem fresh_of_heap
    (heap : Mem.Heap A k ((q, sizeofDirEntryNode) :: (p, sizeofInode) :: live)) : Fresh live p q := by
  obtain ⟨notEntry, rest⟩ := List.nodup_cons.mp heap.nodup
  obtain ⟨notInode, -⟩ := List.nodup_cons.mp rest
  have entry : (q, sizeofDirEntryNode) ∈ (q, sizeofDirEntryNode) :: (p, sizeofInode) :: live := List.mem_cons_self
  have inode : (p, sizeofInode) ∈ (q, sizeofDirEntryNode) :: (p, sizeofInode) :: live := second_mem
  have p_bounds := heap.bounds inode
  have q_bounds := heap.bounds entry
  refine ⟨fun b member => ?_, fun b member => ?_, ?_, ⟨p_bounds.1, p_bounds.2.1⟩, ⟨q_bounds.1, q_bounds.2.1⟩⟩
  · exact heap.apart (old_mem member) inode fun same => notInode (same ▸ member)
  · exact heap.apart (old_mem member) entry fun same => notEntry (same ▸ List.mem_cons_of_mem _ member)
  · exact heap.apart inode entry fun same => notEntry (same ▸ List.mem_cons_self)

def blank (m : Mem) (p q : Nat) : Mem := fill (fill m q sizeofDirEntryNode 0) p sizeofInode 0

theorem Fresh.blank_old {m : Mem} {b : Nat × Nat} (fresh : Fresh live p q) (member : b ∈ live)
    (inside : InRange b.1 b.2 x) :
    blank m p q x = m x := by
  rw [blank, fill_outside (not_inRange_of_apart (fresh.inode b member) inside),
    fill_outside (not_inRange_of_apart (fresh.entry b member) inside)]

/-- The new entry is linked and filled. -/
def newEntry (m : Mem) (last p q : Nat) (name : Name) (isDir : Bool) : Mem :=
  let m := writeBytes (DirEntry.nextNode.set (blank m p q) last q) p name
  DirEntry.inode.set (Inode.isDir.set m p isDir.toNat) q p

/-- Memory after `tempfs_addentry`, with the last entry of the directory. -/
def withEntry (m : Mem) (dir last p q : Nat) (name : Name) (isDir : Bool) : Mem :=
  let m := newEntry m last p q name isDir
  Inode.numEntries.set m dir (add64 (Inode.numEntries.of m dir) 1)

/-- What a call of `tempfs_addentry` needs of the directory: the entry that its count leads to. -/
structure LastEntry (k : Kernel) (live : List (Nat × Nat)) (dir : Nat) (front : List Nat) (last : Nat) : Prop where
  member : (dir, sizeofInode) ∈ live
  count : Inode.numEntries.of k.mem dir = front.length
  linked : Linked (Function.update (DirEntry.nextNode.of k.mem) last 0) (Inode.firstNode.of k.mem dir) (front ++ [last])
  entries : ∀ e ∈ front ++ [last], (e, sizeofDirEntryNode) ∈ live

/-- A directory as the calls make it: its chain of entries, each with its inode. -/
structure Directory (k : Kernel) (live : List (Nat × Nat)) (dir : Nat) (es : List Nat) : Prop where
  member : (dir, sizeofInode) ∈ live
  linked : Linked (DirEntry.nextNode.of k.mem) (Inode.firstNode.of k.mem dir) es
  nonempty : es ≠ []
  entries : ∀ e ∈ es, (e, sizeofDirEntryNode) ∈ live
  inodes : ∀ e ∈ es, (DirEntry.inode.of k.mem e, sizeofInode) ∈ live

theorem Directory.lastEntry {n : Nat} (directory : Directory k live dir es)
    (count : Inode.numEntries.of k.mem dir = n)
    (counted : n < es.length) : LastEntry k live dir (es.take n) es[n] := by
  refine ⟨directory.member, ?_, directory.linked.cut counted, fun e listed => directory.entries e ?_⟩
  · rw [count, List.length_take, Nat.min_eq_left counted.le]
  · rw [List.take_append_getElem] at listed
    exact List.mem_of_mem_take listed

/-- A field of a live block is as it was when the new blocks are cleared. -/
theorem Fresh.blank_field (f : Field) (fresh : Fresh live p q) (kept : Mem.Keeps k k₂ live) (member : (a, n) ∈ live)
    (inside : f.offset + f.size ≤ n) : f.of (blank k₂.mem p q) a = f.of k.mem a := by
  refine Field.of_congr fun x here => ?_
  have block : InRange a n x := by
    unfold InRange at *
    omega
  rw [fresh.blank_old member block, kept (a, n) member x block]

theorem LastEntry.first_ne (entry : LastEntry k live dir front last) : Inode.firstNode.of k.mem dir ≠ 0 := by
  cases front with
  | nil => rw [entry.linked.1]; exact entry.linked.2.1
  | cons e front => rw [entry.linked.1]; exact entry.linked.2.1

theorem addentry_run (heap : Mem.Heap A k live) (entry : LastEntry k live dir front last) (room : Room A k k₁ k₂ p q)
    (name : Name) (isDir : Bool) :
    tempfsAddentry A.kmalloc dir name isDir k = .ok (p, k₂.setMem (withEntry k₂.mem dir last p q name isDir)) := by
  obtain ⟨heap₂, kept⟩ := room.heap heap
  have fresh := fresh_of_heap heap₂
  have dirNonnull : dir ≠ 0 := (heap.bounds entry.member).1.ne'
  have pNonnull : p ≠ 0 := fresh.inodeBounds.1.ne'
  have qNonnull : q ≠ 0 := fresh.entryBounds.1.ne'
  have lastNonnull : last ≠ 0 := entry.linked.nonnull last (by simp)
  have count : Inode.numEntries.of (blank k₂.mem p q) dir = front.length :=
    (fresh.blank_field Inode.numEntries kept entry.member (by decide)).trans entry.count
  have walk : entryAt front.length (Inode.firstNode.of k.mem dir) (k₂.setMem (blank k₂.mem p q)) =
      .ok (last, k₂.setMem (blank k₂.mem p q)) := by
    refine entryAt_run (entry.linked.congr fun e inside => ?_)
    unfold Function.update
    split
    · rfl
    · exact fresh.blank_field DirEntry.nextNode kept (entry.entries e inside) (by decide)
  have back : ∀ (m : Mem) (n : Nat), DirEntry.inode.of (Inode.numEntries.set (DirEntry.inode.set m q p) dir n) q = p := by
    intro m n
    have apart := fresh.entry _ entry.member
    rw [Field.of_set_apart (by
      simp only [Apart, DirEntry.inode, Inode.numEntries, sizeofInode, sizeofDirEntryNode] at *
      omega)]
    exact Field.of_set_self fresh.inodeBounds.2
  unfold tempfsAddentry kuMemset
  rw [bind_eq (Inode.firstNode.get_run k dirNonnull), bind_eq room.inode, bind_eq room.entry, bind_eq (run_modify _),
    bind_eq (run_modify _), if_pos entry.first_ne, bind_eq (Inode.numEntries.get_run _ dirNonnull)]
  change (entryAt (Inode.numEntries.of (blank k₂.mem p q) dir) _ >>= _) (k₂.setMem (blank k₂.mem p q)) = _
  rw [count, bind_eq walk, bind_eq (DirEntry.nextNode.put_run _ _ lastNonnull)]
  dsimp only
  rw [bind_eq (run_modify _), bind_eq (Inode.isDir.put_run _ _ pNonnull),
    bind_eq (DirEntry.inode.put_run _ _ qNonnull), bind_eq (Inode.numEntries.get_run _ dirNonnull),
    bind_eq (Inode.numEntries.put_run _ _ dirNonnull),
    DirEntry.inode.get_run _ qNonnull]
  simp only [Kernel.setMem_mem, Kernel.setMem_setMem, back]
  rfl

end addentry

section withEntry

variable {A : PageAllocator} {k k₁ k₂ k' : Kernel} {live : List (Nat × Nat)} {dir p q last a n x : Nat}
  {front es : List Nat}
  {name : Name} {isDir : Bool} {m : Mem}

theorem withEntry_name (fresh : Fresh live p q) (dirMember : (dir, sizeofInode) ∈ live)
    (lastMember : (last, sizeofDirEntryNode) ∈ live)
    (inside : n < sizeofInode) (other : n ≠ 40) : withEntry m dir last p q name isDir (p + n) = name.getD n 0 := by
  have dirApart := fresh.inode _ dirMember
  have lastApart := fresh.inode _ lastMember
  have apart := fresh.apart
  simp only [Apart, sizeofInode, sizeofDirEntryNode] at *
  unfold withEntry newEntry
  rw [Field.set_outside (by simp only [InRange, Inode.numEntries]; omega),
    Field.set_outside (by simp only [InRange, DirEntry.inode]; omega),
    Field.set_outside (by simp only [InRange, Inode.isDir]; omega)]
  by_cases short : n < name.length
  · rw [writeBytes_inside ⟨by omega, by omega⟩, Nat.add_sub_cancel_left]
  · rw [writeBytes_outside (by unfold InRange; omega), Field.set_outside (by simp only [InRange, DirEntry.nextNode]; omega),
      blank, fill_inside ⟨by omega, by simp only [sizeofInode]; omega⟩, List.getD_eq_default _ _ (by omega)]

/-- What `tempfs_addentry` has done when the name fits into its field. -/
structure Added (A : PageAllocator) (k : Kernel) (live : List (Nat × Nat)) (dir last p q : Nat) (name : Name)
    (isDir : Bool)
    (k' : Kernel) : Prop where
  heap : Mem.Heap A k' ((q, sizeofDirEntryNode) :: (p, sizeofInode) :: live)
  fresh : Fresh live p q
  kept : ∀ b ∈ live, ∀ x, InRange b.1 b.2 x → ¬ InRange (last + 16) 8 x → ¬ InRange (dir + 96) 8 x → k'.mem x = k.mem x
  link : DirEntry.nextNode.of k'.mem last = q
  count : Inode.numEntries.of k'.mem dir = add64 (Inode.numEntries.of k.mem dir) 1
  inode : DirEntry.inode.of k'.mem q = p
  ends : DirEntry.nextNode.of k'.mem q = 0
  name : ∀ n < sizeofInode, n ≠ 40 → k'.mem (p + n) = name.getD n 0
  isDir : Inode.isDir.of k'.mem p = isDir.toNat

theorem Added.new {k' : Kernel} (added : Added A k live dir last p q name isDir k') : (p, sizeofInode) ∉ live :=
  (List.nodup_cons.mp (List.nodup_cons.mp added.heap.nodup).2).1

theorem withEntry_old (fresh : Fresh live p q) (short : name.length ≤ 20) {b : Nat × Nat} (member : b ∈ live)
    (inside : InRange b.1 b.2 x) (notLink : ¬ InRange (last + 16) 8 x) (notCount : ¬ InRange (dir + 96) 8 x) :
    withEntry m dir last p q name isDir x = m x := by
  have notInode := not_inRange_of_apart (fresh.inode b member) inside
  have notEntry := not_inRange_of_apart (fresh.entry b member) inside
  simp only [InRange, sizeofInode, sizeofDirEntryNode] at notInode notEntry notLink notCount
  unfold withEntry newEntry
  rw [Field.set_outside (by simp only [InRange, Inode.numEntries]; omega),
    Field.set_outside (by simp only [InRange, DirEntry.inode]; omega),
    Field.set_outside (by simp only [InRange, Inode.isDir]; omega), writeBytes_outside (by unfold InRange; omega),
    Field.set_outside (by simp only [InRange, DirEntry.nextNode]; omega), fresh.blank_old member inside]

theorem withEntry_heap (heap : Mem.Heap A k₂ ((q, sizeofDirEntryNode) :: (p, sizeofInode) :: live))
    (short : name.length ≤ 20)
    (dirMember : (dir, sizeofInode) ∈ live) (lastMember : (last, sizeofDirEntryNode) ∈ live) :
    Mem.Heap A (k₂.setMem (withEntry k₂.mem dir last p q name isDir))
      ((q, sizeofDirEntryNode) :: (p, sizeofInode) :: live) := by
  have qMember : (q, sizeofDirEntryNode) ∈ (q, sizeofDirEntryNode) :: (p, sizeofInode) :: live := List.mem_cons_self
  have pMember : (p, sizeofInode) ∈ (q, sizeofDirEntryNode) :: (p, sizeofInode) :: live := second_mem
  have heap := heap.write qMember (m := fill k₂.mem q sizeofDirEntryNode 0) fun x outside => fill_outside outside
  have heap := heap.write pMember (m := blank k₂.mem p q) fun x outside => fill_outside outside
  have heap := heap.store (n := 8) (v := q) (old_mem lastMember) (Nat.le_add_right last 16)
    (by simp only [sizeofDirEntryNode]; omega)
  have heap := heap.write pMember (m := writeBytes (DirEntry.nextNode.set (blank k₂.mem p q) last q) p name)
    fun x outside => writeBytes_outside (by simp only [InRange, sizeofInode] at *; omega)
  have heap := heap.store (n := 1) (v := isDir.toNat) pMember (Nat.le_add_right p 40) (by simp only [sizeofInode]; omega)
  have heap := heap.store (n := 8) (v := p) qMember (Nat.le_add_right q 8) (by simp only [sizeofDirEntryNode]; omega)
  have heap := heap.store (n := 8) (v := add64 (Inode.numEntries.of (DirEntry.inode.set (Inode.isDir.set (writeBytes
    (DirEntry.nextNode.set (blank k₂.mem p q) last q) p name) p isDir.toNat) q p) dir) 1) (old_mem dirMember)
    (Nat.le_add_right dir 96) (by simp only [sizeofInode]; omega)
  exact heap

theorem withEntry_count (fresh : Fresh live p q) (short : name.length ≤ 20) (dirMember : (dir, sizeofInode) ∈ live)
    (apart : Apart dir sizeofInode last sizeofDirEntryNode) :
    Inode.numEntries.of (newEntry m last p q name isDir) dir = Inode.numEntries.of (blank m p q) dir := by
  have dirInode := fresh.inode _ dirMember
  have dirEntry := fresh.entry _ dirMember
  simp only [Apart, sizeofInode, sizeofDirEntryNode] at dirInode dirEntry apart
  unfold newEntry
  rw [Field.of_set_apart (by simp only [Apart, Inode.numEntries, DirEntry.inode]; omega),
    Field.of_set_apart (by simp only [Apart, Inode.numEntries, Inode.isDir]; omega),
    Field.of_writeBytes (by simp only [Apart, Inode.numEntries]; omega),
    Field.of_set_apart (by simp only [Apart, Inode.numEntries, DirEntry.nextNode]; omega)]

/-- A name that fits decides nothing but its field. -/
theorem withEntry_field (fresh : Fresh live p q) (short : name.length ≤ 20) (dirMember : (dir, sizeofInode) ∈ live)
    (apart : Apart dir sizeofInode last sizeofDirEntryNode) (outside : ¬ InRange p 20 x) :
    withEntry m dir last p q name isDir x = withEntry m dir last p q [] isDir x := by
  unfold withEntry
  rw [withEntry_count fresh short dirMember apart, withEntry_count fresh (by simp) dirMember apart]
  unfold newEntry
  refine Field.set_agree (Field.set_agree (Field.set_agree ?_))
  rw [writeBytes_outside (by unfold InRange at *; omega), writeBytes_outside (by simp [InRange])]

theorem added (isDir : Bool) (heap : Mem.Heap A k live) (entry : LastEntry k live dir front last)
    (room : Room A k k₁ k₂ p q)
    (short : name.length ≤ 20) :
    Added A k live dir last p q name isDir (k₂.setMem (withEntry k₂.mem dir last p q name isDir)) := by
  obtain ⟨heap₂, kept⟩ := room.heap heap
  have fresh := fresh_of_heap heap₂
  have lastMember := entry.entries last (by simp)
  have dirInode := fresh.inode _ entry.member
  have dirEntry := fresh.entry _ entry.member
  have lastInode := fresh.inode _ lastMember
  have lastEntry := fresh.entry _ lastMember
  have apart := fresh.apart
  have dirLast : Apart dir sizeofInode last sizeofDirEntryNode := heap.apart entry.member lastMember (by
    intro same
    cases congrArg Prod.snd same)
  have small : add64 (Inode.numEntries.of k.mem dir) 1 < 256 ^ 8 := add64_lt _ _
  simp only [Apart, sizeofInode, sizeofDirEntryNode] at dirInode dirEntry lastInode lastEntry apart dirLast
  refine ⟨withEntry_heap heap₂ short entry.member lastMember, fresh, ?_, ?_, ?_, ?_, ?_, ?_, ?_⟩
  · intro b member x inside notLink notCount
    exact (withEntry_old fresh short member inside notLink notCount).trans (kept b member x inside)
  · show DirEntry.nextNode.of (withEntry k₂.mem dir last p q name isDir) last = q
    unfold withEntry newEntry
    rw [Field.of_set_apart (by simp only [Apart, DirEntry.nextNode, Inode.numEntries]; omega),
      Field.of_set_apart (by simp only [Apart, DirEntry.nextNode, DirEntry.inode]; omega),
      Field.of_set_apart (by simp only [Apart, DirEntry.nextNode, Inode.isDir]; omega),
      Field.of_writeBytes (by simp only [Apart, DirEntry.nextNode]; omega)]
    exact Field.of_set_self fresh.entryBounds.2
  · have count : Inode.numEntries.of (newEntry k₂.mem last p q name isDir) dir = Inode.numEntries.of k.mem dir := by
      rw [withEntry_count fresh short entry.member (heap.apart entry.member lastMember (inode_ne_entry dir last)),
        fresh.blank_field Inode.numEntries kept entry.member (by decide)]
    show Inode.numEntries.of (withEntry k₂.mem dir last p q name isDir) dir = _
    unfold withEntry
    dsimp only
    rw [count]
    exact Field.of_set_self small
  · show DirEntry.inode.of (withEntry k₂.mem dir last p q name isDir) q = p
    unfold withEntry newEntry
    rw [Field.of_set_apart (by simp only [Apart, DirEntry.inode, Inode.numEntries]; omega)]
    exact Field.of_set_self fresh.inodeBounds.2
  · show DirEntry.nextNode.of (withEntry k₂.mem dir last p q name isDir) q = 0
    unfold withEntry newEntry
    rw [Field.of_set_apart (by simp only [Apart, DirEntry.nextNode, Inode.numEntries]; omega),
      Field.of_set_apart (by simp only [Apart, DirEntry.nextNode, DirEntry.inode]; omega),
      Field.of_set_apart (by simp only [Apart, DirEntry.nextNode, Inode.isDir]; omega),
      Field.of_writeBytes (by simp only [Apart, DirEntry.nextNode]; omega),
      Field.of_set_apart (by simp only [Apart, DirEntry.nextNode]; omega)]
    refine load_zero fun x inside => ?_
    simp only [InRange, DirEntry.nextNode] at inside
    rw [blank, fill_outside (by simp only [InRange, sizeofInode]; omega),
      fill_inside ⟨by omega, by simp only [sizeofDirEntryNode]; omega⟩]
  · intro n inside other
    exact withEntry_name fresh entry.member lastMember inside other
  · show Inode.isDir.of (withEntry k₂.mem dir last p q name isDir) p = _
    unfold withEntry newEntry
    rw [Field.of_set_apart (by simp only [Apart, Inode.isDir, Inode.numEntries]; omega),
      Field.of_set_apart (by simp only [Apart, Inode.isDir, DirEntry.inode]; omega)]
    exact Field.of_set_self (by cases isDir <;> decide)

theorem room_of_run (dirNonnull : dir ≠ 0) (run : tempfsAddentry A.kmalloc dir name isDir k = .ok (a, k')) :
    ∃ p q k₁ k₂, Room A k k₁ k₂ p q := by
  unfold tempfsAddentry at run
  rw [bind_eq (Inode.firstNode.get_run k dirNonnull)] at run
  obtain ⟨p, k₁, inode, run⟩ := bind_ok run
  obtain ⟨q, k₂, entry, -⟩ := bind_ok run
  exact ⟨p, q, k₁, k₂, inode, entry⟩

theorem addentry_ok (heap : Mem.Heap A k live) (entry : LastEntry k live dir front last) (short : name.length ≤ 20)
    (run : tempfsAddentry A.kmalloc dir name isDir k = .ok (p, k')) : ∃ q, Added A k live dir last p q name isDir k' := by
  obtain ⟨p', q, k₁, k₂, room⟩ := room_of_run (heap.bounds entry.member).1.ne' run
  rw [addentry_run heap entry room name isDir] at run
  obtain ⟨rfl, rfl⟩ := Prod.mk.inj (Except.ok.inj run)
  exact ⟨q, added isDir heap entry room short⟩

/-- Past the chain the call follows or sets the link of null. -/
theorem addentry_past (heap : Mem.Heap A k live) (room : Room A k k₁ k₂ p q) (member : (dir, sizeofInode) ∈ live)
    (linked : Linked (DirEntry.nextNode.of k.mem) (Inode.firstNode.of k.mem dir) es) (some : es ≠ [])
    (entries : ∀ e ∈ es, (e, sizeofDirEntryNode) ∈ live) (past : es.length ≤ Inode.numEntries.of k.mem dir) :
    tempfsAddentry A.kmalloc dir name isDir k = .error .fault := by
  obtain ⟨heap₂, kept⟩ := room.heap heap
  have fresh := fresh_of_heap heap₂
  have dirNonnull : dir ≠ 0 := (heap.bounds member).1.ne'
  have first : Inode.firstNode.of k.mem dir ≠ 0 := by
    cases es with
    | nil => exact absurd rfl some
    | cons e es => rw [linked.1]; exact linked.2.1
  have count : Inode.numEntries.of (blank k₂.mem p q) dir = Inode.numEntries.of k.mem dir :=
    fresh.blank_field Inode.numEntries kept member (by decide)
  have chain : Linked (DirEntry.nextNode.of (blank k₂.mem p q)) (Inode.firstNode.of k.mem dir) es :=
    linked.congr fun e inside => fresh.blank_field DirEntry.nextNode kept (entries e inside) (by decide)
  unfold tempfsAddentry kuMemset
  rw [bind_eq (Inode.firstNode.get_run k dirNonnull), bind_eq room.inode, bind_eq room.entry, bind_eq (run_modify _),
    bind_eq (run_modify _), if_pos first, bind_eq (Inode.numEntries.get_run _ dirNonnull)]
  change (entryAt (Inode.numEntries.of (blank k₂.mem p q) dir) _ >>= _) (k₂.setMem (blank k₂.mem p q)) = _
  rw [count]
  rcases entryAt_past (k := k₂.setMem (blank k₂.mem p q)) chain past with null | fault
  · rw [bind_eq null]
    rfl
  · rw [bind_error fault]

end withEntry

/-! ### `tempfs_find` -/

section find

variable {A : PageAllocator} {k k' : Kernel} {live : List (Nat × Nat)} {dir p q last a n rounds : Nat}
  {front es : List Nat}
  {name : Name} {isDir : Bool} {m m' : Mem}

/-- The inode of the first entry under the name, or null. -/
def foundIn (m : Mem) (name : Name) (es : List Nat) : Nat :=
  ((es.find? fun e => decide (SpellsAt m (DirEntry.inode.of m e) name)).map (DirEntry.inode.of m)).getD 0

theorem findEntry_run (linked : Linked (DirEntry.nextNode.of k.mem) a es)
    (nonnull : ∀ e ∈ es, DirEntry.inode.of k.mem e ≠ 0) (enough : es.length < rounds) :
    findEntry name rounds a k = .ok (foundIn k.mem name es, k) := by
  induction es generalizing a rounds with
  | nil =>
    obtain rfl : a = 0 := linked
    cases rounds with
    | zero => cases enough
    | succ rounds => rfl
  | cons e es ih =>
    obtain ⟨rfl, entry, tail⟩ := linked
    cases rounds with
    | zero => cases enough
    | succ rounds =>
      obtain ⟨inode, rest⟩ := List.forall_mem_cons.mp nonnull
      rw [findEntry, if_neg entry, bind_eq (DirEntry.inode.get_run k entry), if_neg inode]
      dsimp only
      rw [bind_eq run_get]
      by_cases here : SpellsAt k.mem (DirEntry.inode.of k.mem a) name
      · rw [if_pos here, foundIn, List.find?_cons_of_pos (by simpa using here)]
        rfl
      · rw [if_neg here, bind_eq (DirEntry.nextNode.get_run k entry), foundIn, List.find?_cons_of_neg (by simpa using here)]
        exact ih tail rest (Nat.lt_of_succ_lt_succ enough)

theorem tempfsFind_run (dirNonnull : dir ≠ 0)
    (linked : Linked (DirEntry.nextNode.of k.mem) (Inode.firstNode.of k.mem dir) es)
    (some : es ≠ []) (nonnull : ∀ e ∈ es, DirEntry.inode.of k.mem e ≠ 0) (few : es.length < 2 ^ 64) :
    tempfsFind dir name k = .ok (foundIn k.mem name es, k) := by
  have first : Inode.firstNode.of k.mem dir ≠ 0 := by
    cases es with
    | nil => exact absurd rfl some
    | cons e es => rw [linked.1]; exact linked.2.1
  unfold tempfsFind
  rw [bind_eq (Inode.firstNode.get_run k dirNonnull), bind_eq (DirEntry.inode.get_run k first)]
  exact findEntry_run linked nonnull few

/-- The entries of a directory are fewer than the addresses. -/
theorem entries_few (heap : Mem.Heap A k live) (linked : Linked (DirEntry.nextNode.of k.mem) a es)
    (entries : ∀ e ∈ es, (e, sizeofDirEntryNode) ∈ live) : es.length < 2 ^ 64 := by
  have distinct : (es.map fun e => (e, sizeofDirEntryNode)).Nodup :=
    linked.nodup.map fun a b same => congrArg Prod.fst same
  have inside : es.map (fun e => (e, sizeofDirEntryNode)) ⊆ live := by
    intro b listed
    obtain ⟨e, member, rfl⟩ := List.mem_map.mp listed
    exact entries e member
  have bound := (distinct.subperm inside).length_le
  rw [List.length_map] at bound
  exact Nat.lt_of_le_of_lt bound heap.few

theorem Directory.find (directory : Directory k live dir es) (heap : Mem.Heap A k live) (name : Name) :
    tempfsFind dir name k = .ok (foundIn k.mem name es, k) :=
  tempfsFind_run (heap.bounds directory.member).1.ne' directory.linked directory.nonempty
    (fun e listed => (heap.bounds (directory.inodes e listed)).1.ne') (entries_few heap directory.linked directory.entries)

/-- The directory ends with the entry `q` of the inode `p` under the name, and has no other under it. -/
structure Finds (m : Mem) (dir : Nat) (front : List Nat) (q p : Nat) (name : Name) : Prop where
  linked : Linked (DirEntry.nextNode.of m) (Inode.firstNode.of m dir) (front ++ [q])
  inode : DirEntry.inode.of m q = p
  spells : SpellsAt m p name
  nonnull : ∀ e ∈ front, DirEntry.inode.of m e ≠ 0
  others : ∀ e ∈ front, ¬ SpellsAt m (DirEntry.inode.of m e) name

theorem foundIn_last (inode : DirEntry.inode.of m q = p) (spells : SpellsAt m p name)
    (others : ∀ e ∈ front, ¬ SpellsAt m (DirEntry.inode.of m e) name) : foundIn m name (front ++ [q]) = p := by
  have none : front.find? (fun e => decide (SpellsAt m (DirEntry.inode.of m e) name)) = none :=
    List.find?_eq_none.mpr fun e member => by simpa using others e member
  rw [foundIn, List.find?_append, none, Option.none_or, List.find?_cons_of_pos (by simpa [inode] using spells)]
  exact inode

theorem Finds.run (finds : Finds k.mem dir front q p name) (heap : Mem.Heap A k live)
    (dirMember : (dir, sizeofInode) ∈ live)
    (entries : ∀ e ∈ front ++ [q], (e, sizeofDirEntryNode) ∈ live) (nonnull : p ≠ 0) :
    tempfsFind dir name k = .ok (p, k) := by
  have inodes : ∀ e ∈ front ++ [q], DirEntry.inode.of k.mem e ≠ 0 := by
    intro e member
    rcases List.mem_append.mp member with old | new
    · exact finds.nonnull e old
    · rw [List.mem_singleton.mp new, finds.inode]
      exact nonnull
  rw [tempfsFind_run (heap.bounds dirMember).1.ne' finds.linked (by simp) inodes (entries_few heap finds.linked entries),
    foundIn_last finds.inode finds.spells finds.others]

/-- The bytes that the lookup of a name of at most 20 characters reads. -/
def Watched (m : Mem) (dir : Nat) (entries : List Nat) (x : Nat) : Prop :=
  InRange (dir + 88) 8 x ∨ ∃ e ∈ entries, InRange e sizeofDirEntryNode x ∨ InRange (DirEntry.inode.of m e) 21 x

theorem spellsAt_congr (short : name.length ≤ 20) (same : ∀ x, InRange a 21 x → m' x = m x) :
    SpellsAt m' a name ↔ SpellsAt m a name := by
  have bytes : ∀ i < name.length + 1, m' (a + i) = m (a + i) := fun i inside => same _ ⟨by omega, by omega⟩
  constructor
  · intro spells i inside
    exact (bytes i inside).symm.trans (spells i inside)
  · intro spells i inside
    exact (bytes i inside).trans (spells i inside)

theorem Finds.congr (finds : Finds m dir front q p name) (short : name.length ≤ 20)
    (same : ∀ x, Watched m dir (front ++ [q]) x → m' x = m x) : Finds m' dir front q p name := by
  have last : q ∈ front ++ [q] := by simp
  have field : ∀ f : Field, f.offset + f.size ≤ sizeofDirEntryNode → ∀ e ∈ front ++ [q], f.of m' e = f.of m e := by
    intro f fits e member
    refine Field.of_congr fun x inside => same x (.inr ⟨e, member, .inl ?_⟩)
    unfold InRange at *
    omega
  have inode := field DirEntry.inode (by decide)
  have first : Inode.firstNode.of m' dir = Inode.firstNode.of m dir := Field.of_congr fun x inside => same x (.inl inside)
  have names : ∀ e ∈ front ++ [q], SpellsAt m' (DirEntry.inode.of m e) name ↔ SpellsAt m (DirEntry.inode.of m e) name :=
    fun e member => spellsAt_congr short fun x inside => same x (.inr ⟨e, member, .inr inside⟩)
  refine ⟨?_, (inode q last).trans finds.inode, ?_, fun e member => ?_, fun e member => ?_⟩
  · rw [first]
    exact finds.linked.congr (field DirEntry.nextNode (by decide))
  · have spells := names q last
    rw [finds.inode] at spells
    exact spells.mpr finds.spells
  · rw [inode e (List.mem_append_left _ member)]
    exact finds.nonnull e member
  · rw [inode e (List.mem_append_left _ member), names e (List.mem_append_left _ member)]
    exact finds.others e member

section kept

variable (heap : Mem.Heap A k live) (entry : LastEntry k live dir front last)
  (added : Added A k live dir last p q name isDir k')

include heap entry added

theorem Added.entry_kept {e : Nat} (member : (e, sizeofDirEntryNode) ∈ live) {x : Nat}
    (inside : InRange e sizeofDirEntryNode x)
    (notLink : e = last → x < e + 16) : k'.mem x = k.mem x := by
  have lastMember := entry.entries last (by simp)
  refine added.kept _ member x inside (fun link => ?_) fun count => ?_
  · by_cases same : e = last
    · have before := notLink same
      unfold InRange at link
      omega
    · refine outside_of_ne heap member lastMember (fun eq => same (congrArg Prod.fst eq)) inside ?_
      simp only [InRange, sizeofDirEntryNode] at *
      omega
  · refine outside_of_ne heap member entry.member (inode_ne_entry dir e).symm inside ?_
    simp only [InRange, sizeofInode] at *
    omega

theorem Added.inode_kept {i : Nat} (member : (i, sizeofInode) ∈ live) {x : Nat} (inside : InRange i sizeofInode x)
    (notCount : i = dir → x < i + 96) : k'.mem x = k.mem x := by
  have lastMember := entry.entries last (by simp)
  refine added.kept _ member x inside (fun link => ?_) fun count => ?_
  · refine outside_of_ne heap member lastMember (inode_ne_entry i last) inside ?_
    simp only [InRange, sizeofDirEntryNode] at *
    omega
  · by_cases same : i = dir
    · have before := notCount same
      unfold InRange at count
      omega
    · refine outside_of_ne heap member entry.member (fun eq => same (congrArg Prod.fst eq)) inside ?_
      simp only [InRange, sizeofInode] at *
      omega

theorem Added.linked :
    Linked (DirEntry.nextNode.of k'.mem) (Inode.firstNode.of k'.mem dir) (front ++ [last] ++ [q]) := by
  have first : Inode.firstNode.of k'.mem dir = Inode.firstNode.of k.mem dir := by
    refine Field.of_congr fun x inside => ?_
    simp only [InRange, Inode.firstNode] at inside
    exact added.inode_kept heap entry entry.member (by simp only [InRange, sizeofInode]; omega) fun _ => by omega
  rw [first]
  refine entry.linked.splice added.fresh.entryBounds.1.ne' added.link added.ends fun e inside other => ?_
  rw [Function.update_of_ne other]
  refine Field.of_congr fun x here => ?_
  simp only [InRange, DirEntry.nextNode] at here
  exact added.entry_kept heap entry (entry.entries e (List.mem_append_left _ inside))
    (by simp only [InRange, sizeofDirEntryNode]; omega) fun same => absurd same other

theorem Added.entry_inode {e : Nat}
    (member : e ∈ front ++ [last]) : DirEntry.inode.of k'.mem e = DirEntry.inode.of k.mem e := by
  refine Field.of_congr fun x here => ?_
  simp only [InRange, DirEntry.inode] at here
  have inside : InRange e sizeofDirEntryNode x := by
    simp only [InRange, sizeofDirEntryNode]
    omega
  exact added.entry_kept heap entry (entry.entries e member) inside fun _ => by omega

theorem Added.spells_old (short : name.length ≤ 20) {i : Nat} (member : (i, sizeofInode) ∈ live) :
    SpellsAt k'.mem i name ↔ SpellsAt k.mem i name := by
  refine spellsAt_congr short fun x here => ?_
  unfold InRange at here
  exact added.inode_kept heap entry member (by simp only [InRange, sizeofInode]; omega) fun _ => by omega

theorem Added.directory (inodes : ∀ e ∈ front ++ [last], (DirEntry.inode.of k.mem e, sizeofInode) ∈ live) :
    Directory k' ((q, sizeofDirEntryNode) :: (p, sizeofInode) :: live) dir (front ++ [last] ++ [q]) := by
  refine ⟨old_mem entry.member, added.linked heap entry, by simp, fun e listed => ?_, fun e listed => ?_⟩
  · rcases List.mem_append.mp listed with before | here
    · exact old_mem (entry.entries e before)
    · rw [List.mem_singleton.mp here]
      exact List.mem_cons_self
  · rcases List.mem_append.mp listed with before | here
    · rw [added.entry_inode heap entry before]
      exact old_mem (inodes e before)
    · rw [List.mem_singleton.mp here, added.inode]
      exact second_mem

omit heap entry in
theorem Added.spells_new (short : name.length ≤ 20) : SpellsAt k'.mem p name := by
  intro i inside
  exact added.name i (by simp only [sizeofInode]; omega) (by omega)

theorem Added.finds (short : name.length ≤ 20)
    (inodes : ∀ e ∈ front ++ [last], (DirEntry.inode.of k.mem e, sizeofInode) ∈ live)
    (absent : ∀ e ∈ front ++ [last], ¬ SpellsAt k.mem (DirEntry.inode.of k.mem e) name) :
    Finds k'.mem dir (front ++ [last]) q p name := by
  refine ⟨added.linked heap entry, added.inode, added.spells_new short, fun e member => ?_, fun e member => ?_⟩
  · rw [added.entry_inode heap entry member]
    exact (heap.bounds (inodes e member)).1.ne'
  · rw [added.entry_inode heap entry member, added.spells_old heap entry short (inodes e member)]
    exact absent e member

end kept

end find

end PotatOS.Fs.Layout
