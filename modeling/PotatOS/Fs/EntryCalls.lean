import PotatOS.Fs.InodeWrites

/-!
# The calls that make an entry (`tempfs_mkdir`, `tempfs_mkfile`, `tempfs_create_device`)

Each call is `tempfs_addentry` and a rest, which writes the new inode behind its name.
-/

namespace PotatOS.Fs.Layout

open Memory Prog
open Mem (PageAllocator)

/-- The calls that put a name into a directory. -/
inductive Creation where
  | mkdir
  | mkfile
  | device (operations : BitVec 256)
  deriving DecidableEq

namespace Creation

def run (kmalloc : Owner → Nat → KernelM Nat) (dir : Nat) (name : Name) : Creation → KernelM Unit
  | mkdir => tempfsMkdir kmalloc dir name
  | mkfile => tempfsMkfile kmalloc dir name
  | device operations => tempfsCreateDevice kmalloc dir name operations

def isDir : Creation → Bool
  | mkdir => true
  | _ => false

/-- The type that the call intends. -/
def type : Creation → Nat
  | device _ => filetypeDevice
  | _ => 0

def operations : Creation → BitVec 256
  | device operations => operations
  | _ => 0

/-- The files, with the new one at `p`. -/
def files (p : Nat) (files : List Nat) : Creation → List Nat
  | mkdir => files
  | _ => p :: files

/-- A directory begins with the entry of its dot, which leads back to that entry. Others have no node. -/
def First (m : Mem) (p : Nat) : Creation → Prop
  | mkdir => Inode.numEntries.of m p = 1 ∧
      SpellsAt m (DirEntry.inode.of m (Inode.firstNode.of m p)) [46] ∧
      Inode.firstNode.of m (DirEntry.inode.of m (Inode.firstNode.of m p)) = Inode.firstNode.of m p
  | _ => Inode.firstNode.of m p = 0

/-- The new inode is as the call intends. -/
structure Intended (c : Creation) (m : Mem) (p : Nat) : Prop where
  isDir : Inode.isDir.of m p = c.isDir.toNat
  type : Inode.type.of m p = c.type
  length : Inode.length.of m p = 0
  operations : Inode.operations.of m p = c.operations.toNat
  first : c.First m p

/-- The rest of the call, behind `tempfs_addentry`. -/
def finish (kmalloc : Owner → Nat → KernelM Nat) (dir p : Nat) : Creation → KernelM Unit
  | mkdir => do
    let _ ← makeDot kmalloc p
    tempfsMkdirNonlinear kmalloc p dotDot (← Inode.firstNode.get dir)
  | mkfile => return
  | device operations => do
    Inode.type.put p filetypeDevice
    Inode.operations.put p operations.toNat

theorem run_eq (c : Creation) (kmalloc : Owner → Nat → KernelM Nat) (dir : Nat) (name : Name) :
    c.run kmalloc dir name = (tempfsAddentry kmalloc dir name c.isDir >>= fun p => c.finish kmalloc dir p) := by
  cases c <;> rfl

end Creation

section creation

variable {A : PageAllocator} {k k₁ k₂ k' k'' : Kernel} {live live' live'' : List (Nat × Nat)}
  {dir p q last a n x : Nat}
  {front es files nodes : List Nat} {name : Name} {isDir : Bool}

/-- What the rest of a creating call leaves: of the old blocks it writes only the new inode behind its name. -/
structure Finished (A : PageAllocator) (k : Kernel) (live : List (Nat × Nat)) (p : Nat) (k' : Kernel)
    (live' : List (Nat × Nat)) : Prop where
  heap : Mem.Heap A k' live'
  blocks : ∀ b ∈ live, b ∈ live'
  kept : ∀ b ∈ live, ∀ x, InRange b.1 b.2 x → ¬ InRange (p + 32) 72 x → k'.mem x = k.mem x

structure Dotted (A : PageAllocator) (k : Kernel) (live : List (Nat × Nat)) (p e i : Nat) (k' : Kernel) : Prop where
  heap : Mem.Heap A k' ((i, sizeofInode) :: (e, sizeofDirEntryNode) :: live)
  kept : ∀ b ∈ live, ∀ x, InRange b.1 b.2 x → ¬ InRange (p + 88) 8 x → k'.mem x = k.mem x
  first : Inode.firstNode.of k'.mem p = e
  inode : DirEntry.inode.of k'.mem e = i
  spells : SpellsAt k'.mem i [46]
  back : Inode.firstNode.of k'.mem i = e

def withDot (m : Mem) (e i : Nat) : Mem :=
  let m := fill (DirEntry.isDir.set (DirEntry.inode.set m e i) e 1) i sizeofInode 0
  let m := Inode.isDir.set (Inode.firstChar.set m i 46) i 1
  Inode.numEntries.set (Inode.firstNode.set m i e) i 2

theorem withDot_far {m : Mem} {e i : Nat} (entry : ¬ InRange e sizeofDirEntryNode x)
    (inode : ¬ InRange i sizeofInode x) :
    withDot m e i x = m x := by
  simp only [InRange, sizeofDirEntryNode, sizeofInode] at entry inode
  unfold withDot
  rw [Field.set_outside (by simp only [InRange, Inode.numEntries]; omega),
    Field.set_outside (by simp only [InRange, Inode.firstNode]; omega),
    Field.set_outside (by simp only [InRange, Inode.isDir]; omega),
    Field.set_outside (by simp only [InRange, Inode.firstChar]; omega),
    fill_outside (by simp only [InRange, sizeofInode]; omega),
    Field.set_outside (by simp only [InRange, DirEntry.isDir]; omega),
    Field.set_outside (by simp only [InRange, DirEntry.inode]; omega)]

theorem withDot_heap {e i : Nat} (heap : Mem.Heap A k ((i, sizeofInode) :: (e, sizeofDirEntryNode) :: live)) :
    Mem.Heap A (k.setMem (withDot k.mem e i)) ((i, sizeofInode) :: (e, sizeofDirEntryNode) :: live) := by
  have iMember : (i, sizeofInode) ∈ (i, sizeofInode) :: (e, sizeofDirEntryNode) :: live := List.mem_cons_self
  have eMember : (e, sizeofDirEntryNode) ∈ (i, sizeofInode) :: (e, sizeofDirEntryNode) :: live := second_mem
  have heap := heap.store (n := 8) (v := i) eMember (Nat.le_add_right e 8) (by simp only [sizeofDirEntryNode]; omega)
  have heap := heap.store (n := 1) (v := 1) eMember (Nat.le_refl e) (by simp only [sizeofDirEntryNode]; omega)
  have heap := heap.write iMember (m := fill (DirEntry.isDir.set (DirEntry.inode.set k.mem e i) e 1) i sizeofInode 0)
    fun x outside => fill_outside outside
  have heap := heap.store (n := 1) (v := 46) iMember (Nat.le_refl i) (by simp only [sizeofInode]; omega)
  have heap := heap.store (n := 1) (v := 1) iMember (Nat.le_add_right i 40) (by simp only [sizeofInode]; omega)
  have heap := heap.store (n := 8) (v := e) iMember (Nat.le_add_right i 88) (by simp only [sizeofInode]; omega)
  have heap := heap.store (n := 8) (v := 2) iMember (Nat.le_add_right i 96) (by simp only [sizeofInode]; omega)
  exact heap

theorem withDot_inode {m : Mem} {e i : Nat} (apart : Apart e sizeofDirEntryNode i sizeofInode) (small : i < 2 ^ 64) :
    DirEntry.inode.of (withDot m e i) e = i := by
  simp only [Apart, sizeofDirEntryNode, sizeofInode] at apart
  have set : DirEntry.inode.of (DirEntry.isDir.set (DirEntry.inode.set m e i) e 1) e = i := by
    rw [Field.of_set_apart (by simp only [Apart, DirEntry.inode, DirEntry.isDir]; omega)]
    exact Field.of_set_self small
  unfold withDot
  rw [Field.of_set_apart (by simp only [Apart, DirEntry.inode, Inode.numEntries]; omega),
    Field.of_set_apart (by simp only [Apart, DirEntry.inode, Inode.firstNode]; omega),
    Field.of_set_apart (by simp only [Apart, DirEntry.inode, Inode.isDir]; omega),
    Field.of_set_apart (by simp only [Apart, DirEntry.inode, Inode.firstChar]; omega)]
  refine Eq.trans (Field.of_congr fun x inside => fill_outside ?_) set
  simp only [InRange, DirEntry.inode, sizeofInode] at *
  omega

theorem withDot_spells (m : Mem) (e i : Nat) : SpellsAt (withDot m e i) i [46] := by
  intro j inside
  simp only [List.length_singleton] at inside
  show withDot m e i (i + j) = _
  unfold withDot
  rw [Field.set_outside (by simp only [InRange, Inode.numEntries]; omega),
    Field.set_outside (by simp only [InRange, Inode.firstNode]; omega),
    Field.set_outside (by simp only [InRange, Inode.isDir]; omega)]
  cases j with
  | zero => rw [Field.set_inside ⟨Nat.le_refl i, by simp [Inode.firstChar]⟩]; simp [Inode.firstChar, Reused.nameBytes]
  | succ j =>
    rw [Field.set_outside (by simp only [InRange, Inode.firstChar]; omega),
      fill_inside ⟨by omega, by simp only [sizeofInode]; omega⟩]
    simp [Reused.nameBytes]

theorem withDot_back (m : Mem) {e : Nat} (i : Nat)
    (small : e < 2 ^ 64) : Inode.firstNode.of (withDot m e i) i = e := by
  unfold withDot
  rw [Field.of_set_apart (by simp only [Apart, Inode.firstNode, Inode.numEntries]; omega)]
  exact Field.of_set_self small

theorem makeDot_ok (heap : Mem.Heap A k live) (member : (p, sizeofInode) ∈ live)
    (run : makeDot A.kmalloc p k = .ok (a, k')) :
    ∃ e i, Dotted A k live p e i k' := by
  have pNonnull : p ≠ 0 := (heap.bounds member).1.ne'
  unfold makeDot kuMemset at run
  obtain ⟨e, k₁, gotEntry, run⟩ := bind_ok run
  obtain ⟨heap₁, kept₁⟩ := heap.malloc (by decide) gotEntry
  have pMember : (p, sizeofInode) ∈ (e, sizeofDirEntryNode) :: live := List.mem_cons_of_mem _ member
  rw [bind_eq (Inode.firstNode.put_run e k₁ pNonnull)] at run
  obtain ⟨i, k₂, gotInode, run⟩ := bind_ok run
  have placed := heap₁.store (n := 8) (v := e) pMember (Nat.le_add_right p 88) (by simp only [sizeofInode]; omega)
  obtain ⟨heap₂, kept₂⟩ := placed.malloc (by decide) gotInode
  have iMember : (i, sizeofInode) ∈ (i, sizeofInode) :: (e, sizeofDirEntryNode) :: live := List.mem_cons_self
  have eMember : (e, sizeofDirEntryNode) ∈ (i, sizeofInode) :: (e, sizeofDirEntryNode) :: live := second_mem
  have eBounds := heap₂.bounds eMember
  have iBounds := heap₂.bounds iMember
  have eNonnull : e ≠ 0 := eBounds.1.ne'
  have iNonnull : i ≠ 0 := iBounds.1.ne'
  rw [bind_eq (DirEntry.inode.put_run i k₂ eNonnull), bind_eq (DirEntry.isDir.put_run 1 _ eNonnull)] at run
  rw [bind_eq (run_modify _), bind_eq (Inode.firstChar.put_run 46 _ iNonnull), bind_eq (Inode.isDir.put_run 1 _ iNonnull),
    bind_eq (Inode.firstNode.put_run e _ iNonnull), bind_eq (Inode.numEntries.put_run 2 _ iNonnull)] at run
  obtain ⟨rfl, rfl⟩ := pure_ok run
  have apart := heap₂.apart eMember iMember (inode_ne_entry i e).symm
  have kept : ∀ b ∈ live, ∀ x, InRange b.1 b.2 x → withDot k₂.mem e i x = Inode.firstNode.set k₁.mem p e x := by
    intro b old x inside
    have b₁ : b ∈ (e, sizeofDirEntryNode) :: live := List.mem_cons_of_mem _ old
    have notEntry : b ≠ (e, sizeofDirEntryNode) := fun same => (List.nodup_cons.mp heap₁.nodup).1 (same ▸ old)
    have notInode : b ≠ (i, sizeofInode) := fun same => (List.nodup_cons.mp heap₂.nodup).1 (same ▸ b₁)
    rw [withDot_far (outside_of_ne heap₁ b₁ List.mem_cons_self notEntry inside)
      (outside_of_ne heap₂ (List.mem_cons_of_mem _ b₁) iMember notInode inside)]
    exact kept₂ b b₁ x inside
  refine ⟨e, i, withDot_heap heap₂, ?_, ?_, withDot_inode apart iBounds.2.1, withDot_spells k₂.mem e i,
    withDot_back k₂.mem i eBounds.2.1⟩
  · intro b old x inside notFirst
    exact (kept b old x inside).trans ((Field.set_outside (f := Inode.firstNode) notFirst).trans (kept₁ b old x inside))
  · have same : Inode.firstNode.of (withDot k₂.mem e i) p = Inode.firstNode.of (Inode.firstNode.set k₁.mem p e) p := by
      refine Field.of_congr fun x inside => kept _ member x ?_
      simp only [InRange, Inode.firstNode, sizeofInode] at *
      omega
    exact same.trans (Field.of_set_self eBounds.2.1)

end creation

section finish

variable {A : PageAllocator} {k k' k'' : Kernel} {live : List (Nat × Nat)} {dir p q last : Nat} {front : List Nat}
  {name : Name}
  {isDir : Bool} {c : Creation}

theorem Added.clear (added : Added A k live dir last p q name isDir k') (short : name.length ≤ 20) (f : Field)
    (after : 20 ≤ f.offset)
    (fits : f.offset + f.size ≤ sizeofInode)
    (notIsDir : f.offset + f.size ≤ 40 ∨ 40 < f.offset) : f.of k'.mem p = 0 := by
  refine load_zero fun x inside => ?_
  unfold InRange at inside
  have byte := added.name (x - p) (by omega) (by omega)
  rw [Nat.add_sub_cancel' (by omega), List.getD_eq_default _ _ (by omega)] at byte
  exact byte

/-- After the dot, `..` goes behind it. -/
theorem mkdirNonlinear_ok {e i first : Nat} {r : Unit} (dotted : Dotted A k live p e i k')
    (member : (p, sizeofInode) ∈ live)
    (empty : Inode.numEntries.of k.mem p = 0)
    (run : tempfsMkdirNonlinear A.kmalloc p dotDot first k' = .ok (r, k'')) :
    ∃ live'', Mem.Heap A k'' live'' ∧ (∀ b ∈ live, b ∈ live'') ∧ Inode.numEntries.of k''.mem p = 1 ∧
      ∀ b ∈ (i, sizeofInode) :: (e, sizeofDirEntryNode) :: live, ∀ x, InRange b.1 b.2 x → ¬ InRange (e + 16) 8 x →
        ¬ InRange (p + 96) 8 x → k''.mem x = k'.mem x := by
  have eMember : (e, sizeofDirEntryNode) ∈ (i, sizeofInode) :: (e, sizeofDirEntryNode) :: live := second_mem
  have count : Inode.numEntries.of k'.mem p = 0 := by
    refine Eq.trans (Field.of_congr fun x inside => dotted.kept _ member x ?_ ?_) empty
    all_goals
      simp only [InRange, Inode.numEntries, sizeofInode] at *
      omega
  have entry : LastEntry k' ((i, sizeofInode) :: (e, sizeofDirEntryNode) :: live) p [] e := by
    refine ⟨old_mem member, count, ⟨dotted.first, (dotted.heap.bounds eMember).1.ne', Function.update_self ..⟩, ?_⟩
    intro a listed
    rw [List.mem_singleton.mp listed]
    exact eMember
  obtain ⟨p₂, k₃, addentry, run⟩ := bind_ok run
  obtain ⟨q₂, added⟩ := addentry_ok dotted.heap entry (by decide) addentry
  obtain ⟨-, rfl⟩ := Field.put_ok run
  have new : (p₂, sizeofInode) ∈
      (q₂, sizeofDirEntryNode) :: (p₂, sizeofInode) :: (i, sizeofInode) :: (e, sizeofDirEntryNode) :: live := second_mem
  have unwritten : ∀ b ∈ (i, sizeofInode) :: (e, sizeofDirEntryNode) :: live, ∀ x, InRange b.1 b.2 x →
      Inode.firstNode.set k₃.mem p₂ first x = k₃.mem x := by
    intro b listed x inside
    have far := not_inRange_of_apart (added.fresh.inode b listed) inside
    refine Field.set_outside ?_
    simp only [InRange, sizeofInode, Inode.firstNode] at *
    omega
  have heap := added.heap.store (n := 8) (v := first) new (Nat.le_add_right p₂ 88) (by simp only [sizeofInode]; omega)
  refine ⟨_, heap, ?_, ?_, ?_⟩
  · exact fun b listed => old_mem (old_mem listed)
  · have counted := added.count
    rw [count] at counted
    refine Eq.trans (Field.of_congr fun x inside => unwritten _ (old_mem member) x ?_) counted
    simp only [InRange, Inode.numEntries, sizeofInode] at *
    omega
  · intro b listed x inside notLink notCount
    exact (unwritten b listed x inside).trans (added.kept b listed x inside notLink notCount)

theorem finish_mkdir {r : Unit} (heap : Mem.Heap A k live) (member : (p, sizeofInode) ∈ live)
    (empty : Inode.numEntries.of k.mem p = 0) (run : Creation.mkdir.finish A.kmalloc dir p k = .ok (r, k')) :
    ∃ live', Finished A k live p k' live' ∧ Creation.mkdir.First k'.mem p ∧
      ∀ f : Field, f.offset + f.size ≤ 88 → f.of k'.mem p = f.of k.mem p := by
  unfold Creation.finish at run
  obtain ⟨a, k₁, dot, run⟩ := bind_ok run
  obtain ⟨e, i, dotted⟩ := makeDot_ok heap member dot
  obtain ⟨first, k₂, got, run⟩ := bind_ok run
  obtain ⟨-, -, rfl⟩ := Field.get_ok got
  obtain ⟨live', heap', blocks, count, kept⟩ := mkdirNonlinear_ok dotted member empty run
  have iMember : (i, sizeofInode) ∈ (i, sizeofInode) :: (e, sizeofDirEntryNode) :: live := List.mem_cons_self
  have eMember : (e, sizeofDirEntryNode) ∈ (i, sizeofInode) :: (e, sizeofDirEntryNode) :: live := second_mem
  have pMember : (p, sizeofInode) ∈ (i, sizeofInode) :: (e, sizeofDirEntryNode) :: live :=
    old_mem member
  have eNew : (e, sizeofDirEntryNode) ∉ live := (List.nodup_cons.mp (List.nodup_cons.mp dotted.heap.nodup).2).1
  have iNew : (i, sizeofInode) ∉ (e, sizeofDirEntryNode) :: live := (List.nodup_cons.mp dotted.heap.nodup).1
  have pe := dotted.heap.apart pMember eMember (inode_ne_entry p e)
  have pi := dotted.heap.apart pMember iMember fun same => iNew (same ▸ List.mem_cons_of_mem _ member)
  have ei := dotted.heap.apart eMember iMember (inode_ne_entry i e).symm
  simp only [Apart, sizeofInode, sizeofDirEntryNode] at pe pi ei
  have inP : ∀ f : Field, f.offset + f.size ≤ 96 → f.of k'.mem p = f.of k₁.mem p := by
    intro f fits
    refine Field.of_congr fun x inside => kept _ pMember x ?_ ?_ ?_
    all_goals
      simp only [InRange, sizeofInode] at *
      omega
  have firstNode : Inode.firstNode.of k'.mem p = e := (inP Inode.firstNode (by decide)).trans dotted.first
  have inode : DirEntry.inode.of k'.mem e = i := by
    refine Eq.trans (Field.of_congr fun x inside => kept _ eMember x ?_ ?_ ?_) dotted.inode
    all_goals
      simp only [InRange, DirEntry.inode, sizeofDirEntryNode] at *
      omega
  have inI : ∀ x, InRange i sizeofInode x → k'.mem x = k₁.mem x := by
    intro x inside
    refine kept _ iMember x inside ?_ ?_
    all_goals
      simp only [InRange, sizeofInode] at *
      omega
  refine ⟨live', ⟨heap', blocks, ?_⟩, ⟨count, ?_, ?_⟩, ?_⟩
  · intro b old x inside outside
    have far := outside_of_ne dotted.heap (old_mem old) eMember
      (fun same => eNew (same ▸ old)) inside
    rw [kept b (old_mem old) x inside ?_ ?_]
    · refine dotted.kept b old x inside ?_
      unfold InRange at *
      omega
    all_goals
      simp only [InRange, sizeofDirEntryNode] at *
      omega
  · rw [firstNode, inode]
    refine (spellsAt_congr (by decide) fun x inside => inI x ?_).mpr dotted.spells
    simp only [InRange, sizeofInode] at *
    omega
  · rw [firstNode, inode]
    refine Eq.trans (Field.of_congr fun x inside => inI x ?_) dotted.back
    simp only [InRange, Inode.firstNode, sizeofInode] at *
    omega
  · intro f fits
    rw [inP f (by omega)]
    refine Field.of_congr fun x inside => dotted.kept _ member x ?_ ?_
    all_goals
      simp only [InRange, sizeofInode] at *
      omega

theorem finish_ok {r : Unit} (added : Added A k live dir last p q name c.isDir k') (short : name.length ≤ 20)
    (run : c.finish A.kmalloc dir p k' = .ok (r, k'')) :
    ∃ live'', Finished A k' ((q, sizeofDirEntryNode) :: (p, sizeofInode) :: live) p k'' live'' ∧ c.Intended k''.mem p := by
  have member : (p, sizeofInode) ∈ (q, sizeofDirEntryNode) :: (p, sizeofInode) :: live := second_mem
  have nonnull : p ≠ 0 := added.fresh.inodeBounds.1.ne'
  have length := added.clear short Inode.length (by decide) (by decide) (by decide)
  have type := added.clear short Inode.type (by decide) (by decide) (by decide)
  have operations := added.clear short Inode.operations (by decide) (by decide) (by decide)
  have firstNode := added.clear short Inode.firstNode (by decide) (by decide) (by decide)
  have numEntries := added.clear short Inode.numEntries (by decide) (by decide) (by decide)
  cases c with
  | mkfile =>
    obtain ⟨-, rfl⟩ := pure_ok run
    exact ⟨_, ⟨added.heap, fun _ listed => listed, fun _ _ _ _ _ => rfl⟩, added.isDir, type, length, operations, firstNode⟩
  | mkdir =>
    obtain ⟨live'', finished, first, same⟩ := finish_mkdir added.heap member numEntries run
    refine ⟨live'', finished, ?_, ?_, ?_, ?_, first⟩
    · exact (same Inode.isDir (by decide)).trans added.isDir
    · exact (same Inode.type (by decide)).trans type
    · exact (same Inode.length (by decide)).trans length
    · exact (same Inode.operations (by decide)).trans operations
  | device ops =>
    change (Inode.type.put p filetypeDevice >>= fun _ => Inode.operations.put p ops.toNat) k' = _ at run
    rw [bind_eq (Inode.type.put_run _ _ nonnull), Inode.operations.put_run _ _ nonnull] at run
    obtain ⟨-, rfl⟩ := Prod.mk.inj (Except.ok.inj run)
    have heap := added.heap.store (n := 1) (v := filetypeDevice) member (Nat.le_add_right p 41)
      (by simp only [sizeofInode]; omega)
    have heap := heap.store (n := 32) (v := ops.toNat) member (Nat.le_add_right p 48) (by simp only [sizeofInode]; omega)
    have same : ∀ f : Field, Apart (p + f.offset) f.size (p + 41) 1 → Apart (p + f.offset) f.size (p + 48) 32 →
        f.of (Inode.operations.set (Inode.type.set k'.mem p filetypeDevice) p ops.toNat) p = f.of k'.mem p := by
      intro f fromType fromOperations
      rw [Field.of_set_apart fromOperations, Field.of_set_apart fromType]
    refine ⟨_, ⟨heap, fun _ listed => listed, ?_⟩, ?_, ?_, ?_, ?_, ?_⟩
    · intro b listed x inside outside
      show Inode.operations.set _ p _ x = _
      rw [Field.set_outside (by simp only [InRange, Inode.operations] at *; omega)]
      exact Field.set_outside (f := Inode.type) (by simp only [InRange, Inode.type] at *; omega)
    · exact (same Inode.isDir (by simp [Apart, Inode.isDir]) (by simp only [Apart, Inode.isDir]; omega)).trans added.isDir
    · show Inode.type.of (Inode.operations.set _ p _) p = _
      rw [Field.of_set_apart (by simp only [Apart, Inode.type, Inode.operations]; omega)]
      exact Field.of_set_self (by decide)
    · exact (same Inode.length (by simp only [Apart, Inode.length]; omega)
        (by simp only [Apart, Inode.length]; omega)).trans length
    · exact Field.of_set_self ops.isLt
    · exact (same Inode.firstNode (by simp only [Apart, Inode.firstNode]; omega)
        (by simp only [Apart, Inode.firstNode]; omega)).trans firstNode

end finish

end PotatOS.Fs.Layout
