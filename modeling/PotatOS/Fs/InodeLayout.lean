import PotatOS.Fs.Reused
import PotatOS.Lib.Linked
import PotatOS.Mem.KheapClients

/-!
# Inodes as they lie in memory (`tempfs.h`)

An inode has 20 bytes for its name and its other fields behind them. Here the
calls of `tempfs.c` work on the bytes of the blocks that `malloc` gives them.
-/

namespace PotatOS.Fs.Layout

open Memory Prog
open Mem (PageAllocator)

/-- A field of a struct: where it lies and how many bytes it takes. -/
structure Field where
  offset : Nat
  size : Nat
  deriving DecidableEq, Repr

namespace Field

/-- The field of the struct at `a`. -/
def of (f : Field) (m : Mem) (a : Nat) : Nat := load m (a + f.offset) f.size

/-- `p->field`, with the null pointer check that the page tables make. -/
def get (f : Field) (p : Nat) : KernelM Nat := fun k => if p = 0 then .error .fault else .ok (f.of k.mem p, k)

/-- The memory in which the field of the struct at `a` is `v`. -/
def set (f : Field) (m : Mem) (a v : Nat) : Mem := store m (a + f.offset) f.size v

/-- `p->field = value` -/
def put (f : Field) (p value : Nat) : KernelM Unit := fun k =>
  if p = 0 then .error .fault else .ok ((), k.setMem (f.set k.mem p value))

end Field

def sizeofInode : Nat := 104
def sizeofDirEntryNode : Nat := 24
def sizeofFileNode : Nat := 4096

namespace Inode

/-- `filename[0]` -/
def firstChar : Field := ⟨0, 1⟩
def length : Field := ⟨32, 8⟩
def isDir : Field := ⟨40, 1⟩
def type : Field := ⟨41, 1⟩
/-- The four function pointers, as one number. -/
def operations : Field := ⟨48, 32⟩
/-- `operations.write` -/
def writeOp : Field := ⟨56, 8⟩
/-- `file_first_node` and `dir_first_node`, a union. -/
def firstNode : Field := ⟨88, 8⟩
def numEntries : Field := ⟨96, 8⟩

end Inode

namespace DirEntry

def isDir : Field := ⟨0, 1⟩
def inode : Field := ⟨8, 8⟩
def nextNode : Field := ⟨16, 8⟩

end DirEntry

/-- `next_node` of a `FileNode`. -/
def nextFileNode : Field := ⟨4088, 8⟩

/-- `ku_strcmp`: the string at `a` is `name`. -/
def SpellsAt (m : Mem) (a : Nat) (name : Name) : Prop := Reused.Spells (fun i => m (a + i)) name

instance (m : Mem) (a : Nat) (name : Name) : Decidable (SpellsAt m a name) :=
  inferInstanceAs (Decidable (Reused.Spells _ _))

/-! ### Directories -/

section calls

variable (kmalloc : Owner → Nat → KernelM Nat)

def entryAt : Nat → Nat → KernelM Nat
  | 0, thisEntry => return thisEntry
  | e + 1, thisEntry => do entryAt e (← DirEntry.nextNode.get thisEntry)

def tempfsAddentry (currentDir : Nat) (dirname : Name) (isDir : Bool) : KernelM Nat := do
  let thisEntry ← Inode.firstNode.get currentDir
  let inodeNew ← Mem.malloc kmalloc sizeofInode
  let newEntry ← Mem.malloc kmalloc sizeofDirEntryNode
  kuMemset newEntry 0 sizeofDirEntryNode
  kuMemset inodeNew 0 sizeofInode
  if thisEntry ≠ 0 then
    let lastEntry ← entryAt (← Inode.numEntries.get currentDir) thisEntry
    DirEntry.nextNode.put lastEntry newEntry
  else Inode.firstNode.put currentDir newEntry
  -- `ku_strlen(dirname)` bytes, however many the field has.
  modify fun k => k.setMem (writeBytes k.mem inodeNew dirname)
  Inode.isDir.put inodeNew isDir.toNat
  DirEntry.inode.put newEntry inodeNew
  Inode.numEntries.put currentDir (add64 (← Inode.numEntries.get currentDir) 1)
  DirEntry.inode.get newEntry

def tempfsMkdirNonlinear (currentDir : Nat) (dirname : Name) (firstDirEntry : Nat) : KernelM Unit := do
  let newInode ← tempfsAddentry kmalloc currentDir dirname true
  Inode.firstNode.put newInode firstDirEntry

/-- The `.` entry of a new directory. -/
def makeDot (newInode : Nat) : KernelM Nat := do
  let entry ← Mem.malloc kmalloc sizeofDirEntryNode
  Inode.firstNode.put newInode entry
  let firstInode ← Mem.malloc kmalloc sizeofInode
  DirEntry.inode.put entry firstInode
  DirEntry.isDir.put entry 1
  kuMemset firstInode 0 sizeofInode
  Inode.firstChar.put firstInode 46
  Inode.isDir.put firstInode 1
  Inode.firstNode.put firstInode entry
  Inode.numEntries.put firstInode 2
  return entry

def tempfsMkdir (currentDir : Nat) (dirname : Name) : KernelM Unit := do
  let newInode ← tempfsAddentry kmalloc currentDir dirname true
  let _ ← makeDot kmalloc newInode
  tempfsMkdirNonlinear kmalloc newInode dotDot (← Inode.firstNode.get currentDir)

def tempfsMkfile (currentDir : Nat) (filename : Name) : KernelM Unit := do
  let _ ← tempfsAddentry kmalloc currentDir filename false

def tempfsCreateDevice (currentDir : Nat) (devname : Name) (operations : BitVec 256) : KernelM Unit := do
  let newDevice ← tempfsAddentry kmalloc currentDir devname false
  Inode.type.put newDevice filetypeDevice
  Inode.operations.put newDevice operations.toNat

/-- The loop of `tempfs_find`, with a bound on its rounds. -/
def findEntry (dirname : Name) : Nat → Nat → KernelM Nat
  | 0, _ => Prog.stop .hang
  | rounds + 1, thisEntry => do
    if thisEntry = 0 then return 0
    let thisInode ← DirEntry.inode.get thisEntry
    if thisInode = 0 then Prog.stop .fault
    if SpellsAt (← get).mem thisInode dirname then return thisInode
    findEntry dirname rounds (← DirEntry.nextNode.get thisEntry)

def tempfsFind (currentDir : Nat) (dirname : Name) : KernelM Nat := do
  let thisEntry ← Inode.firstNode.get currentDir
  let _ ← DirEntry.inode.get thisEntry
  findEntry dirname (2 ^ 64) thisEntry

/-! ### File contents -/

/-- A node that is the last gets another behind it. -/
def extendNodes (thisFnode : Nat) : KernelM Unit := do
  if (← nextFileNode.get thisFnode) = 0 then
    nextFileNode.put thisFnode (← Mem.malloc kmalloc sizeofFileNode)
    nextFileNode.put (← nextFileNode.get thisFnode) 0

/-- The loop of `tempfs_write`, with a bound on its rounds. -/
def writeNodes (data : Mem) (len : Nat) : Nat → Nat → Nat → Nat → KernelM Unit
  | rounds, i, lenLeft, thisFnode => do
    if i < len then
      match rounds with
      | 0 => Prog.stop .hang
      | rounds + 1 =>
        extendNodes kmalloc thisFnode
        modify fun k => k.setMem (copyBytes k.mem thisFnode (fun x => data (i + x)) (amountToCopy lenLeft))
        let next ← nextFileNode.get thisFnode
        writeNodes data len rounds (add64 i filenodeDataSize) (sub64 lenLeft filenodeDataSize) next

/-- `devices` are the functions that a device's pointers lead to. -/
def tempfsWrite (devices : Nat → Option (Mem → Nat → Nat)) (file : Nat) (data : Mem) (len : Nat) : KernelM Nat := do
  if (← Inode.type.get file) = filetypeDevice then
    match devices (← Inode.writeOp.get file) with
    | none => Prog.stop .fault
    | some writes => return writes data len
  else
    Inode.length.put file len
    if (← Inode.firstNode.get file) = 0 then Inode.firstNode.put file (← Mem.malloc kmalloc sizeofFileNode)
    writeNodes kmalloc data len (len / filenodeDataSize + 1) 0 len (← Inode.firstNode.get file)
    return 0

end calls


/-! ### Fields and blocks -/

section fields

variable {f g : Field} {p a v x : Nat} {k t : Kernel} {m m' : Mem}

namespace Field

theorem get_run (f : Field) (k : Kernel) (nonnull : p ≠ 0) : f.get p k = .ok (f.of k.mem p, k) := if_neg nonnull

theorem put_run (f : Field) (v : Nat) (k : Kernel) (nonnull : p ≠ 0) :
    f.put p v k = .ok ((), k.setMem (f.set k.mem p v)) := if_neg nonnull

theorem get_ok (h : f.get p k = .ok (v, t)) : p ≠ 0 ∧ f.of k.mem p = v ∧ k = t := by
  unfold get at h
  split at h
  · cases h
  next nonnull =>
    obtain ⟨rfl, rfl⟩ := Prod.mk.inj (Except.ok.inj h)
    exact ⟨nonnull, rfl, rfl⟩

theorem put_ok {r : Unit} (h : f.put p v k = .ok (r, t)) : p ≠ 0 ∧ k.setMem (f.set k.mem p v) = t := by
  unfold put at h
  split at h
  · cases h
  next nonnull =>
    obtain ⟨-, rfl⟩ := Prod.mk.inj (Except.ok.inj h)
    exact ⟨nonnull, rfl⟩

theorem of_congr (same : ∀ x, InRange (p + f.offset) f.size x → m' x = m x) : f.of m' p = f.of m p := load_congr same

theorem of_set_self (small : v < 256 ^ f.size) : f.of (f.set m p v) p = v := load_store_same small

theorem of_set_apart (apart : Apart (p + f.offset) f.size (a + g.offset) g.size) : f.of (g.set m a v) p = f.of m p :=
  load_store_apart apart

theorem set_outside (outside : ¬ InRange (p + f.offset) f.size x) : f.set m p v x = m x := store_outside outside

theorem set_inside (inside : InRange (p + f.offset) f.size x) :
    f.set m p v x = UInt8.ofNat (v / 256 ^ (x - (p + f.offset))) := store_inside inside

theorem of_writeBytes {bytes : List UInt8} (apart : Apart (p + f.offset) f.size a bytes.length) :
    f.of (writeBytes m a bytes) p = f.of m p :=
  of_congr fun _ inside => writeBytes_outside (not_inRange_of_apart apart inside)

theorem set_agree (same : m x = m' x) : f.set m p v x = f.set m' p v x := by
  unfold set store
  rw [same]

end Field

end fields

end PotatOS.Fs.Layout
