import PotatOS.Lib.Memory
import PotatOS.Lib.Program
import PotatOS.Lib.Word
import Mathlib.Logic.Function.Basic

/-!
# The in-memory file system (`tempfs.c`)

Inodes, directory entries and file nodes are objects of a typed store. `malloc`
gives a new address whose object reads as zeros, and address 0 is null: every
access through it stops the machine. A C string is the list of its bytes before
the terminator. `filename` has 20 bytes, and nothing uses the 12 bytes that lie
between it and `length`; where `ku_memcpy` of a longer name lands is below this
level.
-/

namespace PotatOS.Fs

open Memory

/-- A C string, without its terminator. -/
abbrev Name := List UInt8

/-- The functions of a device. `readOp` answers with a status and the new
buffer, `writeOp` with a status, and `openOp` says whether the device puts a new block in its
inode's `private`, as the keyboard does. A null pointer is `none`. -/
structure DeviceOps where
  readOp : Option (Mem → Nat → Nat × Mem) := none
  writeOp : Option (Mem → Nat → Nat) := none
  openOp : Option (UInt8 → Bool) := none
  closeOp : Option Unit := none

/-- The longest name that ends before `length`. -/
def nameRoom : Nat := 31

def filetypeDevice : Nat := 1

/-- `FILENODE_DATA_SIZE`. -/
def filenodeDataSize : Nat := 4088

structure FileNode where
  data : Mem := fun _ => 0
  nextNode : Nat := 0

structure DirEntryNode where
  isDir : Bool := false
  inode : Nat := 0
  nextNode : Nat := 0

/-- `firstNode` is the union of `file_first_node` and `dir_first_node`. -/
structure Inode where
  filename : Name := []
  length : Nat := 0
  isDir : Bool := false
  type : Nat := 0
  operations : DeviceOps := {}
  privateData : Nat := 0
  firstNode : Nat := 0
  numEntries : Nat := 0

/-- The objects of the file system. `malloc` has given out the addresses up to `used`. -/
structure TempFs where
  inodes : Nat → Inode := fun _ => {}
  dirEntries : Nat → DirEntryNode := fun _ => {}
  fileNodes : Nat → FileNode := fun _ => {}
  used : Nat := 0

abbrev TempFsM := Prog TempFs

/-! ### Objects -/

def mallocInode : TempFsM Nat := do
  let s ← get
  set { s with inodes := Function.update s.inodes (s.used + 1) {}, used := s.used + 1 }
  return s.used + 1

def mallocDirEntry : TempFsM Nat := do
  let s ← get
  set { s with dirEntries := Function.update s.dirEntries (s.used + 1) {}, used := s.used + 1 }
  return s.used + 1

def mallocFileNode : TempFsM Nat := do
  let s ← get
  set { s with fileNodes := Function.update s.fileNodes (s.used + 1) {}, used := s.used + 1 }
  return s.used + 1

def inode (a : Nat) : TempFsM Inode := do
  if a = 0 then Prog.stop .fault else return (← get).inodes a

def dirEntry (a : Nat) : TempFsM DirEntryNode := do
  if a = 0 then Prog.stop .fault else return (← get).dirEntries a

def fileNode (a : Nat) : TempFsM FileNode := do
  if a = 0 then Prog.stop .fault else return (← get).fileNodes a

def setInode (a : Nat) (f : Inode → Inode) : TempFsM Unit :=
  if a = 0 then Prog.stop .fault
  else modify fun s => { s with inodes := Function.update s.inodes a (f (s.inodes a)) }

def setDirEntry (a : Nat) (f : DirEntryNode → DirEntryNode) : TempFsM Unit :=
  if a = 0 then Prog.stop .fault
  else modify fun s => { s with dirEntries := Function.update s.dirEntries a (f (s.dirEntries a)) }

def setFileNode (a : Nat) (f : FileNode → FileNode) : TempFsM Unit :=
  if a = 0 then Prog.stop .fault
  else modify fun s => { s with fileNodes := Function.update s.fileNodes a (f (s.fileNodes a)) }

section objects

variable {s : TempFs} {a : Nat}

@[simp] theorem mallocInode_run : mallocInode s =
    .ok (s.used + 1, { s with inodes := Function.update s.inodes (s.used + 1) {}, used := s.used + 1 }) := rfl

@[simp] theorem mallocDirEntry_run : mallocDirEntry s =
    .ok (s.used + 1,
      { s with dirEntries := Function.update s.dirEntries (s.used + 1) {}, used := s.used + 1 }) := rfl

@[simp] theorem mallocFileNode_run : mallocFileNode s =
    .ok (s.used + 1,
      { s with fileNodes := Function.update s.fileNodes (s.used + 1) {}, used := s.used + 1 }) := rfl

theorem inode_run (nonnull : a ≠ 0) : inode a s = .ok (s.inodes a, s) := by
  simp only [inode, if_neg nonnull]
  rfl

theorem dirEntry_run (nonnull : a ≠ 0) : dirEntry a s = .ok (s.dirEntries a, s) := by
  simp only [dirEntry, if_neg nonnull]
  rfl

theorem fileNode_run (nonnull : a ≠ 0) : fileNode a s = .ok (s.fileNodes a, s) := by
  simp only [fileNode, if_neg nonnull]
  rfl

theorem setInode_run {f : Inode → Inode} (nonnull : a ≠ 0) : setInode a f s =
    .ok (⟨⟩, { s with inodes := Function.update s.inodes a (f (s.inodes a)) }) := by
  simp only [setInode, if_neg nonnull]
  rfl

theorem setDirEntry_run {f : DirEntryNode → DirEntryNode} (nonnull : a ≠ 0) : setDirEntry a f s =
    .ok (⟨⟩, { s with dirEntries := Function.update s.dirEntries a (f (s.dirEntries a)) }) := by
  simp only [setDirEntry, if_neg nonnull]
  rfl

theorem setFileNode_run {f : FileNode → FileNode} (nonnull : a ≠ 0) : setFileNode a f s =
    .ok (⟨⟩, { s with fileNodes := Function.update s.fileNodes a (f (s.fileNodes a)) }) := by
  simp only [setFileNode, if_neg nonnull]
  rfl

end objects

/-! ### Directories -/

/-- `"."` -/
def dot : Name := [46]

/-- `".."` -/
def dotDot : Name := [46, 46]

/-- `for (e = 0; e < num_entries; e++) this_entry = this_entry->next_node`. -/
def entryAt : Nat → Nat → TempFsM Nat
  | 0, thisEntry => return thisEntry
  | e + 1, thisEntry => do entryAt e (← dirEntry thisEntry).nextNode

def tempfsAddentry (currentDir : Nat) (dirname : Name) (isDir : Bool) : TempFsM Nat := do
  let dir ← inode currentDir
  let inodeNew ← mallocInode
  let newEntry ← mallocDirEntry
  if dir.firstNode ≠ 0 then
    let lastEntry ← entryAt dir.numEntries dir.firstNode
    setDirEntry lastEntry fun e => { e with nextNode := newEntry }
  else
    setInode currentDir fun i => { i with firstNode := newEntry }
  setInode inodeNew fun i => { i with filename := dirname, isDir := isDir }
  setDirEntry newEntry fun e => { e with inode := inodeNew }
  -- Every entry has an address of its own, so the 64-bit counter does not wrap.
  setInode currentDir fun i => { i with numEntries := i.numEntries + 1 }
  return inodeNew

def tempfsMkdirNonlinear (currentDir : Nat) (dirname : Name) (firstDirEntry : Nat) : TempFsM Unit := do
  let newInode ← tempfsAddentry currentDir dirname true
  setInode newInode fun i => { i with firstNode := firstDirEntry }

/-- The `.` entry of a new directory: its node becomes the first of the chain. -/
def makeDot (newInode : Nat) : TempFsM Nat := do
  let entry ← mallocDirEntry
  setInode newInode fun i => { i with firstNode := entry }
  let firstInode ← mallocInode
  setDirEntry entry fun e => { e with inode := firstInode, isDir := true }
  setInode firstInode fun i =>
    { i with filename := dot, isDir := true, firstNode := entry, numEntries := 2 }
  return entry

def tempfsNew : TempFsM Nat := do
  let rootInode ← mallocInode
  let entry ← makeDot rootInode
  tempfsMkdirNonlinear rootInode dotDot entry
  setInode rootInode fun i => { i with isDir := true }
  return rootInode

def tempfsMkdir (currentDir : Nat) (dirname : Name) : TempFsM Unit := do
  let newInode ← tempfsAddentry currentDir dirname true
  let _ ← makeDot newInode
  let parent ← inode currentDir
  tempfsMkdirNonlinear newInode dotDot parent.firstNode

def tempfsMkfile (currentDir : Nat) (filename : Name) : TempFsM Unit := do
  let _ ← tempfsAddentry currentDir filename false

def tempfsCreateDevice (currentDir : Nat) (devname : Name) (operations : DeviceOps) : TempFsM Unit := do
  let newDevice ← tempfsAddentry currentDir devname false
  setInode newDevice fun i => { i with type := filetypeDevice, operations := operations }

/-- The loop of `tempfs_find`, with a bound on its rounds. -/
def findEntry (dirname : Name) : Nat → Nat → TempFsM Nat
  | 0, _ => Prog.stop .hang
  | rounds + 1, thisEntry => do
    if thisEntry = 0 then return 0
    let entry ← dirEntry thisEntry
    let thisInode ← inode entry.inode
    if thisInode.filename = dirname then return entry.inode
    findEntry dirname rounds entry.nextNode

/-- A chain with more nodes than addresses given out never ends. -/
def tempfsFind (currentDir : Nat) (dirname : Name) : TempFsM Nat := do
  let dir ← inode currentDir
  -- The first entry is read before the loop's test.
  let _ ← dirEntry dir.firstNode
  findEntry dirname ((← get).used + 1) dir.firstNode

def tempfsFindRoot (fs : Nat) : TempFsM Nat := return fs

def tempfsOpenDir (dir : Nat) : TempFsM Nat := do
  if (← inode dir).isDir then return dir else return 0

/-- A null `open` of a device is called all the same. -/
def tempfsOpenFile (file : Nat) (mode : UInt8) : TempFsM Nat := do
  let node ← inode file
  if node.type = filetypeDevice then
    match node.operations.openOp with
    | none => Prog.stop .fault
    | some opens =>
      if opens mode then
        modify fun s => { s with
          inodes := Function.update s.inodes file { s.inodes file with privateData := s.used + 1 }
          used := s.used + 1 }
      return file
  else if node.isDir then return 0
  else return file

def tempfsClose (file : Nat) : TempFsM Unit := do
  let node ← inode file
  if node.type = filetypeDevice ∧ node.operations.closeOp = none then Prog.stop .fault

/-! ### File contents -/

def tempfsLength (file : Nat) : TempFsM Nat := return (← inode file).length

/-- `ku_memcpy(dest + at, source, n)` between two objects. -/
def copyBytes (dest : Mem) (start : Nat) (source : Mem) (n : Nat) : Mem := fun x =>
  if InRange start n x then source (x - start) else dest x

/-- The bytes copied in one round. -/
def amountToCopy (lenLeft : Nat) : Nat := if filenodeDataSize < lenLeft then filenodeDataSize else lenLeft

/-- The loop of `tempfs_write`, with a bound on its rounds. -/
def writeNodes (data : Mem) (len : Nat) : Nat → Nat → Nat → Nat → TempFsM Unit
  | rounds, i, lenLeft, thisFnode => do
    if i < len then
      match rounds with
      | 0 => Prog.stop .hang
      | rounds + 1 =>
        if (← fileNode thisFnode).nextNode = 0 then
          let next ← mallocFileNode
          setFileNode thisFnode fun f => { f with nextNode := next }
        setFileNode thisFnode fun f =>
          { f with data := copyBytes f.data 0 (fun x => data (i + x)) (amountToCopy lenLeft) }
        let next := (← fileNode thisFnode).nextNode
        writeNodes data len rounds (add64 i filenodeDataSize) (sub64 lenLeft filenodeDataSize) next

def tempfsWrite (file : Nat) (data : Mem) (len : Nat) : TempFsM Nat := do
  let node ← inode file
  if node.type = filetypeDevice then
    match node.operations.writeOp with
    | none => Prog.stop .fault
    | some writes => return writes data len
  else
    setInode file fun i => { i with length := len }
    if node.firstNode = 0 then
      let first ← mallocFileNode
      setInode file fun i => { i with firstNode := first }
    writeNodes data len (len / filenodeDataSize + 1) 0 len (← inode file).firstNode
    return 0

/-- The loop of `tempfs_read`, with a bound on its rounds. -/
def readNodes (maxLen : Nat) : Nat → Nat → Nat → Nat → Mem → TempFsM Mem
  | rounds, i, lenLeft, thisFnode, buffer => do
    if i < maxLen ∧ thisFnode ≠ 0 then
      match rounds with
      | 0 => Prog.stop .hang
      | rounds + 1 =>
        let node ← fileNode thisFnode
        readNodes maxLen rounds (add64 i filenodeDataSize) (sub64 lenLeft filenodeDataSize) node.nextNode
          (copyBytes buffer i node.data (amountToCopy lenLeft))
    else return buffer

/-- The status and the buffer after the call. -/
def tempfsRead (file : Nat) (buffer : Mem) (maxLen : Nat) : TempFsM (Nat × Mem) := do
  let node ← inode file
  if node.type = filetypeDevice then
    match node.operations.readOp with
    | none => Prog.stop .fault
    | some reads => return reads buffer maxLen
  else
    let filled ← readNodes maxLen (maxLen / filenodeDataSize + 1) 0 maxLen node.firstNode buffer
    return (0, filled)

end PotatOS.Fs
