import PotatOS.Fs.TempFs
import PotatOS.Lib.Coupled

/-!
# TempFS on reused blocks (`tempfs.c`, `kheap.c`)

`malloc` does not clear a block, so an object starts with whatever the block held.
Here the calls of `tempfs.c` run on such a heap, with the fields each of them sets
and clears. The heap records the objects the calls allocate and the objects they
access.
-/

namespace PotatOS.Fs.Reused

open Memory

/-- An inode, all fields as they stand in memory, for names that end before `length`.
`firstNode` is the union of `file_first_node` and `dir_first_node`. -/
structure RawInode where
  filename : Mem
  length : Nat
  isDir : Bool
  type : Nat
  operations : DeviceOps
  privateData : Nat
  firstNode : Nat
  numEntries : Nat

/-- After `ku_memset(inode, 0, sizeof(Inode))`. -/
def RawInode.zero : RawInode where
  filename := fun _ => 0
  length := 0
  isDir := false
  type := 0
  operations := {}
  privateData := 0
  firstNode := 0
  numEntries := 0

inductive Object where
  | inode (a : Nat)
  | dirEntry (a : Nat)
  | fileNode (a : Nat)
  deriving DecidableEq

@[simp] def Object.address : Object → Nat
  | .inode a | .dirEntry a | .fileNode a => a

/-- Addresses number the blocks in the order `malloc` hands them out: the block of a
number above `used` is free, wherever it lies, and its contents are left over. -/
structure Heap where
  inodes : Nat → RawInode
  dirEntries : Nat → DirEntryNode
  fileNodes : Nat → FileNode
  used : Nat
  made : List Object := []
  followed : List Object := []

abbrev HeapM := Traced Heap

/-! ### Objects -/

/-- `malloc(sizeof(T))`, where `kind` stands for `T`. -/
def malloc (kind : Nat → Object) : HeapM Nat := do
  let h ← get
  set { h with used := h.used + 1, made := kind (h.used + 1) :: h.made }
  return h.used + 1

/-- Go to the object a pointer leads to. -/
def follow (o : Object) : HeapM Unit := do
  if o.address = 0 then throw .fault else modify fun h => { h with followed := o :: h.followed }

def inode (a : Nat) : HeapM RawInode := do
  follow (.inode a)
  return (← get).inodes a

def dirEntry (a : Nat) : HeapM DirEntryNode := do
  follow (.dirEntry a)
  return (← get).dirEntries a

def fileNode (a : Nat) : HeapM FileNode := do
  follow (.fileNode a)
  return (← get).fileNodes a

def setInode (a : Nat) (f : RawInode → RawInode) : HeapM Unit := do
  follow (.inode a)
  modify fun h => { h with inodes := Function.update h.inodes a (f (h.inodes a)) }

def setDirEntry (a : Nat) (f : DirEntryNode → DirEntryNode) : HeapM Unit := do
  follow (.dirEntry a)
  modify fun h => { h with dirEntries := Function.update h.dirEntries a (f (h.dirEntries a)) }

def setFileNode (a : Nat) (f : FileNode → FileNode) : HeapM Unit := do
  follow (.fileNode a)
  modify fun h => { h with fileNodes := Function.update h.fileNodes a (f (h.fileNodes a)) }

/-! ### Names -/

/-- A C string in memory. -/
def nameBytes (name : Name) : Mem := fun i => name.getD i 0

/-- `ku_strcmp`: the bytes of `name` and its terminator stand in `m`. -/
def Spells (m : Mem) (name : Name) : Prop := ∀ i < name.length + 1, m i = nameBytes name i

instance (m : Mem) (name : Name) : Decidable (Spells m name) :=
  inferInstanceAs (Decidable (∀ i < name.length + 1, m i = nameBytes name i))

/-! ### Directories -/

def entryAt : Nat → Nat → HeapM Nat
  | 0, thisEntry => return thisEntry
  | e + 1, thisEntry => do entryAt e (← dirEntry thisEntry).nextNode

def tempfsAddentry (currentDir : Nat) (dirname : Name) (isDir : Bool) : HeapM Nat := do
  let dir ← inode currentDir
  let inodeNew ← malloc .inode
  let newEntry ← malloc .dirEntry
  setDirEntry newEntry fun _ => {}
  setInode inodeNew fun _ => .zero
  if dir.firstNode ≠ 0 then
    let lastEntry ← entryAt dir.numEntries dir.firstNode
    setDirEntry lastEntry fun e => { e with nextNode := newEntry }
  else
    setInode currentDir fun i => { i with firstNode := newEntry }
  -- `ku_strlen(dirname)` bytes: the terminator is what the block holds there.
  setInode inodeNew fun i =>
    { i with filename := copyBytes i.filename 0 (nameBytes dirname) dirname.length, isDir := isDir }
  setDirEntry newEntry fun e => { e with inode := inodeNew }
  setInode currentDir fun i => { i with numEntries := i.numEntries + 1 }
  return inodeNew

def tempfsMkdirNonlinear (currentDir : Nat) (dirname : Name) (firstDirEntry : Nat) : HeapM Unit := do
  let newInode ← tempfsAddentry currentDir dirname true
  setInode newInode fun i => { i with firstNode := firstDirEntry }

/-- The `.` entry of a new directory. `tempfs_mkdir` clears its inode and
`tempfs_new` only terminates the name: that is `prepare`. -/
def makeDot (newInode : Nat) (prepare : RawInode → RawInode) : HeapM Nat := do
  let entry ← malloc .dirEntry
  setInode newInode fun i => { i with firstNode := entry }
  let firstInode ← malloc .inode
  setDirEntry entry fun e => { e with inode := firstInode, isDir := true }
  setInode firstInode prepare
  setInode firstInode fun i =>
    { i with filename := Function.update i.filename 0 46, isDir := true, firstNode := entry, numEntries := 2 }
  return entry

def tempfsNew : HeapM Nat := do
  let rootInode ← malloc .inode
  let entry ← makeDot rootInode fun i => { i with filename := Function.update i.filename 1 0 }
  tempfsMkdirNonlinear rootInode dotDot entry
  setInode rootInode fun i => { i with isDir := true }
  return rootInode

def tempfsMkdir (currentDir : Nat) (dirname : Name) : HeapM Unit := do
  let newInode ← tempfsAddentry currentDir dirname true
  let _ ← makeDot newInode fun _ => .zero
  let parent ← inode currentDir
  tempfsMkdirNonlinear newInode dotDot parent.firstNode

def tempfsMkfile (currentDir : Nat) (filename : Name) : HeapM Unit := do
  let _ ← tempfsAddentry currentDir filename false

def tempfsCreateDevice (currentDir : Nat) (devname : Name) (operations : DeviceOps) : HeapM Unit := do
  let newDevice ← tempfsAddentry currentDir devname false
  setInode newDevice fun i => { i with type := filetypeDevice, operations := operations }

def findEntry (dirname : Name) : Nat → Nat → HeapM Nat
  | 0, _ => throw .hang
  | rounds + 1, thisEntry => do
    if thisEntry = 0 then return 0
    let entry ← dirEntry thisEntry
    let thisInode ← inode entry.inode
    if Spells thisInode.filename dirname then return entry.inode
    findEntry dirname rounds entry.nextNode

def tempfsFind (currentDir : Nat) (dirname : Name) : HeapM Nat := do
  let dir ← inode currentDir
  let _ ← dirEntry dir.firstNode
  findEntry dirname ((← get).used + 1) dir.firstNode

/-! ### File contents -/

def tempfsLength (file : Nat) : HeapM Nat := return (← inode file).length

def writeNodes (data : Mem) (len : Nat) : Nat → Nat → Nat → Nat → HeapM Unit
  | rounds, i, lenLeft, thisFnode => do
    if i < len then
      match rounds with
      | 0 => throw .hang
      | rounds + 1 =>
        if (← fileNode thisFnode).nextNode = 0 then
          let next ← malloc .fileNode
          setFileNode thisFnode fun f => { f with nextNode := next }
          setFileNode next fun f => { f with nextNode := 0 }
        setFileNode thisFnode fun f =>
          { f with data := copyBytes f.data 0 (fun x => data (i + x)) (amountToCopy lenLeft) }
        let next := (← fileNode thisFnode).nextNode
        writeNodes data len rounds (add64 i filenodeDataSize) (sub64 lenLeft filenodeDataSize) next

def tempfsWrite (file : Nat) (data : Mem) (len : Nat) : HeapM Nat := do
  let node ← inode file
  if node.type = filetypeDevice then
    match node.operations.writeOp with
    | none => throw .fault
    | some writes => return writes data len
  else
    setInode file fun i => { i with length := len }
    if node.firstNode = 0 then
      let first ← malloc .fileNode
      setInode file fun i => { i with firstNode := first }
    writeNodes data len (len / filenodeDataSize + 1) 0 len (← inode file).firstNode
    return 0

def readNodes (maxLen : Nat) : Nat → Nat → Nat → Nat → Mem → HeapM Mem
  | rounds, i, lenLeft, thisFnode, buffer => do
    if i < maxLen ∧ thisFnode ≠ 0 then
      match rounds with
      | 0 => throw .hang
      | rounds + 1 =>
        let node ← fileNode thisFnode
        readNodes maxLen rounds (add64 i filenodeDataSize) (sub64 lenLeft filenodeDataSize) node.nextNode
          (copyBytes buffer i node.data (amountToCopy lenLeft))
    else return buffer

def tempfsRead (file : Nat) (buffer : Mem) (maxLen : Nat) : HeapM (Nat × Mem) := do
  let node ← inode file
  if node.type = filetypeDevice then
    match node.operations.readOp with
    | none => throw .fault
    | some reads => return reads buffer maxLen
  else
    let filled ← readNodes maxLen (maxLen / filenodeDataSize + 1) 0 maxLen node.firstNode buffer
    return (0, filled)

/-! ### Sequences of calls -/

inductive Call where
  | new
  | mkdir (currentDir : Nat) (dirname : Name)
  | mkfile (currentDir : Nat) (filename : Name)
  | createDevice (currentDir : Nat) (devname : Name) (operations : DeviceOps)
  | find (currentDir : Nat) (dirname : Name)
  | write (file : Nat) (data : Mem) (len : Nat)
  | length (file : Nat)
  | read (file : Nat) (buffer : Mem) (maxLen : Nat)

/-- What a call hands back. -/
inductive Reply where
  | nothing
  | pointer (a : Nat)
  | number (n : Nat)
  | bytes (status : Nat) (buffer : Mem)

def Call.exec : Call → HeapM Reply
  | .new => return .pointer (← tempfsNew)
  | .mkdir d name => do
    tempfsMkdir d name
    return .nothing
  | .mkfile d name => do
    tempfsMkfile d name
    return .nothing
  | .createDevice d name operations => do
    tempfsCreateDevice d name operations
    return .nothing
  | .find d name => return .pointer (← tempfsFind d name)
  | .write f data len => return .number (← tempfsWrite f data len)
  | .length f => return .number (← tempfsLength f)
  | .read f buffer maxLen => do
    let (status, filled) ← tempfsRead f buffer maxLen
    return .bytes status filled

/-- The replies of a sequence of calls and the heap they leave. A call that stops is the last. -/
def runCalls : List Call → Heap → List (Except Stop Reply) × Heap
  | [], h => ([], h)
  | call :: calls, h =>
    match call.exec h with
    | (.ok reply, t) => (.ok reply :: (runCalls calls t).1, (runCalls calls t).2)
    | (.error reason, t) => ([.error reason], t)

end PotatOS.Fs.Reused
