import PotatOS.Fs.Ustar
import PotatOS.Mem.Kheap
import PotatOS.Tasks.System

/-!
# The heap blocks of file system calls (`vfs.c`, `spawn.c`)

`open`, `create_device`, `close` and `spawn` once more, now with the kernel heap
underneath: the copies of the path, the `File` and the objects of the file system
are blocks of `malloc`, and the walks read their names from the copy in memory.
The objects themselves stay typed, and `place` says where each one lies.
-/

namespace PotatOS.Fs.Blocks

open Memory Prog
open Tasks (Tasklist validateElf)

structure Machine where
  vfs : Vfs
  kernel : Kernel
  tasks : Tasklist
  /-- Ghost: the blocks that `malloc` has given out and `free` has not taken back. -/
  live : List (Nat × Nat)
  place : Nat → Nat

abbrev MachineM := Prog Machine

def onVfs {α : Type} (x : VfsM α) : MachineM α := fun s =>
  match x s.vfs with
  | .ok (a, v) => .ok (a, { s with vfs := v })
  | .error e => .error e

def onHeap {α : Type} (x : KernelM α) : MachineM α := fun s =>
  match x s.kernel with
  | .ok (a, k) => .ok (a, { s with kernel := k })
  | .error e => .error e

/-- `ku_memcpy` of the bytes to `a`. -/
def putBytes (a : Nat) (bytes : List UInt8) : MachineM Unit :=
  modify fun s => { s with kernel := s.kernel.setMem (writeBytes s.kernel.mem a bytes) }

def freeBlock (addr : Nat) : MachineM Unit := do
  onHeap (Mem.free addr)
  modify fun s => { s with live := s.live.eraseP (·.1 = addr) }

def sizeofInode : Nat := 104
def sizeofDirEntryNode : Nat := 24
def sizeofFile : Nat := 32
def sizeofKeyboardData : Nat := 32

section machine

-- `beyond` is what lies behind the terminator of the caller's path.
variable (kmalloc : Owner → Nat → KernelM Nat) (beyond : Nat → UInt8)

def mallocBlock (size : Nat) : MachineM Nat := do
  let p ← onHeap (Mem.malloc kmalloc size)
  modify fun s => { s with live := (p, size) :: s.live }
  return p

/-- Blocks for objects of the file system, from object `first` on. -/
def placeObjects : Nat → List Nat → MachineM Unit
  | _, [] => return
  | first, size :: rest => do
    let p ← mallocBlock kmalloc size
    modify fun s => { s with place := Function.update s.place first p }
    placeObjects (first + 1) rest

/-- Blocks for the objects that the file system makes next. -/
def newObjects (sizes : List Nat) : MachineM Unit := do
  placeObjects kmalloc ((← get).vfs.tempFs.used + 1) sizes

/-- The blocks of `tempfs_addentry`. -/
def entrySizes : List Nat := [sizeofInode, sizeofDirEntryNode]

/-- The blocks of `tempfs_mkdir`: its entry, then those of `.` and `..`. -/
def dirSizes : List Nat := entrySizes ++ [sizeofDirEntryNode, sizeofInode] ++ entrySizes

def makeDir (fs : FileSystem) (currentObj : Nat) (name : Name) : MachineM Unit := do
  newObjects kmalloc dirSizes
  onVfs (fs.call (tempfsMkdir currentObj name))

def makeFile (fs : FileSystem) (currentObj : Nat) (name : Name) : MachineM Unit := do
  newObjects kmalloc entrySizes
  onVfs (fs.call (tempfsMkfile currentObj name))

def makeDevice (fs : FileSystem) (currentObj : Nat) (name : Name) (operations : DeviceOps) : MachineM Unit := do
  newObjects kmalloc entrySizes
  onVfs (fs.call (tempfsCreateDevice currentObj name operations))

/-- Opening the inode puts a new block in its `private`. -/
def takesPrivate (v : Vfs) (file : Nat) (mode : UInt8) : Bool :=
  (v.tempFs.inodes file).type = filetypeDevice ∧ ((v.tempFs.inodes file).operations.openOp.map (· mode)).getD false = true

def openFile (fs : FileSystem) (file : Nat) (mode : UInt8) : MachineM Nat := do
  if takesPrivate (← get).vfs file mode then newObjects kmalloc [sizeofKeyboardData]
  onVfs (fs.call (tempfsOpenFile file mode))

/-- The `close` of a device gives back what its `open` put in `private`. -/
def closeFile (fs : FileSystem) (file : Nat) : MachineM Unit := do
  onVfs (fs.call (tempfsClose file))
  let s ← get
  let node := s.vfs.tempFs.inodes file
  if node.type = filetypeDevice ∧ node.privateData ≠ 0 then freeBlock (s.place node.privateData)

/-- `path`, in a block of its own unless it starts with `X:/`. -/
def extendPath (path : Name) : MachineM Name := do
  let currentDir := (← get).vfs.currentDir
  if path.getD 1 0 ≠ colon ∨ path.getD 2 0 ≠ slash then
    if path.getD 0 0 = slash then
      let pathExt ← mallocBlock kmalloc (path.length + 3)
      putBytes (pathExt + 2) (path ++ [0])
      putBytes pathExt [currentDir.getD 0 0]
      putBytes (pathExt + 1) [colon]
      return currentDir.getD 0 0 :: colon :: path
    else
      let pathExt ← mallocBlock kmalloc (currentDir.length + path.length + 1)
      putBytes pathExt currentDir
      putBytes (pathExt + currentDir.length) (path ++ [0])
      return currentDir ++ path
  else return path

/-- `new_path`, before it is moved: the block has no byte for the terminator. -/
def copyPath (path : Name) : MachineM Nat := do
  let newPath ← mallocBlock kmalloc path.length
  putBytes newPath path
  putBytes (newPath + path.length) [0]
  return newPath

/-- The name at `newPath`, and whether a `/` follows, which becomes a zero. -/
def cutComponent (newPath : Nat) : MachineM (Name × Bool) := do
  let mem := (← get).kernel.mem
  match nameFrom mem (2 ^ 64) newPath with
  | none => Prog.stop .hang
  | some name =>
    putBytes (newPath + name.length) [0]
    return (name, mem (newPath + name.length) = slash)

/-- The blocks of `tempfs_new`. -/
def rootSizes : List Nat := [sizeofInode, sizeofDirEntryNode, sizeofInode] ++ entrySizes

def mountNew (letter : UInt8) : MachineM Nat := do
  newObjects kmalloc rootSizes
  onVfs (Fs.mountNew letter)

/-! ### `open` and `close` -/

def findDir (fs : FileSystem) (flags : OpenFlags) (currentObj : Nat) (name : Name) : MachineM (Option Nat) := do
  let thisDir ← onVfs (fs.call (tempfsFind currentObj name))
  if thisDir = 0 then
    if flags.creatAll then
      makeDir kmalloc fs currentObj name
      return some (← onVfs (fs.call (tempfsFind currentObj name)))
    else return none
  else return some thisDir

def findFile (fs : FileSystem) (flags : OpenFlags) (currentObj : Nat) (name : Name) : MachineM (Option Nat) := do
  let thisFile ← onVfs (fs.call (tempfsFind currentObj name))
  if thisFile = 0 then
    if flags.creat ∨ flags.creatAll then
      makeFile kmalloc fs currentObj name
      return some (← onVfs (fs.call (tempfsFind currentObj name)))
    else return none
  else return some thisFile

/-- The loop of `open`, with the copy at `base`: the object reached and how far `new_path` was moved. -/
def openWalk (fs : FileSystem) (flags : OpenFlags) (mode : UInt8) (path : Name) (base : Nat) :
    Nat → Nat → Nat → MachineM (Option (Nat × Nat))
  | rounds, i, currentObj => do
    if pathByte path beyond i = 0 then return some (currentObj, i)
    match rounds with
    | 0 => Prog.stop .hang
    | rounds + 1 =>
      let (name, isDir) ← cutComponent (base + i)
      if isDir then
        match ← findDir kmalloc fs flags currentObj name with
        | none => return none
        | some thisDir =>
          let next ← onVfs (fs.call (tempfsOpenDir thisDir))
          openWalk fs flags mode path base rounds (i + (name.length + 1)) next
      else
        match ← findFile kmalloc fs flags currentObj name with
        | none => return none
        | some thisFile => return some (← openFile kmalloc fs thisFile mode, i)

/-- What the walk of `open` leaves for its end. -/
structure Resolved where
  driveChar : UInt8
  base : Nat
  i : Nat
  reached : Nat

/-- `open` up to the end of its loop. -/
def resolve (path : Name) (flags : OpenFlags) (mode : UInt8) : MachineM (Option Resolved) := do
  let path ← extendPath kmalloc path
  let driveChar := path.getD 0 0
  if ¬ isDriveLetter driveChar then return none
  let base ← copyPath kmalloc path
  let drive := (← get).vfs.drives (driveNum driveChar)
  if ¬ drive.present then
    freeBlock base
    return none
  let root ← onVfs (drive.fs.call (tempfsFindRoot drive.memOffset))
  let currentObj ← onVfs (drive.fs.call (tempfsOpenDir root))
  match ← openWalk kmalloc beyond drive.fs flags mode path base (2 ^ 64) 3 currentObj with
  | none => return none
  | some (reached, i) => return some { driveChar, base, i, reached }

/-- The end of `open`: the name is read from the copy after `free` and behind the first fields of the `File`. -/
def finishOpen (mode : UInt8) (r : Resolved) : MachineM File := do
  freeBlock r.base
  let newFile ← mallocBlock kmalloc sizeofFile
  putBytes newFile [1]
  putBytes (newFile + 17) [mode]
  putBytes (newFile + 16) [r.driveChar]
  modify fun s => { s with kernel := s.kernel.setMem (store s.kernel.mem (newFile + 24) 8 (s.place r.reached)) }
  match cString (← get).kernel.mem (r.base + r.i) (2 ^ 64) with
  | none => Prog.stop .hang
  | some fname =>
    let ftype := checkFileType fname
    putBytes (newFile + 1) [UInt8.ofNat ftype]
    return { mode, driveChar := r.driveChar, privateData := r.reached, ftype }

def vfsOpen (path : Name) (flags : OpenFlags) (mode : UInt8) : MachineM (Option File) := do
  match ← resolve kmalloc beyond path flags mode with
  | none => return none
  | some r => return some (← finishOpen kmalloc mode r)

def vfsClose (f : File) : MachineM Unit := do
  closeFile ((← get).vfs.drives (driveNum f.driveChar)).fs f.privateData

/-! ### `create_device` -/

/-- The loop of `create_device`: its status, or how far `new_path` was moved. -/
def deviceWalk (fs : FileSystem) (operations : DeviceOps) (path : Name) (base : Nat) :
    Nat → Nat → Nat → MachineM (Except Nat Nat)
  | rounds, i, currentObj => do
    if pathByte path beyond i = 0 then return .ok i
    match rounds with
    | 0 => Prog.stop .hang
    | rounds + 1 =>
      let (name, isDir) ← cutComponent (base + i)
      let found ← onVfs (fs.call (tempfsFind currentObj name))
      if isDir then
        if found = 0 then return .error 2
        let next ← onVfs (fs.call (tempfsOpenDir found))
        deviceWalk fs operations path base rounds (i + (name.length + 1)) next
      else
        if found ≠ 0 then return .error 1
        makeDevice kmalloc fs currentObj name operations
        let _ ← onVfs (fs.call (tempfsFind currentObj name))
        return .ok i

def createDevice (path : Name) (operations : DeviceOps) : MachineM Nat := do
  let path ← extendPath kmalloc path
  let driveChar := path.getD 0 0
  if ¬ isDriveLetter driveChar then return 4
  let base ← copyPath kmalloc path
  let drive := (← get).vfs.drives (driveNum driveChar)
  if drive.fs.fsId ≠ fsTempfs then return 5
  if ¬ drive.present then
    freeBlock base
    return 3
  let root ← onVfs (drive.fs.call (tempfsFindRoot drive.memOffset))
  let currentObj ← onVfs (drive.fs.call (tempfsOpenDir root))
  match ← deviceWalk kmalloc beyond drive.fs operations path base (2 ^ 64) 3 currentObj with
  | .error status => return status
  | .ok _ =>
    -- `new_path - i` is the block again, however far both were moved.
    freeBlock base
    return 0

/-! ### `spawn` -/

/-- `read` into the memory from `buffer` on. -/
def readInto (f : File) (buffer maxLen : Nat) : MachineM Nat := do
  let mem := (← get).kernel.mem
  let (status, filled) ← onVfs (vfsRead f (fun x => mem (buffer + x)) maxLen)
  modify fun s => { s with kernel := s.kernel.setMem fun x => if buffer ≤ x then filled (x - buffer) else mem x }
  return status

/-- `spawn`; `launch` is what it does with a file that it accepts. -/
def spawn (launch : Nat → MachineM Unit) (path : Name) : MachineM Nat := do
  match ← vfsOpen kmalloc beyond path {} modeReadonly with
  | none => return 2
  | some f =>
    let flength ← onVfs (fileLength f)
    let buffer ← mallocBlock kmalloc flength
    let status ← readInto f buffer flength
    if status ≠ 0 then
      vfsClose f
      return 1
    vfsClose f
    if ¬ validateElf (← get).kernel.mem buffer then return 1
    launch buffer
    return 0

end machine
end PotatOS.Fs.Blocks
