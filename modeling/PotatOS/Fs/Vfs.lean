import PotatOS.Utils.Printf

/-!
# The virtual file system (`vfs.c`)

Drives, and the walks over a path that `open`, `create_device` and `mkdir` make.
All keep two cursors, `path + i` and `new_path`: for the first two the model
keeps the bytes from each cursor to the end. What is printed, the heap blocks of
temporary strings and the `File` objects themselves are not part of the state;
`write` faults where the print of a file called `stdout` does.
-/

namespace PotatOS.Fs

open Memory

/-- The functions a drive dispatches to; an unmounted drive has only null pointers. -/
inductive FileSystem where
  | null
  | tempFs
  deriving DecidableEq, Repr

/-- `fs_id`; that of TempFS is 0, as is that of an empty drive. -/
def FileSystem.fsId : FileSystem → Nat
  | .null => 0
  | .tempFs => 0

def fsTempfs : Nat := 0

/-- `filesystems[]`, with its one entry. -/
def filesystems : Nat → FileSystem
  | 0 => .tempFs
  | _ => .null

/-- `memOffset` is the union of `mem_offset` and `disk`. -/
structure Drive where
  present : Bool := false
  fs : FileSystem := .null
  memOffset : Nat := 0
  deriving DecidableEq, Repr

/-- The mounted drives, the current task's `current_dir` and the file system's objects. -/
structure Vfs where
  drives : Nat → Drive := fun _ => {}
  currentDir : Name := []
  tempFs : TempFs := {}

abbrev VfsM := Prog Vfs

structure File where
  mode : UInt8
  driveChar : UInt8
  privateData : Nat
  ftype : Nat
  deriving DecidableEq, Repr

def modeReadonly : UInt8 := 1
def modeWriteonly : UInt8 := 2

def ftypeRegular : Nat := 1
def ftypeStdout : Nat := 2
def ftypeStdin : Nat := 3
def ftypeStderr : Nat := 4

/-- The flags of `open`, `O_CREAT` and `O_CREATALL`. -/
structure OpenFlags where
  creat : Bool := false
  creatAll : Bool := false
  deriving DecidableEq, Repr

def oCreatAll : OpenFlags := { creatAll := true }

def slash : UInt8 := 47
def colon : UInt8 := 58

/-- A call through a function pointer of the drive's file system. -/
def FileSystem.call {α : Type} (fs : FileSystem) (x : TempFsM α) : VfsM α := fun v =>
  match fs with
  | .null => .error .fault
  | .tempFs => match x v.tempFs with
    | .ok (a, t) => .ok (a, { v with tempFs := t })
    | .error e => .error e

def initVfs : VfsM Unit := modify fun v => { v with drives := fun _ => {} }

/-- The drive letter in upper case. -/
def upperCase (drive : UInt8) : UInt8 := if 97 ≤ drive ∧ drive ≤ 122 then drive - 32 else drive

def isDriveLetter (drive : UInt8) : Bool := 65 ≤ drive ∧ drive ≤ 90

def driveNum (drive : UInt8) : Nat := (drive - 65).toNat

def mount (drive : UInt8) (filesystem : Nat) (memoryBased : Bool) (memOffset disk : Nat) : VfsM Nat := do
  let drive := upperCase drive
  if ¬ isDriveLetter drive then return 1
  let mounted : Drive :=
    { present := true, fs := filesystems filesystem, memOffset := if memoryBased then memOffset else disk }
  modify fun v => { v with drives := Function.update v.drives (driveNum drive) mounted }
  return 0

def unmount (drive : UInt8) : VfsM Nat := do
  let drive := upperCase drive
  if ¬ isDriveLetter drive then return 1
  modify fun v => { v with drives := Function.update v.drives (driveNum drive) {} }
  return 0

/-- `path`, put behind the current drive or the current directory unless it starts with `X:/`. -/
def absolutePath (currentDir path : Name) : Name :=
  if path.getD 1 0 ≠ colon ∨ path.getD 2 0 ≠ slash then
    if path.getD 0 0 = slash then currentDir.getD 0 0 :: colon :: path else currentDir ++ path
  else path

/-- `"stdout"`, `"stdin"` and `"stderr"`. -/
def stdoutName : Name := [115, 116, 100, 111, 117, 116]
def stdinName : Name := [115, 116, 100, 105, 110]
def stderrName : Name := [115, 116, 100, 101, 114, 114]

def checkFileType (fname : Name) : Nat :=
  if fname = stdoutName then ftypeStdout
  else if fname = stdinName then ftypeStdin
  else if fname = stderrName then ftypeStderr
  else ftypeRegular

/-! ### The walk of `open` -/

/-- The bytes of `new_path` before the next `/` or the end. -/
def firstComponent (newPath : Name) : Name := newPath.takeWhile (· ≠ slash)

/-- `new_path[this_len] == '/'`. -/
def isDirComponent (newPath : Name) : Bool := newPath[(firstComponent newPath).length]? = some slash

/-- `find`, and `mkdir` with a second `find` when there is nothing of that name; `none` when `open`
returns null. -/
def findDir (fs : FileSystem) (flags : OpenFlags) (currentObj : Nat) (name : Name) : VfsM (Option Nat) := do
  let thisDir ← fs.call (tempfsFind currentObj name)
  if thisDir = 0 then
    if flags.creatAll then
      fs.call (tempfsMkdir currentObj name)
      return some (← fs.call (tempfsFind currentObj name))
    else return none
  else return some thisDir

/-- The same for the last component, with `mkfile`. -/
def findFile (fs : FileSystem) (flags : OpenFlags) (currentObj : Nat) (name : Name) : VfsM (Option Nat) := do
  let thisFile ← fs.call (tempfsFind currentObj name)
  if thisFile = 0 then
    if flags.creat ∨ flags.creatAll then
      fs.call (tempfsMkfile currentObj name)
      return some (← fs.call (tempfsFind currentObj name))
    else return none
  else return some thisFile

/-- The loop of `open`: the object reached and what `new_path` points at, or
`none` when `open` returns null. Every round but the last takes a byte of `path`. -/
def openWalk (fs : FileSystem) (flags : OpenFlags) (mode : UInt8) :
    Nat → Name → Name → Nat → VfsM (Option (Nat × Name))
  | rounds, path, newPath, currentObj => do
    if path = [] then return some (currentObj, newPath)
    match rounds with
    | 0 => Prog.stop .hang
    | rounds + 1 =>
      let name := firstComponent newPath
      if isDirComponent newPath then
        match ← findDir fs flags currentObj name with
        | none => return none
        | some thisDir =>
          let next ← fs.call (tempfsOpenDir thisDir)
          openWalk fs flags mode rounds (path.drop (name.length + 1)) (newPath.drop (name.length + 1)) next
      else
        match ← findFile fs flags currentObj name with
        | none => return none
        | some thisFile => return some (← fs.call (tempfsOpenFile thisFile mode), name)

/-- `open`; a null `File *` is `none`. -/
def vfsOpen (path : Name) (flags : OpenFlags) (mode : UInt8) : VfsM (Option File) := do
  let path := absolutePath (← get).currentDir path
  let driveChar := path.getD 0 0
  if ¬ isDriveLetter driveChar then return none
  let drive := (← get).drives (driveNum driveChar)
  if ¬ drive.present then return none
  let root ← drive.fs.call (tempfsFindRoot drive.memOffset)
  let currentObj ← drive.fs.call (tempfsOpenDir root)
  match ← openWalk drive.fs flags mode path.length (path.drop 3) (path.drop 3) currentObj with
  | none => return none
  | some (reached, newPath) => return some ⟨mode, driveChar, reached, checkFileType newPath⟩

/-! ### The walk of `create_device` -/

/-- The loop of `create_device`. -/
def deviceWalk (fs : FileSystem) (operations : DeviceOps) : Nat → Name → Name → Nat → VfsM Nat
  | rounds, path, newPath, currentObj => do
    if path = [] then return 0
    match rounds with
    | 0 => Prog.stop .hang
    | rounds + 1 =>
      let name := firstComponent newPath
      if isDirComponent newPath then
        let thisDir ← fs.call (tempfsFind currentObj name)
        if thisDir = 0 then return 2
        let next ← fs.call (tempfsOpenDir thisDir)
        deviceWalk fs operations rounds (path.drop (name.length + 1)) (newPath.drop (name.length + 1)) next
      else
        let thisFile ← fs.call (tempfsFind currentObj name)
        if thisFile ≠ 0 then return 1
        fs.call (tempfsCreateDevice currentObj name operations)
        let _ ← fs.call (tempfsFind currentObj name)
        return 0

def createDevice (path : Name) (operations : DeviceOps) : VfsM Nat := do
  let path := absolutePath (← get).currentDir path
  let driveChar := path.getD 0 0
  if ¬ isDriveLetter driveChar then return 4
  let drive := (← get).drives (driveNum driveChar)
  if drive.fs.fsId ≠ fsTempfs then return 5
  if ¬ drive.present then return 3
  let root ← drive.fs.call (tempfsFindRoot drive.memOffset)
  let currentObj ← drive.fs.call (tempfsOpenDir root)
  deviceWalk drive.fs operations path.length (path.drop 3) (path.drop 3) currentObj

/-! ### The walk of `mkdir` -/

/-- `path[i]`. Past the end of the last name the loop reads on behind the terminator, where
`beyond` says what it finds. -/
def pathByte (path : Name) (beyond : Nat → UInt8) (i : Nat) : UInt8 :=
  if i = path.length then 0 else path.getD i (beyond i)

/-- The same byte of the copy, which has no terminator: `stale` follows at once. -/
def copyByte (path : Name) (stale : Nat → UInt8) (i : Nat) : UInt8 := path.getD i (stale i)

/-- The bytes from `i` to the next `/` or zero; `none` when these are not among the next `bound`. -/
def nameFrom (newPath : Nat → UInt8) : Nat → Nat → Option Name
  | 0, _ => none
  | bound + 1, i =>
    if newPath i = slash ∨ newPath i = 0 then some []
    else (nameFrom newPath bound (i + 1)).map (newPath i :: ·)

/-- The loop of `mkdir`, with a bound on its rounds. `path k` and `newPath k` are the bytes at the beginning of round `k`:
`tempfs_mkdir` allocates, and the heap may put its next header right behind the copy. -/
def mkdirWalk (fs : FileSystem) (path newPath : Nat → Nat → UInt8) (bound : Nat) : Nat → Nat → Nat → Nat → VfsM Unit
  | rounds, k, i, currentObj => do
    if path k i = 0 then return
    match rounds with
    | 0 => Prog.stop .hang
    | rounds + 1 =>
      match nameFrom (newPath k) bound i with
      | none => Prog.stop .hang
      | some name =>
        if name = [] then return
        let thisDir ← fs.call (tempfsFind currentObj name)
        let thisDir ←
          if thisDir = 0 then do
            fs.call (tempfsMkdir currentObj name)
            fs.call (tempfsFind currentObj name)
          else pure thisDir
        let next ← fs.call (tempfsOpenDir thisDir)
        mkdirWalk fs path newPath bound rounds (k + 1) (i + name.length + 1) next

/-- `mkdir`, whose loop makes at most `bound` rounds over names of fewer than `bound` bytes. -/
def vfsMkdir (path : Name) (beyond stale : Nat → Nat → UInt8) (bound : Nat) : VfsM Nat := do
  let path := absolutePath (← get).currentDir path
  let driveChar := upperCase (path.getD 0 0)
  if ¬ isDriveLetter driveChar then return 1
  if path.getD 1 0 ≠ colon ∨ path.getD 2 0 ≠ slash then return 2
  let drive := (← get).drives (driveNum driveChar)
  let root ← drive.fs.call (tempfsFindRoot drive.memOffset)
  let currentObj ← drive.fs.call (tempfsOpenDir root)
  mkdirWalk drive.fs (fun k => pathByte path (beyond k)) (fun k => copyByte path (stale k)) bound bound 0 3 currentObj
  return 0

/-! ### Open files -/

def vfsClose (f : File) : VfsM Unit := do
  ((← get).drives (driveNum f.driveChar)).fs.call (tempfsClose f.privateData)

def fileLength (f : File) : VfsM Nat := do
  ((← get).drives (driveNum f.driveChar)).fs.call (tempfsLength f.privateData)

/-- `printf` with the buffer as the format; `va_arg` finds `args`. What is printed is not part of the state. -/
def printBuffer (m : Mem) (args : Nat → UInt64) (buffer : Nat) : VfsM Unit :=
  match Utils.printfTemplate m buffer args [] with
  | .error _ => Prog.stop .fault
  | .ok _ => return

/-- `write` without the print. -/
def writeUnprinted (f : File) (buffer : Mem) (size : Nat) : VfsM Nat := do
  if f.mode = modeReadonly then return 1
  ((← get).drives (driveNum f.driveChar)).fs.call (tempfsWrite f.privateData buffer size)

/-- `write`, which prints the buffer of a file called `stdout` first. -/
def vfsWrite (m : Mem) (args : Nat → UInt64) (f : File) (buffer size : Nat) : VfsM Nat := do
  if f.mode = modeReadonly then return 1
  if f.ftype = ftypeStdout then printBuffer m args buffer
  ((← get).drives (driveNum f.driveChar)).fs.call (tempfsWrite f.privateData (fun x => m (buffer + x)) size)

/-- The status and the buffer after the call. -/
def vfsRead (f : File) (buffer : Mem) (maxLen : Nat) : VfsM (Nat × Mem) := do
  if f.mode = modeWriteonly then return (1, buffer)
  ((← get).drives (driveNum f.driveChar)).fs.call (tempfsRead f.privateData buffer maxLen)

section calls

variable {α : Type} {v : Vfs} {x : TempFsM α} {a : α} {t : TempFs}

theorem FileSystem.call_run (run : x v.tempFs = .ok (a, t)) :
    FileSystem.tempFs.call x v = .ok (a, { v with tempFs := t }) := by
  simp only [FileSystem.call, run]

end calls

section write

variable {m : Mem} {args : Nat → UInt64} {f : File} {buffer size : Nat} {v : Vfs}

theorem printBuffer_run (defined : Utils.FormatDefined m buffer args) : printBuffer m args buffer v = .ok (⟨⟩, v) := by
  obtain ⟨out, printed⟩ := Utils.printfTemplate_ok_iff.mpr defined
  rw [printBuffer, printed]
  rfl

theorem printBuffer_faults (undefined : ¬ Utils.FormatDefined m buffer args) :
    printBuffer m args buffer v = .error .fault := by
  cases printed : Utils.printfTemplate m buffer args [] with
  | ok out => exact absurd (Utils.printfTemplate_ok_iff.mp ⟨out, printed⟩) undefined
  | error e =>
    rw [printBuffer, printed]
    rfl

/-- A write that returns did what it does without the print. -/
theorem vfsWrite_ok {status : Nat} {w : Vfs} (run : vfsWrite m args f buffer size v = .ok (status, w)) :
    writeUnprinted f (fun x => m (buffer + x)) size v = .ok (status, w) := by
  unfold vfsWrite at run
  unfold writeUnprinted
  split at run
  next readonly => rwa [if_pos readonly]
  next writable =>
    rw [if_neg writable]
    split at run
    · by_cases defined : Utils.FormatDefined m buffer args
      · rwa [Prog.bind_eq (printBuffer_run defined)] at run
      · obtain ⟨_, _, printed, -⟩ := Prog.bind_ok run
        rw [printBuffer_faults defined] at printed
        cases printed
    · exact run

theorem vfsWrite_printed (defined : f.ftype = ftypeStdout → Utils.FormatDefined m buffer args) :
    vfsWrite m args f buffer size v = writeUnprinted f (fun x => m (buffer + x)) size v := by
  unfold vfsWrite writeUnprinted
  split
  · rfl
  · split
    · next stdout => rw [Prog.bind_eq (printBuffer_run (defined stdout))]
    · rfl

theorem vfsWrite_faults (writable : f.mode ≠ modeReadonly) (stdout : f.ftype = ftypeStdout)
    (undefined : ¬ Utils.FormatDefined m buffer args) : vfsWrite m args f buffer size v = .error .fault := by
  unfold vfsWrite
  rw [if_neg writable, if_pos stdout]
  exact Prog.bind_error (printBuffer_faults undefined)

end write
end PotatOS.Fs
