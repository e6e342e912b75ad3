import PotatOS.Fs.Rejects
import PotatOS.Fs.Ustar
import PotatOS.Lib.LocalArray

/-!
# The path buffers (`vfs.c`, `ustar.c`)

The functions that build paths once more, now with every temporary buffer as an
array of the size that `malloc` was asked for. A run that leaves a buffer ends
there, so a run is safe exactly when it does not end in this way.
-/

namespace PotatOS.Fs

open Memory Prog

inductive BufferStop where
  | stop (reason : Stop)
  | access (reason : Undefined)
  deriving DecidableEq, Repr

abbrev BufferM := StateT Vfs (Except BufferStop)

/-- A call that uses no temporary buffer of its caller. -/
def call {α : Type} (x : VfsM α) : BufferM α := fun v =>
  match x v with
  | .ok r => .ok r
  | .error reason => .error (.stop reason)

def access {α : Type} (x : Except Undefined α) : BufferM α := fun v =>
  match x with
  | .ok a => .ok (a, v)
  | .error reason => .error (.access reason)

/-- Some offset is not below the size of its buffer. -/
def Overruns {α : Type} (x : BufferM α) (v : Vfs) : Prop := x v = .error (.access .outOfBounds)

/-- A `char *`: a string of the caller, or a temporary buffer. -/
inductive CharPtr where
  | string (text : Name)
  | buffer (str : Local)

def CharPtr.get : CharPtr → Nat → Except Undefined UInt8
  | string text, i => .ok (text.getD i 0)
  | buffer str, i => str.peek i

/-- The bytes before the terminator, as `ku_strlen` and `ku_memcpy` read them. -/
def CharPtr.text : CharPtr → Except Undefined Name
  | string text => .ok text
  | buffer str => str.text

/-- `path[1] != ':' || path[2] != '/'` -/
def notAbsolute (path : CharPtr) : Except Undefined Bool := do
  if (← path.get 1) ≠ colon then return true
  return decide ((← path.get 2) ≠ slash)

/-- `path`, or `path_ext` in front of it. -/
def pathExt (currentDir : Name) (path : CharPtr) : Except Undefined CharPtr := do
  if ← notAbsolute path then
    let text ← path.text
    if (← path.get 0) = slash then
      let ext ← (Local.new (text.length + 3)).write 2 (text ++ [0])
      let ext ← ext.put 0 (currentDir.getD 0 0)
      return .buffer (← ext.put 1 colon)
    else
      let ext ← (Local.new (currentDir.length + text.length + 1)).write 0 currentDir
      return .buffer (← ext.write currentDir.length (text ++ [0]))
  else return path

/-- `new_path`: `malloc(ku_strlen(path))` and as many bytes of `path`. -/
def newPathOf (text : Name) : Except Undefined Local := (Local.new text.length).write 0 text

/-- The bytes before the next `/` or zero, and which of the two it is. -/
def component : Local → Except Undefined (Name × UInt8)
  | [] => .error .outOfBounds
  | none :: _ => .error .uninitialised
  | some b :: rest =>
    if b = slash ∨ b = 0 then .ok ([], b)
    else do
      let (name, stop) ← component rest
      return (b :: name, stop)

/-! ### `open` -/

def openWalkBuffers (fs : FileSystem) (flags : OpenFlags) (mode : UInt8) (path : CharPtr) :
    Nat → Local → Nat → Nat → BufferM (Option (Nat × Name))
  | rounds, newPath, i, currentObj => do
    if (← access (path.get i)) = 0 then return some (currentObj, ← access (Local.text (newPath.drop i)))
    match rounds with
    | 0 => call (Prog.stop .hang)
    | rounds + 1 =>
      let (name, stop) ← access (component (newPath.drop i))
      let newPath ← access (newPath.put (i + name.length) 0)
      if stop = slash then
        match ← call (findDir fs flags currentObj name) with
        | none => return none
        | some thisDir =>
          let next ← call (fs.call (tempfsOpenDir thisDir))
          openWalkBuffers fs flags mode path rounds newPath (i + name.length + 1) next
      else
        match ← call (findFile fs flags currentObj name) with
        | none => return none
        | some thisFile => return some (← call (fs.call (tempfsOpenFile thisFile mode)), name)

def openBuffers (path : CharPtr) (flags : OpenFlags) (mode : UInt8) : BufferM (Option File) := do
  let path ← access (pathExt (← get).currentDir path)
  let driveChar ← access (path.get 0)
  if ¬ isDriveLetter driveChar then return none
  let text ← access path.text
  let newPath ← access (newPathOf text)
  let newPath ← access (newPath.put text.length 0)
  let drive := (← get).drives (driveNum driveChar)
  if ¬ drive.present then return none
  let root ← call (drive.fs.call (tempfsFindRoot drive.memOffset))
  let currentObj ← call (drive.fs.call (tempfsOpenDir root))
  match ← openWalkBuffers drive.fs flags mode path text.length newPath 3 currentObj with
  | none => return none
  | some (reached, name) => return some ⟨mode, driveChar, reached, checkFileType name⟩

/-! ### `create_device` -/

def deviceWalkBuffers (fs : FileSystem) (operations : DeviceOps) (path : CharPtr) : Nat → Local → Nat → Nat → BufferM Nat
  | rounds, newPath, i, currentObj => do
    if (← access (path.get i)) = 0 then return 0
    match rounds with
    | 0 => call (Prog.stop .hang)
    | rounds + 1 =>
      let (name, stop) ← access (component (newPath.drop i))
      let newPath ← access (newPath.put (i + name.length) 0)
      if stop = slash then
        let thisDir ← call (fs.call (tempfsFind currentObj name))
        if thisDir = 0 then return 2
        let next ← call (fs.call (tempfsOpenDir thisDir))
        deviceWalkBuffers fs operations path rounds newPath (i + name.length + 1) next
      else
        let thisFile ← call (fs.call (tempfsFind currentObj name))
        if thisFile ≠ 0 then return 1
        call (fs.call (tempfsCreateDevice currentObj name operations))
        let _ ← call (fs.call (tempfsFind currentObj name))
        return 0

def createDeviceBuffers (path : CharPtr) (operations : DeviceOps) : BufferM Nat := do
  let path ← access (pathExt (← get).currentDir path)
  let driveChar ← access (path.get 0)
  if ¬ isDriveLetter driveChar then return 4
  let text ← access path.text
  let newPath ← access (newPathOf text)
  let newPath ← access (newPath.put text.length 0)
  let drive := (← get).drives (driveNum driveChar)
  if drive.fs.fsId ≠ fsTempfs then return 5
  if ¬ drive.present then return 3
  let root ← call (drive.fs.call (tempfsFindRoot drive.memOffset))
  let currentObj ← call (drive.fs.call (tempfsOpenDir root))
  deviceWalkBuffers drive.fs operations path text.length newPath 3 currentObj

/-! ### `mkdir` -/

def mkdirWalkBuffers (fs : FileSystem) (path : CharPtr) : Nat → Local → Nat → Nat → BufferM Unit
  | rounds, newPath, i, currentObj => do
    if (← access (path.get i)) = 0 then return
    match rounds with
    | 0 => call (Prog.stop .hang)
    | rounds + 1 =>
      let (name, _) ← access (component (newPath.drop i))
      let newPath ← access (newPath.put (i + name.length) 0)
      if (← access (newPath.peek i)) = 0 then return
      let thisDir ← call (fs.call (tempfsFind currentObj name))
      let thisDir ←
        if thisDir = 0 then do
          call (fs.call (tempfsMkdir currentObj name))
          call (fs.call (tempfsFind currentObj name))
        else pure thisDir
      let next ← call (fs.call (tempfsOpenDir thisDir))
      mkdirWalkBuffers fs path rounds newPath (i + name.length + 1) next

/-- The copy of `mkdir` gets no terminator. -/
def mkdirBuffers (path : CharPtr) : BufferM Nat := do
  let path ← access (pathExt (← get).currentDir path)
  let driveChar := upperCase (← access (path.get 0))
  if ¬ isDriveLetter driveChar then return 1
  if ← access (notAbsolute path) then return 2
  let text ← access path.text
  let newPath ← access (newPathOf text)
  let drive := (← get).drives (driveNum driveChar)
  let root ← call (drive.fs.call (tempfsFindRoot drive.memOffset))
  let currentObj ← call (drive.fs.call (tempfsOpenDir root))
  mkdirWalkBuffers drive.fs path text.length newPath 3 currentObj
  return 0

/-! ### `change_cd` -/

/-- `path`, or `path_ext` with a `/` at its end. -/
def cdExt (currentDir : Name) (path : CharPtr) : Except Undefined CharPtr := do
  let text ← path.text
  if ← notAbsolute path then
    if (← path.get 0) = slash then
      let ext ← (Local.new (text.length + 4)).write 2 (text ++ [0])
      let ext ← ext.put 0 (currentDir.getD 0 0)
      let ext ← ext.put 1 colon
      let ext ← ext.put (text.length + 2) slash
      return .buffer (← ext.put (text.length + 3) 0)
    else
      let ext ← (Local.new (currentDir.length + text.length + 1)).write 0 currentDir
      let ext ← ext.write currentDir.length (text ++ [0])
      let ext ← ext.put (text.length + currentDir.length) slash
      return .buffer (← ext.put (text.length + currentDir.length + 1) 0)
  else return path

def changeCdBuffers (path : CharPtr) : BufferM Unit := do
  let path ← access (cdExt (← get).currentDir path)
  let text ← access path.text
  let currentDir ← access ((Local.new (text.length + 1)).write 0 (text ++ [0]))
  let currentDir ← access currentDir.text
  modify fun v => { v with currentDir := currentDir }

/-! ### `unpack_ustar` -/

/-- `new_name` -/
def newName (driveChar : UInt8) (name : Name) : Except Undefined Local := do
  let len := name.length + 4
  let newName ← (Local.new len).write 0 (List.replicate len 0)
  let newName ← newName.put 0 driveChar
  let newName ← newName.put 1 colon
  let newName ← newName.put 2 slash
  let newName ← newName.write 3 name
  newName.put (name.length + 4) 0

def unpackMemberBuffers (m : Mem) (env : Surroundings) (driveChar : UInt8) (archiveAddr filesize : Nat) : BufferM Unit := do
  match cString m archiveAddr (2 ^ 64) with
  | none => call (Prog.stop .hang)
  | some name =>
    let newName ← access (newName driveChar name)
    match ← openBuffers (.buffer newName) oCreatAll modeWriteonly with
    | none => call (Prog.stop .halt)
    | some f =>
      let f := { f with ftype := env.checked archiveAddr f.ftype }
      let writeStatus ← call (vfsWrite m (env.args archiveAddr) f (archiveAddr + 512) filesize)
      if writeStatus ≠ 0 then call (Prog.stop .halt)
      call (vfsClose f)

/-- The header behind the one at `a`. -/
def nextHeader (m : Mem) (a : Nat) : Nat :=
  let filesize := toUint64 (oct2bin m (a + 0x7C) 11)
  add64 a (add64 (add64 filesize 511 / 512) 1 * 512 % 2 ^ 64)

def unpackUstarBuffers (m : Mem) (env : Surroundings) (driveChar : UInt8) : Nat → Nat → BufferM Unit
  | rounds, archiveAddr => do
    if kuMemcmp m (archiveAddr + 257) ustarMagic then
      match rounds with
      | 0 => call (Prog.stop .hang)
      | rounds + 1 =>
        let filesize := toUint64 (oct2bin m (archiveAddr + 0x7C) 11)
        if m (archiveAddr + 156) ≠ directoryType then unpackMemberBuffers m env driveChar archiveAddr filesize
        unpackUstarBuffers m env driveChar rounds (nextHeader m archiveAddr)

/-! ### Runs -/

section runs

variable {α β : Type} {v w : Vfs}

theorem buffer_eq {x : BufferM α} {f : α → BufferM β} {a : α} (run : x v = .ok (a, w)) : (x >>= f) v = f a w := by
  simp [bind, StateT.bind, Except.bind, run]

theorem buffer_error {x : BufferM α} {f : α → BufferM β} {e : BufferStop} (run : x v = .error e) :
    (x >>= f) v = .error e := by
  simp [bind, StateT.bind, Except.bind, run]

theorem access_eq {x : Except Undefined α} {f : α → BufferM β} {a : α} (ok : x = .ok a) :
    (access x >>= f) v = f a v := by
  subst ok
  rfl

theorem access_error {x : Except Undefined α} {f : α → BufferM β} (outside : x = .error .outOfBounds) :
    Overruns (access x >>= f) v := by
  subst outside
  rfl

theorem call_eq {x : VfsM α} {f : α → BufferM β} {a : α} (run : x v = .ok (a, w)) : (call x >>= f) v = f a w :=
  buffer_eq (by unfold call; rw [run])

theorem call_stops {x : VfsM α} {f : α → BufferM β} {e : Stop} (run : x v = .error e) : ¬ Overruns (call x >>= f) v := by
  have stopped : call x v = .error (.stop e) := by
    unfold call
    rw [run]
  unfold Overruns
  rw [buffer_error stopped]
  simp

theorem get_eq {f : Vfs → BufferM β} : ((get : BufferM Vfs) >>= f) v = f v v := rfl

end runs

/-! ### Strings and their copies -/

/-- The pointer is to this string. -/
def Spells (path : CharPtr) (chars : Name) : Prop := path = .string chars ∨ path = .buffer (Local.bytes chars ++ [some 0])

variable {path : CharPtr} {chars cd rest name : Name} {i rounds : Nat}

theorem peek_bytes (inside : i ≤ chars.length) : Local.peek (Local.bytes chars ++ [some 0]) i = .ok (chars.getD i 0) := by
  unfold Local.peek
  by_cases last : i = chars.length
  · subst last
    simp [Local.bytes]
  · have byte : (Local.bytes chars ++ [some 0])[i]? = some (some (chars.getD i 0)) := by
      rw [List.getElem?_append_left (by simp; omega), Local.bytes, List.getElem?_map,
        List.getElem?_eq_getElem (by omega), List.getD_eq_getElem _ _ (by omega)]
      rfl
    rw [byte]

namespace Spells

theorem get (spells : Spells path chars) (inside : i ≤ chars.length) : path.get i = .ok (chars.getD i 0) := by
  rcases spells with rfl | rfl
  · rfl
  · exact peek_bytes inside

theorem text (spells : Spells path chars) (noNul : 0 ∉ chars) : path.text = .ok chars := by
  rcases spells with rfl | rfl
  · rfl
  · exact Local.text_bytes [] noNul

end Spells

theorem notAbsolute_run (second : path.get 1 = .ok (chars.getD 1 0))
    (third : chars.getD 1 0 = colon → path.get 2 = .ok (chars.getD 2 0)) :
    notAbsolute path = .ok (decide (NotAbsolute chars)) := by
  unfold notAbsolute NotAbsolute
  rw [second, Local.ok_bind]
  by_cases isColon : chars.getD 1 0 = colon
  · rw [third isColon, Local.ok_bind, if_neg (not_not_intro isColon)]
    change Except.ok (decide _) = _
    simp only [isColon, ne_eq, not_true, false_or]
  · rw [if_pos isColon]
    change Except.ok true = _
    simp only [isColon, ne_eq, not_false_eq_true, true_or, decide_true]

theorem Spells.notAbsolute (spells : Spells path chars) (nonempty : chars ≠ []) :
    notAbsolute path = .ok (decide (NotAbsolute chars)) := by
  have first := List.length_pos_iff.mpr nonempty
  refine notAbsolute_run (spells.get first) fun isColon => spells.get ?_
  by_contra short
  rw [List.getD_eq_default _ _ (by omega)] at isColon
  cases isColon

theorem notAbsolute_string (chars : Name) : notAbsolute (.string chars) = .ok (decide (NotAbsolute chars)) :=
  notAbsolute_run rfl fun _ => rfl

theorem newPathOf_run (chars : Name) : newPathOf chars = .ok (Local.bytes chars) := by
  unfold newPathOf
  rw [Local.write_inside (by simp)]
  simp [Local.new]

/-- The copy behind a drive letter, in a buffer with room for more. -/
theorem driveExt_run (b : UInt8) (chars : Name) (more : Nat) : ∃ copied lettered,
    (Local.new (chars.length + 3 + more)).write 2 (chars ++ [0]) = .ok copied ∧ copied.put 0 b = .ok lettered ∧
      lettered.put 1 colon = .ok (Local.bytes (b :: colon :: chars) ++ some 0 :: Local.new more) := by
  have front : (Local.new (chars.length + 3 + more)).take 2 = [none, none] := by
    simp [Local.new, show min 2 (chars.length + 3 + more) = 2 by omega, List.replicate_succ]
  have behind : (Local.new (chars.length + 3 + more)).drop (2 + (chars ++ [0]).length) = Local.new more := by
    simp [Local.new]
    omega
  refine ⟨[] ++ none :: (none :: Local.bytes (chars ++ [0]) ++ Local.new more),
    [some b] ++ none :: (Local.bytes (chars ++ [0]) ++ Local.new more), ?_, Local.put_append [] _ _ _ rfl, ?_⟩
  · rw [Local.write_inside (by simp; omega), front, behind]
    rfl
  · rw [Local.put_append [some b] none _ colon (i := 1) rfl]
    simp

theorem dirExt_run (cd chars : Name) : ∃ copied, (Local.new (cd.length + chars.length + 1)).write 0 cd = .ok copied ∧
    copied.write cd.length (chars ++ [0]) = .ok (Local.bytes (cd ++ chars) ++ [some 0]) := by
  refine ⟨_, Local.write_inside (by simp; omega), ?_⟩
  rw [Local.write_inside (by simp; omega)]
  simp [Local.new]
  omega

theorem pathExt_run (cd chars : Name) : ∃ p, pathExt cd (.string chars) = .ok p ∧ Spells p (absolutePath cd chars) := by
  unfold pathExt
  rw [notAbsolute_string, Local.ok_bind, absolutePath_eq]
  by_cases form : NotAbsolute chars
  · simp only [form, decide_true, if_true]
    change ∃ p, ite (chars.getD 0 0 = slash) _ _ = _ ∧ _
    by_cases first : chars.getD 0 0 = slash
    · obtain ⟨copied, lettered, copy, letter, colon⟩ := driveExt_run (cd.getD 0 0) chars 0
      rw [if_pos first, if_pos first]
      refine ⟨_, ?_, .inr rfl⟩
      rw [copy, Local.ok_bind, letter, Local.ok_bind, colon]
      rfl
    · obtain ⟨copied, copy, behind⟩ := dirExt_run cd chars
      rw [if_neg first, if_neg first]
      refine ⟨_, ?_, .inr rfl⟩
      rw [copy, Local.ok_bind, behind]
      rfl
  · simp only [form, decide_false, if_false]
    exact ⟨_, rfl, .inl rfl⟩

theorem absolutePath_noNul (noNul : 0 ∉ chars) (noNulDir : 0 ∉ cd) (first : (absolutePath cd chars).getD 0 0 ≠ 0) :
    0 ∉ absolutePath cd chars := by
  rw [absolutePath_eq] at first ⊢
  split at first
  · rename_i form
    rw [if_pos form]
    split at first
    · rename_i isSlash
      rw [if_pos isSlash]
      have letter : cd.getD 0 0 ≠ 0 := first
      simpa [noNul, colon] using letter.symm
    · rename_i isSlash
      rw [if_neg isSlash]
      simp [noNul, noNulDir]
  · rename_i form
    rw [if_neg form]
    exact noNul

/-! ### `open` and `create_device` -/

variable {v : Vfs}

section copies

variable (noNul : 0 ∉ chars) (noNulDir : 0 ∉ v.currentDir)
include noNul noNulDir

/-- Before the walk: a path of a drive letter overruns its copy with the terminator. -/
theorem terminator_overruns {α : Type} {none : α} {rest : UInt8 → CharPtr → Name → Local → BufferM α} :
    (access (pathExt v.currentDir (.string chars)) >>= fun path => access (path.get 0) >>= fun driveChar =>
      if ¬ isDriveLetter driveChar then pure none
      else access path.text >>= fun text => access (newPathOf text) >>= fun newPath =>
        access (newPath.put text.length 0) >>= fun newPath => rest driveChar path text newPath) v =
      if isDriveLetter (driveOf v chars) then .error (.access .outOfBounds) else .ok (none, v) := by
  obtain ⟨p, ext, spells⟩ := pathExt_run v.currentDir chars
  have first : p.get 0 = .ok (driveOf v chars) := spells.get (Nat.zero_le _)
  rw [access_eq ext, access_eq first]
  cases isLetter : isDriveLetter (driveOf v chars) with
  | false => simp; rfl
  | true =>
    have nonzero : driveOf v chars ≠ 0 := by
      intro zero
      rw [zero] at isLetter
      cases isLetter
    rw [if_neg (by simp), if_pos rfl, access_eq (spells.text (absolutePath_noNul noNul noNulDir nonzero)),
      access_eq (newPathOf_run _)]
    exact access_error (Local.put_outside (by simp))

theorem openBuffers_run (flags : OpenFlags) (mode : UInt8) : openBuffers (.string chars) flags mode v =
    if isDriveLetter (driveOf v chars) then .error (.access .outOfBounds) else .ok (none, v) := by
  unfold openBuffers
  rw [get_eq]
  exact terminator_overruns noNul noNulDir

theorem createDeviceBuffers_run (operations : DeviceOps) : createDeviceBuffers (.string chars) operations v =
    if isDriveLetter (driveOf v chars) then .error (.access .outOfBounds) else .ok (4, v) := by
  unfold createDeviceBuffers
  rw [get_eq]
  exact terminator_overruns noNul noNulDir

end copies

/-! ### `mkdir` -/

/-- The walk of `mkdir` comes past these components: each is found or made, and none but the last is a file or device. -/
inductive Passes : TempFs → Nat → List Name → Prop
  | done {s : TempFs} {a : Nat} : Passes s a []
  | leaf {s : TempFs} {a b : Nat} {c : Name} (child : s.child a c = some b) (leaf : (s.inodes b).isDir = false) : Passes s a [c]
  | enter {s : TempFs} {a b : Nat} {c : Name} {rest : List Name} (child : s.child a c = some b)
    (isDir : (s.inodes b).isDir = true) (behind : Passes s b rest) : Passes s a (c :: rest)
  | newDir {s t : TempFs} {a b : Nat} {c : Name} {rest : List Name} (absent : s.child a c = none)
    (made : tempfsMkdir a c s = .ok (⟨⟩, t)) (child : t.child a c = some b) (behind : Passes t b rest) : Passes s a (c :: rest)

theorem passes_cons {s : TempFs} {a : Nat} {c : Name} {rest : List Name} : Passes s a (c :: rest) ↔
    (∃ b, s.child a c = some b ∧ (s.inodes b).isDir = false ∧ rest = []) ∨
    (∃ b, s.child a c = some b ∧ (s.inodes b).isDir = true ∧ Passes s b rest) ∨
    s.child a c = none ∧ ∃ t b, tempfsMkdir a c s = .ok (⟨⟩, t) ∧ t.child a c = some b ∧ Passes t b rest := by
  constructor
  · intro passes
    cases passes with
    | leaf child leaf => exact .inl ⟨_, child, leaf, rfl⟩
    | enter child isDir behind => exact .inr (.inl ⟨_, child, isDir, behind⟩)
    | newDir absent made child behind => exact .inr (.inr ⟨absent, _, _, made, child, behind⟩)
  · rintro (⟨b, child, leaf, rfl⟩ | ⟨b, child, isDir, behind⟩ | ⟨absent, t, b, made, child, behind⟩)
    · exact .leaf child leaf
    · exact .enter child isDir behind
    · exact .newDir absent made child behind

theorem component_end (noSlash : slash ∉ chars) (noNul : 0 ∉ chars) :
    component (Local.bytes chars) = .error .outOfBounds := by
  induction chars with
  | nil => rfl
  | cons b chars ih =>
    simp only [List.mem_cons, not_or] at noSlash noNul
    rw [Local.bytes_cons, component, if_neg (by simp [Ne.symm noSlash.1, Ne.symm noNul.1]), ih noSlash.2 noNul.2]
    rfl

theorem component_slash (noSlash : slash ∉ name) (noNul : 0 ∉ name) :
    component (Local.bytes (name ++ slash :: rest)) = .ok (name, slash) := by
  induction name with
  | nil => rfl
  | cons b name ih =>
    simp only [List.mem_cons, not_or] at noSlash noNul
    rw [List.cons_append, Local.bytes_cons, component, if_neg (by simp [Ne.symm noSlash.1, Ne.symm noNul.1]),
      ih noSlash.2 noNul.2]
    rfl

/-- What the walk still has in front of it: from `i` on the path and its copy hold these bytes. -/
structure Ahead (path : CharPtr) (newPath : Local) (i : Nat) (rest : Name) : Prop where
  reads : ∀ k ≤ rest.length, path.get (i + k) = .ok (rest.getD k 0)
  copy : newPath.drop i = Local.bytes rest
  within : i ≤ newPath.length
  noNul : 0 ∉ rest

variable {newPath : Local} {a b base : Nat} {c : Name} {s t : TempFs}

namespace Ahead

theorem first (ahead : Ahead path newPath i rest) : path.get i = .ok (rest.getD 0 0) := ahead.reads 0 (Nat.zero_le _)

theorem rounds_succ (nonempty : rest ≠ []) (enough : rest.length ≤ rounds) : ∃ n, rounds = n + 1 :=
  Nat.exists_eq_succ_of_ne_zero (by have := List.length_pos_iff.mpr nonempty; omega)

theorem nonzero (ahead : Ahead path newPath i rest) (nonempty : rest ≠ []) : rest.getD 0 0 ≠ 0 := by
  obtain ⟨b, behind, rfl⟩ := List.exists_cons_of_ne_nil nonempty
  have noNul := ahead.noNul
  simp only [List.mem_cons, not_or] at noNul
  exact Ne.symm noNul.1

theorem done (ahead : Ahead path newPath i []) : mkdirWalkBuffers .tempFs path rounds newPath i a v = .ok (⟨⟩, v) := by
  cases rounds <;> rw [mkdirWalkBuffers, access_eq ahead.first] <;> rfl

theorem empty (ahead : Ahead path newPath i (slash :: rest)) :
    mkdirWalkBuffers .tempFs path (rounds + 1) newPath i a v = .ok (⟨⟩, v) := by
  have here : component (newPath.drop i) = .ok ([], slash) := by
    rw [ahead.copy]
    rfl
  have inside : i < newPath.length := by
    have copied := congrArg List.length ahead.copy
    simp at copied
    omega
  rw [mkdirWalkBuffers, access_eq ahead.first, if_neg (by simp [slash]), access_eq here]
  dsimp only
  rw [access_eq (Local.put_inside (by simpa using inside)), access_eq (a := 0) (by simp [Local.peek, inside])]
  rfl

/-- The last component has no terminator in the copy. -/
theorem last (ahead : Ahead path newPath i rest) (nonempty : rest ≠ []) (noSlash : slash ∉ rest) :
    Overruns (mkdirWalkBuffers .tempFs path (rounds + 1) newPath i a) v := by
  unfold Overruns
  rw [mkdirWalkBuffers, access_eq ahead.first, if_neg (ahead.nonzero nonempty)]
  refine access_error ?_
  rw [ahead.copy]
  exact component_end noSlash ahead.noNul

/-- Any other component, which the walk follows into its directory. -/
theorem round (ahead : Ahead path newPath i (name ++ slash :: rest)) (filled : name ≠ []) (noSlash : slash ∉ name) :
    ∃ newPath', Ahead path newPath' (i + name.length + 1) rest ∧
      mkdirWalkBuffers .tempFs path (rounds + 1) newPath i a v = (do
        let thisDir ← call (FileSystem.tempFs.call (tempfsFind a name))
        let thisDir ←
          if thisDir = 0 then do
            call (FileSystem.tempFs.call (tempfsMkdir a name))
            call (FileSystem.tempFs.call (tempfsFind a name))
          else pure thisDir
        let next ← call (FileSystem.tempFs.call (tempfsOpenDir thisDir))
        mkdirWalkBuffers .tempFs path rounds newPath' (i + name.length + 1) next) v := by
  have noNul := ahead.noNul
  simp only [List.mem_append, List.mem_cons, not_or] at noNul
  have copied := congrArg List.length ahead.copy
  simp at copied
  have here : component (newPath.drop i) = .ok (name, slash) := by
    rw [ahead.copy]
    exact component_slash noSlash noNul.1
  have nonempty := List.length_pos_iff.mpr filled
  refine ⟨newPath.set (i + name.length) (some 0), ⟨fun k within => ?_, ?_, by simp; omega, noNul.2.2⟩, ?_⟩
  · have byte := ahead.reads (name.length + 1 + k) (by simp; omega)
    rw [show i + name.length + 1 + k = i + (name.length + 1 + k) by omega, byte,
      List.getD_append_right _ _ _ _ (by omega), show name.length + 1 + k - name.length = k + 1 by omega,
      List.getD_cons_succ]
  · have parts : Local.bytes (name ++ slash :: rest) = (Local.bytes name ++ [some slash]) ++ Local.bytes rest := by simp
    rw [List.drop_set_of_lt (by omega), Nat.add_assoc, ← List.drop_drop, ahead.copy, parts]
    exact List.drop_left' (by simp)
  · have stays : Local.peek (newPath.set (i + name.length) (some 0)) i = .ok (name.getD 0 0) := by
      have byte : newPath[i]? = some (some (name.getD 0 0)) := by
        obtain ⟨b, name, rfl⟩ := List.exists_cons_of_ne_nil filled
        have first := congrArg (·[0]?) ahead.copy
        simpa using first
      unfold Local.peek
      rw [List.getElem?_set_ne (by omega), byte]
    have first : (name ++ slash :: rest).getD 0 0 = name.getD 0 0 := List.getD_append _ _ _ _ nonempty
    have more := ahead.nonzero (by simp)
    rw [mkdirWalkBuffers, access_eq ahead.first, if_neg more, access_eq here]
    dsimp only
    rw [access_eq (Local.put_inside (by omega)), access_eq stays, if_neg (first ▸ more)]

end Ahead

theorem split_cases (rest : Name) : slash ∉ rest ∧ rest.splitOn slash = [rest] ∨
    ∃ name behind, rest = name ++ slash :: behind ∧ slash ∉ name ∧ rest.splitOn slash = name :: behind.splitOn slash := by
  by_cases inside : slash ∈ rest
  · obtain ⟨name, behind, rfl, first⟩ := List.eq_append_cons_of_mem inside
    exact .inr ⟨name, behind, rfl, first, List.splitOn_append_cons_self_of_not_mem first behind⟩
  · exact .inl ⟨inside, List.splitOn_eq_singleton inside⟩

/-- A walk that stands nowhere does not live to see another `find`. -/
theorem Ahead.null (ahead : Ahead path newPath i rest) (enough : rest.length ≤ rounds) :
    Overruns (mkdirWalkBuffers .tempFs path rounds newPath i 0) v ↔ ∃ c, c ≠ [] ∧ rest.splitOn slash = [c] := by
  by_cases empty : rest = []
  · subst empty
    refine iff_of_false (by simp [Overruns, ahead.done]) ?_
    rintro ⟨c, filled, same⟩
    simp at same
    exact filled same
  obtain ⟨n, rfl⟩ := Ahead.rounds_succ empty enough
  rcases split_cases rest with ⟨noSlash, split⟩ | ⟨name, behind, rfl, noSlash, split⟩
  · exact iff_of_true (ahead.last empty noSlash) ⟨rest, empty, split⟩
  · refine iff_of_false ?_ ?_
    · by_cases none : name = []
      · subst none
        simp [Overruns, ahead.empty]
      · obtain ⟨newPath', -, round⟩ := ahead.round (a := 0) (v := v) none noSlash
        unfold Overruns
        rw [round]
        exact call_stops rfl
    · rintro ⟨c, -, same⟩
      rw [split] at same
      exact List.splitOn_ne_nil slash behind (List.cons.inj same).2

theorem Ahead.overruns (ahead : Ahead path newPath i rest) (enough : rest.length ≤ rounds) (stands : Stands base v.tempFs a) :
    Overruns (mkdirWalkBuffers .tempFs path rounds newPath i a) v ↔
      (∀ c ∈ rest.splitOn slash, c ≠ []) ∧ Passes v.tempFs a (rest.splitOn slash).dropLast := by
  induction rounds generalizing rest newPath i a v with
  | zero =>
    obtain rfl : rest = [] := List.length_eq_zero_iff.mp (by omega)
    refine iff_of_false (by simp [Overruns, ahead.done]) (by simp)
  | succ n ih =>
    by_cases empty : rest = []
    · subst empty
      refine iff_of_false (by simp [Overruns, ahead.done]) (by simp)
    rcases split_cases rest with ⟨noSlash, split⟩ | ⟨name, behind, rfl, noSlash, split⟩
    · rw [split]
      exact iff_of_true (ahead.last empty noSlash) ⟨by simpa using empty, .done⟩
    rw [split, List.dropLast_cons_of_ne_nil (List.splitOn_ne_nil slash behind), List.forall_mem_cons]
    by_cases none : name = []
    · subst none
      exact iff_of_false (by simp [Overruns, ahead.empty]) (by simp)
    obtain ⟨newPath', ahead', round⟩ := ahead.round none noSlash
    have enough' : behind.length ≤ n := by
      simp at enough
      omega
    unfold Overruns at ih ⊢
    rw [round]
    cases child : v.tempFs.child a name with
    | some b =>
      obtain ⟨find, nonnull⟩ := find_of_child child
      have find' : FileSystem.tempFs.call (tempfsFind a name) v = .ok (b, v) := FileSystem.call_run find
      rw [call_eq find', if_neg nonnull, pure_bind]
      dsimp only
      cases isDir : (v.tempFs.inodes b).isDir with
      | true =>
        rw [call_eq (openDir_dir nonnull isDir), ih ahead' enough' (stands.child child isDir), passes_cons]
        simp [child, isDir, none]
      | false =>
        have alone : (∃ c, c ≠ [] ∧ behind.splitOn slash = [c]) ↔
            (∀ c ∈ behind.splitOn slash, c ≠ []) ∧ (behind.splitOn slash).dropLast = [] := by
          have some := List.splitOn_ne_nil slash behind
          generalize behind.splitOn slash = comps at some
          obtain ⟨c, comps, rfl⟩ := List.exists_cons_of_ne_nil some
          cases comps <;> simp
        have null := ahead'.null (v := v) enough'
        unfold Overruns at null
        rw [call_eq (openDir_leaf nonnull isDir), null, alone, passes_cons]
        simp [child, isDir, none]
    | none =>
      have find : FileSystem.tempFs.call (tempfsFind a name) v = .ok (0, v) := FileSystem.call_run (stands.find_missing child)
      rw [call_eq find, if_pos rfl, passes_cons]
      dsimp only
      cases made : tempfsMkdir a name v.tempFs with
      | error e =>
        refine iff_of_false ?_ (by simp [child])
        have stopped : FileSystem.tempFs.call (tempfsMkdir a name) v = .error e := by
          unfold FileSystem.call
          simp only [made]
        exact call_stops stopped
      | ok pair =>
        obtain ⟨⟨⟩, t⟩ := pair
        have made' : Maker.dir.call a name v.tempFs = .ok (⟨⟩, t) := made
        obtain ⟨found, isDir, stands'⟩ := stands.make child made'
        have next := stands'.child found isDir
        obtain ⟨find', nonnull⟩ := find_of_child found
        rw [call_eq (FileSystem.call_run made), call_eq (FileSystem.call_run find'), call_eq (openDir_dir nonnull isDir),
          ih ahead' enough' next]
        simp [child, found, none]


/-- `mkdir` comes to a last component: the path starts with `X:/`, has no empty component and so no `/` at its end, and
the walk on a drive that is there passes the other components. -/
def ReachesLast (v : Vfs) (path : Name) : Prop :=
  ¬ NotAbsolute (absolutePath v.currentDir path) ∧ (∀ c ∈ componentsOf v path, c ≠ []) ∧
    ∃ root, Mounted v (upperCase (driveOf v path)) root ∧ Passes v.tempFs root (componentsOf v path).dropLast

theorem Spells.ahead (spells : Spells path chars) (noNul : 0 ∉ chars) (three : 3 ≤ chars.length) :
    Ahead path (Local.bytes chars) 3 (chars.drop 3) where
  reads k within := by
    rw [List.length_drop] at within
    rw [spells.get (by omega), List.getD_eq_getElem?_getD, List.getD_eq_getElem?_getD, List.getElem?_drop]
  copy := (List.map_drop).symm
  within := by simpa using three
  noNul inside := noNul (List.mem_of_mem_drop inside)

theorem overruns_return {α β : Type} {x : BufferM α} {b : β} : Overruns (x >>= fun _ => pure b) v ↔ Overruns x v := by
  unfold Overruns
  cases run : x v with
  | error e => simp [buffer_error run]
  | ok pair => exact iff_of_false (by rw [buffer_eq run]; exact nofun) (by simp)

theorem mkdirBuffers_overruns (drives : Drives base v) (noNul : 0 ∉ chars) (noNulDir : 0 ∉ v.currentDir) :
    Overruns (mkdirBuffers (.string chars)) v ↔ ReachesLast v chars := by
  obtain ⟨p, ext, spells⟩ := pathExt_run v.currentDir chars
  have first : p.get 0 = .ok (driveOf v chars) := spells.get (Nat.zero_le _)
  unfold Overruns mkdirBuffers ReachesLast
  rw [get_eq, access_eq ext, access_eq first]
  dsimp only
  cases isLetter : isDriveLetter (upperCase (driveOf v chars)) with
  | false =>
    refine iff_of_false (by simp; exact nofun) ?_
    rintro ⟨-, -, root, mounted, -⟩
    rw [mounted.isLetter] at isLetter
    cases isLetter
  | true =>
    have nonzero : (absolutePath v.currentDir chars).getD 0 0 ≠ 0 := by
      intro zero
      unfold driveOf at isLetter
      rw [zero] at isLetter
      cases isLetter
    have nonempty : absolutePath v.currentDir chars ≠ [] := by
      intro empty
      rw [empty] at nonzero
      exact nonzero rfl
    have noNul' := absolutePath_noNul noNul noNulDir nonzero
    rw [if_neg (by simp), access_eq (spells.notAbsolute nonempty)]
    by_cases form : NotAbsolute (absolutePath v.currentDir chars)
    · refine iff_of_false ?_ fun reaches => reaches.1 form
      simp only [form, decide_true, if_true]
      exact nofun
    simp only [form, decide_false, Bool.false_eq_true, if_false, not_false_eq_true, true_and]
    have three : 3 ≤ (absolutePath v.currentDir chars).length := by
      by_contra short
      refine form (.inr ?_)
      rw [List.getD_eq_default _ _ (by omega)]
      decide
    rw [access_eq (spells.text noNul'), access_eq (newPathOf_run _), get_eq]
    rcases drives.each (driveNum (upperCase (driveOf v chars))) with empty | ⟨root, drive, -⟩
    · rw [empty]
      refine iff_of_false (call_stops rfl) ?_
      rintro ⟨-, root, mounted, -⟩
      rw [mounted.drive] at empty
      cases empty
    · have mounted : Mounted v (upperCase (driveOf v chars)) root := ⟨isLetter, drive⟩
      have stands := drives.stands mounted
      obtain ⟨findRoot, openRoot⟩ := root_calls stands.nonnull stands.isDir
      rw [drive, call_eq findRoot, call_eq openRoot]
      have walk : Overruns (mkdirWalkBuffers .tempFs p (absolutePath v.currentDir chars).length _ 3 root) v ↔
        (∀ c ∈ componentsOf v chars, c ≠ []) ∧
          Passes v.tempFs root (componentsOf v chars).dropLast :=
        (spells.ahead noNul' three).overruns (by simp) stands
      refine overruns_return.trans (walk.trans (and_congr_right fun _ => ⟨fun passes => ⟨root, mounted, passes⟩, ?_⟩))
      rintro ⟨root', mounted', passes⟩
      have same := mounted'.drive
      rw [mounted.drive] at same
      cases same
      exact passes

/-! ### `change_cd` -/

/-- A buffer with a terminator holds some string. -/
theorem text_terminated (chars : Name) (rest : Local) :
    ∃ front, Local.text (Local.bytes chars ++ some 0 :: rest) = .ok front ∧ 0 ∉ front := by
  induction chars with
  | nil => exact ⟨[], rfl, List.not_mem_nil⟩
  | cons b chars ih =>
    obtain ⟨front, same, noNul⟩ := ih
    by_cases zero : b = 0
    · exact ⟨[], if_pos zero, List.not_mem_nil⟩
    · refine ⟨b :: front, ?_, by simp [noNul, Ne.symm zero]⟩
      rw [Local.bytes_cons, List.cons_append, Local.text, if_neg zero, same]
      rfl

@[simp] theorem text_string (chars : Name) : (CharPtr.string chars).text = .ok chars := rfl

@[simp] theorem text_buffer (str : Local) : (CharPtr.buffer str).text = str.text := rfl

@[simp] theorem get_string (chars : Name) (i : Nat) : (CharPtr.string chars).get i = .ok (chars.getD i 0) := rfl

/-- The buffer of a relative path is a byte too short for the `/`. -/
theorem cdExt_relative (relative : IsRelative chars) : cdExt cd (.string chars) = .error .outOfBounds := by
  obtain ⟨form, first⟩ := relative
  obtain ⟨copied, copy, behind⟩ := dirExt_run cd chars
  unfold cdExt
  rw [text_string, Local.ok_bind, notAbsolute_string, Local.ok_bind, if_pos (decide_eq_true form), get_string,
    Local.ok_bind, if_neg first, copy, Local.ok_bind, behind, Local.ok_bind,
    Local.put_inside (by simp; omega), Local.ok_bind, Local.put_outside (by simp; omega)]
  rfl

theorem cdExt_other (other : ¬ IsRelative chars) (noNul : 0 ∉ chars) :
    ∃ p front, cdExt cd (.string chars) = .ok p ∧ p.text = .ok front ∧ 0 ∉ front := by
  unfold cdExt
  rw [text_string, Local.ok_bind, notAbsolute_string, Local.ok_bind]
  by_cases form : NotAbsolute chars
  · have first : chars.getD 0 0 = slash := by
      by_contra first
      exact other ⟨form, first⟩
    obtain ⟨copied, lettered, copy, letter, drive⟩ := driveExt_run (cd.getD 0 0) chars 1
    have ends := Local.put_append (Local.bytes (cd.getD 0 0 :: colon :: chars)) (some 0) (Local.new 1) slash
      (i := chars.length + 2) (by simp)
    have terminates : Local.put (Local.bytes (cd.getD 0 0 :: colon :: chars) ++ [some slash] ++ Local.new 1)
        (chars.length + 3) 0 = _ := Local.put_append _ none [] 0 (by simp)
    obtain ⟨front, text, noNul⟩ := text_terminated (cd.getD 0 0 :: colon :: chars ++ [slash]) []
    refine ⟨.buffer (Local.bytes (cd.getD 0 0 :: colon :: chars ++ [slash]) ++ [some 0]), front, ?_,
      by rw [text_buffer, text], noNul⟩
    rw [if_pos (decide_eq_true form), get_string, Local.ok_bind, if_pos first, copy, Local.ok_bind, letter, Local.ok_bind,
      drive, Local.ok_bind, ends, Local.ok_bind, List.append_cons, terminates]
    simp
  · rw [if_neg (by simpa using form)]
    exact ⟨_, chars, rfl, rfl, noNul⟩

theorem changeCdBuffers_overruns (noNul : 0 ∉ chars) : Overruns (changeCdBuffers (.string chars)) v ↔ IsRelative chars := by
  unfold changeCdBuffers
  by_cases relative : IsRelative chars
  · refine iff_of_true ?_ relative
    unfold Overruns
    rw [get_eq]
    exact access_error (cdExt_relative relative)
  · obtain ⟨p, front, ext, text, noNul'⟩ : ∃ p front, cdExt v.currentDir (.string chars) = .ok p ∧ _ :=
      cdExt_other relative noNul
    refine iff_of_false ?_ relative
    unfold Overruns
    have copied : (Local.new (front.length + 1)).write 0 (front ++ [0]) = .ok (Local.bytes front ++ [some 0]) := by
      rw [Local.write_inside (by simp)]
      simp [Local.new]
    rw [get_eq, access_eq ext, access_eq text, access_eq copied, access_eq (Local.text_bytes [] noNul')]
    exact nofun

/-! ### `unpack_ustar` -/

/-- The terminator goes one byte behind the buffer of any name. -/
theorem newName_overruns (driveChar : UInt8) (name : Name) : newName driveChar name = .error .outOfBounds := by
  unfold newName
  dsimp only
  rw [Local.write_inside (by simp), Local.ok_bind, Local.put_inside (by simp), Local.ok_bind,
    Local.put_inside (by simp), Local.ok_bind, Local.put_inside (by simp), Local.ok_bind,
    Local.write_inside (by simp; omega), Local.ok_bind]
  exact Local.put_outside (by simp; omega)

/-- The headers that `unpack_ustar` comes to, as long as it meets only directories. -/
inductive HeaderReached (m : Mem) : Nat → Nat → Prop
  | here {a : Nat} (magic : kuMemcmp m (a + 257) ustarMagic = true) : HeaderReached m a a
  | next {a h : Nat} (magic : kuMemcmp m (a + 257) ustarMagic = true) (behind : HeaderReached m (nextHeader m a) h) :
    HeaderReached m a h

theorem cString_more {m : Mem} {a n k : Nat} (found : cString m a n = some name) (more : n ≤ k) : cString m a k = some name := by
  induction n generalizing a k name with
  | zero => cases found
  | succ n ih =>
    obtain ⟨k, rfl⟩ := Nat.exists_eq_succ_of_ne_zero (show k ≠ 0 by omega)
    rw [cString] at found ⊢
    by_cases ends : m a = 0
    · rw [if_pos ends] at found ⊢
      exact found
    · rw [if_neg ends] at found ⊢
      obtain ⟨tail, later, rfl⟩ := Option.map_eq_some_iff.mp found
      rw [ih later (by omega)]
      rfl

section unpack

variable {m : Mem} {env : Surroundings} {driveChar : UInt8}

theorem unpackUstarBuffers_end (other : ¬ kuMemcmp m (a + 257) ustarMagic = true) :
    unpackUstarBuffers m env driveChar rounds a v = .ok (⟨⟩, v) := by
  cases rounds <;> rw [unpackUstarBuffers, if_neg other] <;> rfl

theorem unpackUstarBuffers_file (magic : kuMemcmp m (a + 257) ustarMagic = true) (file : m (a + 156) ≠ directoryType)
    (named : cString m a 100 = some name) : Overruns (unpackUstarBuffers m env driveChar (rounds + 1) a) v := by
  have member : ∀ filesize, unpackMemberBuffers m env driveChar a filesize v = .error (.access .outOfBounds) := by
    intro filesize
    unfold unpackMemberBuffers
    rw [cString_more named (by decide : 100 ≤ 2 ^ 64)]
    exact access_error (newName_overruns driveChar name)
  rw [unpackUstarBuffers, if_pos magic, if_pos file]
  exact buffer_error (member _)

theorem unpackUstarBuffers_directory (magic : kuMemcmp m (a + 257) ustarMagic = true) (dir : m (a + 156) = directoryType) :
    unpackUstarBuffers m env driveChar (rounds + 1) a v = unpackUstarBuffers m env driveChar rounds (nextHeader m a) v := by
  rw [unpackUstarBuffers, if_pos magic, if_neg (not_not_intro dir)]

/-- Every member that is not a directory overruns the buffer of its name. -/
theorem unpackUstarBuffers_overruns (named : ∀ h, HeaderReached m a h → ∃ name, cString m h 100 = some name) :
    (∃ rounds, Overruns (unpackUstarBuffers m env driveChar rounds a) v) ↔
      ∃ h, HeaderReached m a h ∧ m (h + 156) ≠ directoryType := by
  constructor
  · rintro ⟨rounds, overruns⟩
    induction rounds generalizing a with
    | zero =>
      rw [unpackUstarBuffers] at overruns
      split at overruns <;> cases overruns
    | succ rounds ih =>
      by_cases magic : kuMemcmp m (a + 257) ustarMagic = true
      · by_cases dir : m (a + 156) = directoryType
        · unfold Overruns at overruns
          rw [unpackUstarBuffers_directory magic dir] at overruns
          obtain ⟨h, reached, file⟩ := ih (fun h reached => named h (.next magic reached)) overruns
          exact ⟨h, .next magic reached, file⟩
        · exact ⟨a, .here magic, dir⟩
      · unfold Overruns at overruns
        rw [unpackUstarBuffers_end magic] at overruns
        cases overruns
  · rintro ⟨h, reached, file⟩
    induction reached with
    | here magic => exact ⟨1, unpackUstarBuffers_file magic file (named _ (.here magic)).choose_spec⟩
    | next magic behind ih =>
      rename_i a h
      by_cases dir : m (a + 156) = directoryType
      · obtain ⟨rounds, overruns⟩ := ih (fun h reached => named h (.next magic reached)) file
        refine ⟨rounds + 1, ?_⟩
        unfold Overruns
        rw [unpackUstarBuffers_directory magic dir]
        exact overruns
      · exact ⟨1, unpackUstarBuffers_file magic dir (named _ (.here magic)).choose_spec⟩

end unpack

/-! ### All five -/

/-- In every state that calls reach from empty drives, for every path, current directory and archive: no access leaves a
temporary buffer exactly when `open` and `create_device` get no drive letter, `mkdir` comes to no last component,
`change_cd` gets no relative path and the archive holds only directories. The directories that `mkdir` may have to make on
its way have names that end before `length`. -/
theorem path_buffers_iff (start v : Vfs) (unused : ∀ a, start.tempFs.used < a → start.tempFs.inodes a = {})
    (empty : ∀ n, start.drives n = {}) (run : DriveRun start v) (path : Name) (noNul : 0 ∉ path) (noNulDir : 0 ∉ v.currentDir)
    (m : Mem) (env : Surroundings) (driveChar : UInt8) (archiveAddr : Nat)
    (named : ∀ h, HeaderReached m archiveAddr h → ∃ name, cString m h 100 = some name) :
    (∀ flags mode, ¬ Overruns (openBuffers (.string path) flags mode) v ↔ isDriveLetter (driveOf v path) = false) ∧
    (∀ operations, ¬ Overruns (createDeviceBuffers (.string path) operations) v ↔ isDriveLetter (driveOf v path) = false) ∧
    ((∀ c ∈ (componentsOf v path).dropLast, c.length ≤ nameRoom) →
      (¬ Overruns (mkdirBuffers (.string path)) v ↔ ¬ ReachesLast v path)) ∧
    (¬ Overruns (changeCdBuffers (.string path)) v ↔ ¬ IsRelative path) ∧
    ((∀ rounds, ¬ Overruns (unpackUstarBuffers m env driveChar rounds archiveAddr) v) ↔
      ∀ h, HeaderReached m archiveAddr h → m (h + 156) = directoryType) := by
  have drives := (Drives.start unused empty).run run
  refine ⟨fun flags mode => ?_, fun operations => ?_, fun _ => not_congr (mkdirBuffers_overruns drives noNul noNulDir),
    not_congr (changeCdBuffers_overruns noNul), ?_⟩
  · unfold Overruns
    rw [openBuffers_run noNul noNulDir]
    cases isDriveLetter (driveOf v path) <;> simp
  · unfold Overruns
    rw [createDeviceBuffers_run noNul noNulDir]
    cases isDriveLetter (driveOf v path) <;> simp
  · have overruns : (∃ rounds, Overruns (unpackUstarBuffers m env driveChar rounds archiveAddr) v) ↔ _ :=
      unpackUstarBuffers_overruns named
    simpa using not_congr overruns

theorem newDrive_buffers : ∃ v root, DriveRun {} v ∧ Mounted v 82 root ∧ v.currentDir = [] := by
  have check : returns (mountNew 82) {} (fun _ v => decide ((v.drives (driveNum 82)).present = true ∧
      (v.drives (driveNum 82)).fs = .tempFs ∧ v.currentDir = [])) = true := by decide +kernel
  obtain ⟨status, v, run, check⟩ := returns_iff.mp check
  obtain ⟨present, fs, currentDir⟩ := of_decide_eq_true check
  refine ⟨v, (v.drives (driveNum 82)).memOffset, .single (.mount 82 status run), ⟨by decide, ?_⟩, currentDir⟩
  rw [← present, ← fs]

/-- An archive of the directory `d/`. -/
def oneDirectory : Mem := fun x => if x < 512 then headerByte ⟨[100, 47], directoryType, .empty⟩ x else 0

theorem oneDirectory_reached {h : Nat} (reached : HeaderReached oneDirectory 0 h) : h = 0 := by
  have next : nextHeader oneDirectory 0 = 512 := by decide +kernel
  have last : ¬ kuMemcmp oneDirectory (512 + 257) ustarMagic = true := by decide
  cases reached with
  | here => rfl
  | next _ behind =>
    rw [next] at behind
    cases behind with
    | here magic => exact absurd magic last
    | next magic => exact absurd magic last

/-- `mkdir("R:/a/")` and `change_cd("/a")` stay in their buffers, and so does unpacking a directory. -/
theorem path_buffers_iff_newDrive : ∃ v, DriveRun {} v ∧ ¬ Overruns (mkdirBuffers (.string [82, 58, 47, 97, 47])) v ∧
    ¬ Overruns (changeCdBuffers (.string [47, 97])) v ∧
    ∀ env rounds, ¬ Overruns (unpackUstarBuffers oneDirectory env 82 rounds 0) v := by
  obtain ⟨v, root, run, mounted, currentDir⟩ := newDrive_buffers
  have named : ∀ h, HeaderReached oneDirectory 0 h → ∃ name, cString oneDirectory h 100 = some name := by
    intro h reached
    rw [oneDirectory_reached reached]
    exact ⟨[100, 47], by decide⟩
  have directory : ∀ h, HeaderReached oneDirectory 0 h → oneDirectory (h + 156) = directoryType := by
    intro h reached
    rw [oneDirectory_reached reached]
    decide
  have noNulDir : 0 ∉ v.currentDir := by simp [currentDir]
  have comps : componentsOf v [82, 58, 47, 97, 47] = [[97], []] := by
    unfold componentsOf
    rw [absolutePath_absolute (by decide)]
    decide
  have slashed := fun env => path_buffers_iff {} v (fun _ _ => rfl) (fun _ => rfl) run [82, 58, 47, 97, 47] (by decide)
    noNulDir oneDirectory env 82 0 named
  have fromRoot := path_buffers_iff {} v (fun _ _ => rfl) (fun _ => rfl) run [47, 97] (by decide) noNulDir
    oneDirectory { args := fun _ _ => 0 } 82 0 named
  refine ⟨v, run, ((slashed { args := fun _ _ => 0 }).2.2.1 ?_).mpr ?_,
    fromRoot.2.2.2.1.mpr (by unfold IsRelative; decide), fun env => (slashed env).2.2.2.2.mpr directory⟩
  · rw [comps]
    decide
  · rintro ⟨-, filled, -⟩
    rw [comps] at filled
    exact filled [] (by decide) rfl

/-- An archive of one empty file `a`. -/
def oneFile : Mem := fun x => if x = 0 then 97 else if x < 257 then 0 else ustarMagic.getD (x - 257) 0

/-- On a mounted drive `R` and with an archive of one file, each of the five leaves a buffer. -/
theorem open_leaves_buffer : ∃ v, DriveRun {} v ∧ Overruns (openBuffers (.string [82, 58, 47, 97]) {} 1) v ∧
    Overruns (createDeviceBuffers (.string [82, 58, 47, 97]) {}) v ∧ Overruns (mkdirBuffers (.string [82, 58, 47, 97])) v ∧
    Overruns (changeCdBuffers (.string [97])) v ∧
    ∀ env, Overruns (unpackUstarBuffers oneFile env 82 1 0) v := by
  obtain ⟨v, root, run, mounted, currentDir⟩ := newDrive_buffers
  have drives : Drives 0 v := (Drives.start (fun _ _ => rfl) fun _ => rfl).run run
  have named : cString oneFile 0 100 = some [97] := by decide
  have noNulDir : 0 ∉ v.currentDir := by simp [currentDir]
  have noNul : (0 : UInt8) ∉ ([82, 58, 47, 97] : Name) := by decide
  have absolute : absolutePath v.currentDir [82, 58, 47, 97] = [82, 58, 47, 97] := absolutePath_absolute (by decide)
  have drive : driveOf v [82, 58, 47, 97] = 82 := by
    unfold driveOf
    rw [absolute]
    rfl
  have comps : componentsOf v [82, 58, 47, 97] = [[97]] := by
    unfold componentsOf
    rw [absolute]
    decide
  refine ⟨v, run, ?_, ?_, (mkdirBuffers_overruns drives noNul noNulDir).mpr ?_,
    (changeCdBuffers_overruns (by decide)).mpr (by unfold IsRelative; decide),
    fun env => unpackUstarBuffers_file (by decide) (by decide) named⟩
  · unfold Overruns
    rw [openBuffers_run noNul noNulDir, drive]
    rfl
  · unfold Overruns
    rw [createDeviceBuffers_run noNul noNulDir, drive]
    rfl
  · unfold ReachesLast
    rw [absolute, comps, drive]
    exact ⟨by decide, by decide, root, mounted, .done⟩

end PotatOS.Fs
