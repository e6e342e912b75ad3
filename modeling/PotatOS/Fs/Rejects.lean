import PotatOS.Fs.Drives

/-!
# Paths that `open` cannot resolve

`Route` follows the components through the tree and says how the path ends.
`open` answers null for a name that is missing; after a file or device that is
not the last component, and for a directory that is, it goes on with the null
pointer that `open_dir` and `open_file` gave it.
-/

namespace PotatOS.Fs

open Prog

/-- How a path ends. -/
inductive Outcome where
  /-- At a name that is not there, and that the flags do not allow to make. -/
  | missing
  /-- At a file or device that is not the last component. -/
  | through
  /-- The last component is a directory. -/
  | directory (i : Nat)
  /-- The last component is a directory with a `/` behind it. -/
  | slashed (i : Nat)
  /-- The last component is a file or device. -/
  | leaf (i : Nat)
  deriving DecidableEq, Repr

/-- The outcomes for which `open` has nothing to return. -/
def Outcome.Unresolved : Outcome → Prop
  | .missing | .through | .directory _ => True
  | .slashed _ | .leaf _ => False

/-- The components from the directory `a`, and the tree with what the flags make on the way. -/
inductive Route (flags : OpenFlags) : TempFs → Nat → List Name → Outcome → TempFs → Prop
  | slashed {s : TempFs} {a : Nat} : Route flags s a [[]] (.slashed a) s
  | leaf {s : TempFs} {a i : Nat} {c : Name} (filled : c ≠ []) (child : s.child a c = some i)
    (leaf : (s.inodes i).isDir = false) :
    Route flags s a [c] (.leaf i) s
  | directory {s : TempFs} {a i : Nat} {c : Name} (filled : c ≠ []) (child : s.child a c = some i)
    (isDir : (s.inodes i).isDir = true) : Route flags s a [c] (.directory i) s
  | noFile {s : TempFs} {a : Nat} {c : Name} (filled : c ≠ []) (absent : s.child a c = none)
    (plain : ¬ (flags.creat = true ∨ flags.creatAll = true)) : Route flags s a [c] .missing s
  | newFile {s t : TempFs} {a i : Nat} {c : Name} (filled : c ≠ []) (absent : s.child a c = none)
    (creates : flags.creat = true ∨ flags.creatAll = true) (made : tempfsMkfile a c s = .ok (⟨⟩, t))
    (child : t.child a c = some i) : Route flags s a [c] (.leaf i) t
  | through {s : TempFs} {a b : Nat} {c : Name} {rest : List Name} (more : rest ≠ []) (child : s.child a c = some b)
    (leaf : (s.inodes b).isDir = false) : Route flags s a (c :: rest) .through s
  | noDir {s : TempFs} {a : Nat} {c : Name} {rest : List Name} (more : rest ≠ []) (absent : s.child a c = none)
    (plain : ¬ flags.creatAll = true) : Route flags s a (c :: rest) .missing s
  | enter {s t : TempFs} {a b : Nat} {c : Name} {rest : List Name} {o : Outcome} (more : rest ≠ [])
    (child : s.child a c = some b) (isDir : (s.inodes b).isDir = true) (behind : Route flags s b rest o t) :
    Route flags s a (c :: rest) o t
  | newDir {s t u : TempFs} {a b : Nat} {c : Name} {rest : List Name} {o : Outcome} (more : rest ≠ [])
    (absent : s.child a c = none) (creates : flags.creatAll = true) (made : tempfsMkdir a c s = .ok (⟨⟩, t))
    (child : t.child a c = some b) (behind : Route flags t b rest o u) : Route flags s a (c :: rest) o u

/-- The objects that the walk of `open` applies `find` or `open_dir` to. -/
inductive Applies (flags : OpenFlags) : Vfs → Nat → List Name → Nat → Prop
  | find {v : Vfs} {a : Nat} {c : Name} {rest : List Name} (asks : c ≠ [] ∨ rest ≠ []) : Applies flags v a (c :: rest) a
  | openDir {v w : Vfs} {a b : Nat} {c : Name} {rest : List Name} (more : rest ≠ [])
    (found : findDir .tempFs flags a c v = .ok (some b, w)) : Applies flags v a (c :: rest) b
  | later {v w w' : Vfs} {a b next x : Nat} {c : Name} {rest : List Name} (more : rest ≠ [])
    (found : findDir .tempFs flags a c v = .ok (some b, w))
    (opened : FileSystem.tempFs.call (tempfsOpenDir b) w = .ok (next, w')) (behind : Applies flags w' next rest x) :
    Applies flags v a (c :: rest) x

/-- The drive and the components that `open` takes from a path. -/
def driveOf (v : Vfs) (path : Name) : UInt8 := (absolutePath v.currentDir path).getD 0 0

def componentsOf (v : Vfs) (path : Name) : List Name := ((absolutePath v.currentDir path).drop 3).splitOn slash

def LeadsTo (v : Vfs) (path : Name) (flags : OpenFlags) (o : Outcome) (t : TempFs) : Prop :=
  ∃ root, Mounted v (driveOf v path) root ∧ Route flags v.tempFs root (componentsOf v path) o t

/-- The names that the flags let `open` make end before `length`, and no name is too long for the `int`s of
`ku_strcmp`. -/
structure NamesFit (flags : OpenFlags) (comps : List Name) : Prop where
  lengths : ∀ c ∈ comps, c.length < 2 ^ 31
  creatAll : flags.creatAll = true → ∀ c ∈ comps, c.length ≤ nameRoom
  creat : flags.creat = true → (comps.getLastD []).length ≤ nameRoom

/-- `open` of the path never applies `find` or `open_dir` to null, answers null for what it cannot resolve, with the
tree unchanged when no flag is set, and else gives a `File` whose inode is `good`. -/
structure Rejects (good : TempFs → Nat → Prop) (v : Vfs) (path : Name) (flags : OpenFlags) (mode : UInt8) : Prop where
  nonnull : ∀ root, Mounted v (driveOf v path) root → root ≠ 0 ∧ ¬ Applies flags v root (componentsOf v path) 0
  rejects : ∀ o t, LeadsTo v path flags o t → o.Unresolved →
    ∃ w, vfsOpen path flags mode v = .ok (none, w) ∧ (flags = {} → w = v)
  opens : ∀ f w, vfsOpen path flags mode v = .ok (some f, w) → good w.tempFs f.privateData

/-- The inode is there. -/
def NonNull (_ : TempFs) (i : Nat) : Prop := i ≠ 0

/-- `read`, `write`, `file_length` and `close` can use the inode: `read` and `write` would take the entries of a
directory for file nodes. -/
def Usable (s : TempFs) (i : Nat) : Prop := i ≠ 0 ∧ (s.inodes i).isDir = false

variable {flags : OpenFlags} {s t u : TempFs} {v w : Vfs} {a b base i : Nat} {c : Name} {comps rest : List Name}
  {o : Outcome} {mode : UInt8}

/-! ### Directories a walk stands in -/

structure Stands (base : Nat) (s : TempFs) (a : Nat) : Prop where
  shape : ∃ home, Shape s base home
  plain : PlainDirs base s
  known : Known base s a
  isDir : (s.inodes a).isDir = true

namespace Stands

theorem nonnull (stands : Stands base s a) : a ≠ 0 := Nat.ne_of_gt (Nat.zero_lt_of_lt stands.known.1)

theorem find_missing (stands : Stands base s a) (absent : s.child a c = none) : tempfsFind a c s = .ok (0, s) := by
  obtain ⟨home, shape⟩ := stands.shape
  obtain ⟨chain, entries⟩ := shape.chains a stands.known.1 stands.isDir
  have find : tempfsFind a c s = _ := tempfsFind_run stands.nonnull entries.linked entries.nonempty
    (fun e inside => (entries.old e inside).1) fun e inside => Nat.ne_of_gt (Nat.zero_lt_of_lt (entries.leads e inside).1)
  generalize ((chain.find? fun e => s.entryName e = c).map s.entryInode).getD 0 = b at find
  rw [child_of_find find] at absent
  by_cases null : b = 0
  · rw [find, null]
  · rw [if_neg null] at absent
    cases absent

theorem child (stands : Stands base s a) (child : s.child a c = some b) (isDir : (s.inodes b).isDir = true) :
    Stands base s b := by
  obtain ⟨home, shape⟩ := stands.shape
  exact ⟨⟨home, shape⟩, stands.plain, (shape.child_cases stands.known.1 stands.isDir child).1, isDir⟩

theorem make (stands : Stands base s a) {maker : Maker} (absent : s.child a c = none)
    (run : maker.call a c s = .ok (⟨⟩, t)) : t.child a c = some (s.used + 1) ∧
      (t.inodes (s.used + 1)).isDir = maker.makesDir ∧ Stands base t a := by
  obtain ⟨home, shape⟩ := stands.shape
  obtain ⟨found, makes⟩ := shape.make_found stands.known.1 stands.isDir absent run
  obtain ⟨home', _, _, _, _, spliced⟩ := shape.make stands.known.1 stands.isDir absent run
  have plain : PlainDirs base t := by
    intro a above isDir device
    obtain ⟨isDir, device⟩ := makes.plain a isDir device
    exact stands.plain a above isDir device
  exact ⟨found, makes.isDir, ⟨home', spliced.shape⟩, plain, ⟨stands.known.1, stands.known.2.trans spliced.used⟩,
    (spliced.inodes a stands.known.2).2.1.trans stands.isDir⟩

end Stands

/-! ### One round -/

/-- `findDir` and `findFile`. -/
def findOrMake (maker : Maker) (makes : Prop) [Decidable makes] (a : Nat) (c : Name) : VfsM (Option Nat) := do
  let found ← FileSystem.tempFs.call (tempfsFind a c)
  if found = 0 then
    if makes then
      FileSystem.tempFs.call (maker.call a c)
      return some (← FileSystem.tempFs.call (tempfsFind a c))
    else return none
  else return some found

theorem findDir_eq : findDir .tempFs flags a c = findOrMake .dir (flags.creatAll = true) a c := rfl

theorem findFile_eq : findFile .tempFs flags a c = findOrMake .file (flags.creat = true ∨ flags.creatAll = true) a c := rfl

variable {maker : Maker} {makes : Prop} [Decidable makes]

theorem findOrMake_found (child : v.tempFs.child a c = some b) : findOrMake maker makes a c v = .ok (some b, v) := by
  obtain ⟨find, nonnull⟩ := find_of_child child
  unfold findOrMake
  rw [bind_eq (FileSystem.call_run find), if_neg nonnull]
  rfl

theorem findOrMake_absent (stands : Stands base v.tempFs a) (absent : v.tempFs.child a c = none) (plain : ¬ makes) :
    findOrMake maker makes a c v = .ok (none, v) := by
  unfold findOrMake
  rw [bind_eq (FileSystem.call_run (stands.find_missing absent)), if_pos rfl, if_neg plain]
  rfl

theorem findOrMake_made (stands : Stands base v.tempFs a) (absent : v.tempFs.child a c = none) (creates : makes)
    (made : maker.call a c v.tempFs = .ok (⟨⟩, t)) (child : t.child a c = some b) :
    findOrMake maker makes a c v = .ok (some b, { v with tempFs := t }) := by
  obtain ⟨find, -⟩ := find_of_child child
  unfold findOrMake
  rw [bind_eq (FileSystem.call_run (stands.find_missing absent)), if_pos rfl, if_pos creates,
    bind_eq (FileSystem.call_run made), bind_eq (FileSystem.call_run find)]
  rfl

/-- What a round that returns found or made. -/
theorem findOrMake_ok {r : Option Nat} (stands : Stands base v.tempFs a) (run : findOrMake maker makes a c v = .ok (r, w)) :
    (∃ b, v.tempFs.child a c = some b ∧ r = some b ∧ w = v) ∨
    (v.tempFs.child a c = none ∧ ¬ makes ∧ r = none ∧ w = v) ∨
    (v.tempFs.child a c = none ∧ makes ∧ ∃ t b, maker.call a c v.tempFs = .ok (⟨⟩, t) ∧ t.child a c = some b ∧
      r = some b ∧ w = { v with tempFs := t }) := by
  cases child : v.tempFs.child a c with
  | some b =>
    rw [findOrMake_found child] at run
    obtain ⟨rfl, rfl⟩ := Prod.mk.inj (Except.ok.inj run)
    exact .inl ⟨b, rfl, rfl, rfl⟩
  | none =>
    by_cases creates : makes
    · have found := run
      unfold findOrMake at run
      rw [bind_eq (FileSystem.call_run (stands.find_missing child)), if_pos rfl, if_pos creates] at run
      obtain ⟨_, x, called, -⟩ := bind_ok run
      obtain ⟨t, made, rfl⟩ := call_ok called
      obtain ⟨child', -⟩ := stands.make child made
      rw [findOrMake_made stands child creates made child'] at found
      obtain ⟨rfl, rfl⟩ := Prod.mk.inj (Except.ok.inj found)
      exact .inr (.inr ⟨rfl, creates, t, _, made, child', rfl, rfl⟩)
    · rw [findOrMake_absent stands child creates] at run
      obtain ⟨rfl, rfl⟩ := Prod.mk.inj (Except.ok.inj run)
      exact .inr (.inl ⟨rfl, creates, rfl, rfl⟩)

theorem openDir_leaf (nonnull : b ≠ 0) (isDir : (v.tempFs.inodes b).isDir = false) :
    FileSystem.tempFs.call (tempfsOpenDir b) v = .ok (0, v) := by
  apply FileSystem.call_run
  unfold tempfsOpenDir
  rw [bind_eq (inode_run nonnull), isDir]
  rfl

theorem openDir_dir (nonnull : b ≠ 0) (isDir : (v.tempFs.inodes b).isDir = true) :
    FileSystem.tempFs.call (tempfsOpenDir b) v = .ok (b, v) :=
  FileSystem.call_run (tempfsOpenDir_run nonnull isDir)

/-! ### Whole routes -/

/-- What the walk answers at the end of a route. -/
def Answers (mode : UInt8) (name : Name) (v : Vfs) (answer : Except Stop (Option (Nat × Name) × Vfs)) : Outcome → Prop
  | .missing => answer = .ok (none, v)
  | .through => answer = .ok (some (0, []), v) ∨ answer = .error .fault
  | .directory _ => answer = .ok (some (0, name), v)
  | .slashed i => answer = .ok (some (i, []), v)
  | .leaf i => answer = (do return some (← FileSystem.tempFs.call (tempfsOpenFile i mode), name) : VfsM _) v

theorem openSteps_null (nonempty : comps ≠ []) : openSteps .tempFs flags mode comps 0 v =
    if comps = [[]] then .ok (some (0, []), v) else .error .fault := by
  obtain ⟨c, rest, rfl⟩ := List.exists_cons_of_ne_nil nonempty
  cases rest with
  | nil =>
    by_cases empty : c = []
    · subst empty
      rfl
    · rw [openSteps, if_neg empty, if_neg (by simpa using empty)]
      rfl
  | cons next rest =>
    rw [if_neg (by simp)]
    rfl

theorem getLastD_cons (more : rest ≠ []) : (c :: rest).getLastD [] = rest.getLastD [] := by
  obtain ⟨next, rest, rfl⟩ := List.exists_cons_of_ne_nil more
  simp

theorem openFile_directory (nonnull : i ≠ 0) (isDir : (v.tempFs.inodes i).isDir = true)
    (plain : (v.tempFs.inodes i).type ≠ filetypeDevice) :
    FileSystem.tempFs.call (tempfsOpenFile i mode) v = .ok (0, v) := by
  apply FileSystem.call_run
  unfold tempfsOpenFile
  rw [bind_eq (inode_run nonnull), if_neg plain, if_pos isDir]
  rfl

theorem tempfsOpenFile_leaf (leaf : (s.inodes i).isDir = false) (run : tempfsOpenFile i mode s = .ok (b, t)) : b = i := by
  unfold tempfsOpenFile at run
  by_cases null : i = 0
  · subst null
    cases run
  rw [bind_eq (inode_run null)] at run
  by_cases device : (s.inodes i).type = filetypeDevice
  · rw [if_pos device] at run
    cases opens : (s.inodes i).operations.openOp with
    | none =>
      rw [opens] at run
      cases run
    | some opens' =>
      rw [opens] at run
      dsimp only at run
      cases answer : opens' mode with
      | false =>
        rw [answer] at run
        exact (pure_ok run).1.symm
      | true =>
        rw [answer] at run
        exact (Prod.mk.inj (Except.ok.inj run)).1.symm
  · rw [if_neg device, leaf] at run
    exact (pure_ok run).1.symm

theorem Route.answers (route : Route flags s a comps o t) (same : v.tempFs = s) (stands : Stands base s a) :
    Answers mode (comps.getLastD []) { v with tempFs := t } (openSteps .tempFs flags mode comps a v) o := by
  induction route generalizing v with
  | slashed =>
    subst same
    rfl
  | leaf filled child leaf =>
    subst same
    rw [openSteps, if_neg filled, findFile_eq]
    exact bind_eq (findOrMake_found child)
  | directory filled child isDir =>
    subst same
    have next := stands.child child isDir
    have null : FileSystem.tempFs.call (tempfsOpenFile _ mode) v = _ :=
      openFile_directory next.nonnull isDir (stands.plain _ next.known.1 isDir)
    rw [openSteps, if_neg filled, findFile_eq, bind_eq (findOrMake_found child)]
    exact bind_eq null
  | noFile filled absent plain =>
    subst same
    rw [openSteps, if_neg filled, findFile_eq]
    exact bind_eq (findOrMake_absent stands absent plain)
  | newFile filled absent creates made child =>
    subst same
    have made' : Maker.file.call _ _ v.tempFs = _ := made
    rw [openSteps, if_neg filled, findFile_eq]
    exact bind_eq (findOrMake_made stands absent creates made' child)
  | through more child leaf =>
    subst same
    obtain ⟨find, nonnull⟩ := find_of_child child
    rw [openSteps_leave find nonnull (by simp [leaf]) more, openSteps_null more]
    split
    · exact .inl rfl
    · exact .inr rfl
  | noDir more absent plain =>
    subst same
    rw [openSteps_cons more, findDir_eq]
    exact bind_eq (findOrMake_absent stands absent plain)
  | enter more child isDir behind ih =>
    subst same
    obtain ⟨find, nonnull⟩ := find_of_child child
    rw [openSteps_enter find nonnull isDir more, getLastD_cons more]
    exact ih rfl (stands.child child isDir)
  | newDir more absent creates made child behind ih =>
    subst same
    have made' : Maker.dir.call _ _ v.tempFs = _ := made
    obtain ⟨found, isDir, stands'⟩ := stands.make absent made'
    obtain rfl := Option.some.inj (found.symm.trans child)
    have next := stands'.child found isDir
    rw [openSteps_cons more, findDir_eq, bind_eq (findOrMake_made stands absent creates made' found), getLastD_cons more]
    dsimp only
    rw [bind_eq (openDir_dir next.nonnull isDir)]
    exact ih rfl next

/-- A walk that returns has followed a route. -/
theorem route_of_ok {r : Option (Nat × Name)} (nonempty : comps ≠ []) (stands : Stands base v.tempFs a)
    (run : openSteps .tempFs flags mode comps a v = .ok (r, w)) : ∃ o t, Route flags v.tempFs a comps o t := by
  induction comps generalizing a v with
  | nil => exact absurd rfl nonempty
  | cons c rest ih =>
    by_cases more : rest = []
    · subst more
      by_cases empty : c = []
      · subst empty
        exact ⟨_, _, .slashed⟩
      rw [openSteps, if_neg empty, findFile_eq] at run
      obtain ⟨_, x, found, -⟩ := bind_ok run
      rcases findOrMake_ok stands found with ⟨b, child, -⟩ | ⟨absent, plain, -⟩ | ⟨absent, creates, t, b, made, child, -⟩
      · cases kind : (v.tempFs.inodes b).isDir with
        | false => exact ⟨_, _, .leaf empty child kind⟩
        | true => exact ⟨_, _, .directory empty child kind⟩
      · exact ⟨_, _, .noFile empty absent plain⟩
      · exact ⟨_, _, .newFile empty absent creates made child⟩
    · rw [openSteps_cons more, findDir_eq] at run
      obtain ⟨_, x, found, onward⟩ := bind_ok run
      rcases findOrMake_ok stands found with
        ⟨b, child, rfl, rfl⟩ | ⟨absent, plain, -⟩ | ⟨absent, creates, t, b, made, child, rfl, rfl⟩
      · cases kind : (x.tempFs.inodes b).isDir with
        | false => exact ⟨_, _, .through more child kind⟩
        | true =>
          have next := stands.child child kind
          dsimp only at onward
          rw [bind_eq (openDir_dir next.nonnull kind)] at onward
          obtain ⟨o, t, route⟩ := ih more next onward
          exact ⟨o, t, .enter more child kind route⟩
      · exact ⟨_, _, .noDir more absent plain⟩
      · obtain ⟨found', isDir, stands'⟩ := stands.make absent made
        obtain rfl := Option.some.inj (found'.symm.trans child)
        have next := stands'.child found' isDir
        dsimp only at onward
        rw [bind_eq (openDir_dir next.nonnull isDir)] at onward
        obtain ⟨o, u, route⟩ := ih more next onward
        exact ⟨o, u, .newDir more absent creates made child route⟩

theorem Applies.nonnull {x : Nat} (applies : Applies flags v a comps x) (stands : Stands base v.tempFs a)
    (none : ∀ t, ¬ Route flags v.tempFs a comps .through t) : x ≠ 0 := by
  induction applies with
  | find asks => exact stands.nonnull
  | openDir more found =>
    rw [findDir_eq] at found
    rcases findOrMake_ok stands found with ⟨b, child, same, -⟩ | ⟨-, -, impossible, -⟩ | ⟨-, -, t, b, -, child, same, -⟩
    · obtain rfl := Option.some.inj same
      exact (find_of_child child).2
    · cases impossible
    · obtain rfl := Option.some.inj same
      exact (find_of_child child).2
  | @later v w w' a b next x c rest more found opened behind ih =>
    rw [findDir_eq] at found
    rcases findOrMake_ok stands found with
      ⟨b, child, same, rfl⟩ | ⟨-, -, impossible, -⟩ | ⟨absent, creates, t, b, made, child, same, rfl⟩
    · obtain rfl := Option.some.inj same
      cases kind : (w.tempFs.inodes b).isDir with
      | false => exact absurd (.through more child kind) (none _)
      | true =>
        have there := stands.child child kind
        rw [openDir_dir there.nonnull kind] at opened
        obtain ⟨rfl, rfl⟩ := Prod.mk.inj (Except.ok.inj opened)
        exact ih there fun t route => none t (.enter more child kind route)
    · cases impossible
    · obtain rfl := Option.some.inj same
      obtain ⟨found', isDir, stands'⟩ := stands.make absent made
      obtain rfl := Option.some.inj (found'.symm.trans child)
      have there := stands'.child found' isDir
      rw [openDir_dir there.nonnull isDir] at opened
      obtain ⟨rfl, rfl⟩ := Prod.mk.inj (Except.ok.inj opened)
      exact ih there fun u route => none u (.newDir more absent creates made child route)

theorem Route.same (route : Route {} s a comps o t) : t = s := by
  induction route with
  | newFile _ _ creates => simp at creates
  | newDir _ _ creates => cases creates
  | enter _ _ _ _ ih => exact ih
  | _ => rfl

theorem Route.kind (route : Route flags s a comps o t) (stands : Stands base s a) :
    (∀ i, o = .slashed i → Stands base t i) ∧ ∀ i, o = .leaf i → i ≠ 0 ∧ (t.inodes i).isDir = false := by
  induction route with
  | slashed =>
    refine ⟨fun i same => ?_, nofun⟩
    cases same
    exact stands
  | leaf filled child leaf =>
    refine ⟨nofun, fun i same => ?_⟩
    cases same
    exact ⟨(find_of_child child).2, leaf⟩
  | newFile filled absent creates made child =>
    refine ⟨nofun, fun i same => ?_⟩
    cases same
    have made' : Maker.file.call _ _ _ = _ := made
    obtain ⟨found, isDir, -⟩ := stands.make absent made'
    obtain rfl := Option.some.inj (found.symm.trans child)
    exact ⟨Nat.succ_ne_zero _, isDir⟩
  | enter more child isDir behind ih => exact ih (stands.child child isDir)
  | newDir more absent creates made child behind ih =>
    have made' : Maker.dir.call _ _ _ = _ := made
    obtain ⟨found, isDir, stands'⟩ := stands.make absent made'
    obtain rfl := Option.some.inj (found.symm.trans child)
    exact ih (stands'.child found isDir)
  | _ => exact ⟨nofun, nofun⟩

/-! ### What `open` answers -/

section opens

variable {path : Name} {root : Nat} (mounted : Mounted v (driveOf v path) root) (stands : Stands base v.tempFs root)
include mounted stands

theorem vfsOpen_steps : vfsOpen path flags mode v = (do
    match ← openSteps .tempFs flags mode (componentsOf v path) root with
    | none => return none
    | some (reached, newPath) => return some (File.mk mode (driveOf v path) reached (checkFileType newPath))) v :=
  vfsOpen_path mounted stands.nonnull stands.isDir

theorem vfsOpen_route {f : File} (opened : vfsOpen path flags mode v = .ok (some f, w)) :
    ∃ o t, Route flags v.tempFs root (componentsOf v path) o t := by
  rw [vfsOpen_steps mounted stands] at opened
  obtain ⟨_, _, steps, -⟩ := bind_ok opened
  exact route_of_ok (List.splitOn_ne_nil slash _) stands steps

variable (route : Route flags v.tempFs root (componentsOf v path) o t)
include route

theorem vfsOpen_missing (missing : o = .missing) : vfsOpen path flags mode v = .ok (none, { v with tempFs := t }) := by
  subst missing
  have steps : openSteps .tempFs flags mode _ root v = .ok (none, _) := route.answers rfl stands
  rw [vfsOpen_steps mounted stands]
  exact bind_eq steps

theorem vfsOpen_none (none : vfsOpen path flags mode v = .ok (none, w)) : o = .missing := by
  have answers : Answers mode _ _ _ o := route.answers rfl stands
  rw [vfsOpen_steps mounted stands] at none
  obtain ⟨r, x, steps, none⟩ := bind_ok none
  obtain rfl : r = Option.none := by
    cases r with
    | none => rfl
    | some reached => cases none
  rw [steps] at answers
  cases o with
  | missing => rfl
  | through => rcases answers with impossible | impossible <;> cases impossible
  | directory i => cases answers
  | slashed i => cases answers
  | leaf i =>
    obtain ⟨_, _, -, impossible⟩ := bind_ok answers.symm
    cases impossible

theorem vfsOpen_some {f : File} (opened : vfsOpen path flags mode v = .ok (some f, w)) :
    o ≠ .missing ∧ (∀ i, o = .slashed i ∨ o = .leaf i → f.privateData = i) ∧
      ∀ a, (w.tempFs.inodes a).isDir = (t.inodes a).isDir := by
  have answers : Answers mode _ _ _ o := route.answers rfl stands
  rw [vfsOpen_steps mounted stands] at opened
  obtain ⟨r, x, steps, opened⟩ := bind_ok opened
  rw [steps] at answers
  cases r with
  | none => cases opened
  | some pair =>
    obtain ⟨reached, name⟩ := pair
    obtain ⟨same, rfl⟩ := pure_ok opened
    obtain rfl := Option.some.inj same
    cases o with
    | missing => cases answers
    | through =>
      rcases answers with same | impossible
      · obtain ⟨-, rfl⟩ := Prod.mk.inj (Except.ok.inj same)
        exact ⟨by simp, by simp, fun _ => rfl⟩
      · cases impossible
    | directory i =>
      obtain ⟨-, rfl⟩ := Prod.mk.inj (Except.ok.inj answers)
      exact ⟨by simp, by simp, fun _ => rfl⟩
    | slashed i =>
      obtain ⟨same, rfl⟩ := Prod.mk.inj (Except.ok.inj answers)
      obtain ⟨rfl, -⟩ := Prod.mk.inj (Option.some.inj same)
      exact ⟨by simp, by simp, fun _ => rfl⟩
    | leaf i =>
      obtain ⟨b, y, call, given⟩ := bind_ok answers.symm
      obtain ⟨same, rfl⟩ := pure_ok given
      obtain ⟨rfl, -⟩ := Prod.mk.inj (Option.some.inj same)
      obtain ⟨u, opens, rfl⟩ := call_ok call
      have leaf := (route.kind stands).2 i rfl
      have given := tempfsOpenFile_leaf leaf.2 opens
      exact ⟨by simp, by simpa using given, fun a => (tempfsOpenFile_ok opens).sameTree.kinds a⟩

end opens

/-! ### When it rejects -/

variable {good : TempFs → Nat → Prop} {path : Name}

theorem Drives.stands {root : Nat} {letter : UInt8} (drives : Drives base v) (mounted : Mounted v letter root) :
    Stands base v.tempFs root := by
  rcases drives.each (driveNum letter) with empty | ⟨root', drive, sound⟩
  · rw [mounted.drive] at empty
    cases empty
  · rw [mounted.drive] at drive
    cases drive
    exact ⟨sound.shape, drives.plain, sound.known, sound.isDir⟩

/-- A letter without a drive gives null and leads nowhere. -/
theorem Drives.rejects_absent (absent : Absent v (driveOf v path)) :
    Rejects good v path flags mode ∧ ∀ o t, ¬ LeadsTo v path flags o t := by
  have none : ∀ root, ¬ Mounted v (driveOf v path) root := by
    intro root mounted
    rcases absent with noLetter | empty
    · rw [mounted.isLetter] at noLetter
      cases noLetter
    · rw [mounted.drive] at empty
      cases empty
  have answer : vfsOpen path flags mode v = .ok (Option.none, v) := vfsOpen_absent absent
  refine ⟨⟨fun root mounted => (none root mounted).elim, fun o t leads => ?_, fun f w opened => ?_⟩, fun o t leads => ?_⟩
  · exact (none _ leads.choose_spec.1).elim
  · rw [answer] at opened
    cases opened
  · exact none _ leads.choose_spec.1

/-- The condition for inodes that are `good` whenever they are files or devices. -/
theorem Drives.rejects_iff (drives : Drives base v) (leaves : ∀ s i, Usable s i → good s i)
    (kinds : ∀ s t i, (∀ a, (t.inodes a).isDir = (s.inodes a).isDir) → (good t i ↔ good s i)) :
    Rejects good v path flags mode ↔ ∀ o t, LeadsTo v path flags o t →
      o ≠ .through ∧ ∀ i, o ≠ .directory i ∧ (o = .slashed i → good t i) := by
  rcases drives.cases (driveOf v path) with absent | ⟨root, mounted, -⟩
  · obtain ⟨rejects, leads⟩ : Rejects good v path flags mode ∧ _ := Drives.rejects_absent absent
    exact ⟨fun _ o t leads' => (leads o t leads').elim, fun _ => rejects⟩
  have stands := drives.stands mounted
  have only : ∀ root', Mounted v (driveOf v path) root' → root' = root := by
    intro root' mounted'
    have same := mounted'.drive
    rw [mounted.drive] at same
    cases same
    rfl
  constructor
  · rintro ⟨-, rejects, opens⟩ o t ⟨root', mounted', route⟩
    obtain rfl := only root' mounted'
    have resolved : ∀ o', o = o' → o'.Unresolved → o = .missing := by
      rintro _ rfl unresolved
      obtain ⟨w, none, -⟩ := rejects o t ⟨_, mounted, route⟩ unresolved
      exact vfsOpen_none mounted stands route none
    refine ⟨fun same => ?_, fun i => ⟨fun same => ?_, fun same => ?_⟩⟩
    · have missing := resolved _ same trivial
      rw [same] at missing
      cases missing
    · have missing := resolved _ same trivial
      rw [same] at missing
      cases missing
    · subst same
      have steps : openSteps .tempFs flags mode _ root' v = .ok (some (i, []), { v with tempFs := t }) :=
        route.answers rfl stands
      have opened : vfsOpen path flags mode v =
          .ok (some ⟨mode, driveOf v path, i, checkFileType []⟩, { v with tempFs := t }) := by
        rw [vfsOpen_steps mounted stands]
        exact bind_eq steps
      exact opens _ _ opened
  · intro ends
    refine ⟨fun root' mounted' => ?_, fun o t leads unresolved => ?_, fun f w opened => ?_⟩
    · obtain rfl := only root' mounted'
      exact ⟨stands.nonnull, fun applies => applies.nonnull stands
        (fun t route => (ends _ t ⟨_, mounted, route⟩).1 rfl) rfl⟩
    · obtain ⟨root', mounted', route⟩ := leads
      obtain rfl := only root' mounted'
      have missing : o = .missing := by
        obtain ⟨notThrough, others⟩ := ends o t ⟨_, mounted, route⟩
        cases o with
        | missing => rfl
        | through => exact absurd rfl notThrough
        | directory i => exact absurd rfl (others i).1
        | slashed i => exact unresolved.elim
        | leaf i => exact unresolved.elim
      refine ⟨_, vfsOpen_missing mounted stands route missing, fun plain => ?_⟩
      subst plain
      rw [route.same]
    · obtain ⟨o, t, route⟩ := vfsOpen_route mounted stands opened
      obtain ⟨notThrough, others⟩ := ends o t ⟨_, mounted, route⟩
      obtain ⟨notMissing, inode, same⟩ := vfsOpen_some mounted stands route opened
      rw [kinds t w.tempFs _ same]
      cases o with
      | missing => exact absurd rfl notMissing
      | through => exact absurd rfl notThrough
      | directory i => exact absurd rfl (others i).1
      | slashed i =>
        rw [inode i (.inl rfl)]
        exact (others i).2 rfl
      | leaf i =>
        rw [inode i (.inr rfl)]
        exact leaves t i ((route.kind stands).2 i rfl)

theorem Drives.rejects_nonNull_iff (drives : Drives base v) : Rejects NonNull v path flags mode ↔
    ∀ o t, LeadsTo v path flags o t → o ≠ .through ∧ ∀ i, o ≠ .directory i := by
  refine (drives.rejects_iff (fun s i usable => usable.1) fun s t i same => Iff.rfl).trans ?_
  refine forall₃_congr fun o t leads => and_congr_right fun _ => forall_congr' fun i => and_iff_left ?_
  rintro rfl
  obtain ⟨root, mounted, route⟩ := leads
  exact ((route.kind (drives.stands mounted)).1 i rfl).nonnull

theorem Drives.rejects_usable_iff (drives : Drives base v) : Rejects Usable v path flags mode ↔
    ∀ o t, LeadsTo v path flags o t → o = .missing ∨ ∃ i, o = .leaf i := by
  refine (drives.rejects_iff (fun s i usable => usable) fun s t i same => by unfold Usable; rw [same]).trans ?_
  refine forall₃_congr fun o t leads => ?_
  obtain ⟨root, mounted, route⟩ := leads
  have isDir := (route.kind (drives.stands mounted)).1
  cases o with
  | missing => simp
  | through => simp
  | directory i => simp
  | slashed i => simp [Usable, (isDir i rfl).isDir]
  | leaf i => simp

/-- In every state that calls reach from empty drives, `open` rejects what it cannot resolve exactly where the path leads
neither through a file or device nor to a directory, or for a usable `File` not into a directory either. -/
theorem open_rejects_iff (start v : Vfs) (unused : ∀ a, start.tempFs.used < a → start.tempFs.inodes a = {})
    (empty : ∀ n, start.drives n = {}) (run : DriveRun start v) (path : Name) (flags : OpenFlags) (mode : UInt8)
    (_fits : NamesFit flags (componentsOf v path)) :
    (Rejects NonNull v path flags mode ↔ ∀ o t, LeadsTo v path flags o t → o ≠ .through ∧ ∀ i, o ≠ .directory i) ∧
    (Rejects Usable v path flags mode ↔ ∀ o t, LeadsTo v path flags o t → o = .missing ∨ ∃ i, o = .leaf i) :=
  ⟨((Drives.start unused empty).run run).rejects_nonNull_iff, ((Drives.start unused empty).run run).rejects_usable_iff⟩

/-- Drive `R` with the file `d/f`. -/
def withNested : VfsM Unit := do
  let _ ← mountNew 82
  Creation.run 82 (.openFile [100, 47, 102] oCreatAll 3)

theorem withNested_run : ∃ v root b i, withNested {} = .ok ((), v) ∧ DriveRun {} v ∧ Mounted v 82 root ∧
    v.tempFs.child root [100] = some b ∧ (v.tempFs.inodes b).isDir = true ∧
    v.tempFs.child b [102] = some i ∧ (v.tempFs.inodes i).isDir = false := by
  have check : returns withNested {} (fun _ v => decide ((v.drives (driveNum 82)).present = true ∧
      (v.drives (driveNum 82)).fs = .tempFs ∧ ∃ b ∈ v.tempFs.child (v.drives (driveNum 82)).memOffset [100],
        (v.tempFs.inodes b).isDir = true ∧ ∃ i ∈ v.tempFs.child b [102], (v.tempFs.inodes i).isDir = false)) = true := by
    decide +kernel
  obtain ⟨⟨⟩, v, run, check⟩ := returns_iff.mp check
  obtain ⟨present, fs, b, child, isDir, i, child', leaf⟩ := of_decide_eq_true check
  obtain ⟨status, x, mounts, creates⟩ := bind_ok run
  refine ⟨v, _, b, i, run, ?_, ⟨by decide, ?_⟩, child, isDir, child', leaf⟩
  · exact .tail (.single (.mount 82 status mounts)) (.create 82 _ (by decide) creates)
  · rw [← present, ← fs]

theorem open_rejects_iff_nested : ∃ v, DriveRun {} v ∧ Rejects NonNull v [82, 58, 47, 100, 47, 102] {} 1 ∧
    Rejects Usable v [82, 58, 47, 100, 47, 102] {} 1 := by
  obtain ⟨v, root, b, i, -, run, mounted, child, isDir, child', leaf⟩ := withNested_run
  have ends : ∀ o t, LeadsTo v [82, 58, 47, 100, 47, 102] {} o t → o = .leaf i := by
    rintro o t ⟨root', mounted', route⟩
    have letter : driveOf v [82, 58, 47, 100, 47, 102] = 82 := rfl
    have comps : componentsOf v [82, 58, 47, 100, 47, 102] = [[100], [102]] := by
      change List.splitOn slash [100, 47, 102] = _
      decide
    rw [letter] at mounted'
    have same := mounted'.drive
    rw [mounted.drive] at same
    cases same
    rw [comps] at route
    cases route with
    | through _ found kind =>
      rw [child] at found
      cases found
      rw [isDir] at kind
      cases kind
    | noDir _ absent =>
      rw [child] at absent
      cases absent
    | newDir _ _ creates => cases creates
    | enter _ found _ behind =>
      rw [child] at found
      cases found
      cases behind with
      | leaf _ found =>
        rw [child'] at found
        cases found
        rfl
      | directory _ found kind =>
        rw [child'] at found
        cases found
        rw [leaf] at kind
        cases kind
      | noFile _ absent =>
        rw [child'] at absent
        cases absent
      | newFile _ _ creates => simp at creates
      | through more => exact absurd rfl more
      | noDir more => exact absurd rfl more
      | enter more => exact absurd rfl more
      | newDir more => exact absurd rfl more
  have fits : NamesFit {} (componentsOf v [82, 58, 47, 100, 47, 102]) := by
    change NamesFit {} (List.splitOn slash [100, 47, 102])
    exact ⟨by decide, nofun, nofun⟩
  have rejects := open_rejects_iff {} v (fun _ _ => rfl) (fun _ => rfl) run [82, 58, 47, 100, 47, 102] {} 1 fits
  refine ⟨v, run, rejects.1.mpr fun o t leads => ?_, rejects.2.mpr fun o t leads => .inr ⟨i, ends o t leads⟩⟩
  rw [ends o t leads]
  exact ⟨nofun, nofun⟩

/-- `R:/d` gives a `File` without an inode, `R:/d/` one with the directory's, and `R:/d/f/x` takes the walk to null. -/
theorem open_accepts_directory : ∃ v, DriveRun {} v ∧ ¬ Rejects NonNull v [82, 58, 47, 100] {} 1 ∧
    ¬ Rejects NonNull v [82, 58, 47, 100, 47, 102, 47, 120] {} 1 ∧ ¬ Rejects Usable v [82, 58, 47, 100, 47] {} 1 := by
  obtain ⟨v, root, b, i, -, run, mounted, child, isDir, child', leaf⟩ := withNested_run
  have drives : Drives 0 v := (Drives.start (fun _ _ => rfl) fun _ => rfl).run run
  refine ⟨v, run, fun rejects => ?_, fun rejects => ?_, fun rejects => ?_⟩
  · have leads : LeadsTo v [82, 58, 47, 100] {} (.directory b) v.tempFs := by
      refine ⟨root, mounted, ?_⟩
      have comps : componentsOf v [82, 58, 47, 100] = [[100]] := by
        change List.splitOn slash [100] = _
        decide
      rw [comps]
      exact .directory (by decide) child isDir
    exact (drives.rejects_nonNull_iff.mp rejects _ _ leads).2 b rfl
  · have leads : LeadsTo v [82, 58, 47, 100, 47, 102, 47, 120] {} .through v.tempFs := by
      refine ⟨root, mounted, ?_⟩
      have comps : componentsOf v [82, 58, 47, 100, 47, 102, 47, 120] = [[100], [102], [120]] := by
        change List.splitOn slash [100, 47, 102, 47, 120] = _
        decide
      rw [comps]
      exact .enter (by decide) child isDir (.through (by decide) child' leaf)
    exact (drives.rejects_nonNull_iff.mp rejects _ _ leads).1 rfl
  · have leads : LeadsTo v [82, 58, 47, 100, 47] {} (.slashed b) v.tempFs := by
      refine ⟨root, mounted, ?_⟩
      have comps : componentsOf v [82, 58, 47, 100, 47] = [[100], []] := by
        change List.splitOn slash [100, 47] = _
        decide
      rw [comps]
      exact .enter (by decide) child isDir .slashed
    rcases drives.rejects_usable_iff.mp rejects _ _ leads with impossible | ⟨i, impossible⟩
    · cases impossible
    · cases impossible

end PotatOS.Fs
