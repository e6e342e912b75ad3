import PotatOS.Fs.Names
import Mathlib.Data.List.TakeWhile

/-!
# Walks, component by component

`openSteps` and `deviceSteps` take the components of a path one by one; the
loops over its bytes are these. `Kept` collects what the calls of a walk keep of
a directory tree, and every creation on a drive then keeps it.
-/

namespace PotatOS.Fs

open Prog

/-! ### Components -/

variable {path c : Name} {comps : List Name}

theorem splitOn_cases (path : Name) :
    isDirComponent path = false ∧ firstComponent path = path ∧ path.splitOn slash = [path] ∨
      isDirComponent path = true ∧ path.splitOn slash =
        firstComponent path :: (path.drop ((firstComponent path).length + 1)).splitOn slash := by
  have noSlash : slash ∉ firstComponent path := fun inside => by simpa using List.mem_takeWhile_imp inside
  have parts : firstComponent path ++ path.dropWhile (· ≠ slash) = path := List.takeWhile_append_dropWhile
  cases behind : path.dropWhile (· ≠ slash) with
  | nil =>
    rw [behind, List.append_nil] at parts
    refine .inl ⟨?_, parts, ?_⟩
    · unfold isDirComponent
      rw [parts]
      simp
    · rw [parts] at noSlash
      exact List.splitOn_eq_singleton noSlash
  | cons b rest =>
    have isSlash : b = slash := by
      have some : path.dropWhile (· ≠ slash) ≠ [] := by
        rw [behind]
        exact List.cons_ne_nil _ _
      have stops := List.head_dropWhile_not (fun b : UInt8 => decide (b ≠ slash)) some
      simp only [behind, List.head_cons] at stops
      simpa using stops
    rw [behind, isSlash] at parts
    refine .inr ⟨?_, ?_⟩
    · unfold isDirComponent
      generalize firstComponent path = front at parts
      simp [← parts]
    · generalize firstComponent path = front at parts noSlash
      have after : path.drop (front.length + 1) = rest := by
        rw [← parts, ← List.drop_drop, List.drop_left]
        rfl
      rw [after, ← parts, List.splitOn_append_cons_self_of_not_mem noSlash]

theorem joinPath_eq (comps : List Name) : joinPath comps = [slash].intercalate comps := by
  induction comps with
  | nil => rfl
  | cons c rest ih =>
    cases rest with
    | nil => simp [joinPath]
    | cons next rest =>
      rw [joinPath, ih]
      simp

theorem splitOn_joinPath (nonempty : comps ≠ []) (noSlash : ∀ c ∈ comps, slash ∉ c) :
    (joinPath comps).splitOn slash = comps := by
  rw [joinPath_eq]
  exact List.splitOn_intercalate slash noSlash nonempty

/-! ### The walks over components -/

/-- The walk of `open`. Behind a last `/` stands an empty component. -/
def openSteps (fs : FileSystem) (flags : OpenFlags) (mode : UInt8) : List Name → Nat → VfsM (Option (Nat × Name))
  | [], currentObj => return some (currentObj, [])
  | [name], currentObj => do
    if name = [] then return some (currentObj, [])
    match ← findFile fs flags currentObj name with
    | none => return none
    | some thisFile => return some (← fs.call (tempfsOpenFile thisFile mode), name)
  | name :: next :: rest, currentObj => do
    match ← findDir fs flags currentObj name with
    | none => return none
    | some thisDir => openSteps fs flags mode (next :: rest) (← fs.call (tempfsOpenDir thisDir))

/-- The walk of `create_device`. -/
def deviceSteps (fs : FileSystem) (operations : DeviceOps) : List Name → Nat → VfsM Nat
  | [], _ => return 0
  | [name], currentObj => do
    if name = [] then return 0
    let thisFile ← fs.call (tempfsFind currentObj name)
    if thisFile ≠ 0 then return 1
    fs.call (tempfsCreateDevice currentObj name operations)
    let _ ← fs.call (tempfsFind currentObj name)
    return 0
  | name :: next :: rest, currentObj => do
    let thisDir ← fs.call (tempfsFind currentObj name)
    if thisDir = 0 then return 2
    deviceSteps fs operations (next :: rest) (← fs.call (tempfsOpenDir thisDir))

section steps

variable {fs : FileSystem} {flags : OpenFlags} {mode : UInt8} {operations : DeviceOps} {n d : Nat}

theorem openSteps_cons (more : comps ≠ []) : openSteps fs flags mode (c :: comps) d = (do
    match ← findDir fs flags d c with
    | none => return none
    | some thisDir => openSteps fs flags mode comps (← fs.call (tempfsOpenDir thisDir))) := by
  obtain ⟨next, rest, rfl⟩ := List.exists_cons_of_ne_nil more
  rfl

theorem deviceSteps_cons (more : comps ≠ []) : deviceSteps fs operations (c :: comps) d = (do
    let thisDir ← fs.call (tempfsFind d c)
    if thisDir = 0 then return 2
    deviceSteps fs operations comps (← fs.call (tempfsOpenDir thisDir))) := by
  obtain ⟨next, rest, rfl⟩ := List.exists_cons_of_ne_nil more
  rfl

theorem openWalk_eq (enough : path.length ≤ n) :
    openWalk fs flags mode n path path d = openSteps fs flags mode (path.splitOn slash) d := by
  induction n generalizing path d with
  | zero =>
    obtain rfl := List.eq_nil_of_length_eq_zero (Nat.le_zero.mp enough)
    rfl
  | succ n ih =>
    by_cases empty : path = []
    · subst empty
      rfl
    rw [openWalk, if_neg empty]
    rcases splitOn_cases path with ⟨last, whole, split⟩ | ⟨inner, split⟩
    · rw [split, last, whole, openSteps, if_neg empty]
      rfl
    · have shorter : (path.drop ((firstComponent path).length + 1)).length ≤ n := by
        rw [List.length_drop]
        omega
      rw [split, openSteps_cons (List.splitOn_ne_nil slash _), inner]
      simp only [ih shorter]
      rewrite [if_true]
      rfl

theorem deviceWalk_eq (enough : path.length ≤ n) :
    deviceWalk fs operations n path path d = deviceSteps fs operations (path.splitOn slash) d := by
  induction n generalizing path d with
  | zero =>
    obtain rfl := List.eq_nil_of_length_eq_zero (Nat.le_zero.mp enough)
    rfl
  | succ n ih =>
    by_cases empty : path = []
    · subst empty
      rfl
    rw [deviceWalk, if_neg empty]
    rcases splitOn_cases path with ⟨last, whole, split⟩ | ⟨inner, split⟩
    · rw [split, last, whole, deviceSteps, if_neg empty]
      rfl
    · have shorter : (path.drop ((firstComponent path).length + 1)).length ≤ n := by
        rw [List.length_drop]
        omega
      rw [split, deviceSteps_cons (List.splitOn_ne_nil slash _), inner]
      simp only [ih shorter, if_true]

end steps

/-- The names of the rounds of `mkdir`. -/
def mkdirNames (path newPath : Nat → Nat → UInt8) (bound : Nat) : Nat → Nat → Nat → List Name
  | 0, _, _ => []
  | rounds + 1, k, i =>
    if path k i = 0 then []
    else match nameFrom (newPath k) bound i with
      | none => []
      | some name =>
        if name = [] then [] else name :: mkdirNames path newPath bound rounds (k + 1) (i + name.length + 1)

section names

variable {bytes newPath : Nat → UInt8} {bound rounds i : Nat} {rest : Name}

theorem nameFrom_bytes (copied : ∀ k < c.length, newPath (i + k) = c.getD k 0) (noSlash : slash ∉ c) (noZero : 0 ∉ c)
    (ends : newPath (i + c.length) = slash ∨ newPath (i + c.length) = 0) (enough : c.length < bound) :
    nameFrom newPath bound i = some c := by
  induction c generalizing bound i with
  | nil =>
    obtain ⟨bound, rfl⟩ := Nat.exists_eq_succ_of_ne_zero (show bound ≠ 0 by omega)
    rw [List.length_nil, Nat.add_zero] at ends
    rw [nameFrom, if_pos ends]
  | cons b c ih =>
    obtain ⟨bound, rfl⟩ := Nat.exists_eq_succ_of_ne_zero (show bound ≠ 0 by omega)
    rw [List.length_cons] at copied ends enough
    have here : newPath i = b := copied 0 (by omega)
    obtain ⟨otherSlash, noSlash⟩ := not_or.mp (mt List.mem_cons.mpr noSlash)
    obtain ⟨otherZero, noZero⟩ := not_or.mp (mt List.mem_cons.mpr noZero)
    have later : nameFrom newPath bound (i + 1) = some c := by
      refine ih (fun k inside => ?_) noSlash noZero ?_ (by omega)
      · rw [Nat.add_assoc, Nat.add_comm 1 k, copied (k + 1) (by omega)]
        rfl
      · rw [show i + 1 + c.length = i + (c.length + 1) by omega]
        exact ends
    rw [nameFrom, here, if_neg (not_or.mpr ⟨Ne.symm otherSlash, Ne.symm otherZero⟩), later]
    rfl

theorem nameFrom_run (copied : ∀ k, newPath (i + k) = (c ++ rest).getD k 0) (noSlash : slash ∉ c) (noZero : 0 ∉ c)
    (ends : rest.getD 0 0 = slash ∨ rest.getD 0 0 = 0) (enough : c.length < bound) :
    nameFrom newPath bound i = some c := by
  refine nameFrom_bytes (fun k inside => ?_) noSlash noZero ?_ enough
  · rw [copied, List.getD_append _ _ _ _ inside]
  · rw [copied, List.getD_append_right _ _ _ _ le_rfl, Nat.sub_self]
    exact ends

theorem mkdirNames_join {path copy : Nat → Nat → UInt8} {round : Nat} (nonempty : comps ≠ []) (ordinary : ∀ c ∈ comps, Ordinary c)
    (enough : (joinPath comps).length < bound) (more : comps.length ≤ rounds)
    (original : ∀ n, ∀ k < (joinPath comps).length, path n (i + k) = (joinPath comps).getD k 0)
    (copied : ∀ n k, copy n (i + k) = (joinPath comps).getD k 0) :
    mkdirNames path copy bound rounds round i = comps := by
  induction comps generalizing i rounds round with
  | nil => exact absurd rfl nonempty
  | cons c rest ih =>
    obtain ⟨rounds, rfl⟩ := Nat.exists_eq_succ_of_ne_zero (show rounds ≠ 0 by simp at more; omega)
    obtain ⟨notEmpty, -, -, -, noSlash, noZero⟩ := ordinary c (List.mem_cons_self ..)
    have here : ∃ behind, joinPath (c :: rest) = c ++ behind ∧ (behind.getD 0 0 = slash ∨ behind.getD 0 0 = 0) := by
      cases rest with
      | nil => exact ⟨[], by simp [joinPath], .inr rfl⟩
      | cons next rest => exact ⟨slash :: joinPath (next :: rest), rfl, .inl rfl⟩
    obtain ⟨behind, parts, ends⟩ := here
    have short : c.length ≤ (joinPath (c :: rest)).length := by
      rw [parts, List.length_append]
      omega
    have long : 0 < c.length := List.length_pos_of_ne_nil notEmpty
    have first : path round i ≠ 0 := by
      have byte := original round 0 (by omega)
      obtain ⟨b, c, rfl⟩ := List.exists_cons_of_ne_nil notEmpty
      rw [parts] at byte
      have same : path round i = b := byte
      rw [same]
      rintro rfl
      exact noZero (List.mem_cons_self ..)
    have copied' : ∀ k, copy round (i + k) = (c ++ behind).getD k 0 := fun k => by rw [← parts]; exact copied round k
    have name : nameFrom (copy round) bound i = some c := nameFrom_run copied' noSlash noZero ends (by omega)
    rw [mkdirNames, if_neg first, name]
    dsimp only
    rw [if_neg notEmpty]
    cases rest with
    | nil =>
      -- The byte behind the terminator may be anything; the copy has a zero there.
      have stop : copy (round + 1) (i + c.length + 1) = 0 := by
        rw [Nat.add_assoc, copied]
        simp [joinPath]
      obtain ⟨bound, rfl⟩ := Nat.exists_eq_succ_of_ne_zero (show bound ≠ 0 by omega)
      have empty : nameFrom (copy (round + 1)) (bound + 1) (i + c.length + 1) = some [] := by
        rw [nameFrom, if_pos (.inr stop)]
      have done : mkdirNames path copy (bound + 1) rounds (round + 1) (i + c.length + 1) = [] := by
        cases rounds with
        | zero => rfl
        | succ rounds =>
          rw [mkdirNames, empty]
          exact ite_self _
      rw [done]
    | cons next rest =>
      have length : (joinPath (c :: next :: rest)).length = c.length + 1 + (joinPath (next :: rest)).length := by
        simp only [joinPath, List.length_append, List.length_cons]
        omega
      have byte : ∀ k, (joinPath (c :: next :: rest)).getD (c.length + 1 + k) 0 = (joinPath (next :: rest)).getD k 0 := by
        intro k
        have drop : (joinPath (c :: next :: rest)).drop (c.length + 1) = joinPath (next :: rest) := drop_join
        rw [← drop, List.getD_eq_getElem?_getD, List.getD_eq_getElem?_getD, List.getElem?_drop]
      rw [ih (List.cons_ne_nil _ _) (fun c inside => ordinary c (List.mem_cons_of_mem _ inside)) (by omega)
        (by simp only [List.length_cons] at more ⊢; omega)]
      · intro n k inside
        rw [← byte, show i + c.length + 1 + k = i + (c.length + 1 + k) by omega]
        exact original n _ (by omega)
      · intro n k
        rw [← byte, show i + c.length + 1 + k = i + (c.length + 1 + k) by omega]
        exact copied n _

end names

/-! ### What the walks keep -/

/-- The calls that create. -/
inductive Maker where
  | dir
  | file
  | device (operations : DeviceOps)

def Maker.call : Maker → Nat → Name → TempFsM Unit
  | .dir, currentDir, name => tempfsMkdir currentDir name
  | .file, currentDir, name => tempfsMkfile currentDir name
  | .device operations, currentDir, name => tempfsCreateDevice currentDir name operations

/-- The operations of a new device satisfy `device`. -/
def Maker.Allowed (device : DeviceOps → Prop) : Maker → Prop
  | .device operations => device operations
  | _ => True

variable {s t u : TempFs} {a b d : Nat}

theorem findEntry_ok {rounds : Nat} (h : findEntry c rounds a s = .ok (b, t)) : s = t := by
  induction rounds generalizing a with
  | zero => exact (stop_ok h).elim
  | succ rounds ih =>
    unfold findEntry at h
    by_cases null : a = 0
    · rw [if_pos null] at h
      exact (pure_ok h).2
    rw [if_neg null, bind_eq (dirEntry_run null)] at h
    by_cases inodeNull : (s.dirEntries a).inode = 0
    · rw [inodeNull] at h
      cases h
    rw [bind_eq (inode_run inodeNull)] at h
    split at h
    · exact (pure_ok h).2
    · exact ih h

theorem tempfsFind_ok (h : tempfsFind d c s = .ok (b, t)) : t = s ∧ d ≠ 0 := by
  unfold tempfsFind at h
  by_cases null : d = 0
  · subst null
    cases h
  rw [bind_eq (inode_run null)] at h
  by_cases first : (s.inodes d).firstNode = 0
  · rw [first] at h
    cases h
  rw [bind_eq (dirEntry_run first), bind_eq run_get] at h
  exact ⟨(findEntry_ok h).symm, null⟩

theorem tempfsOpenDir_ok (h : tempfsOpenDir d s = .ok (b, t)) :
    t = s ∧ (b = 0 ∨ b = d ∧ (s.inodes d).isDir = true) := by
  unfold tempfsOpenDir at h
  by_cases null : d = 0
  · subst null
    cases h
  rw [bind_eq (inode_run null)] at h
  split at h
  · obtain ⟨rfl, rfl⟩ := pure_ok h
    exact ⟨rfl, .inr ⟨rfl, ‹_›⟩⟩
  · obtain ⟨rfl, rfl⟩ := pure_ok h
    exact ⟨rfl, .inl rfl⟩

theorem tempfsOpenFile_ok {i : Nat} {mode : UInt8} (h : tempfsOpenFile i mode s = .ok (b, t)) : Opened s t i := by
  unfold tempfsOpenFile at h
  by_cases null : i = 0
  · subst null
    cases h
  rw [bind_eq (inode_run null)] at h
  by_cases device : (s.inodes i).type = filetypeDevice
  · rw [if_pos device] at h
    cases open_ : (s.inodes i).operations.openOp with
    | none =>
      rw [open_] at h
      cases h
    | some opens =>
      rw [open_] at h
      dsimp only at h
      cases answer : opens mode with
      | false =>
        rw [answer] at h
        obtain rfl := (pure_ok h).2
        exact .refl s i
      | true =>
        rw [answer] at h
        obtain rfl := (Prod.mk.inj (Except.ok.inj h)).2
        exact .newPrivate device
  · rw [if_neg device] at h
    split at h <;> obtain rfl := (pure_ok h).2 <;> exact .refl s i

theorem openSteps_enter {v : Vfs} {flags : OpenFlags} {mode : UInt8}
    (find : tempfsFind d c v.tempFs = .ok (b, v.tempFs)) (nonnull : b ≠ 0)
    (isDir : (v.tempFs.inodes b).isDir = true) (more : comps ≠ []) :
    openSteps .tempFs flags mode (c :: comps) d v = openSteps .tempFs flags mode comps b v := by
  have call : FileSystem.tempFs.call (tempfsFind d c) v = .ok (b, v) := FileSystem.call_run find
  have opens : FileSystem.tempFs.call (tempfsOpenDir b) v = .ok (b, v) :=
    FileSystem.call_run (tempfsOpenDir_run nonnull isDir)
  rw [openSteps_cons more]
  unfold findDir
  rw [bind_assoc, bind_eq call, if_neg nonnull]
  exact bind_eq opens

theorem openSteps_leave {v : Vfs} {flags : OpenFlags} {mode : UInt8}
    (find : tempfsFind d c v.tempFs = .ok (b, v.tempFs)) (nonnull : b ≠ 0)
    (leaf : ¬ (v.tempFs.inodes b).isDir = true) (more : comps ≠ []) :
    openSteps .tempFs flags mode (c :: comps) d v = openSteps .tempFs flags mode comps 0 v := by
  have call : FileSystem.tempFs.call (tempfsFind d c) v = .ok (b, v) := FileSystem.call_run find
  have opens : FileSystem.tempFs.call (tempfsOpenDir b) v = .ok (0, v) := by
    apply FileSystem.call_run
    unfold tempfsOpenDir
    rw [bind_eq (inode_run nonnull), if_neg leaf]
    rfl
  rw [openSteps_cons more]
  unfold findDir
  rw [bind_assoc, bind_eq call, if_neg nonnull]
  exact bind_eq opens

/-- From `s` to `t`, with the objects of `s`. -/
structure Keeps (inv : TempFs → Prop) (obj : TempFs → Nat → Prop) (s t : TempFs) : Prop where
  inv : inv t
  objs : ∀ a, obj s a → obj t a ∧ (t.inodes a).isDir = (s.inodes a).isDir

/-- The calls of a walk keep `inv` and the objects of `obj`, on such directories and with `good` names. -/
structure Kept (good : Name → Prop) (device : DeviceOps → Prop) (inv : TempFs → Prop) (obj : TempFs → Nat → Prop) : Prop where
  find : ∀ {s d b c}, inv s → obj s d → (s.inodes d).isDir = true → good c →
    tempfsFind d c s = .ok (b, s) → b = 0 ∨ obj s b
  make : ∀ {s t d c} (maker : Maker), maker.Allowed device → inv s → obj s d → (s.inodes d).isDir = true → good c →
    tempfsFind d c s = .ok (0, s) → maker.call d c s = .ok (⟨⟩, t) → Keeps inv obj s t
  opened : ∀ {s t i}, inv s → Opened s t i → Keeps inv obj s t

/-- Where a walk stands: null after a file, or a directory of `obj`. -/
def At (obj : TempFs → Nat → Prop) (s : TempFs) (d : Nat) : Prop :=
  d = 0 ∨ obj s d ∧ (s.inodes d).isDir = true

/-- The rest of the machine is as it was. -/
structure Stays (inv : TempFs → Prop) (obj : TempFs → Nat → Prop) (v w : Vfs) : Prop where
  drives : w.drives = v.drives
  keeps : Keeps inv obj v.tempFs w.tempFs

section kept

variable {good : Name → Prop} {device : DeviceOps → Prop} {inv : TempFs → Prop} {obj : TempFs → Nat → Prop} {v w x : Vfs}

theorem Stays.refl (holds : inv v.tempFs) : Stays inv obj v v := ⟨rfl, holds, fun _ inside => ⟨inside, rfl⟩⟩

theorem Stays.trans (first : Stays inv obj v w) (second : Stays inv obj w x) : Stays inv obj v x := by
  refine ⟨second.drives.trans first.drives, second.keeps.inv, fun a inside => ?_⟩
  obtain ⟨inside', kind⟩ := first.keeps.objs a inside
  obtain ⟨inside'', kind'⟩ := second.keeps.objs a inside'
  exact ⟨inside'', kind'.trans kind⟩

theorem At.keeps (at_ : At obj s d) (keeps : Keeps inv obj s t) : At obj t d := by
  rcases at_ with null | ⟨inside, isDir⟩
  · exact .inl null
  · obtain ⟨inside', kind⟩ := keeps.objs d inside
    exact .inr ⟨inside', kind.trans isDir⟩

theorem FileSystem.call_sat {α : Type} {call : TempFsM α} {post : α → Vfs → Prop}
    (after : ∀ r t, call v.tempFs = .ok (r, t) → post r { v with tempFs := t }) :
    Sat (FileSystem.tempFs.call call) v post fun _ => True := by
  refine ⟨fun {r w} h => ?_, fun _ => trivial⟩
  unfold FileSystem.call at h
  cases run : call v.tempFs with
  | error e =>
    simp only [run] at h
    cases h
  | ok pair =>
    simp only [run] at h
    obtain ⟨rfl, rfl⟩ := Prod.mk.inj (Except.ok.inj h)
    exact after _ _ run

variable (kept : Kept good device inv obj) (holds : inv v.tempFs) (at_ : At obj v.tempFs d)

theorem openDir_sat (found : b = 0 ∨ obj v.tempFs b) : Sat (FileSystem.tempFs.call (tempfsOpenDir b)) v
    (fun next w => w = v ∧ At obj v.tempFs next) fun _ => True := by
  apply FileSystem.call_sat
  intro next t run
  obtain ⟨rfl, null | ⟨rfl, isDir⟩⟩ := tempfsOpenDir_ok run
  · exact ⟨rfl, .inl null⟩
  · refine ⟨rfl, found.imp id fun inside => ⟨inside, isDir⟩⟩

include kept holds at_

theorem Kept.find_sat (fits : good c) : Sat (FileSystem.tempFs.call (tempfsFind d c)) v (fun b w =>
    w = v ∧ tempfsFind d c v.tempFs = .ok (b, v.tempFs) ∧ (b = 0 ∨ obj v.tempFs b)) fun _ => True := by
  apply FileSystem.call_sat
  intro b t run
  obtain ⟨rfl, nonnull⟩ := tempfsFind_ok run
  obtain ⟨inside, isDir⟩ := at_.resolve_left nonnull
  exact ⟨rfl, run, kept.find holds inside isDir fits run⟩

theorem Kept.make_sat (maker : Maker) (allowed : maker.Allowed device) (fits : good c)
    (missing : tempfsFind d c v.tempFs = .ok (0, v.tempFs)) :
    Sat (FileSystem.tempFs.call (maker.call d c)) v (fun _ w => Stays inv obj v w) fun _ => True := by
  apply FileSystem.call_sat
  intro _ t run
  obtain ⟨inside, isDir⟩ := at_.resolve_left (tempfsFind_ok missing).2
  exact ⟨rfl, kept.make maker allowed holds inside isDir fits missing run⟩

theorem Kept.remake_sat (maker : Maker) (allowed : maker.Allowed device) (fits : good c)
    (missing : tempfsFind d c v.tempFs = .ok (0, v.tempFs)) :
    Sat (do FileSystem.tempFs.call (maker.call d c); FileSystem.tempFs.call (tempfsFind d c)) v
      (fun j w => Stays inv obj v w ∧ (j = 0 ∨ obj w.tempFs j)) fun _ => True := by
  refine (kept.make_sat holds at_ maker allowed fits missing).bind fun _ w stays => ?_
  refine (kept.find_sat stays.keeps.inv (at_.keeps stays.keeps) fits).weaken ?_
  rintro j _ ⟨rfl, -, found⟩
  exact ⟨stays, found⟩

theorem Kept.findDir_sat (flags : OpenFlags) (fits : good c) : Sat (findDir .tempFs flags d c) v (fun r w =>
    Stays inv obj v w ∧ ∀ j, r = some j → j = 0 ∨ obj w.tempFs j) fun _ => True := by
  unfold findDir
  refine (kept.find_sat holds at_ fits).bind ?_
  rintro b _ ⟨rfl, run, found⟩
  by_cases missing : b = 0
  · subst missing
    rw [if_pos rfl]
    cases flags.creatAll with
    | false => exact .pure ⟨.refl holds, fun _ impossible => by cases impossible⟩
    | true =>
      have again := kept.remake_sat holds at_ .dir trivial fits run
      rw [if_pos rfl, ← bind_assoc]
      exact again.bind fun j w next => .pure ⟨next.1, fun _ same => Option.some.inj same ▸ next.2⟩
  · rw [if_neg missing]
    exact .pure ⟨.refl holds, fun _ same => Option.some.inj same ▸ found⟩

theorem Kept.findFile_sat (flags : OpenFlags) (fits : good c) : Sat (findFile .tempFs flags d c) v (fun r w =>
    Stays inv obj v w ∧ ∀ j, r = some j → j = 0 ∨ obj w.tempFs j) fun _ => True := by
  unfold findFile
  refine (kept.find_sat holds at_ fits).bind ?_
  rintro b _ ⟨rfl, run, found⟩
  by_cases missing : b = 0
  · subst missing
    rw [if_pos rfl]
    by_cases makes : flags.creat = true ∨ flags.creatAll = true
    · have again := kept.remake_sat holds at_ .file trivial fits run
      rw [if_pos makes, ← bind_assoc]
      exact again.bind fun j w next => .pure ⟨next.1, fun _ same => Option.some.inj same ▸ next.2⟩
    · rw [if_neg makes]
      exact .pure ⟨.refl holds, fun _ impossible => by cases impossible⟩
  · rw [if_neg missing]
    exact .pure ⟨.refl holds, fun _ same => Option.some.inj same ▸ found⟩

theorem Kept.openSteps_sat (flags : OpenFlags) (mode : UInt8) (fits : ∀ c ∈ comps, good c) :
    Sat (openSteps .tempFs flags mode comps d) v (fun _ w => Stays inv obj v w) fun _ => True := by
  induction comps generalizing d v with
  | nil => exact .pure (.refl holds)
  | cons c rest ih =>
    have here : good c := fits c (List.mem_cons_self ..)
    cases rest with
    | nil =>
      rw [openSteps]
      by_cases empty : c = []
      · rw [if_pos empty]
        exact .pure (.refl holds)
      rw [if_neg empty]
      refine (kept.findFile_sat holds at_ flags here).bind ?_
      rintro (_ | j) w ⟨stays, found⟩
      · exact .pure stays
      · dsimp only
        have opened : Sat (FileSystem.tempFs.call (tempfsOpenFile j mode)) w (fun _ x => Stays inv obj v x)
            fun _ => True :=
          FileSystem.call_sat fun _ _ run =>
            stays.trans ⟨rfl, kept.opened stays.keeps.inv (tempfsOpenFile_ok run)⟩
        exact opened.bind fun _ _ stays => .pure stays
    | cons next rest =>
      rw [openSteps]
      refine (kept.findDir_sat holds at_ flags here).bind ?_
      rintro (_ | j) w ⟨stays, found⟩
      · exact .pure stays
      · dsimp only
        refine (openDir_sat (found j rfl)).bind ?_
        rintro d' _ ⟨rfl, at'⟩
        exact (ih stays.keeps.inv at' fun c inside => fits c (List.mem_cons_of_mem _ inside)).weaken
          fun _ _ => stays.trans

theorem Kept.deviceSteps_sat {operations : DeviceOps} (allowed : device operations) (fits : ∀ c ∈ comps, good c) :
    Sat (deviceSteps .tempFs operations comps d) v (fun _ w => Stays inv obj v w) fun _ => True := by
  induction comps generalizing d v with
  | nil => exact .pure (.refl holds)
  | cons c rest ih =>
    have here : good c := fits c (List.mem_cons_self ..)
    cases rest with
    | nil =>
      rw [deviceSteps]
      by_cases empty : c = []
      · rw [if_pos empty]
        exact .pure (.refl holds)
      rw [if_neg empty]
      refine (kept.find_sat holds at_ here).bind ?_
      rintro b _ ⟨rfl, run, -⟩
      by_cases missing : b = 0
      · subst missing
        rw [if_neg (by simp), ← bind_assoc]
        exact (kept.remake_sat holds at_ (.device operations) allowed here run).bind fun _ _ next => .pure next.1
      · rw [if_pos missing]
        exact .pure (.refl holds)
    | cons next rest =>
      rw [deviceSteps]
      refine (kept.find_sat holds at_ here).bind ?_
      rintro b _ ⟨rfl, -, found⟩
      by_cases missing : b = 0
      · rw [if_pos missing]
        exact .pure (.refl holds)
      rw [if_neg missing]
      refine (openDir_sat found).bind ?_
      rintro d' _ ⟨rfl, at'⟩
      exact ih holds at' fun c inside => fits c (List.mem_cons_of_mem _ inside)

theorem Kept.mkdirWalk_sat (path newPath : Nat → Nat → UInt8) (bound : Nat) {rounds k i : Nat}
    (fits : ∀ c ∈ mkdirNames path newPath bound rounds k i, good c) :
    Sat (mkdirWalk .tempFs path newPath bound rounds k i d) v (fun _ w => Stays inv obj v w) fun _ => True := by
  induction rounds generalizing k i d v with
  | zero =>
    rw [mkdirWalk]
    split
    · exact .pure (.refl holds)
    · exact .stop trivial
  | succ rounds ih =>
    rw [mkdirWalk]
    rw [mkdirNames] at fits
    by_cases ends : path k i = 0
    · rw [if_pos ends]
      exact .pure (.refl holds)
    rw [if_neg ends] at fits ⊢
    cases next : nameFrom (newPath k) bound i with
    | none => exact .stop trivial
    | some name =>
      rw [next] at fits
      dsimp only at fits ⊢
      by_cases empty : name = []
      · rw [if_pos empty]
        exact .pure (.refl holds)
      rw [if_neg empty] at fits ⊢
      have here : good name := fits name (List.mem_cons_self ..)
      have onward : ∀ j w, Stays inv obj v w → (j = 0 ∨ obj w.tempFs j) → Sat (do
          let next ← FileSystem.tempFs.call (tempfsOpenDir j)
          mkdirWalk .tempFs path newPath bound rounds (k + 1) (i + name.length + 1) next) w
            (fun _ w => Stays inv obj v w) fun _ => True := by
        intro j w stays found
        refine (openDir_sat found).bind ?_
        rintro d' _ ⟨rfl, at'⟩
        exact (ih stays.keeps.inv at' fun c inside => fits c (List.mem_cons_of_mem _ inside)).weaken
          fun _ _ => stays.trans
      refine (kept.find_sat holds at_ here).bind ?_
      rintro b _ ⟨rfl, run, found⟩
      by_cases missing : b = 0
      · subst missing
        have again := kept.remake_sat holds at_ .dir trivial here run
        rw [if_pos rfl, ← bind_assoc]
        exact again.bind fun j w next => onward j w next.1 next.2
      · rw [if_neg missing, pure_bind]
        exact onward b _ (.refl holds) found

end kept

/-! ### Creations on a drive -/

/-- A call on `X:/` followed by the bytes `rest`. `open` need not be given a flag that creates. -/
inductive Creation where
  | openFile (rest : Name) (flags : OpenFlags) (mode : UInt8)
  | mkdir (rest : Name) (beyond stale : Nat → Nat → UInt8) (bound : Nat)
  | createDevice (rest : Name) (operations : DeviceOps)

def Creation.run (letter : UInt8) : Creation → VfsM Unit
  | .openFile rest flags mode => do let _ ← vfsOpen (letter :: colon :: slash :: rest) flags mode
  | .mkdir rest beyond stale bound => do let _ ← vfsMkdir (letter :: colon :: slash :: rest) beyond stale bound
  | .createDevice rest operations => do let _ ← Fs.createDevice (letter :: colon :: slash :: rest) operations

/-- The components that the call takes from its path. -/
def Creation.names (letter : UInt8) : Creation → List Name
  | .openFile rest _ _ => rest.splitOn slash
  | .mkdir rest beyond stale bound =>
    let path := letter :: colon :: slash :: rest
    mkdirNames (fun k => pathByte path (beyond k)) (fun k => copyByte path (stale k)) bound bound 0 3
  | .createDevice rest _ => rest.splitOn slash

def Creation.Allowed (device : DeviceOps → Prop) : Creation → Prop
  | .createDevice _ operations => device operations
  | _ => True

/-- Where a zero follows the copy of the path, `mkdir` takes exactly its components. -/
theorem mkdir_names (letter : UInt8) (beyond : Nat → Nat → UInt8) {bound : Nat} (nonempty : comps ≠ [])
    (ordinary : ∀ c ∈ comps, Ordinary c) (enough : (joinPath comps).length < bound) :
    (Creation.mkdir (joinPath comps) beyond (fun _ _ => 0) bound).names letter = comps := by
  have some : 0 < (joinPath comps).length :=
    (List.length_pos_of_ne_nil nonempty).trans_le (length_le_join ordinary)
  apply mkdirNames_join nonempty ordinary enough (by have := length_le_join ordinary; omega)
  · intro n k inside
    unfold pathByte
    rw [if_neg (by simp only [List.length_cons]; omega), show 3 + k = k + 1 + 1 + 1 by omega]
    simp only [List.getD_cons_succ]
    rw [List.getD_eq_getElem _ _ inside, List.getD_eq_getElem _ _ inside]
  · intro n k
    unfold copyByte
    rw [show 3 + k = k + 1 + 1 + 1 by omega]
    simp only [List.getD_cons_succ]

def runCreations (letter : UInt8) : List Creation → VfsM Unit
  | [] => return
  | creation :: creations => do
    creation.run letter
    runCreations letter creations

/-- `open` on a mounted drive, whatever the path's second and third byte are. -/
theorem vfsOpen_path {v : Vfs} {mode : UInt8} {root : Nat} {flags : OpenFlags}
    (mounted : Mounted v ((absolutePath v.currentDir path).getD 0 0) root) (nonnull : root ≠ 0)
    (isDir : (v.tempFs.inodes root).isDir = true) : vfsOpen path flags mode v = (do
      match ← openSteps .tempFs flags mode (((absolutePath v.currentDir path).drop 3).splitOn slash) root with
      | none => return none
      | some (reached, newPath) =>
        return some (File.mk mode ((absolutePath v.currentDir path).getD 0 0) reached (checkFileType newPath))) v := by
  obtain ⟨findRoot, openRoot⟩ := root_calls nonnull isDir
  unfold vfsOpen
  rw [bind_eq run_get]
  simp only [mounted.isLetter, not_true_eq_false, if_false]
  rw [bind_eq run_get, mounted.drive]
  simp only [not_true_eq_false, if_false]
  have enough : ((absolutePath v.currentDir path).drop 3).length ≤ (absolutePath v.currentDir path).length := by simp
  rewrite [bind_eq findRoot, bind_eq openRoot, openWalk_eq enough]
  rfl

/-- `mkdir`, which takes the letter of the drive in either case. -/
theorem vfsMkdir_upper {v : Vfs} {letter : UInt8} {root : Nat} {rest : Name} (mounted : Mounted v (upperCase letter) root)
    (nonnull : root ≠ 0) (isDir : (v.tempFs.inodes root).isDir = true) (beyond stale : Nat → Nat → UInt8) (bound : Nat) :
    vfsMkdir (letter :: colon :: slash :: rest) beyond stale bound v = (do
      mkdirWalk .tempFs (fun k => pathByte (letter :: colon :: slash :: rest) (beyond k))
        (fun k => copyByte (letter :: colon :: slash :: rest) (stale k)) bound bound 0 3 root
      return 0) v := by
  obtain ⟨findRoot, openRoot⟩ := root_calls nonnull isDir
  unfold vfsMkdir
  rw [bind_eq run_get, absolutePath_drive]
  simp only [List.getD_cons_zero, List.getD_cons_succ, mounted.isLetter, not_true_eq_false, ne_eq, or_self, if_false]
  rw [bind_eq run_get, mounted.drive, bind_eq findRoot, bind_eq openRoot]

section drive

variable {v : Vfs} {letter mode : UInt8} {root : Nat} {rest : Name} {flags : OpenFlags}
  (mounted : Mounted v letter root) (nonnull : root ≠ 0) (isDir : (v.tempFs.inodes root).isDir = true)
include mounted nonnull isDir

theorem vfsOpen_eq : vfsOpen (letter :: colon :: slash :: rest) flags mode v = (do
    match ← openSteps .tempFs flags mode (rest.splitOn slash) root with
    | none => return none
    | some (reached, newPath) => return some (File.mk mode letter reached (checkFileType newPath))) v := by
  have absolute : absolutePath v.currentDir (letter :: colon :: slash :: rest) = letter :: colon :: slash :: rest :=
    absolutePath_drive
  have mounted' : Mounted v ((absolutePath v.currentDir (letter :: colon :: slash :: rest)).getD 0 0) root := by
    rw [absolute]
    exact mounted
  rw [vfsOpen_path mounted' nonnull isDir, absolute]
  rfl

theorem createDevice_eq (operations : DeviceOps) : createDevice (letter :: colon :: slash :: rest) operations v =
    deviceSteps .tempFs operations (rest.splitOn slash) root v := by
  obtain ⟨findRoot, openRoot⟩ := root_calls nonnull isDir
  unfold createDevice
  rw [bind_eq run_get, absolutePath_drive]
  simp only [List.getD_cons_zero, List.drop_succ_cons, List.drop_zero, mounted.isLetter, not_true_eq_false, if_false]
  rw [bind_eq run_get, mounted.drive]
  have onTempfs : ¬ FileSystem.tempFs.fsId ≠ fsTempfs := by decide
  simp only [if_neg onTempfs, not_true_eq_false, if_false]
  have enough : rest.length ≤ (letter :: colon :: slash :: rest).length := by grind
  rw [bind_eq findRoot, bind_eq openRoot, deviceWalk_eq enough]

theorem vfsMkdir_eq (beyond stale : Nat → Nat → UInt8) (bound : Nat) :
    vfsMkdir (letter :: colon :: slash :: rest) beyond stale bound v = (do
      mkdirWalk .tempFs (fun k => pathByte (letter :: colon :: slash :: rest) (beyond k))
        (fun k => copyByte (letter :: colon :: slash :: rest) (stale k)) bound bound 0 3 root
      return 0) v := by
  rw [← upperCase_letter mounted.isLetter] at mounted
  exact vfsMkdir_upper mounted nonnull isDir beyond stale bound

end drive

section runs

variable {good : Name → Prop} {device : DeviceOps → Prop} {inv : TempFs → Prop} {obj : TempFs → Nat → Prop} {v : Vfs}
    {letter : UInt8} {root : Nat}
  (kept : Kept good device inv obj) (mounted : Mounted v letter root) (holds : inv v.tempFs) (rooted : obj v.tempFs root)
  (nonnull : root ≠ 0) (isDir : (v.tempFs.inodes root).isDir = true)
include kept mounted holds rooted nonnull isDir

theorem Kept.creation_sat (creation : Creation) (allowed : creation.Allowed device) (fits : ∀ c ∈ creation.names letter, good c) :
    Sat (creation.run letter) v (fun _ w => Stays inv obj v w) fun _ => True := by
  have start : At obj v.tempFs root := .inr ⟨rooted, isDir⟩
  cases creation with
  | openFile rest flags mode =>
    have walk : Sat (vfsOpen (letter :: colon :: slash :: rest) flags mode) v (fun _ w => Stays inv obj v w)
        fun _ => True := by
      refine .congr (vfsOpen_eq mounted nonnull isDir) ?_
      refine (kept.openSteps_sat holds start flags mode fits).bind fun r w stays => ?_
      cases r <;> exact .pure stays
    exact walk.bind fun _ _ stays => .pure stays
  | mkdir rest beyond stale bound =>
    have walk : Sat (vfsMkdir (letter :: colon :: slash :: rest) beyond stale bound) v
        (fun _ w => Stays inv obj v w) fun _ => True := by
      refine .congr (vfsMkdir_eq mounted nonnull isDir beyond stale bound) ?_
      exact (kept.mkdirWalk_sat holds start _ _ bound fits).bind fun _ w stays => .pure stays
    exact walk.bind fun _ _ stays => .pure stays
  | createDevice rest operations =>
    have walk : Sat (Fs.createDevice (letter :: colon :: slash :: rest) operations) v
        (fun _ w => Stays inv obj v w) fun _ => True :=
      .congr (createDevice_eq mounted nonnull isDir operations) (kept.deviceSteps_sat holds start allowed fits)
    exact walk.bind fun _ _ stays => .pure stays

/-- Every run of creations keeps what each of their calls keeps. -/
theorem Kept.creations_sat (creations : List Creation) (allowed : ∀ creation ∈ creations, creation.Allowed device)
    (fits : ∀ creation ∈ creations, ∀ c ∈ creation.names letter, good c) :
    Sat (runCreations letter creations) v (fun _ w => Stays inv obj v w) fun _ => True := by
  induction creations generalizing v with
  | nil => exact .pure (.refl holds)
  | cons creation creations ih =>
    have here := List.mem_cons_self (a := creation) (l := creations)
    refine (kept.creation_sat mounted holds rooted nonnull isDir creation (allowed _ here) (fits _ here)).bind ?_
    intro _ w stays
    have mounted' : Mounted w letter root := ⟨mounted.isLetter, by rw [stays.drives, mounted.drive]⟩
    obtain ⟨rooted', kind⟩ := stays.keeps.objs root rooted
    have later := ih mounted' stays.keeps.inv rooted' (kind.trans isDir)
      (fun creation inside => allowed creation (List.mem_cons_of_mem _ inside))
      fun creation inside => fits creation (List.mem_cons_of_mem _ inside)
    exact later.weaken fun _ _ => stays.trans

end runs

end PotatOS.Fs
