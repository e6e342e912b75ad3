import PotatOS.Fs.CurrentDir
import PotatOS.Fs.Separation

/-!
# Drives do not reach each other

All drives share one heap, and a file keeps the address of its object. The
objects of each drive, those of trees that it had before included, form a region
that the calls on the other drives never enter.
-/

namespace PotatOS.Fs

open Prog Memory Regions

def vfsObjects : Store Vfs where
  used v := v.tempFs.used
  Points v := objects.Points v.tempFs
  Same a v w := objects.Same a v.tempFs w.tempFs
  Rest v w := w.drives = v.drives ∧ w.currentDir = v.currentDir
  same_refl a v := objects.same_refl a v.tempFs
  same_trans := objects.same_trans
  rest_refl _ := ⟨rfl, rfl⟩
  rest_trans first second := ⟨second.1.trans first.1, second.2.trans first.2⟩
  points := objects.points

variable {own : Nat → Prop} {v w : Vfs} {fs : FileSystem} {flags : OpenFlags} {mode : UInt8} {path newPath name : Name}
  {a d n y : Nat}

theorem region_objects (region : Region vfsObjects v own) : Region objects v.tempFs own :=
  ⟨region.known, region.closed, region.fresh⟩

/-! ### Calls through a drive -/

section calls

variable {α : Type} {x : TempFsM α}

theorem call_cases {r : α} (run : fs.call x v = .ok (r, w)) :
    ∃ t, fs = .tempFs ∧ x v.tempFs = .ok (r, t) ∧ w = { v with tempFs := t } := by
  cases fs with
  | null => cases run
  | tempFs =>
    unfold FileSystem.call at run
    dsimp only at run
    split at run
    next r' t ran =>
      obtain ⟨rfl, rfl⟩ := Prod.mk.inj (Except.ok.inj run)
      exact ⟨t, rfl, ran, rfl⟩
    next => cases run

theorem call_confined {post : α → (Nat → Prop) → Prop} (h : Confined objects own v.tempFs x post) :
    Confined vfsObjects own v (fs.call x) post := by
  intro r w run
  obtain ⟨t, -, ran, rfl⟩ := call_cases run
  obtain ⟨own', grows, holds⟩ := h r t ran
  have region := grows.region
  exact ⟨own', ⟨⟨region.known, region.closed, region.fresh⟩, grows.used, grows.keeps, grows.new, grows.same, rfl, rfl⟩, holds⟩

theorem call_steady {post : α → Prop} (h : Steady objects own v.tempFs x post) :
    Steady vfsObjects own v (fs.call x) post := by
  intro r w run
  obtain ⟨t, rfl, ran, rfl⟩ := call_cases run
  obtain ⟨rfl, holds, again⟩ := h r t ran
  exact ⟨rfl, holds, fun u agrees => FileSystem.call_run (again u.tempFs ⟨agrees.used, agrees.same⟩)⟩

theorem call_stable (h : Stable objects own v.tempFs x) : Stable vfsObjects own v (fs.call x) := by
  intro r w run u agrees
  obtain ⟨t, rfl, ran, rfl⟩ := call_cases run
  obtain ⟨t', again⟩ := h r t ran u.tempFs ⟨agrees.used, agrees.same⟩
  exact ⟨_, FileSystem.call_run again⟩

end calls

/-! ### The walks -/

theorem none_opened {α : Type} {post : α → Prop} : ∀ a, none = some a → post a := by
  intro a opened
  cases opened

theorem find_confined (region : Region vfsObjects v own) (within : Within own d) :
    Confined vfsObjects own v (fs.call (tempfsFind d name)) fun r own' => Within own r ∧ own' = own :=
  (call_steady (tempfsFind_steady (region_objects region) within)).confined region

theorem openDir_confined (region : Region vfsObjects v own) (within : Within own d) :
    Confined vfsObjects own v (fs.call (tempfsOpenDir d)) fun r own' => Within own r ∧ own' = own :=
  (call_steady (tempfsOpenDir_steady (region_objects region) within)).confined region

section finds

variable {make : TempFsM Unit} {may : Prop} [Decidable may]

/-- A round of `open`, with `mkdir` or `mkfile` as `make`. -/
theorem findMake_confined (makes : ∀ {own t}, Region objects t own → Within own d → Confined objects own t make fun _ _ => True)
    (region : Region vfsObjects v own) (within : Within own d) : Confined vfsObjects own v (do
      let found ← fs.call (tempfsFind d name)
      if found = 0 then
        if may then
          fs.call make
          return some (← fs.call (tempfsFind d name))
        else return none
      else return some found) fun r own' => ∀ a, r = some a → Within own' a := by
  refine (find_confined region within).bind fun found own₁ v₁ g₁ ⟨inside, same⟩ => ?_
  subst same
  split
  · split
    · refine (call_confined (makes (region_objects g₁.region) within)).bind fun _ own₂ v₂ g₂ _ => ?_
      refine (find_confined g₂.region (within.mono g₂.keeps)).bind fun made own₃ v₃ g₃ ⟨inside, same⟩ => ?_
      subst same
      exact .pure g₃.region fun a some => Option.some.inj some ▸ inside
    · exact .pure g₁.region none_opened
  · exact .pure g₁.region fun a some => Option.some.inj some ▸ inside

theorem findMake_steady (refused : ¬ may) (region : Region vfsObjects v own) (within : Within own d) :
    Steady vfsObjects own v (do
      let found ← fs.call (tempfsFind d name)
      if found = 0 then
        if may then
          fs.call make
          return some (← fs.call (tempfsFind d name))
        else return none
      else return some found) fun r => ∀ a, r = some a → Within own a := by
  refine (call_steady (tempfsFind_steady (region_objects region) within)).bind fun found inside => ?_
  split
  · exact .pure none_opened
  · exact .pure fun a some => Option.some.inj some ▸ inside

end finds

theorem findDir_confined (region : Region vfsObjects v own) (within : Within own d) :
    Confined vfsObjects own v (findDir fs flags d name) fun r own' => ∀ a, r = some a → Within own' a :=
  findMake_confined tempfsMkdir_confined region within

theorem findFile_confined (region : Region vfsObjects v own) (within : Within own d) :
    Confined vfsObjects own v (findFile fs flags d name) fun r own' => ∀ a, r = some a → Within own' a :=
  findMake_confined tempfsMkfile_confined region within

theorem openWalk_confined (region : Region vfsObjects v own) (within : Within own d) :
    Confined vfsObjects own v (openWalk fs flags mode n path newPath d) fun r own' => ∀ p, r = some p → Within own' p.1 := by
  induction n generalizing v own path newPath d with
  | zero =>
    unfold openWalk
    split
    · exact .pure region fun p some => Option.some.inj some ▸ within
    · exact .stop
  | succ n ih =>
    unfold openWalk
    split
    · exact .pure region fun p some => Option.some.inj some ▸ within
    · dsimp only
      split
      · refine (findDir_confined region within).bind fun found own₁ v₁ g₁ inside => ?_
        cases found with
        | none => exact .pure g₁.region none_opened
        | some thisDir =>
          refine (openDir_confined g₁.region (inside _ rfl)).bind fun next own₂ v₂ g₂ both => ?_
          obtain ⟨onward, same⟩ := both
          subst same
          exact ih g₂.region onward
      · refine (findFile_confined region within).bind fun found own₁ v₁ g₁ inside => ?_
        cases found with
        | none => exact .pure g₁.region none_opened
        | some thisFile =>
          refine (call_confined (tempfsOpenFile_confined (region_objects g₁.region) (inside _ rfl))).bind
            fun opened own₂ v₂ g₂ reached => ?_
          exact .pure g₂.region fun p some => Option.some.inj some ▸ reached

/-- An `open` that creates nothing. -/
theorem openWalk_stable (region : Region vfsObjects v own) (within : Within own d) :
    Stable vfsObjects own v (openWalk fs {} mode n path newPath d) := by
  have finds : ∀ {d name}, Within own d →
      Steady vfsObjects own v (findDir fs {} d name) fun r => ∀ a, r = some a → Within own a :=
    findMake_steady (by decide) region
  have last : ∀ {d name}, Within own d →
      Steady vfsObjects own v (findFile fs {} d name) fun r => ∀ a, r = some a → Within own a :=
    findMake_steady (by decide) region
  induction n generalizing path newPath d with
  | zero =>
    unfold openWalk
    split
    · exact .pure
    · exact .stop
  | succ n ih =>
    unfold openWalk
    split
    · exact .pure
    · dsimp only
      split
      · refine .bind (finds within) fun found inside => ?_
        cases found with
        | none => exact .pure
        | some thisDir =>
          exact .bind (call_steady (tempfsOpenDir_steady (region_objects region) (inside _ rfl))) fun next onward => ih onward
      · refine .bind (last within) fun found inside => ?_
        cases found with
        | none => exact .pure
        | some thisFile =>
          exact .bind_pure (call_stable (tempfsOpenFile_stable (region_objects region) (inside _ rfl))) fun _ => ⟨_, rfl⟩

theorem deviceWalk_confined {operations : DeviceOps} (region : Region vfsObjects v own) (within : Within own d) :
    Confined vfsObjects own v (deviceWalk fs operations n path newPath d) fun _ _ => True := by
  induction n generalizing v own path newPath d with
  | zero =>
    unfold deviceWalk
    split
    · exact .pure region trivial
    · exact .stop
  | succ n ih =>
    unfold deviceWalk
    split
    · exact .pure region trivial
    · dsimp only
      split
      · refine (find_confined region within).bind fun thisDir own₁ v₁ g₁ both => ?_
        obtain ⟨inside, same⟩ := both
        subst same
        split
        · exact .pure g₁.region trivial
        · refine (openDir_confined g₁.region inside).bind fun next own₂ v₂ g₂ both => ?_
          obtain ⟨onward, same⟩ := both
          subst same
          exact ih g₂.region onward
      · refine (find_confined region within).bind fun thisFile own₁ v₁ g₁ both => ?_
        obtain ⟨_, same⟩ := both
        subst same
        split
        · exact .pure g₁.region trivial
        · refine (call_confined (tempfsCreateDevice_confined (region_objects g₁.region) within)).bind fun _ own₂ v₂ g₂ _ => ?_
          exact (find_confined g₂.region (within.mono g₂.keeps)).bind fun _ _ _ g₃ _ => .pure g₃.region trivial

theorem mkdirWalk_confined {p q : Nat → Nat → UInt8} {bound k i : Nat} (region : Region vfsObjects v own)
    (within : Within own d) :
    Confined vfsObjects own v (mkdirWalk fs p q bound n k i d) fun _ _ => True := by
  induction n generalizing v own k i d with
  | zero =>
    unfold mkdirWalk
    split
    · exact .pure region trivial
    · exact .stop
  | succ n ih =>
    unfold mkdirWalk
    split
    · exact .pure region trivial
    · dsimp only
      split
      · exact .stop
      next name _ =>
        split
        · exact .pure region trivial
        · have rest : ∀ own' w thisDir, Region vfsObjects w own' → Within own' thisDir → Confined vfsObjects own' w (do
              let next ← fs.call (tempfsOpenDir thisDir)
              mkdirWalk fs p q bound n (k + 1) (i + name.length + 1) next) fun _ _ => True := by
            intro own' w thisDir region within
            refine (openDir_confined region within).bind fun next own₁ v₁ g₁ ⟨onward, same⟩ => ?_
            subst same
            exact ih g₁.region onward
          refine (find_confined region within).bind fun thisDir own₁ v₁ g₁ ⟨inside, same⟩ => ?_
          subst same
          split
          · refine (call_confined (tempfsMkdir_confined (region_objects g₁.region) within)).bind fun _ own₂ v₂ g₂ _ => ?_
            refine (find_confined g₂.region (within.mono g₂.keeps)).bind fun made own₃ v₃ g₃ ⟨inside, same⟩ => ?_
            subst same
            exact rest _ _ _ g₃.region inside
          · exact rest _ _ _ g₁.region inside

/-! ### The calls of the virtual file system -/

theorem findRoot_confined (region : Region vfsObjects v own) (within : Within own a) :
    Confined vfsObjects own v (fs.call (tempfsFindRoot a)) fun r own' => Within own r ∧ own' = own :=
  (call_steady (.pure within)).confined region

theorem vfsOpen_confined (region : Region vfsObjects v own)
    (root : Within own (v.drives (driveNum ((absolutePath v.currentDir path).getD 0 0))).memOffset) :
    Confined vfsObjects own v (vfsOpen path flags mode) fun r own' =>
      ∀ f, r = some f → f.driveChar = (absolutePath v.currentDir path).getD 0 0 ∧ Within own' f.privateData := by
  refine .bind_get ?_
  dsimp only
  split
  · exact .pure region none_opened
  refine .bind_get ?_
  split
  · exact .pure region none_opened
  refine (findRoot_confined region root).bind fun found own₁ v₁ g₁ ⟨inside, same⟩ => ?_
  subst same
  refine (openDir_confined g₁.region inside).bind fun currentObj own₂ v₂ g₂ ⟨inside, same⟩ => ?_
  subst same
  refine (openWalk_confined g₂.region inside).bind fun reached own₃ v₃ g₃ inside => ?_
  cases reached with
  | none => exact .pure g₃.region none_opened
  | some p =>
    refine .pure g₃.region fun f some => ?_
    obtain rfl := Option.some.inj some
    exact ⟨rfl, inside p rfl⟩

theorem createDevice_confined {operations : DeviceOps} (region : Region vfsObjects v own)
    (root : Within own (v.drives (driveNum ((absolutePath v.currentDir path).getD 0 0))).memOffset) :
    Confined vfsObjects own v (createDevice path operations) fun _ _ => True := by
  refine .bind_get ?_
  dsimp only
  split
  · exact .pure region trivial
  refine .bind_get ?_
  split
  · exact .pure region trivial
  split
  · exact .pure region trivial
  refine (findRoot_confined region root).bind fun found own₁ v₁ g₁ ⟨inside, same⟩ => ?_
  subst same
  refine (openDir_confined g₁.region inside).bind fun currentObj own₂ v₂ g₂ ⟨inside, same⟩ => ?_
  subst same
  exact deviceWalk_confined g₂.region inside

theorem vfsMkdir_confined {beyond stale : Nat → Nat → UInt8} {bound : Nat} (region : Region vfsObjects v own)
    (root : Within own (v.drives (driveNum (upperCase ((absolutePath v.currentDir path).getD 0 0)))).memOffset) :
    Confined vfsObjects own v (vfsMkdir path beyond stale bound) fun _ _ => True := by
  refine .bind_get ?_
  dsimp only
  split
  · exact .pure region trivial
  split
  · exact .pure region trivial
  refine .bind_get ?_
  refine (findRoot_confined region root).bind fun found own₁ v₁ g₁ ⟨inside, same⟩ => ?_
  subst same
  refine (openDir_confined g₁.region inside).bind fun currentObj own₂ v₂ g₂ ⟨inside, same⟩ => ?_
  subst same
  exact (mkdirWalk_confined g₂.region inside).bind fun _ _ _ g₃ _ => .pure g₃.region trivial

theorem writeUnprinted_confined {f : File} {buffer : Mem} {size : Nat} (region : Region vfsObjects v own)
    (within : Within own f.privateData) : Confined vfsObjects own v (writeUnprinted f buffer size) fun _ _ => True := by
  unfold writeUnprinted
  split
  · exact .pure region trivial
  · exact .bind_get (call_confined (tempfsWrite_confined (region_objects region) within))

theorem vfsWrite_confined {m : Mem} {args : Nat → UInt64} {f : File} {buffer size : Nat} (region : Region vfsObjects v own)
    (within : Within own f.privateData) :
    Confined vfsObjects own v (vfsWrite m args f buffer size) fun _ _ => True :=
  fun r w run => writeUnprinted_confined region within r w (vfsWrite_ok run)

theorem vfsRead_confined {f : File} {buffer : Mem} {maxLen : Nat} (region : Region vfsObjects v own)
    (within : Within own f.privateData) : Confined vfsObjects own v (vfsRead f buffer maxLen) fun _ _ => True := by
  have steady : Steady objects own v.tempFs (tempfsRead f.privateData buffer maxLen) fun _ => True :=
    tempfsRead_steady (region_objects region) within
  unfold vfsRead
  split
  · exact .pure region trivial
  · exact .bind_get (.imp ((call_steady steady).confined region) fun _ _ _ => trivial)

theorem vfsClose_confined {f : File} (region : Region vfsObjects v own) (within : Within own f.privateData) :
    Confined vfsObjects own v (vfsClose f) fun _ _ => True :=
  .bind_get (.imp ((call_steady (tempfsClose_steady (region_objects region) within)).confined region) fun _ _ _ => trivial)

/-! ### The regions of the drives -/

/-- The regions of the drives, and the opened files in them. -/
structure Separated (v : Vfs) (files : List File) (tree : Nat → Nat → Prop) : Prop where
  region : ∀ d, Region vfsObjects v (tree d)
  apart : ∀ d e a, d ≠ e → tree d a → ¬ tree e a
  roots : ∀ d, Within (tree d) (v.drives d).memOffset
  files : ∀ f ∈ files, Within (tree (driveNum f.driveChar)) f.privateData

/-- Nothing of drive `y` changed. -/
structure DriveKept (y : Nat) (tree tree' : Nat → Nat → Prop) (v w : Vfs) : Prop where
  region : tree' y = tree y
  drive : w.drives y = v.drives y
  agrees : Regions.Agrees vfsObjects (tree y) v w

namespace Separated

variable {files files' : List File} {tree : Nat → Nat → Prop} {own' : Nat → Prop}

theorem start : Separated {} [] fun _ _ => False where
  region := by
    refine fun d => ⟨fun _ inside => inside.elim, fun _ _ inside => inside.elim, fun a b _ reaches => ?_⟩
    rcases reaches with first | inner | next | last
    · exact first
    · exact inner
    · exact next
    · exact last
  apart := fun _ _ _ _ inside => inside.elim
  roots := fun _ => within_null
  files := List.forall_mem_nil _

theorem grow (before : Separated v files tree) (grows : Grows vfsObjects (tree d) own' v w)
    (opened : ∀ f ∈ files', f ∈ files ∨ driveNum f.driveChar = d ∧ Within own' f.privateData) :
    Separated w files' (Function.update tree d own') where
  region := by
    intro e
    by_cases same : e = d
    · subst same
      rw [Function.update_self]
      exact grows.region
    · rw [Function.update_of_ne same]
      exact grows.frame (before.region e) fun a mine => before.apart d e a (Ne.symm same) mine
  apart := by
    have beyond : ∀ e a, e ≠ d → own' a → ¬ tree e a := fun e a other mine =>
      grows.apart (before.region e) (fun a mine => before.apart d e a (Ne.symm other) mine) a mine
    intro e₁ e₂ a other mine
    by_cases first : e₁ = d
    · subst first
      rw [Function.update_self] at mine
      rw [Function.update_of_ne (Ne.symm other)]
      exact beyond e₂ a (Ne.symm other) mine
    · rw [Function.update_of_ne first] at mine
      by_cases second : e₂ = d
      · subst second
        rw [Function.update_self]
        exact fun new => beyond e₁ a first new mine
      · rw [Function.update_of_ne second]
        exact before.apart e₁ e₂ a other mine
  roots := by
    intro e
    rw [grows.rest.1]
    by_cases same : e = d
    · subst same
      rw [Function.update_self]
      exact (before.roots e).mono grows.keeps
    · rw [Function.update_of_ne same]
      exact before.roots e
  files := by
    intro f member
    rcases opened f member with old | ⟨there, inside⟩
    · by_cases same : driveNum f.driveChar = d
      · rw [same, Function.update_self]
        exact Within.mono (same ▸ before.files f old) grows.keeps
      · rw [Function.update_of_ne same]
        exact before.files f old
    · rw [there, Function.update_self]
      exact inside

theorem kept (before : Separated v files tree) (grows : Grows vfsObjects (tree d) own' v w) (other : y ≠ d) :
    DriveKept y tree (Function.update tree d own') v w where
  region := Function.update_of_ne other ..
  drive := congrFun grows.rest.1 y
  agrees := grows.agrees (before.region y) fun a mine => before.apart d y a (Ne.symm other) mine

/-- A call that keeps to drive `d`. -/
theorem call {α : Type} {x : VfsM α} {post : α → (Nat → Prop) → Prop} {r : α} (before : Separated v files tree)
    (here : Confined vfsObjects (tree d) v x post) (run : x v = .ok (r, w))
    (opened : ∀ own', post r own' → ∀ f ∈ files', f ∈ files ∨ driveNum f.driveChar = d ∧ Within own' f.privateData) :
    ∃ tree', Separated w files' tree' ∧ ∀ y ≠ d, DriveKept y tree tree' v w := by
  obtain ⟨own', grows, holds⟩ := here r w run
  exact ⟨_, before.grow grows (opened own' holds), fun y other => before.kept grows other⟩

/-- The objects stay as they are, and a drive gets another tree of its region. -/
theorem setDrive {drive : Drive} (before : Separated v files tree) (within : Within (tree d) drive.memOffset) :
    Separated { v with drives := Function.update v.drives d drive } files tree where
  region := fun e => ⟨(before.region e).known, (before.region e).closed, (before.region e).fresh⟩
  apart := before.apart
  roots := by
    intro e
    by_cases same : e = d
    · subst same
      dsimp only
      rw [Function.update_self]
      exact within
    · dsimp only
      rw [Function.update_of_ne same]
      exact before.roots e
  files := before.files

end Separated

section kept

variable {tree tree₁ tree₂ : Nat → Nat → Prop} {v₁ v₂ : Vfs}

theorem DriveKept.refl : DriveKept y tree tree v v := ⟨rfl, rfl, .refl _ v⟩

theorem DriveKept.trans (first : DriveKept y tree tree₁ v v₁) (second : DriveKept y tree₁ tree₂ v₁ v₂) :
    DriveKept y tree tree₂ v v₂ where
  region := second.region.trans first.region
  drive := second.drive.trans first.drive
  agrees := first.agrees.trans (fun _ mine => first.region.symm ▸ mine) second.agrees

theorem driveKept_setDrive {drive : Drive} (other : y ≠ d) :
    DriveKept y tree tree v { v with drives := Function.update v.drives d drive } :=
  ⟨rfl, Function.update_of_ne other .., Nat.le_refl _, fun a _ => vfsObjects.same_refl a v⟩

end kept

/-! ### Runs -/

/-- A call of the file system, or a change of the drives or the current directory. -/
inductive Use where
  | openFile (path : Name) (flags : OpenFlags) (mode : UInt8)
  | createDevice (path : Name) (operations : DeviceOps)
  | mkdir (path : Name) (beyond stale : Nat → Nat → UInt8) (bound : Nat)
  | write (m : Mem) (args : Nat → UInt64) (f : File) (buffer size : Nat)
  | read (f : File) (buffer : Mem) (maxLen : Nat)
  | close (f : File)
  | mountNew (letter : UInt8)
  | unmount (letter : UInt8)
  | changeCd (path : Name)

/-- The file that the call opens. -/
def Use.run : Use → VfsM (Option File)
  | .openFile path flags mode => vfsOpen path flags mode
  | .createDevice path operations => do
    let _ ← Fs.createDevice path operations
    return none
  | .mkdir path beyond stale bound => do
    let _ ← vfsMkdir path beyond stale bound
    return none
  | .write m args f buffer size => do
    let _ ← vfsWrite m args f buffer size
    return none
  | .read f buffer maxLen => do
    let _ ← vfsRead f buffer maxLen
    return none
  | .close f => do
    vfsClose f
    return none
  | .mountNew letter => do
    let _ ← Fs.mountNew letter
    return none
  | .unmount letter => do
    let _ ← Fs.unmount letter
    return none
  | .changeCd path => do
    Fs.changeCd path
    return none

/-- The drive that the call is for. -/
def Use.drive (v : Vfs) : Use → Option Nat
  | .openFile path _ _ | .createDevice path _ => some (driveNum ((absolutePath v.currentDir path).getD 0 0))
  | .mkdir path _ _ _ => some (driveNum (upperCase ((absolutePath v.currentDir path).getD 0 0)))
  | .write _ _ f _ _ | .read f _ _ | .close f => some (driveNum f.driveChar)
  | .mountNew letter | .unmount letter => some (driveNum (upperCase letter))
  | .changeCd _ => none

/-- A file that is used was opened before. -/
def Use.Knows (files : List File) : Use → Prop
  | .write _ _ f _ _ | .read f _ _ | .close f => f ∈ files
  | _ => True

/-- Names fit in their field, and no directory is written to: `tempfs_write` takes its entries for file nodes. -/
def Use.Fits (v : Vfs) : Use → Prop
  | .openFile path _ _ | .createDevice path _ =>
    ∀ c ∈ ((absolutePath v.currentDir path).drop 3).splitOn slash, c.length ≤ 19
  | .mkdir path _ stale bound =>
    ∀ k i c, nameFrom (copyByte (absolutePath v.currentDir path) (stale k)) bound i = some c → c.length ≤ 19
  | .write _ _ f _ _ => (v.tempFs.inodes f.privateData).isDir = false
  | _ => True

/-- The calls of a run, each of which `allowed` lets happen. -/
inductive UseRun (allowed : Vfs → Use → Prop) (v : Vfs) (files : List File) : Vfs → List File → Prop where
  | start : UseRun allowed v files v files
  | step {w w' : Vfs} {files' : List File} {u : Use} {r : Option File} (before : UseRun allowed v files w files')
    (known : u.Knows files') (fits : u.Fits w) (may : allowed w u) (run : u.run w = .ok (r, w')) :
    UseRun allowed v files w' (r.toList ++ files')

section runs

variable {files files' : List File} {tree : Nat → Nat → Prop}

theorem mount_cases {letter : UInt8} {memOffset disk status : Nat}
    (run : mount letter fsTempfs true memOffset disk v = .ok (status, w)) : w = v ∨ ∃ drive : Drive,
      drive.memOffset = memOffset ∧ w = { v with drives := Function.update v.drives (driveNum (upperCase letter)) drive } := by
  unfold mount at run
  dsimp only at run
  split at run
  · exact .inl (pure_ok run).2.symm
  · obtain ⟨_, v₁, sets, run⟩ := bind_ok run
    obtain rfl := modify_ok sets
    obtain ⟨-, rfl⟩ := pure_ok run
    exact .inr ⟨_, rfl, rfl⟩

theorem unmount_cases {letter : UInt8} {status : Nat} (run : unmount letter v = .ok (status, w)) : w = v ∨
    w = { v with drives := Function.update v.drives (driveNum (upperCase letter)) {} } := by
  unfold unmount at run
  split at run
  · exact .inl (pure_ok run).2.symm
  · obtain ⟨_, v₁, sets, run⟩ := bind_ok run
    obtain rfl := modify_ok sets
    obtain ⟨-, rfl⟩ := pure_ok run
    exact .inr rfl

/-- A call that opens nothing. -/
theorem Separated.plain {α : Type} {x : VfsM α} {post : α → (Nat → Prop) → Prop} {r : Option File}
    (before : Separated v files tree) (here : Confined vfsObjects (tree d) v x post)
    (run : (x >>= fun _ => pure none) v = .ok (r, w)) :
    ∃ tree', Separated w (r.toList ++ files) tree' ∧ ∀ y ≠ d, DriveKept y tree tree' v w := by
  obtain ⟨_, v₁, called, run⟩ := bind_ok run
  obtain ⟨rfl, rfl⟩ := pure_ok run
  exact before.call here called fun _ _ f member => .inl member

/-- One call: the region of its drive grows, and the other drives stay as they are. -/
theorem Separated.step {u : Use} {r : Option File} (before : Separated v files tree) (known : u.Knows files)
    (run : u.run v = .ok (r, w)) : ∃ tree', Separated w (r.toList ++ files) tree' ∧
      ∀ y, u.drive v ≠ some y → DriveKept y tree tree' v w := by
  suffices h : ∀ d, u.drive v = some d → ∃ tree', Separated w (r.toList ++ files) tree' ∧
      ∀ y ≠ d, DriveKept y tree tree' v w by
    cases named : u.drive v with
    | some d =>
      obtain ⟨tree', after, kept⟩ := h d named
      exact ⟨tree', after, fun y other => kept y fun same => other (congrArg some same.symm)⟩
    | none =>
      cases u with
      | changeCd path =>
        obtain ⟨_, v₁, changes, run⟩ := bind_ok run
        obtain rfl := modify_ok changes
        obtain ⟨rfl, rfl⟩ := pure_ok run
        have region : ∀ e, Region vfsObjects { v with currentDir := newDir v.currentDir path } (tree e) :=
          fun e => ⟨(before.region e).known, (before.region e).closed, (before.region e).fresh⟩
        exact ⟨tree, ⟨region, before.apart, before.roots, before.files⟩, fun y _ =>
          ⟨rfl, rfl, Nat.le_refl _, fun _ _ => vfsObjects.same_refl _ v⟩⟩
      | _ => cases named
  rintro d named
  cases u with
  | openFile path flags mode =>
    obtain rfl := Option.some.inj named
    refine before.call (vfsOpen_confined (before.region _) (before.roots _)) run fun own' opened f member => ?_
    rcases List.mem_append.mp member with new | old
    · obtain ⟨letter, inside⟩ := opened f (Option.mem_toList.mp new)
      exact .inr ⟨congrArg driveNum letter, inside⟩
    · exact .inl old
  | createDevice path operations =>
    obtain rfl := Option.some.inj named
    exact before.plain (createDevice_confined (before.region _) (before.roots _)) run
  | mkdir path beyond stale bound =>
    obtain rfl := Option.some.inj named
    exact before.plain (vfsMkdir_confined (before.region _) (before.roots _)) run
  | write m args f buffer size =>
    obtain rfl := Option.some.inj named
    exact before.plain (vfsWrite_confined (before.region _) (before.files f known)) run
  | read f buffer maxLen =>
    obtain rfl := Option.some.inj named
    exact before.plain (vfsRead_confined (before.region _) (before.files f known)) run
  | close f =>
    obtain rfl := Option.some.inj named
    exact before.plain (vfsClose_confined (before.region _) (before.files f known)) run
  | mountNew letter =>
    obtain rfl := Option.some.inj named
    obtain ⟨_, v₁, mounts, run⟩ := bind_ok run
    obtain ⟨rfl, rfl⟩ := pure_ok run
    obtain ⟨root, v₂, makes, mounts⟩ := bind_ok mounts
    obtain ⟨own', grows, mine⟩ := call_confined (tempfsNew_confined (region_objects (before.region _))) root v₂ makes
    have after : Separated v₂ files (Function.update tree (driveNum (upperCase letter)) own') :=
      before.grow grows fun _ member => .inl member
    rcases mount_cases mounts with rfl | ⟨drive, placed, rfl⟩
    · exact ⟨_, after, fun y other => before.kept grows other⟩
    · refine ⟨_, after.setDrive (d := driveNum (upperCase letter)) ?_, fun y other =>
        (before.kept grows other).trans (driveKept_setDrive other)⟩
      rw [Function.update_self, placed]
      exact fun _ => mine
  | unmount letter =>
    obtain rfl := Option.some.inj named
    obtain ⟨_, v₁, unmounts, run⟩ := bind_ok run
    obtain ⟨rfl, rfl⟩ := pure_ok run
    rcases unmount_cases unmounts with rfl | rfl
    · exact ⟨tree, before, fun y _ => .refl⟩
    · exact ⟨tree, before.setDrive within_null, fun y other => driveKept_setDrive other⟩
  | changeCd path => cases named

theorem UseRun.separated {allowed : Vfs → Use → Prop} (run : UseRun allowed v files w files')
    (before : Separated v files tree) : ∃ tree', Separated w files' tree' ∧
      ∀ y, (∀ x u, allowed x u → u.drive x ≠ some y) → DriveKept y tree tree' v w := by
  induction run with
  | start => exact ⟨tree, before, fun _ _ => .refl⟩
  | step earlier known fits may run ih =>
    obtain ⟨tree₁, between, kept⟩ := ih
    obtain ⟨tree₂, after, further⟩ := between.step known run
    exact ⟨tree₂, after, fun y away => (kept y away).trans (further y (away _ _ may))⟩

/-! ### What a program sees of a drive -/

/-- What was answered about drive `y` and its files in `v` is answered in `w`. What a device answers is its own affair. -/
structure SameAnswers (y : Nat) (files : List File) (v w : Vfs) : Prop where
  drive : w.drives y = v.drives y
  opens : ∀ path mode, ¬ NotAbsolute path → driveNum (path.getD 0 0) = y → ∀ r v', vfsOpen path {} mode v = .ok (r, v') →
    ∃ w', vfsOpen path {} mode w = .ok (r, w')
  lengths : ∀ f ∈ files, driveNum f.driveChar = y → ∀ n v', fileLength f v = .ok (n, v') → fileLength f w = .ok (n, w)
  reads : ∀ f ∈ files, driveNum f.driveChar = y → (v.tempFs.inodes f.privateData).isDir = false →
    (v.tempFs.inodes f.privateData).type ≠ filetypeDevice → ∀ buffer maxLen r v',
    vfsRead f buffer maxLen v = .ok (r, v') → vfsRead f buffer maxLen w = .ok (r, w)

/-- `open` of an absolute path, with the drive that it finds. -/
def openOn (drive : Drive) (path : Name) (flags : OpenFlags) (mode : UInt8) : VfsM (Option File) := do
  if ¬ isDriveLetter (path.getD 0 0) then return none
  if ¬ drive.present then return none
  let root ← drive.fs.call (tempfsFindRoot drive.memOffset)
  let currentObj ← drive.fs.call (tempfsOpenDir root)
  match ← openWalk drive.fs flags mode path.length (path.drop 3) (path.drop 3) currentObj with
  | none => return none
  | some (reached, newPath) => return some ⟨mode, path.getD 0 0, reached, checkFileType newPath⟩

theorem vfsOpen_absolute (absolute : ¬ NotAbsolute path) :
    vfsOpen path flags mode v = openOn (v.drives (driveNum (path.getD 0 0))) path flags mode v := by
  have same : absolutePath v.currentDir path = path := if_neg absolute
  unfold vfsOpen openOn
  rw [bind_eq run_get, same]
  split
  · rfl
  · exact bind_eq run_get

theorem openOn_stable {drive : Drive} (region : Region vfsObjects v own) (root : Within own drive.memOffset) :
    Stable vfsObjects own v (openOn drive path {} mode) := by
  unfold openOn
  split
  · exact .pure
  split
  · exact .pure
  refine .bind (call_steady (Steady.pure root)) fun found inside => ?_
  refine .bind (call_steady (tempfsOpenDir_steady (region_objects region) inside)) fun currentObj inside => ?_
  refine .bind_pure (openWalk_stable region inside) fun reached => ?_
  cases reached with
  | none => exact ⟨_, rfl⟩
  | some p => exact ⟨_, rfl⟩

/-- Whatever programs do on the other drives, mounting and unmounting included, and wherever they go, what was answered
about a drive and its files stays. -/
theorem drives_independent (earlier : UseRun (fun _ _ => True) {} [] v files)
    (later : UseRun (fun x u => u.drive x ≠ some y) v files w files') : SameAnswers y files v w := by
  obtain ⟨tree, before, _⟩ := earlier.separated .start
  obtain ⟨tree', _, kept⟩ := later.separated before
  obtain ⟨_, drive, agrees⟩ := kept y fun _ _ away => away
  refine ⟨drive, fun path mode absolute here r v' run => ?_, fun f member here n v' run => ?_,
    fun f member here _ _ buffer maxLen r v' run => ?_⟩
  · rw [vfsOpen_absolute absolute, here] at run ⊢
    rw [drive]
    exact openOn_stable (before.region y) (before.roots y) r v' run w agrees
  · have within := before.files f member
    rw [here] at within
    unfold fileLength at run ⊢
    rw [bind_eq run_get, here] at run ⊢
    rw [drive]
    exact (call_steady (tempfsLength_steady (region_objects (before.region y)) within) n v' run).2.2 w agrees
  · have within := before.files f member
    rw [here] at within
    unfold vfsRead at run ⊢
    split at run
    next refused =>
      obtain ⟨rfl, -⟩ := pure_ok run
      rw [if_pos refused]
      rfl
    next open₁ =>
      rw [if_neg open₁]
      rw [bind_eq run_get, here] at run ⊢
      rw [drive]
      exact (call_steady (tempfsRead_steady (region_objects (before.region y)) within) r v' run).2.2 w agrees

end runs

theorem nameFrom_length {p : Nat → UInt8} {bound i : Nat} {c : Name} (named : nameFrom p bound i = some c) :
    c.length < bound := by
  induction bound generalizing i c with
  | zero => cases named
  | succ bound ih =>
    unfold nameFrom at named
    split at named
    · obtain rfl := Option.some.inj named
      exact Nat.succ_pos bound
    · obtain ⟨rest, behind, rfl⟩ := Option.map_eq_some_iff.mp named
      exact Nat.succ_lt_succ (ih behind)

/-- A file of `B:` keeps its length and its place while `A:` gets a directory and `C:` comes. -/
theorem drives_independent_threeDrives : ∃ v w f, (v.drives 2).present = false ∧
    (w.drives 2).present = true ∧ (∃ v', fileLength f v = .ok (7, v')) ∧ fileLength f w = .ok (7, w) ∧ ∃ g v' w',
      vfsOpen [66, 58, 47, 120] {} modeReadonly v = .ok (some g, v') ∧
      vfsOpen [66, 58, 47, 120] {} modeReadonly w = .ok (some g, w') := by
  have check : returns (Use.mountNew 65).run {} (fun _ v₁ => returns (Use.mountNew 66).run v₁ fun _ v₂ =>
      returns (Use.openFile [66, 58, 47, 120] oCreatAll 3).run v₂ fun r v₃ => r.elim false fun f =>
        f.driveChar == 66 && !(v₃.tempFs.inodes f.privateData).isDir &&
          returns (Use.write (fun _ => 1) (fun _ => 0) f 0 7).run v₃ fun _ v =>
          returns (fileLength f) v (fun n _ => n == 7) && !(v.drives 2).present &&
          returns (vfsOpen [66, 58, 47, 120] {} modeReadonly) v (fun g _ => g.isSome) &&
          returns (Use.mkdir [65, 58, 47, 121] (fun _ _ => 0) (fun _ _ => 0) 8).run v fun _ w₁ =>
            returns (Use.mountNew 67).run w₁ fun _ w => (w.drives 2).present) = true := by
    decide +kernel
  obtain ⟨_, v₁, mounts₁, check⟩ := returns_iff.mp check
  obtain ⟨_, v₂, mounts₂, check⟩ := returns_iff.mp check
  obtain ⟨r, v₃, opens, check⟩ := returns_iff.mp check
  obtain _ | f := r
  · cases check
  obtain ⟨check, rest⟩ := Bool.and_eq_true_iff.mp check
  obtain ⟨letter, leaf⟩ := Bool.and_eq_true_iff.mp check
  replace leaf : (v₃.tempFs.inodes f.privateData).isDir = false := by simpa using leaf
  obtain ⟨_, v, writes, check⟩ := returns_iff.mp rest
  obtain ⟨check, makes⟩ := Bool.and_eq_true_iff.mp check
  obtain ⟨check, found⟩ := Bool.and_eq_true_iff.mp check
  obtain ⟨length, absent⟩ := Bool.and_eq_true_iff.mp check
  obtain ⟨n, v', length, seven⟩ := returns_iff.mp length
  obtain ⟨g, v'', found, opened⟩ := returns_iff.mp found
  obtain ⟨_, w₁, makes, check⟩ := returns_iff.mp makes
  obtain ⟨_, w, mounts₃, present⟩ := returns_iff.mp check
  obtain rfl := beq_iff_eq.mp seven
  obtain ⟨g, rfl⟩ := Option.isSome_iff_exists.mp opened
  have short : (Use.openFile [66, 58, 47, 120] oCreatAll 3).Fits v₂ := by
    have absolute : absolutePath v₂.currentDir [66, 58, 47, 120] = [66, 58, 47, 120] := if_neg (by decide)
    show ∀ c ∈ ((absolutePath v₂.currentDir [66, 58, 47, 120]).drop 3).splitOn slash, c.length ≤ 19
    rw [absolute]
    decide
  have few : (Use.mkdir [65, 58, 47, 121] (fun _ _ => 0) (fun _ _ => 0) 8).Fits v := fun k i c named => by
    have bounded := nameFrom_length named
    omega
  obtain ⟨files, earlier, member⟩ : ∃ files, UseRun (fun _ _ => True) {} [] v files ∧ f ∈ files :=
    ⟨_, .step (u := .write _ _ f _ _) (.step (u := .openFile _ _ _) (.step (u := .mountNew 66)
      (.step (u := .mountNew 65) .start trivial trivial trivial mounts₁) trivial trivial trivial mounts₂)
      trivial short trivial opens) List.mem_cons_self leaf trivial writes,
      List.mem_append_right _ List.mem_cons_self⟩
  have elsewhere : (Use.mkdir [65, 58, 47, 121] (fun _ _ => 0) (fun _ _ => 0) 8).drive v ≠ some 1 := by
    have absolute : absolutePath v.currentDir [65, 58, 47, 121] = [65, 58, 47, 121] := if_neg (by decide)
    show some (driveNum (upperCase ((absolutePath v.currentDir [65, 58, 47, 121]).getD 0 0))) ≠ _
    rw [absolute]
    decide
  have third : (Use.mountNew 67).drive w₁ ≠ some 1 := by
    show some (driveNum (upperCase 67)) ≠ _
    decide
  obtain ⟨files', later⟩ : ∃ files', UseRun (fun x u => u.drive x ≠ some 1) v files w files' :=
    ⟨_, .step (u := .mountNew 67) (.step (u := .mkdir _ _ _ _) .start trivial few elsewhere makes) trivial trivial third
      mounts₃⟩
  have same := drives_independent earlier later
  obtain ⟨w', again⟩ := same.opens [66, 58, 47, 120] modeReadonly (by decide) (by decide) _ _ found
  refine ⟨v, w, f, by simpa using absent, present, ⟨v', length⟩, ?_, g, v'', w', found, again⟩
  exact same.lengths f member (by rw [beq_iff_eq.mp letter]; decide) 7 v' length

end PotatOS.Fs
