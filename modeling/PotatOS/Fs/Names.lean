import PotatOS.Fs.Paths

/-!
# TempFS as a tree of names

The abstract view of a drive is the map from paths to the inodes created for
them. `NameStep` says what `open` and `create_device` answer and how they change
that map; every run of the calls on a new drive is a run of these steps, and in
every state its directories are chains of distinct names.
-/

namespace PotatOS.Fs

open Prog

/-- `X:/c1/…/cn`. -/
def drivePath (letter : UInt8) (comps : List Name) : Name := letter :: colon :: slash :: joinPath comps

/-- A new TempFS on a drive, as `setup_initrd` and `init_devices` mount it. -/
def mountNew (letter : UInt8) : VfsM Nat := do
  let root ← FileSystem.tempFs.call tempfsNew
  mount letter fsTempfs true root 0

/-! ### Calls on a mounted drive -/

/-- The drive is mounted on the file system at `root`. -/
structure Mounted (v : Vfs) (letter : UInt8) (root : Nat) : Prop where
  isLetter : isDriveLetter letter = true
  drive : v.drives (driveNum letter) = { present := true, fs := .tempFs, memOffset := root }

section mounted

variable {v : Vfs} {letter mode : UInt8} {base root : Nat} {comps : List Name} {T : Tree} {flags : OpenFlags}

theorem Mounted.kept (mounted : Mounted v letter root) (t : TempFs) : Mounted { v with tempFs := t } letter root :=
  ⟨mounted.isLetter, mounted.drive⟩

@[simp] theorem absolutePath_drive {currentDir rest : Name} :
    absolutePath currentDir (letter :: colon :: slash :: rest) = letter :: colon :: slash :: rest := by
  simp [absolutePath]

theorem absolutePath_drivePath (currentDir : Name) :
    absolutePath currentDir (drivePath letter comps) = drivePath letter comps := absolutePath_drive

theorem length_le_join (ordinary : ∀ c ∈ comps, Ordinary c) : comps.length ≤ (joinPath comps).length := by
  induction comps with
  | nil => exact Nat.zero_le _
  | cons c rest ih =>
    have here : 0 < c.length := List.length_pos_of_ne_nil (ordinary c (List.mem_cons_self ..)).1
    have later := ih fun c inside => ordinary c (List.mem_cons_of_mem _ inside)
    cases rest with
    | nil => exact here
    | cons next rest =>
      simp only [joinPath, List.length_cons, List.length_append] at later ⊢
      omega

theorem root_calls (nonnull : root ≠ 0) (isDir : (v.tempFs.inodes root).isDir = true) :
    FileSystem.tempFs.call (tempfsFindRoot root) v = .ok (root, v) ∧
      FileSystem.tempFs.call (tempfsOpenDir root) v = .ok (root, v) :=
  ⟨FileSystem.call_run rfl, FileSystem.call_run (tempfsOpenDir_run nonnull isDir)⟩

theorem root_run (models : Models v.tempFs base root T) :
    FileSystem.tempFs.call (tempfsFindRoot root) v = .ok (root, v) ∧
      FileSystem.tempFs.call (tempfsOpenDir root) v = .ok (root, v) :=
  root_calls (models.valid [] root models.rootAt).1 models.rootDir

theorem vfsOpen_mounted (mounted : Mounted v letter root) (models : Models v.tempFs base root T) :
    vfsOpen (drivePath letter comps) flags mode v =
      (do
        match ← openWalk .tempFs flags mode (drivePath letter comps).length (joinPath comps) (joinPath comps) root with
        | none => return none
        | some (reached, newPath) => return some (File.mk mode letter reached (checkFileType newPath))) v := by
  obtain ⟨findRoot, openRoot⟩ := root_run models
  unfold vfsOpen
  rw [bind_eq run_get, absolutePath_drivePath]
  have first : (drivePath letter comps).getD 0 0 = letter := rfl
  have rest : (drivePath letter comps).drop 3 = joinPath comps := rfl
  simp only [first, rest, mounted.isLetter, not_true_eq_false, if_false]
  rw [bind_eq run_get, mounted.drive]
  simp only [not_true_eq_false, if_false]
  rewrite [bind_eq findRoot, bind_eq openRoot]
  rfl

theorem length_le_drivePath (ordinary : ∀ c ∈ comps, Ordinary c) : comps.length ≤ (drivePath letter comps).length := by
  have := length_le_join ordinary
  simp only [drivePath, List.length_cons]
  omega

theorem createDevice_mounted (operations : DeviceOps) (mounted : Mounted v letter root)
    (models : Models v.tempFs base root T) :
    createDevice (drivePath letter comps) operations v =
      deviceWalk .tempFs operations (drivePath letter comps).length (joinPath comps) (joinPath comps) root v := by
  obtain ⟨findRoot, openRoot⟩ := root_run models
  unfold createDevice
  rw [bind_eq run_get, absolutePath_drivePath]
  have first : (drivePath letter comps).getD 0 0 = letter := rfl
  have rest : (drivePath letter comps).drop 3 = joinPath comps := rfl
  simp only [first, rest, mounted.isLetter, not_true_eq_false, if_false]
  rw [bind_eq run_get, mounted.drive]
  dsimp only
  have onTempfs : ¬ FileSystem.tempFs.fsId ≠ fsTempfs := by decide
  have present : ¬ ¬ true = true := by decide
  rw [if_neg onTempfs, if_neg present]
  rw [bind_eq findRoot, bind_eq openRoot]

theorem upperCase_letter (isLetter : isDriveLetter letter = true) : upperCase letter = letter := by
  unfold upperCase
  have above : ¬ (97 ≤ letter ∧ letter ≤ 122) := by
    simp only [isDriveLetter, decide_eq_true_eq] at isLetter
    rintro ⟨low, -⟩
    have := UInt8.le_trans low isLetter.2
    exact absurd this (by decide)
  rw [if_neg above]

/-- `mountNew` on a heap whose unused blocks read as zeros. -/
theorem mountNew_run (isLetter : isDriveLetter letter = true)
    (unused : ∀ a, v.tempFs.used < a → v.tempFs.inodes a = {}) :
    ∃ w root chain, mountNew letter v = .ok (0, w) ∧ Mounted w letter root ∧
      Models w.tempFs v.tempFs.used root (.empty root chain) ∧ tempfsNew v.tempFs = .ok (root, w.tempFs) := by
  obtain ⟨t, chain, run, models, -⟩ := tempfsNew_models unused
  refine ⟨{ v with
    tempFs := t
    drives := Function.update v.drives (driveNum letter)
      { present := true, fs := .tempFs, memOffset := v.tempFs.used + 1 } }, _, chain, ?_, ⟨isLetter, ?_⟩, models,
    run⟩
  · unfold mountNew
    rw [bind_eq (FileSystem.call_run run)]
    unfold mount
    rw [upperCase_letter isLetter]
    simp only [isLetter, not_true_eq_false, if_false]
    rfl
  · exact Function.update_self ..

end mounted

/-! ### The abstract tree -/

/-- The inode created for each path. -/
abbrev Names := List Name → Option Nat

/-- A directory exists for every proper prefix of a created path. -/
def Names.HasDir (names : Names) (path : List Name) : Prop :=
  path = [] ∨ ∃ q i, names q = some i ∧ path <+: q ∧ path ≠ q

inductive Call where
  /-- `open(path, O_CREATALL, mode)` -/
  | openCreate (path : List Name) (mode : UInt8)
  /-- `open(path, 0, mode)` -/
  | openPlain (path : List Name) (mode : UInt8)
  | createDevice (path : List Name) (operations : DeviceOps)

def Call.path : Call → List Name
  | .openCreate path _ => path
  | .openPlain path _ => path
  | .createDevice path _ => path

/-- The components are ordinary, and a device's operations provide `open`. -/
def Call.WellFormed (call : Call) : Prop :=
  call.path ≠ [] ∧ (∀ c ∈ call.path, Ordinary c) ∧
    match call with
    | .createDevice _ operations => operations.openOp ≠ none
    | _ => True

inductive Result where
  | file (f : Option File)
  | status (n : Nat)

def runCall (letter : UInt8) : Call → VfsM Result
  | .openCreate path mode => return .file (← vfsOpen (drivePath letter path) oCreatAll mode)
  | .openPlain path mode => return .file (← vfsOpen (drivePath letter path) {} mode)
  | .createDevice path operations => return .status (← Fs.createDevice (drivePath letter path) operations)

def runCalls (letter : UInt8) : List Call → VfsM (List Result)
  | [] => return []
  | call :: calls => do
    let result ← runCall letter call
    return result :: (← runCalls letter calls)

/-- One call over the map from paths to inodes. A creation adds its own path, with an inode of no
other path; everything else leaves the map as it is. -/
inductive NameStep (names : Names) : Call → Result → Names → Prop
  | openCreated {path mode i f} (exists_ : names path = some i) (inode : f.privateData = i) :
    NameStep names (.openCreate path mode) (.file (some f)) names
  | openPlain {path mode i f} (exists_ : names path = some i) (inode : f.privateData = i) :
    NameStep names (.openPlain path mode) (.file (some f)) names
  | openMissing {path mode} (absent : names path = none) :
    NameStep names (.openPlain path mode) (.file none) names
  | create {path mode i f} (absent : names path = none) (new : ∀ q, names q ≠ some i) (inode : f.privateData = i) :
    NameStep names (.openCreate path mode) (.file (some f)) (Function.update names path (some i))
  | deviceExists {path operations} (exists_ : names path ≠ none) :
    NameStep names (.createDevice path operations) (.status 1) names
  | deviceNoDir {path operations} (absent : names path = none) (noDir : ¬ names.HasDir path.dropLast) :
    NameStep names (.createDevice path operations) (.status 2) names
  | createDevice {path operations i} (absent : names path = none) (hasDir : names.HasDir path.dropLast)
    (new : ∀ q, names q ≠ some i) :
    NameStep names (.createDevice path operations) (.status 0) (Function.update names path (some i))

/-- The calls in order, with their answers. -/
inductive NameRun : Names → List Call → List Result → Names → Prop
  | nil {names} : NameRun names [] [] names
  | cons {names names' names'' call result calls results} (step : NameStep names call result names')
    (rest : NameRun names' calls results names'') : NameRun names (call :: calls) (result :: results) names''

/-- No path is a proper prefix of another. -/
def PrefixFree (paths : List (List Name)) : Prop := ∀ p ∈ paths, ∀ q ∈ paths, p <+: q → p = q

instance (paths : List (List Name)) : Decidable (PrefixFree paths) :=
  inferInstanceAs (Decidable (∀ p ∈ paths, ∀ q ∈ paths, p <+: q → p = q))

/-! ### Refinement -/

/-- The drive holds exactly the paths of `names`, all of them among `paths`. -/
structure Agrees (v : Vfs) (letter : UInt8) (base root : Nat) (T : Tree) (names : Names)
    (paths : List (List Name)) : Prop where
  mounted : Mounted v letter root
  models : Models v.tempFs base root T
  created : ∀ p i, names p = some i ↔ T.inodeAt p = some i ∧ (v.tempFs.inodes i).isDir = false
  dirs : ∀ p d, T.inodeAt p = some d → (v.tempFs.inodes d).isDir = true → names.HasDir p
  devices : ∀ p i, names p = some i → (v.tempFs.inodes i).type = filetypeDevice →
    (v.tempFs.inodes i).operations.openOp ≠ none
  inUse : ∀ p i, names p = some i → p ∈ paths

variable {v : Vfs} {letter mode : UInt8} {base root i : Nat} {path : List Name} {T T' : Tree}
  {names : Names} {paths : List (List Name)}

theorem Agrees.clear (agrees : Agrees v letter base root T names paths) (free : PrefixFree paths)
    (inUse : path ∈ paths) (nonempty : path ≠ []) : Clear v.tempFs T path where
  inner q j found within notTarget := by
    cases kind : (v.tempFs.inodes j).isDir with
    | true => rfl
    | false =>
      have created := (agrees.created q j).mpr ⟨found, kind⟩
      exact absurd (free q (agrees.inUse q j created) path inUse within) notTarget
  leaf j found := by
    have kind : (v.tempFs.inodes j).isDir = false := by
      cases kind : (v.tempFs.inodes j).isDir with
      | false => rfl
      | true =>
        rcases agrees.dirs path j found kind with empty | ⟨q, k, created, within, other⟩
        · exact absurd empty nonempty
        · exact absurd (free path inUse q (agrees.inUse q k created) within) other
    exact ⟨kind, agrees.devices path j ((agrees.created path j).mpr ⟨found, kind⟩)⟩

theorem Agrees.at_path (agrees : Agrees v letter base root T names paths) (clear : Clear v.tempFs T path) :
    T.inodeAt path = names path := by
  cases found : T.inodeAt path with
  | some j => exact ((agrees.created path j).mpr ⟨found, (clear.leaf j found).1⟩).symm
  | none =>
    cases created : names path with
    | none => rfl
    | some i =>
      rw [((agrees.created path i).mp created).1] at found
      cases found

/-- After a walk to `path`, which now leads to the file or device `i`. -/
theorem Agrees.grow (agrees : Agrees v letter base root T names paths) {t : TempFs}
    (models : Models t base root T') (growth : Growth v.tempFs t T T' path) (at_ : T'.inodeAt path = some i)
    (leaf : (t.inodes i).isDir = false) (inUse : path ∈ paths) (same : ∀ j, names path = some j → j = i)
    (opens : (t.inodes i).type = filetypeDevice → (t.inodes i).operations.openOp ≠ none) :
    Agrees { v with tempFs := t } letter base root T' (Function.update names path (some i)) paths := by
  have old : ∀ q j, names q = some j → Function.update names path (some i) q = some j := by
    intro q j created
    by_cases target : q = path
    · subst target
      rw [Function.update_self, same j created]
    · rw [Function.update_of_ne target]
      exact created
  have oldPath : ∀ q j, q ≠ path → T'.inodeAt q = some j → (t.inodes j).isDir = false → T.inodeAt q = some j := by
    intro q j other found kind
    cases before : T.inodeAt q with
    | none =>
      have isDir := (growth.adds q j found before).2.2 other
      rw [kind] at isDir
      cases isDir
    | some k => exact congrArg some (Option.some.inj ((growth.keeps q k before).symm.trans found))
  refine ⟨agrees.mounted.kept t, models, ?_, ?_, ?_, ?_⟩
  · intro q j
    by_cases target : q = path
    · subst target
      rw [Function.update_self]
      constructor
      · intro eq
        obtain rfl := Option.some.inj eq
        exact ⟨at_, leaf⟩
      · rintro ⟨found, -⟩
        exact at_.symm.trans found
    · rw [Function.update_of_ne target]
      constructor
      · intro created
        obtain ⟨found, kind⟩ := (agrees.created q j).mp created
        refine ⟨growth.keeps q j found, ?_⟩
        exact (growth.kinds q j found).1.trans kind
      · rintro ⟨found, kind⟩
        have before := oldPath q j target found kind
        refine (agrees.created q j).mpr ⟨before, ?_⟩
        rw [← (growth.kinds q j before).1]
        exact kind
  · intro q d found isDir
    cases before : T.inodeAt q with
    | some k =>
      obtain rfl : k = d := Option.some.inj ((growth.keeps q k before).symm.trans found)
      have isDir' : (v.tempFs.inodes k).isDir = true := by
        rw [← (growth.kinds q k before).1]
        exact isDir
      rcases agrees.dirs q k before isDir' with empty | ⟨r, j, created, within, other⟩
      · exact .inl empty
      · exact .inr ⟨r, j, old r j created, within, other⟩
    | none =>
      -- A new directory is on the way to `path`.
      have within := (growth.adds q d found before).2.1
      refine .inr ⟨path, i, Function.update_self .., within, ?_⟩
      rintro rfl
      obtain rfl := Option.some.inj (at_.symm.trans found)
      have impossible : (t.inodes i).isDir = true := isDir
      rw [leaf] at impossible
      cases impossible
  · intro q j created device
    by_cases target : q = path
    · subst target
      rw [Function.update_self] at created
      obtain rfl := Option.some.inj created
      exact opens device
    · rw [Function.update_of_ne target] at created
      obtain ⟨found, -⟩ := (agrees.created q j).mp created
      obtain ⟨-, type, operations⟩ := growth.kinds q j found
      dsimp only at device ⊢
      rw [type] at device
      rw [operations]
      exact agrees.devices q j created device
  · intro q j created
    by_cases target : q = path
    · rw [target]
      exact inUse
    · rw [Function.update_of_ne target] at created
      exact agrees.inUse q j created

section step

variable (agrees : Agrees v letter base root T names paths) (free : PrefixFree paths) (inUse : path ∈ paths)
  (nonempty : path ≠ []) (ordinary : ∀ c ∈ path, Ordinary c)
include agrees free inUse nonempty ordinary

/-- `open` of a path that was created, or with `O_CREATALL`. -/
theorem Agrees.open_run (flags : OpenFlags) (mode : UInt8) (makes : names path = none → flags.creatAll = true) :
    ∃ t T' i, vfsOpen (drivePath letter path) flags mode v =
        .ok (some ⟨mode, letter, i, checkFileType (path.getLast nonempty)⟩, { v with tempFs := t }) ∧
      Reached v.tempFs t base root T T' path (path.getLast nonempty) i ∧
      Agrees { v with tempFs := t } letter base root T' (Function.update names path (some i)) paths ∧
      (∀ j, names path = some j → j = i) ∧ (names path = none → ∀ q, names q ≠ some i) := by
  have clear := agrees.clear free inUse nonempty
  have at_ := agrees.at_path clear
  have enough : path.length ≤ (drivePath letter path).length := length_le_drivePath ordinary
  obtain ⟨t, T', i, walk, reached⟩ := openWalk_reaches mode agrees.models agrees.models.rootAt
    agrees.models.rootDir nonempty ordinary clear enough (by rw [List.nil_append, at_]; exact makes)
  rw [List.nil_append] at reached
  have same : ∀ j, names path = some j → j = i := by
    intro j created
    rw [← at_] at created
    exact Option.some.inj ((reached.growth.keeps path j created).symm.trans reached.at_)
  have opens : (t.inodes i).type = filetypeDevice → (t.inodes i).operations.openOp ≠ none := by
    cases before : T.inodeAt path with
    | none =>
      rw [reached.new before]
      exact fun impossible => absurd impossible (by simp [filetypeDevice])
    | some j =>
      obtain rfl : j = i := same j (at_ ▸ before)
      obtain ⟨-, type, operations⟩ := reached.growth.kinds path j before
      rw [type, operations]
      exact (clear.leaf j before).2
  refine ⟨t, T', i, ?_, reached, ?_, same, ?_⟩
  · rw [vfsOpen_mounted agrees.mounted agrees.models, bind_eq walk]
    rfl
  · exact agrees.grow reached.models reached.growth reached.at_ reached.leaf inUse same opens
  · intro absent q created
    have new := (reached.growth.adds path i reached.at_ (at_.trans absent)).1
    obtain ⟨found, -⟩ := (agrees.created q i).mp created
    have old := (agrees.models.valid q i found).2
    omega

theorem Agrees.open_missing (mode : UInt8) (absent : names path = none) :
    vfsOpen (drivePath letter path) {} mode v = .ok (none, v) := by
  have clear := agrees.clear free inUse nonempty
  have enough : path.length ≤ (drivePath letter path).length := length_le_drivePath ordinary
  have walk := openWalk_missing mode agrees.models agrees.models.rootAt agrees.models.rootDir nonempty
    ordinary clear enough (by rw [List.nil_append, agrees.at_path clear]; exact absent)
  rw [vfsOpen_mounted agrees.mounted agrees.models, bind_eq walk]
  rfl

omit ordinary in
theorem Agrees.hasDir_iff : names.HasDir path.dropLast ↔ T.inodeAt path.dropLast ≠ none := by
  constructor
  · rintro (empty | ⟨q, j, created, ⟨rest, eq⟩, -⟩)
    · rw [empty, agrees.models.rootAt]
      exact Option.some_ne_none _
    · intro absent
      have missing := agrees.models.prefix_none absent rest
      rw [eq, ((agrees.created q j).mp created).1] at missing
      cases missing
  · intro present
    obtain ⟨d, found⟩ := Option.ne_none_iff_exists'.mp present
    have clear := agrees.clear free inUse nonempty
    have proper : path.dropLast ≠ path := by
      intro same
      have := congrArg List.length same
      have := List.length_pos_of_ne_nil nonempty
      rw [List.length_dropLast] at *
      omega
    exact agrees.dirs _ d found (clear.inner _ d found (List.dropLast_prefix path) proper)

theorem Agrees.device_run (operations : DeviceOps) (opens : operations.openOp ≠ none) :
    ∃ status w T' names', createDevice (drivePath letter path) operations v = .ok (status, w) ∧
      NameStep names (.createDevice path operations) (.status status) names' ∧
      Agrees w letter base root T' names' paths := by
  have clear := agrees.clear free inUse nonempty
  have at_ := agrees.at_path clear
  have enough : path.length ≤ (drivePath letter path).length := length_le_drivePath ordinary
  obtain ⟨noDir, present, creates⟩ := deviceWalk_run operations agrees.models agrees.models.rootAt
    agrees.models.rootDir nonempty ordinary clear enough
  simp only [List.nil_append] at noDir present creates
  rw [createDevice_mounted operations agrees.mounted agrees.models]
  have hasDir := agrees.hasDir_iff free inUse nonempty
  by_cases absent : names path = none
  · by_cases dir : names.HasDir path.dropLast
    · obtain ⟨t, T', run, models, there, growth, node⟩ := creates (hasDir.mp dir) (at_.trans absent)
      refine ⟨0, _, T', Function.update names path (some (v.tempFs.used + 1)), run,
        .createDevice absent dir ?_, ?_⟩
      · intro q created
        obtain ⟨found, -⟩ := (agrees.created q _).mp created
        have := (agrees.models.valid q _ found).2
        omega
      · refine agrees.grow models growth there (by rw [node]) inUse ?_ ?_
        · intro j created
          rw [absent] at created
          cases created
        · rw [node]
          exact fun _ => opens
    · have missing : T.inodeAt path.dropLast = none := by
        by_contra present
        exact dir (hasDir.mpr present)
      exact ⟨2, v, T, names, noDir missing, .deviceNoDir absent dir, agrees⟩
  · exact ⟨1, v, T, names, present (by rw [at_]; exact absent), .deviceExists absent, agrees⟩

end step

section answers

variable {w : Vfs} {f : Option File}

theorem runCall_openCreate (run : vfsOpen (drivePath letter path) oCreatAll mode v = .ok (f, w)) :
    runCall letter (.openCreate path mode) v = .ok (.file f, w) := by
  rw [runCall, bind_eq run]
  rfl

theorem runCall_openPlain (run : vfsOpen (drivePath letter path) {} mode v = .ok (f, w)) :
    runCall letter (.openPlain path mode) v = .ok (.file f, w) := by
  rw [runCall, bind_eq run]
  rfl

theorem runCall_createDevice {operations : DeviceOps} {status : Nat}
    (run : createDevice (drivePath letter path) operations v = .ok (status, w)) :
    runCall letter (.createDevice path operations) v = .ok (.status status, w) := by
  rw [runCall, bind_eq run]
  rfl

end answers

theorem Agrees.step {call : Call} (agrees : Agrees v letter base root T names paths) (free : PrefixFree paths)
    (inUse : call.path ∈ paths) (wellFormed : call.WellFormed) :
    ∃ result w T' names', runCall letter call v = .ok (result, w) ∧ NameStep names call result names' ∧
      Agrees w letter base root T' names' paths := by
  obtain ⟨nonempty, ordinary, device⟩ := wellFormed
  cases call with
  | openCreate path mode =>
    change path ∈ paths at inUse
    change path ≠ [] at nonempty
    change ∀ c ∈ path, Ordinary c at ordinary
    obtain ⟨t, T', i, run, -, next, same, new⟩ :=
      agrees.open_run free inUse nonempty ordinary oCreatAll mode fun _ => rfl
    cases created : names path with
    | none => exact ⟨_, _, T', _, runCall_openCreate run, .create created (new created) rfl, next⟩
    | some j =>
      obtain rfl := same j created
      rw [← created, Function.update_eq_self] at next
      exact ⟨_, _, T', names, runCall_openCreate run, .openCreated created rfl, next⟩
  | openPlain path mode =>
    change path ∈ paths at inUse
    change path ≠ [] at nonempty
    change ∀ c ∈ path, Ordinary c at ordinary
    cases created : names path with
    | none =>
      have run := agrees.open_missing free inUse nonempty ordinary mode created
      exact ⟨_, v, T, names, runCall_openPlain run, .openMissing created, agrees⟩
    | some j =>
      have makes : names path = none → OpenFlags.creatAll {} = true := by
        intro absent
        rw [absent] at created
        cases created
      obtain ⟨t, T', i, run, -, next, same, -⟩ := agrees.open_run free inUse nonempty ordinary {} mode makes
      obtain rfl := same j created
      rw [← created, Function.update_eq_self] at next
      exact ⟨_, _, T', names, runCall_openPlain run, .openPlain created rfl, next⟩
  | createDevice path operations =>
    obtain ⟨status, w, T', names', run, step, next⟩ :=
      agrees.device_run free inUse nonempty ordinary operations device
    exact ⟨_, w, T', names', runCall_createDevice run, step, next⟩

theorem Agrees.run (calls : List Call) (agrees : Agrees v letter base root T names paths) (free : PrefixFree paths)
    (inUse : ∀ call ∈ calls, call.path ∈ paths) (wellFormed : ∀ call ∈ calls, call.WellFormed) :
    ∃ results w T' names', runCalls letter calls v = .ok (results, w) ∧ NameRun names calls results names' ∧
      Agrees w letter base root T' names' paths := by
  induction calls generalizing v T names with
  | nil => exact ⟨[], v, T, names, rfl, .nil, agrees⟩
  | cons call calls ih =>
    obtain ⟨result, u, T', names', run, step, next⟩ :=
      agrees.step free (inUse call (List.mem_cons_self ..)) (wellFormed call (List.mem_cons_self ..))
    obtain ⟨results, w, T'', names'', runs, rest, last⟩ := ih next
      (fun call inside => inUse call (List.mem_cons_of_mem _ inside))
      (fun call inside => wellFormed call (List.mem_cons_of_mem _ inside))
    refine ⟨result :: results, w, T'', names'', ?_, .cons step rest, last⟩
    unfold runCalls
    rw [bind_eq run, bind_eq runs]
    rfl

theorem agrees_mountNew (isLetter : isDriveLetter letter = true)
    (unused : ∀ a, v.tempFs.used < a → v.tempFs.inodes a = {}) (paths : List (List Name)) :
    ∃ w root T, mountNew letter v = .ok (0, w) ∧
      Agrees w letter v.tempFs.used root T (fun _ => none) paths := by
  obtain ⟨w, root, chain, run, mounted, models, -⟩ := mountNew_run isLetter unused
  refine ⟨w, root, _, run, mounted, models, ?_, ?_, ?_, ?_⟩
  · intro p i
    refine ⟨fun impossible => (by cases impossible), ?_⟩
    rintro ⟨found, leaf⟩
    obtain ⟨-, rfl⟩ := Tree.empty_cases found
    rw [models.rootDir] at leaf
    cases leaf
  · intro p d found _
    exact .inl (Tree.empty_cases found).1
  · intro p i impossible
    cases impossible
  · intro p i impossible
    cases impossible

theorem Agrees.more_paths (agrees : Agrees v letter base root T names paths) (p : List Name) :
    Agrees v letter base root T names (p :: paths) :=
  { agrees with inUse := fun q i created => List.mem_cons_of_mem p (agrees.inUse q i created) }

/-- The entries of the directory `d`: a finite chain of `num_entries + 1` nodes that starts with `.`
and `..` and has no name twice. -/
def DirectoryShape (s : TempFs) (d : Nat) : Prop :=
  ∃ chain, Linked s.nextEntry (s.inodes d).firstNode chain ∧ chain.length = (s.inodes d).numEntries + 1 ∧
    (∃ children, chain.map s.entryName = dot :: dotDot :: children) ∧ (chain.map s.entryName).Nodup

theorem Models.directoryShape {s : TempFs} {d : Nat} (models : Models s base root T) (new : base < d)
    (isDir : (s.inodes d).isDir = true) (notDot : (s.inodes d).filename ≠ dot)
    (notDotDot : (s.inodes d).filename ≠ dotDot) : DirectoryShape s d := by
  obtain ⟨p, found⟩ := models.reached d new isDir notDot notDotDot
  have dir := models.dirs p d found isDir
  obtain ⟨dotEntry, dotDotEntry, rest, chain, dotName, dotDotName, -⟩ := dir.dots
  refine ⟨T.chain p, dir.linked, dir.count, ⟨rest.map s.entryName, ?_⟩, models.names_nodup dir⟩
  rw [chain, List.map_cons, List.map_cons, dotName, dotDotName]

/-- Every sequence of calls on a new drive is a run over the abstract tree. Afterwards `open` without
flags finds exactly the created paths, each with the inode created for it, and every directory that
`tempfs_new` or `tempfs_mkdir` made has the shape of a directory. -/
theorem tempfs_refines_names (letter : UInt8) (isLetter : isDriveLetter letter = true) (v : Vfs)
    (unused : ∀ a, v.tempFs.used < a → v.tempFs.inodes a = {}) (calls : List Call)
    (wellFormed : ∀ call ∈ calls, call.WellFormed) (free : PrefixFree (calls.map Call.path)) :
    ∃ results w names, (do let _ ← mountNew letter; runCalls letter calls) v = .ok (results, w) ∧
      NameRun (fun _ => none) calls results names ∧
      (∀ p mode, (Call.openPlain p mode).WellFormed → PrefixFree (p :: calls.map Call.path) →
        ∃ f w', vfsOpen (drivePath letter p) {} mode w = .ok (f, w') ∧ f.map File.privateData = names p) ∧
      ∀ d, v.tempFs.used < d → (w.tempFs.inodes d).isDir = true → (w.tempFs.inodes d).filename ≠ dot →
        (w.tempFs.inodes d).filename ≠ dotDot → DirectoryShape w.tempFs d := by
  obtain ⟨u, root, T, mounts, start⟩ := agrees_mountNew isLetter unused (calls.map Call.path)
  obtain ⟨results, w, T', names, run, steps, agrees⟩ :=
    start.run calls free (fun call inside => List.mem_map_of_mem inside) wellFormed
  refine ⟨results, w, names, ?_, steps, ?_, fun d => agrees.models.directoryShape⟩
  · rw [bind_eq mounts]
    exact run
  · rintro p mode ⟨nonempty, ordinary, -⟩ free'
    have here : p ∈ p :: calls.map Call.path := List.mem_cons_self ..
    cases created : names p with
    | none =>
      have missing := (agrees.more_paths p).open_missing free' here nonempty ordinary mode created
      exact ⟨none, w, missing, rfl⟩
    | some j =>
      have makes : names p = none → OpenFlags.creatAll {} = true := by
        intro absent
        rw [absent] at created
        cases created
      obtain ⟨t, T'', i, opens, -, -, same, -⟩ :=
        (agrees.more_paths p).open_run free' here nonempty ordinary {} mode makes
      obtain rfl := same j created
      exact ⟨_, _, opens, rfl⟩

/-- `R:/a/b` is created and opened again, `R:/a/c` becomes a device, `R:/a/d` is missing. -/
def someCalls : List Call :=
  [.openCreate [[97], [98]] 2, .openPlain [[97], [98]] 1, .createDevice [[97], [99]] { openOp := some fun _ => true },
    .openPlain [[97], [99]] 1, .openPlain [[97], [100]] 1]

theorem tempfs_refines_names_someCalls :
    ∃ results w names, (do let _ ← mountNew 82; runCalls 82 someCalls) {} = .ok (results, w) ∧
      NameRun (fun _ => none) someCalls results names ∧
      ∃ f w', vfsOpen (drivePath 82 [[101]]) {} 1 w = .ok (f, w') ∧ f.map File.privateData = names [[101]] := by
  have wellFormed : ∀ call ∈ someCalls, call.WellFormed := by
    simp only [someCalls, List.mem_cons, List.not_mem_nil, or_false]
    rintro call (rfl | rfl | rfl | rfl | rfl)
    · exact ⟨by decide, by decide, trivial⟩
    · exact ⟨by decide, by decide, trivial⟩
    · exact ⟨by decide, by decide, Option.some_ne_none _⟩
    · exact ⟨by decide, by decide, trivial⟩
    · exact ⟨by decide, by decide, trivial⟩
  obtain ⟨results, w, names, run, steps, opens, -⟩ := tempfs_refines_names 82 (by decide) {} (fun _ _ => rfl) someCalls
    wellFormed (by decide)
  exact ⟨results, w, names, run, steps, opens [[101]] 1 ⟨by decide, by decide, trivial⟩ (by decide)⟩

end PotatOS.Fs
