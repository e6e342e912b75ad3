import PotatOS.Fs.Aliases

/-!
# Calls on a device

TempFS calls the operations of a device without looking whether they are there,
and `operations.open` has no way to refuse: the mode that the VFS checks is the
one `open` was called with.
-/

namespace PotatOS.Fs

open Prog Memory

/-! ### Paths through directories -/

/-- The components lead from `a` through directories to an entry for `i`. -/
inductive Leads (s : TempFs) (i : Nat) : Nat → List Name → Prop
  | last {a : Nat} {c : Name} (isDir : (s.inodes a).isDir = true) (filled : c ≠ []) (child : s.child a c = some i) :
    Leads s i a [c]
  | step {a b : Nat} {c : Name} {rest : List Name} (isDir : (s.inodes a).isDir = true) (child : s.child a c = some b)
    (behind : Leads s i b rest) : Leads s i a (c :: rest)

variable {s t : TempFs} {a b d i n : Nat} {c : Name} {comps : List Name} {v w : Vfs} {letter mode : UInt8} {rest : Name}

theorem Leads.isDir_start (leads : Leads s i a comps) : (s.inodes a).isDir = true := by
  cases leads <;> assumption

theorem Leads.nonempty (leads : Leads s i a comps) : comps ≠ [] := by
  cases leads <;> simp

theorem child_ok (found : s.child a c = some b) : tempfsFind a c s = .ok (b, s) ∧ b ≠ 0 ∧ a ≠ 0 := by
  obtain ⟨run, nonnull⟩ := find_of_child found
  exact ⟨run, nonnull, (tempfsFind_ok run).2⟩

theorem Leads.target (leads : Leads s i a comps) : i ≠ 0 := by
  induction leads with
  | last _ _ child => exact (child_ok child).2.1
  | step _ _ _ ih => exact ih

theorem findEntry_same {m : Nat} (same : SameTree s t) (more : n ≤ m) (run : findEntry c n a s = .ok (b, s)) :
    findEntry c m a t = .ok (b, t) := by
  induction n generalizing a m with
  | zero => cases run
  | succ n ih =>
    obtain ⟨m, rfl⟩ := Nat.exists_eq_add_of_le' (Nat.lt_of_lt_of_le (Nat.succ_pos n) more)
    unfold findEntry at run ⊢
    by_cases null : a = 0
    · rw [if_pos null] at run ⊢
      obtain ⟨rfl, -⟩ := pure_ok run
      rfl
    rw [if_neg null, bind_eq (dirEntry_run null)] at run ⊢
    rw [same.dirEntries]
    by_cases inodeNull : (s.dirEntries a).inode = 0
    · rw [inodeNull] at run
      cases run
    rw [bind_eq (inode_run inodeNull)] at run ⊢
    rw [same.names]
    split at run
    · rw [if_pos ‹_›]
      obtain ⟨rfl, -⟩ := pure_ok run
      rfl
    · rw [if_neg ‹_›]
      exact ih (by omega) run

theorem child_same (same : SameTree s t) (isDir : (s.inodes a).isDir = true) (found : s.child a c = some b) :
    t.child a c = some b := by
  obtain ⟨run, nonnull, start⟩ := child_ok found
  have search : tempfsFind a c t = .ok (b, t) := by
    unfold tempfsFind at run ⊢
    rw [bind_eq (inode_run start)] at run ⊢
    rw [(same.dirs a isDir).1]
    by_cases first : (s.inodes a).firstNode = 0
    · rw [first] at run
      cases run
    rw [bind_eq (dirEntry_run first), bind_eq run_get] at run ⊢
    exact findEntry_same same (Nat.succ_le_succ same.used) run
  rw [child_of_find search, if_neg nonnull]

theorem Leads.same (leads : Leads s i a comps) (same : SameTree s t) : Leads t i a comps := by
  induction leads with
  | last isDir filled child => exact .last ((same.kinds _).trans isDir) filled (child_same same isDir child)
  | step isDir child _ ih => exact .step ((same.kinds _).trans isDir) (child_same same isDir child) ih

/-- The walk of `open` along such a path, whatever the flags. -/
theorem openSteps_leads {flags : OpenFlags} (leads : Leads v.tempFs i a comps) : openSteps .tempFs flags mode comps a v =
    (do return some (← FileSystem.tempFs.call (tempfsOpenFile i mode), comps.getLastD []) : VfsM _) v := by
  induction leads with
  | @last a c isDir filled child =>
    obtain ⟨find, nonnull, -⟩ := child_ok child
    have call : FileSystem.tempFs.call (tempfsFind a c) v = .ok (i, v) := FileSystem.call_run find
    rw [openSteps, if_neg filled]
    unfold findFile
    rw [bind_assoc, bind_eq call, if_neg nonnull]
    rfl
  | @step a b c rest isDir child behind ih =>
    obtain ⟨find, nonnull, -⟩ := child_ok child
    rw [openSteps_enter find nonnull behind.isDir_start behind.nonempty, ih]
    obtain ⟨next, rest, rfl⟩ := List.exists_cons_of_ne_nil behind.nonempty
    rfl

/-! ### A device at a path -/

/-- `X:/rest` leads to the device `i` of the drive. -/
structure DeviceAt (v : Vfs) (letter : UInt8) (rest : Name) (i : Nat) : Prop where
  mounted : Mounted v letter (v.drives (driveNum letter)).memOffset
  leads : Leads v.tempFs i (v.drives (driveNum letter)).memOffset (rest.splitOn slash)
  device : (v.tempFs.inodes i).type = filetypeDevice

/-- The operations of the device. -/
def Vfs.operations (v : Vfs) (i : Nat) : DeviceOps := (v.tempFs.inodes i).operations

/-- The inode after `operations.open`. -/
def openedDevice (v : Vfs) (i : Nat) (allocates : Bool) : Vfs :=
  if allocates then { v with tempFs := { v.tempFs with
    inodes := Function.update v.tempFs.inodes i { v.tempFs.inodes i with privateData := v.tempFs.used + 1 }
    used := v.tempFs.used + 1 } }
  else v

theorem Leads.start_ne (leads : Leads s i a comps) : a ≠ 0 := by
  cases leads with
  | last _ _ child => exact (child_ok child).2.2
  | step _ child _ => exact (child_ok child).2.2

theorem DeviceAt.open_run (at_ : DeviceAt v letter rest i) (flags : OpenFlags) (mode : UInt8) :
    vfsOpen (letter :: colon :: slash :: rest) flags mode v = match (v.operations i).openOp with
      | none => .error .fault
      | some opens => .ok (some ⟨mode, letter, i, checkFileType ((rest.splitOn slash).getLastD [])⟩,
          openedDevice v i (opens mode)) := by
  rw [vfsOpen_eq at_.mounted at_.leads.start_ne at_.leads.isDir_start]
  have walk : openSteps .tempFs flags mode _ _ _ = _ := openSteps_leads at_.leads
  have opened : tempfsOpenFile i mode v.tempFs = match (v.operations i).openOp with
      | none => .error .fault
      | some opens => .ok (i, (openedDevice v i (opens mode)).tempFs) := by
    unfold tempfsOpenFile
    rw [bind_eq (inode_run at_.leads.target), if_pos at_.device]
    unfold Vfs.operations openedDevice
    cases (v.tempFs.inodes i).operations.openOp with
    | none => rfl
    | some opens =>
      dsimp only
      cases opens mode <;> rfl
  cases provided : (v.operations i).openOp with
  | none =>
    rw [provided] at opened
    have call : FileSystem.tempFs.call (tempfsOpenFile i mode) v = .error .fault := by
      simp only [FileSystem.call, opened]
    rw [bind_error call] at walk
    exact bind_error walk
  | some opens =>
    rw [provided] at opened
    have call : FileSystem.tempFs.call (tempfsOpenFile i mode) v = .ok (i, openedDevice v i (opens mode)) := by
      rw [FileSystem.call_run opened]
      unfold openedDevice
      cases opens mode <;> rfl
    rw [bind_eq call] at walk
    exact bind_eq walk

theorem DeviceAt.opened (at_ : DeviceAt v letter rest i) (allocates : Bool) :
    DeviceAt (openedDevice v i allocates) letter rest i ∧
      (openedDevice v i allocates).operations i = v.operations i := by
  cases allocates with
  | false => exact ⟨at_, rfl⟩
  | true =>
    have opened : Opened v.tempFs (openedDevice v i true).tempFs i := Opened.newPrivate at_.device
    obtain ⟨type, operations⟩ := opened.kinds i
    exact ⟨⟨⟨at_.mounted.isLetter, at_.mounted.drive⟩, at_.leads.same opened.sameTree, type.trans at_.device⟩, operations⟩

/-! ### Registration -/

section registration

variable {base root : Nat} {T : Tree} {path : List Name} {operations : DeviceOps}

theorem Models.child_eq (models : Models s base root T) (at_ : T.inodeAt path = some d) (isDir : (s.inodes d).isDir = true)
    (ordinary : Ordinary c) (found : T.inodeAt (path ++ [c]) = some i) : s.child d c = some i := by
  have run := models.find_run at_ isDir ordinary.2.2.1 ordinary.2.2.2.1
  rw [found, Option.getD_some] at run
  rw [child_of_find run, if_neg (models.valid _ i found).1]

theorem deviceSteps_null {r : Nat × Vfs} (filled : c ≠ []) (run : deviceSteps .tempFs operations (c :: comps) 0 v = .ok r) :
    False := by
  have finds : ∀ b u, FileSystem.tempFs.call (tempfsFind 0 c) v ≠ .ok (b, u) := fun b u find =>
    (tempfsFind_ok (find_ok find).2).2 rfl
  cases comps with
  | nil =>
    rw [deviceSteps, if_neg filled] at run
    obtain ⟨b, u, find, -⟩ := bind_ok run
    exact finds b u find
  | cons next rest =>
    obtain ⟨b, u, find, -⟩ := bind_ok run
    exact finds b u find

/-- The walk of `create_device`, when it ends with 0. -/
theorem deviceSteps_leads (models : Models v.tempFs base root T) (at_ : T.inodeAt path = some d)
    (isDir : (v.tempFs.inodes d).isDir = true) (nonempty : comps ≠ []) (ordinary : ∀ c ∈ comps, Ordinary c)
    (run : deviceSteps .tempFs operations comps d v = .ok (0, w)) :
    w.drives = v.drives ∧ ∃ T' j, Models w.tempFs base root T' ∧ Growth v.tempFs w.tempFs T T' (path ++ comps) ∧
      Leads w.tempFs j d comps ∧ (w.tempFs.inodes j).type = filetypeDevice ∧ w.operations j = operations := by
  induction comps generalizing path d with
  | nil => exact absurd rfl nonempty
  | cons c rest ih =>
    have here : Ordinary c := ordinary c (List.mem_cons_self ..)
    have find := models.find_call at_ isDir here
    cases rest with
    | nil =>
      rw [deviceSteps, if_neg here.1, bind_eq find] at run
      cases found : T.inodeAt (path ++ [c]) with
      | some j =>
        rw [found, Option.getD_some, if_pos (models.valid _ j found).1] at run
        cases run
      | none =>
        obtain ⟨t, T', make, created, node⟩ := models.createDevice at_ isDir found here.2.2.1 here.2.2.2.1 operations
        have growth : Growth v.tempFs t T T' (path ++ [c]) :=
          created.growth isDir models found (List.prefix_refl _) fun other => absurd rfl other
        obtain ⟨there, again⟩ := created.found growth at_ isDir here
        rw [found, Option.getD_none, if_neg (by simp), bind_eq (FileSystem.call_run make), bind_eq again] at run
        obtain ⟨-, rfl⟩ := pure_ok run
        have isDir' : (t.inodes d).isDir = true := by rw [(growth.kinds path d at_).1]; exact isDir
        have child := created.models.child_eq (growth.keeps path d at_) isDir' here there
        refine ⟨rfl, T', _, created.models, growth, .last isDir' here.1 child, ?_, ?_⟩
        · dsimp only
          rw [node]
        · unfold Vfs.operations
          dsimp only
          rw [node]
    | cons next rest =>
      have eq : path ++ c :: next :: rest = path ++ [c] ++ (next :: rest) := by simp
      rw [deviceSteps_cons (List.cons_ne_nil _ _), bind_eq find] at run
      cases found : T.inodeAt (path ++ [c]) with
      | none =>
        rw [found, Option.getD_none, if_pos rfl] at run
        exact absurd (pure_ok run).1 (by decide)
      | some j =>
        have nonnull := (models.valid _ j found).1
        rw [found, Option.getD_some, if_neg nonnull] at run
        obtain ⟨e, u, opened, walk⟩ := bind_ok run
        obtain ⟨t, opens, rfl⟩ := call_ok opened
        obtain ⟨rfl, null | ⟨rfl, kind⟩⟩ := tempfsOpenDir_ok opens
        · subst null
          exact (deviceSteps_null (ordinary next (by simp)).1 walk).elim
        · obtain ⟨drives, T', k, models', growth, leads, device⟩ := ih found kind (List.cons_ne_nil _ _)
            (fun c inside => ordinary c (List.mem_cons_of_mem _ inside)) walk
          rw [eq]
          have isDir' : (w.tempFs.inodes d).isDir = true := by rw [(growth.kinds path d at_).1]; exact isDir
          have child := models'.child_eq (growth.keeps path d at_) isDir' here (growth.keeps _ _ found)
          exact ⟨drives, T', k, models', growth, .step isDir' child leads, device⟩

/-- What `create_device` registers is there for the calls below. -/
theorem createDevice_deviceAt (mounted : Mounted v letter root) (models : Models v.tempFs base root T) (nonempty : comps ≠ [])
    (ordinary : ∀ c ∈ comps, Ordinary c) (run : createDevice (drivePath letter comps) operations v = .ok (0, w)) :
    ∃ j, DeviceAt w letter (joinPath comps) j ∧ w.operations j = operations := by
  have split := splitOn_joinPath nonempty fun c inside => (ordinary c inside).2.2.2.2.1
  unfold drivePath at run
  rw [createDevice_eq mounted (models.valid [] root models.rootAt).1 models.rootDir, split] at run
  obtain ⟨drives, T', j, -, -, leads, device, same⟩ :=
    deviceSteps_leads models models.rootAt models.rootDir nonempty ordinary run
  have drive : w.drives (driveNum letter) = { present := true, fs := .tempFs, memOffset := root } := by
    rw [drives, mounted.drive]
  refine ⟨j, ⟨⟨mounted.isLetter, ?_⟩, ?_, device⟩, same⟩
  · rw [drive]
  · rw [drive, split]
    exact leads

end registration

/-! ### Calls through the VFS -/

/-- A call on the device at the path, or on the `File` that the `n`-th open returned. -/
inductive DeviceEvent where
  | openIt (flags : OpenFlags) (mode : UInt8)
  | read (n : Nat) (buffer : Mem) (maxLen : Nat)
  | write (n : Nat) (buffer : Mem) (size : Nat)
  | close (n : Nat)

def onFile (files : List File) (n : Nat) (call : File → VfsM Unit) : VfsM (List File) := do
  match files[n]? with
  | none => return files
  | some f =>
    call f
    return files

/-- The call, with the `File`s opened before and after it. The print of a device called `stdout` goes to no operation and is
left out. -/
def DeviceEvent.run (letter : UInt8) (rest : Name) : DeviceEvent → List File → VfsM (List File)
  | openIt flags mode, files => do
    match ← vfsOpen (letter :: colon :: slash :: rest) flags mode with
    | none => return files
    | some f => return files ++ [f]
  | read n buffer maxLen, files => onFile files n fun f => do let _ ← vfsRead f buffer maxLen
  | write n buffer size, files => onFile files n fun f => do let _ ← writeUnprinted f buffer size
  | close n, files => onFile files n vfsClose

def Vfs.setOperations (v : Vfs) (i : Nat) (operations : DeviceOps) : Vfs :=
  { v with tempFs := { v.tempFs with
    inodes := Function.update v.tempFs.inodes i { v.tempFs.inodes i with operations := operations } } }

/-- The device has a `read`, and a read of the file answers with what it answers, whichever it is. -/
def ReadReaches (v : Vfs) (i : Nat) (f : File) : Prop :=
  (v.operations i).readOp ≠ none ∧ ∀ reads buffer maxLen, ∃ w,
    vfsRead f buffer maxLen (v.setOperations i { v.operations i with readOp := some reads }) = .ok (reads buffer maxLen, w)

def WriteReaches (v : Vfs) (i : Nat) (f : File) : Prop :=
  (v.operations i).writeOp ≠ none ∧ ∀ writes buffer size, ∃ w,
    writeUnprinted f buffer size (v.setOperations i { v.operations i with writeOp := some writes }) = .ok (writes buffer size, w)

/-- The call opens the device in a mode that its `open` refuses. -/
def DeviceEvent.Refused (refuses : UInt8 → Bool) : DeviceEvent → Prop
  | openIt _ mode => refuses mode = true
  | _ => False

/-- No call of the run goes through a null pointer, and a refused open gives no file that reaches the device. -/
def CallsSafe (letter : UInt8) (rest : Name) (i : Nat) (refuses : UInt8 → Bool) : List DeviceEvent → List File → Vfs → Prop
  | [], _, _ => True
  | event :: events, files, v => ∃ files' w, event.run letter rest files v = .ok (files', w) ∧
    (event.Refused refuses → ∀ f ∈ files'.drop files.length, ¬ ReadReaches w i f ∧ ¬ WriteReaches w i f) ∧
    CallsSafe letter rest i refuses events files' w

/-- The operations are there for every call that the mode lets through; `modes` are those of the files so far. -/
def CallsProvided (operations : DeviceOps) (refuses : UInt8 → Bool) : List DeviceEvent → List UInt8 → Prop
  | [], _ => True
  | .openIt _ mode :: events, modes => operations.openOp ≠ none ∧ (refuses mode = true →
      (mode = modeWriteonly ∨ operations.readOp = none) ∧ (mode = modeReadonly ∨ operations.writeOp = none)) ∧
      CallsProvided operations refuses events (modes ++ [mode])
  | .read n _ _ :: events, modes => (∀ mode ∈ modes[n]?, mode = modeWriteonly ∨ operations.readOp ≠ none) ∧
      CallsProvided operations refuses events modes
  | .write n _ _ :: events, modes => (∀ mode ∈ modes[n]?, mode = modeReadonly ∨ operations.writeOp ≠ none) ∧
      CallsProvided operations refuses events modes
  | .close n :: events, modes => (modes[n]? ≠ none → operations.closeOp ≠ none) ∧
      CallsProvided operations refuses events modes

/-- A `File` that an open of the device returned. -/
structure FileOf (letter : UInt8) (i : Nat) (f : File) : Prop where
  driveChar : f.driveChar = letter
  inode : f.privateData = i

section calls

variable {f : File} {files : List File} {event : DeviceEvent} {events : List DeviceEvent} {refuses : UInt8 → Bool}
  {buffer : Mem} {size : Nat}

theorem DeviceAt.read_run (at_ : DeviceAt v letter rest i) (file : FileOf letter i f) :
    vfsRead f buffer size v = if f.mode = modeWriteonly then .ok ((1, buffer), v) else
      match (v.operations i).readOp with
      | none => .error .fault
      | some reads => .ok (reads buffer size, v) := by
  unfold vfsRead
  split
  · rfl
  · rw [bind_eq run_get, file.driveChar, at_.mounted.drive, file.inode]
    dsimp only [FileSystem.call]
    unfold tempfsRead Vfs.operations
    rw [bind_eq (inode_run at_.leads.target), if_pos at_.device]
    cases (v.tempFs.inodes i).operations.readOp <;> rfl

theorem DeviceAt.write_run (at_ : DeviceAt v letter rest i) (file : FileOf letter i f) :
    writeUnprinted f buffer size v = if f.mode = modeReadonly then .ok (1, v) else
      match (v.operations i).writeOp with
      | none => .error .fault
      | some writes => .ok (writes buffer size, v) := by
  unfold writeUnprinted
  split
  · rfl
  · rw [bind_eq run_get, file.driveChar, at_.mounted.drive, file.inode]
    dsimp only [FileSystem.call]
    unfold tempfsWrite Vfs.operations
    rw [bind_eq (inode_run at_.leads.target), if_pos at_.device]
    cases (v.tempFs.inodes i).operations.writeOp <;> rfl

theorem DeviceAt.close_run (at_ : DeviceAt v letter rest i) (file : FileOf letter i f) :
    vfsClose f v = if (v.operations i).closeOp = none then .error .fault else .ok ((), v) := by
  unfold vfsClose
  rw [bind_eq run_get, file.driveChar, at_.mounted.drive, file.inode]
  dsimp only [FileSystem.call]
  unfold tempfsClose Vfs.operations
  rw [bind_eq (inode_run at_.leads.target)]
  simp only [at_.device, true_and]
  cases (v.tempFs.inodes i).operations.closeOp <;> rfl

theorem DeviceAt.read_provided (at_ : DeviceAt v letter rest i) (file : FileOf letter i f)
    (provided : (v.operations i).readOp ≠ none) :
    (do let _ ← vfsRead f buffer size : VfsM Unit) v = .ok ((), v) := by
  obtain ⟨reads, some_⟩ := Option.ne_none_iff_exists'.mp provided
  have run : vfsRead f buffer size v = _ := at_.read_run file
  rw [some_] at run
  by_cases writeOnly : f.mode = modeWriteonly
  · exact bind_eq (run.trans (if_pos writeOnly))
  · exact bind_eq (run.trans (if_neg writeOnly))

theorem DeviceAt.write_provided (at_ : DeviceAt v letter rest i) (file : FileOf letter i f)
    (provided : (v.operations i).writeOp ≠ none) :
    (do let _ ← writeUnprinted f buffer size : VfsM Unit) v = .ok ((), v) := by
  obtain ⟨writes, some_⟩ := Option.ne_none_iff_exists'.mp provided
  have run : writeUnprinted f buffer size v = _ := at_.write_run file
  rw [some_] at run
  by_cases readOnly : f.mode = modeReadonly
  · exact bind_eq (run.trans (if_pos readOnly))
  · exact bind_eq (run.trans (if_neg readOnly))

theorem DeviceAt.setOperations (at_ : DeviceAt v letter rest i) (operations : DeviceOps) :
    DeviceAt (v.setOperations i operations) letter rest i ∧ (v.setOperations i operations).operations i = operations := by
  have node : ∀ a, ∃ ops, (v.setOperations i operations).tempFs.inodes a = { v.tempFs.inodes a with operations := ops } := by
    intro a
    by_cases here : a = i
    · subst here
      exact ⟨operations, Function.update_self ..⟩
    · exact ⟨_, Function.update_of_ne here ..⟩
  have same : SameTree v.tempFs (v.setOperations i operations).tempFs := by
    refine ⟨fun a => ?_, fun a => ?_, fun a _ => ?_, rfl, Nat.le_refl _⟩ <;> obtain ⟨ops, eq⟩ := node a <;> simp [eq]
  refine ⟨⟨⟨at_.mounted.isLetter, at_.mounted.drive⟩, at_.leads.same same, ?_⟩, ?_⟩
  · obtain ⟨ops, eq⟩ := node i
    rw [eq]
    exact at_.device
  · simp [Vfs.operations, Vfs.setOperations]

/-- Reads of a file reach a device that has a `read`, unless it was opened for writing only. -/
theorem DeviceAt.readReaches_iff (at_ : DeviceAt v letter rest i) (file : FileOf letter i f) :
    ReadReaches v i f ↔ (v.operations i).readOp ≠ none ∧ f.mode ≠ modeWriteonly := by
  have run : ∀ reads buffer maxLen, vfsRead f buffer maxLen
      (v.setOperations i { v.operations i with readOp := some reads }) = if f.mode = modeWriteonly then
        .ok ((1, buffer), v.setOperations i { v.operations i with readOp := some reads })
      else .ok (reads buffer maxLen, v.setOperations i { v.operations i with readOp := some reads }) := by
    intro reads buffer maxLen
    obtain ⟨at', operations⟩ := at_.setOperations { v.operations i with readOp := some reads }
    rw [at'.read_run file, operations]
  refine and_congr_right fun _ => ⟨fun reaches writeOnly => ?_, fun allowed reads buffer maxLen => ?_⟩
  · obtain ⟨w, answer⟩ := reaches (fun buffer _ => (2, buffer)) (fun _ => 0) 0
    rw [run, if_pos writeOnly] at answer
    simp at answer
  · exact ⟨_, by rw [run, if_neg allowed]⟩

theorem DeviceAt.writeReaches_iff (at_ : DeviceAt v letter rest i) (file : FileOf letter i f) :
    WriteReaches v i f ↔ (v.operations i).writeOp ≠ none ∧ f.mode ≠ modeReadonly := by
  have run : ∀ writes buffer size, writeUnprinted f buffer size
      (v.setOperations i { v.operations i with writeOp := some writes }) = if f.mode = modeReadonly then
        .ok (1, v.setOperations i { v.operations i with writeOp := some writes })
      else .ok (writes buffer size, v.setOperations i { v.operations i with writeOp := some writes }) := by
    intro writes buffer size
    obtain ⟨at', operations⟩ := at_.setOperations { v.operations i with writeOp := some writes }
    rw [at'.write_run file, operations]
  refine and_congr_right fun _ => ⟨fun reaches readOnly => ?_, fun allowed writes buffer size => ?_⟩
  · obtain ⟨w, answer⟩ := reaches (fun _ _ => 2) (fun _ => 0) 0
    rw [run, if_pos readOnly] at answer
    simp at answer
  · exact ⟨_, by rw [run, if_neg allowed]⟩

theorem callsSafe_cons {files' : List File} (run : event.run letter rest files v = .ok (files', w)) :
    CallsSafe letter rest i refuses (event :: events) files v ↔
      (event.Refused refuses → ∀ f ∈ files'.drop files.length, ¬ ReadReaches w i f ∧ ¬ WriteReaches w i f) ∧
      CallsSafe letter rest i refuses events files' w := by
  constructor
  · rintro ⟨_, _, run', refused, later⟩
    obtain ⟨rfl, rfl⟩ := Prod.mk.inj (Except.ok.inj (run.symm.trans run'))
    exact ⟨refused, later⟩
  · rintro ⟨refused, later⟩
    exact ⟨_, _, run, refused, later⟩

theorem callsSafe_fault {e : Stop} (run : event.run letter rest files v = .error e) :
    ¬ CallsSafe letter rest i refuses (event :: events) files v := by
  rintro ⟨_, _, run', -⟩
  rw [run] at run'
  cases run'

theorem callsSafe_onFile (allowed : File → Prop) {call : File → VfsM Unit} (notOpen : ¬ event.Refused refuses)
    (runs : event.run letter rest files = onFile files n call)
    (fine : ∀ f ∈ files, allowed f → call f v = .ok ((), v))
    (null : ∀ f ∈ files, ¬ allowed f → call f v = .error .fault) :
    CallsSafe letter rest i refuses (event :: events) files v ↔
      (∀ f ∈ files[n]?, allowed f) ∧ CallsSafe letter rest i refuses events files v := by
  cases found : files[n]? with
  | none =>
    have run : event.run letter rest files v = .ok (files, v) := by
      rw [runs, onFile, found]
      rfl
    rw [callsSafe_cons run]
    simp [notOpen]
  | some f =>
    have member := List.mem_of_getElem? found
    simp only [Option.mem_def, Option.some.injEq, forall_eq']
    by_cases ok : allowed f
    · have run : event.run letter rest files v = .ok (files, v) := by
        rw [runs, onFile, found]
        exact bind_eq (fine f member ok)
      rw [callsSafe_cons run]
      simp [notOpen, ok]
    · have run : event.run letter rest files v = .error .fault := by
        rw [runs, onFile, found]
        exact bind_error (null f member ok)
      exact iff_of_false (callsSafe_fault run) fun h => ok h.1

theorem DeviceAt.callsSafe_iff (at_ : DeviceAt v letter rest i) (ofDevice : ∀ f ∈ files, FileOf letter i f) :
    CallsSafe letter rest i refuses events files v ↔
      CallsProvided (v.operations i) refuses events (files.map File.mode) := by
  induction events generalizing files v with
  | nil => exact Iff.rfl
  | cons event events ih =>
    cases event with
    | openIt flags mode =>
      have opens := at_.open_run flags mode
      rw [CallsProvided]
      cases provided : (v.operations i).openOp with
      | none =>
        rw [provided] at opens
        exact iff_of_false (callsSafe_fault (bind_error opens)) fun h => h.1 rfl
      | some open_ =>
        rw [provided] at opens
        generalize same : File.mk mode letter i (checkFileType ((rest.splitOn slash).getLastD [])) = f at opens
        have file : FileOf letter i f := by
          subst same
          exact ⟨rfl, rfl⟩
        have mode_ : f.mode = mode := by rw [← same]
        have all : ∀ g ∈ files ++ [f], FileOf letter i g := by
          simp only [List.mem_append, List.mem_singleton]
          rintro g (old | rfl)
          · exact ofDevice g old
          · exact file
        obtain ⟨at', operations⟩ := at_.opened (open_ mode)
        rw [callsSafe_cons (bind_eq opens), ih at' all, List.drop_left, List.map_append, List.map_singleton]
        simp only [List.mem_singleton, forall_eq, at'.readReaches_iff file, at'.writeReaches_iff file, operations, mode_]
        simp only [DeviceEvent.Refused, ne_eq, reduceCtorEq, not_false_eq_true, true_and, not_and, not_not]
        tauto
    | read n buffer maxLen =>
      rw [CallsProvided, ← ih at_ ofDevice, List.getElem?_map]
      rw [callsSafe_onFile (fun f => f.mode = modeWriteonly ∨ (v.operations i).readOp ≠ none) id rfl]
      · simp
      · rintro f member (writeOnly | provided)
        · exact bind_eq ((at_.read_run (ofDevice f member)).trans (if_pos writeOnly))
        · exact at_.read_provided (ofDevice f member) provided
      · intro f member refused
        obtain ⟨other, missing⟩ := not_or.mp refused
        refine bind_error ((at_.read_run (ofDevice f member)).trans ?_)
        rw [if_neg other, not_not.mp missing]
    | write n buffer size =>
      rw [CallsProvided, ← ih at_ ofDevice, List.getElem?_map]
      rw [callsSafe_onFile (fun f => f.mode = modeReadonly ∨ (v.operations i).writeOp ≠ none) id rfl]
      · simp
      · rintro f member (readOnly | provided)
        · exact bind_eq ((at_.write_run (ofDevice f member)).trans (if_pos readOnly))
        · exact at_.write_provided (ofDevice f member) provided
      · intro f member refused
        obtain ⟨other, missing⟩ := not_or.mp refused
        refine bind_error ((at_.write_run (ofDevice f member)).trans ?_)
        rw [if_neg other, not_not.mp missing]
    | close n =>
      rw [CallsProvided, ← ih at_ ofDevice, List.getElem?_map]
      rw [callsSafe_onFile (fun _ => (v.operations i).closeOp ≠ none) id rfl]
      · cases files[n]? <;> simp
      · exact fun f member provided => (at_.close_run (ofDevice f member)).trans (if_neg provided)
      · exact fun f member missing => (at_.close_run (ofDevice f member)).trans (if_pos (not_not.mp missing))

end calls

/-- A run of calls on a device is safe exactly when the device has each operation that a call reaches, and no refused
mode lets a `read` or a `write` of the device through. -/
theorem device_calls_iff (v : Vfs) (letter : UInt8) (rest : Name) (i : Nat) (at_ : DeviceAt v letter rest i)
    (refuses : UInt8 → Bool) (events : List DeviceEvent) :
    CallsSafe letter rest i refuses events [] v ↔ CallsProvided (v.operations i) refuses events [] :=
  at_.callsSafe_iff (by simp)

/-- `devzero`, which has no `write`, and the modes that `devzero_open` refuses. -/
def devzero : DeviceOps where
  readOp := some fun buffer maxLen => (0, fill buffer 0 maxLen 0)
  openOp := some fun _ => false
  closeOp := some ()

def devzeroRefuses (mode : UInt8) : Bool := mode ≠ modeReadonly

/-- `"devzero"` -/
def devzeroName : Name := [100, 101, 118, 122, 101, 114, 111]

def initDevices : VfsM Nat := do
  let _ ← mountNew 68
  createDevice (drivePath 68 [devzeroName]) devzero

theorem devzero_at : ∃ v j, initDevices {} = .ok (0, v) ∧ DeviceAt v 68 devzeroName j ∧ v.operations j = devzero := by
  have isLetter : isDriveLetter 68 = true := by decide
  have unused : ∀ a, ({} : Vfs).tempFs.used < a → ({} : Vfs).tempFs.inodes a = {} := fun _ _ => rfl
  obtain ⟨w, root, chain, mounts, mounted, models, -⟩ := mountNew_run isLetter unused
  have check : returns initDevices {} (fun status _ => status == 0) = true := by decide +kernel
  obtain ⟨_, v, run, status⟩ := returns_iff.mp check
  obtain rfl := beq_iff_eq.mp status
  have created := run
  unfold initDevices at created
  rw [bind_eq mounts] at created
  have ordinary : ∀ c ∈ [devzeroName], Ordinary c := by decide
  obtain ⟨j, at_, operations⟩ := createDevice_deviceAt mounted models (by simp) ordinary created
  exact ⟨v, j, run, at_, operations⟩

theorem device_calls_iff_devzero : ∃ v j, initDevices {} = .ok (0, v) ∧
    CallsSafe 68 devzeroName j devzeroRefuses [.openIt {} 1, .read 0 (fun _ => 7) 4, .write 0 (fun _ => 7) 4, .close 0] [] v := by
  obtain ⟨v, j, run, at_, operations⟩ := devzero_at
  refine ⟨v, j, run, (device_calls_iff v 68 devzeroName j at_ devzeroRefuses _).mpr ?_⟩
  rw [operations]
  simp [CallsProvided, devzero, devzeroRefuses, modeReadonly]

/-- Opened for reading and writing, which `devzero_open` refuses, `devzero` can be read, and a write calls the null
pointer. -/
theorem devzero_read_write : ∃ v j, initDevices {} = .ok (0, v) ∧
    ¬ CallsSafe 68 devzeroName j devzeroRefuses [.openIt {} 3, .read 0 (fun _ => 7) 4] [] v ∧
    ¬ CallsSafe 68 devzeroName j devzeroRefuses [.openIt {} 3, .write 0 (fun _ => 7) 4] [] v := by
  obtain ⟨v, j, run, at_, operations⟩ := devzero_at
  refine ⟨v, j, run, fun safe => ?_, fun safe => ?_⟩
  · have provided := (at_.callsSafe_iff (by simp)).mp safe
    rw [operations] at provided
    revert provided
    simp [CallsProvided, devzero, devzeroRefuses, modeReadonly, modeWriteonly]
  · have provided := (at_.callsSafe_iff (by simp)).mp safe
    rw [operations] at provided
    revert provided
    simp [CallsProvided, devzero, devzeroRefuses, modeReadonly, modeWriteonly]

end PotatOS.Fs
