import PotatOS.Fs.Tree
import PotatOS.Fs.Vfs

/-!
# Walking a path

The loops of `open` and `create_device` take a path component by component.
Over a tree of names each finds, or makes, the inode at that path.
-/

namespace PotatOS.Fs

open Prog

/-! ### Paths as bytes -/

/-- A component of 1 to 19 bytes that is neither `.` nor `..`. -/
def Ordinary (c : Name) : Prop :=
  c ≠ [] ∧ c.length ≤ 19 ∧ c ≠ dot ∧ c ≠ dotDot ∧ slash ∉ c ∧ 0 ∉ c

instance (c : Name) : Decidable (Ordinary c) := inferInstanceAs (Decidable (_ ∧ _))

/-- The components with `/` between them. -/
def joinPath : List Name → Name
  | [] => []
  | [c] => c
  | c :: next :: rest => c ++ slash :: joinPath (next :: rest)

variable {c next : Name} {rest comps : List Name}

theorem Ordinary.no_slash (ordinary : Ordinary c) : ∀ b ∈ c, decide (b ≠ slash) = true := by
  obtain ⟨-, -, -, -, noSlash, -⟩ := ordinary
  intro b inside
  refine decide_eq_true fun same => ?_
  rw [same] at inside
  exact noSlash inside

theorem firstComponent_join (ordinary : Ordinary c) : firstComponent (joinPath (c :: rest)) = c := by
  unfold firstComponent
  cases rest with
  | nil =>
    rw [joinPath, ← List.append_nil c, List.takeWhile_append_of_pos ordinary.no_slash]
    simp
  | cons next rest =>
    rw [joinPath, List.takeWhile_append_of_pos ordinary.no_slash]
    simp

theorem isDirComponent_last (ordinary : Ordinary c) : isDirComponent (joinPath [c]) = false := by
  unfold isDirComponent
  rw [firstComponent_join ordinary]
  simp [joinPath]

theorem isDirComponent_inner (ordinary : Ordinary c) : isDirComponent (joinPath (c :: next :: rest)) = true := by
  unfold isDirComponent
  rw [firstComponent_join ordinary]
  simp [joinPath]

theorem drop_join : (joinPath (c :: next :: rest)).drop (c.length + 1) = joinPath (next :: rest) := by
  simp [joinPath, List.drop_append]

theorem join_ne_nil (ordinary : Ordinary c) : joinPath (c :: rest) ≠ [] := by
  cases rest with
  | nil => exact ordinary.1
  | cons next rest => simp [joinPath]

/-! ### The rounds of the walks -/

section rounds

variable {fs : FileSystem} {flags : OpenFlags} {mode : UInt8} {rounds d : Nat} {v : Vfs}

theorem openWalk_inner (ordinary : Ordinary c) :
    openWalk fs flags mode (rounds + 1) (joinPath (c :: next :: rest)) (joinPath (c :: next :: rest)) d v =
      (do
        match ← findDir fs flags d c with
        | none => return none
        | some thisDir =>
          let next' ← fs.call (tempfsOpenDir thisDir)
          openWalk fs flags mode rounds (joinPath (next :: rest)) (joinPath (next :: rest)) next') v := by
  rw [openWalk, if_neg (join_ne_nil ordinary)]
  simp only [isDirComponent_inner ordinary, firstComponent_join ordinary, drop_join]
  rewrite [if_true]
  rfl

theorem openWalk_last (ordinary : Ordinary c) :
    openWalk fs flags mode (rounds + 1) (joinPath [c]) (joinPath [c]) d v =
      (do
        match ← findFile fs flags d c with
        | none => return none
        | some thisFile => return some (← fs.call (tempfsOpenFile thisFile mode), c)) v := by
  rw [openWalk, if_neg (join_ne_nil ordinary)]
  simp only [isDirComponent_last ordinary, firstComponent_join ordinary, Bool.false_eq_true]
  rewrite [if_false]
  rfl

variable {operations : DeviceOps}

theorem deviceWalk_inner (ordinary : Ordinary c) :
    deviceWalk fs operations (rounds + 1) (joinPath (c :: next :: rest)) (joinPath (c :: next :: rest)) d v =
      (do
        let thisDir ← fs.call (tempfsFind d c)
        if thisDir = 0 then return 2
        let next' ← fs.call (tempfsOpenDir thisDir)
        deviceWalk fs operations rounds (joinPath (next :: rest)) (joinPath (next :: rest)) next') v := by
  rw [deviceWalk, if_neg (join_ne_nil ordinary)]
  simp only [isDirComponent_inner ordinary, firstComponent_join ordinary, drop_join, if_true]

theorem deviceWalk_last (ordinary : Ordinary c) :
    deviceWalk fs operations (rounds + 1) (joinPath [c]) (joinPath [c]) d v =
      (do
        let thisFile ← fs.call (tempfsFind d c)
        if thisFile ≠ 0 then return 1
        fs.call (tempfsCreateDevice d c operations)
        let _ ← fs.call (tempfsFind d c)
        return 0) v := by
  rw [deviceWalk, if_neg (join_ne_nil ordinary)]
  simp only [isDirComponent_last ordinary, firstComponent_join ordinary, Bool.false_eq_true, if_false]

end rounds

/-! ### How a walk changes the tree -/

/-- From `s` with the tree `T` to `t` with `T'`: the new paths are prefixes of `target`, and old
inodes keep what matters to lookups and, for regular files, everything. -/
structure Growth (s t : TempFs) (T T' : Tree) (target : List Name) : Prop where
  keeps : ∀ q j, T.inodeAt q = some j → T'.inodeAt q = some j
  adds : ∀ q j, T'.inodeAt q = some j → T.inodeAt q = none →
    s.used < j ∧ q <+: target ∧ (q ≠ target → (t.inodes j).isDir = true)
  kinds : ∀ q j, T.inodeAt q = some j → (t.inodes j).isDir = (s.inodes j).isDir ∧
    (t.inodes j).type = (s.inodes j).type ∧ (t.inodes j).operations = (s.inodes j).operations
  files : ∀ q j, T.inodeAt q = some j → (s.inodes j).isDir = false → (s.inodes j).type ≠ filetypeDevice →
    t.inodes j = s.inodes j
  fileNodes : t.fileNodes = s.fileNodes
  used : s.used ≤ t.used

variable {s t u : TempFs} {T T' T'' : Tree} {base root d i : Nat} {path target : List Name}

theorem Growth.refl (s : TempFs) (T : Tree) (target : List Name) : Growth s s T T target where
  keeps _ _ found := found
  adds q j found absent := by rw [absent] at found; cases found
  kinds _ _ _ := ⟨rfl, rfl, rfl⟩
  files _ _ _ _ _ := rfl
  fileNodes := rfl
  used := le_rfl

theorem Growth.trans (first : Growth s t T T' target) (second : Growth t u T' T'' target) :
    Growth s u T T'' target where
  keeps q j found := second.keeps q j (first.keeps q j found)
  adds q j found absent := by
    cases middle : T'.inodeAt q with
    | none =>
      obtain ⟨new, inner, isDir⟩ := second.adds q j found middle
      exact ⟨first.used.trans_lt new, inner, isDir⟩
    | some k =>
      obtain rfl : k = j := Option.some.inj ((second.keeps q k middle).symm.trans found)
      obtain ⟨new, inner, isDir⟩ := first.adds q k middle absent
      refine ⟨new, inner, fun notTarget => ?_⟩
      rw [(second.kinds q k middle).1]
      exact isDir notTarget
  kinds q j found := by
    obtain ⟨kind, type, operations⟩ := first.kinds q j found
    obtain ⟨kind', type', operations'⟩ := second.kinds q j (first.keeps q j found)
    exact ⟨kind'.trans kind, type'.trans type, operations'.trans operations⟩
  files q j found leaf regular := by
    have same := first.files q j found leaf regular
    rw [← same]
    rw [← same] at leaf regular
    exact second.files q j (first.keeps q j found) leaf regular
  fileNodes := second.fileNodes.trans first.fileNodes
  used := first.used.trans second.used

/-- A call that creates the inode at `path ++ [c]` on the way to `target`. -/
theorem Created.growth (created : Created s t base root d T T' path c i) (isDir : (s.inodes d).isDir = true)
    (models : Models s base root T) (absent : T.inodeAt (path ++ [c]) = none)
    (within : path ++ [c] <+: target) (inner : path ++ [c] ≠ target → (t.inodes i).isDir = true) :
    Growth s t T T' target := by
  obtain ⟨e, newChain, rfl⟩ := created.added
  obtain ⟨last, e', newChain', grown⟩ := created.grown
  have old : ∀ q j, T.inodeAt q = some j → j ≤ s.used := fun q j found => (models.valid q j found).2
  refine ⟨fun q j found => Tree.add_old absent found, ?_, ?_, ?_, grown.fileNodes, grown.used⟩
  · intro q j found absent'
    by_cases new : q = path ++ [c]
    · rw [new, Tree.add_self] at found
      obtain rfl := Option.some.inj found
      rw [new]
      exact ⟨grown.inodeNew.1, within, inner⟩
    · rw [Tree.add_other new, absent'] at found
      cases found
  · intro q j found
    by_cases same : j = d
    · rw [same, grown.dir]
      exact ⟨rfl, rfl, rfl⟩
    · rw [grown.inodes j same (old q j found)]
      exact ⟨rfl, rfl, rfl⟩
  · intro q j found leaf _
    refine grown.inodes j (fun same => ?_) (old q j found)
    rw [same, isDir] at leaf
    cases leaf

/-- `open_file` on a file or a device with an `open` function. -/
structure Opened (s t : TempFs) (i : Nat) : Prop where
  sameTree : SameTree s t
  kinds : ∀ a, (t.inodes a).type = (s.inodes a).type ∧ (t.inodes a).operations = (s.inodes a).operations
  files : ∀ a, (s.inodes a).type ≠ filetypeDevice → t.inodes a = s.inodes a
  fileNodes : t.fileNodes = s.fileNodes

theorem Opened.growth (opened : Opened s t i) (T : Tree) (target : List Name) : Growth s t T T target where
  keeps _ _ found := found
  adds q j found absent := by rw [absent] at found; cases found
  kinds _ j _ := ⟨opened.sameTree.kinds j, opened.kinds j⟩
  files _ j _ _ regular := opened.files j regular
  fileNodes := opened.fileNodes
  used := opened.sameTree.used

theorem Opened.refl (s : TempFs) (i : Nat) : Opened s s i :=
  ⟨⟨fun _ => rfl, fun _ => rfl, fun _ _ => ⟨rfl, rfl⟩, rfl, le_rfl⟩, fun _ => ⟨rfl, rfl⟩, fun _ _ => rfl, rfl⟩

/-- Only `private` of the device itself is new. -/
theorem Opened.newPrivate (device : (s.inodes i).type = filetypeDevice) : Opened s { s with
    inodes := Function.update s.inodes i { s.inodes i with privateData := s.used + 1 }
    used := s.used + 1 } i := by
  have fields : ∀ a, ∃ p,
      Function.update s.inodes i { s.inodes i with privateData := s.used + 1 } a =
        { s.inodes a with privateData := p } := by
    intro a
    by_cases same : a = i
    · rw [same, Function.update_self]
      exact ⟨_, rfl⟩
    · rw [Function.update_of_ne same]
      exact ⟨_, rfl⟩
  refine ⟨⟨fun a => ?_, fun a => ?_, fun a _ => ?_, rfl, Nat.le_succ _⟩, fun a => ?_, fun a regular => ?_, rfl⟩
  · obtain ⟨p, eq⟩ := fields a
    dsimp only
    rw [eq]
  · obtain ⟨p, eq⟩ := fields a
    dsimp only
    rw [eq]
  · obtain ⟨p, eq⟩ := fields a
    dsimp only
    rw [eq]
    exact ⟨rfl, rfl⟩
  · obtain ⟨p, eq⟩ := fields a
    dsimp only
    rw [eq]
    exact ⟨rfl, rfl⟩
  · apply Function.update_of_ne
    rintro rfl
    exact regular device

theorem tempfsOpenFile_run (mode : UInt8) (nonnull : i ≠ 0) (leaf : (s.inodes i).isDir = false)
    (opens : (s.inodes i).type = filetypeDevice → (s.inodes i).operations.openOp ≠ none) :
    ∃ t, tempfsOpenFile i mode s = .ok (i, t) ∧ Opened s t i := by
  unfold tempfsOpenFile
  rw [bind_eq (inode_run nonnull)]
  by_cases device : (s.inodes i).type = filetypeDevice
  · rw [if_pos device]
    obtain ⟨open_, provided⟩ := Option.ne_none_iff_exists'.mp (opens device)
    rw [provided]
    dsimp only
    cases open_ mode with
    | false => exact ⟨s, rfl, .refl s i⟩
    | true => exact ⟨_, rfl, .newPrivate device⟩
  · rw [if_neg device, leaf]
    exact ⟨s, rfl, .refl s i⟩

theorem tempfsOpenDir_run (nonnull : d ≠ 0) (isDir : (s.inodes d).isDir = true) :
    tempfsOpenDir d s = .ok (d, s) := by
  unfold tempfsOpenDir
  rw [bind_eq (inode_run nonnull), isDir]
  rfl

/-! ### The walks over a tree -/

/-- What the path may meet: directories before its end, and there a file or a
device that can be opened. -/
structure Clear (s : TempFs) (T : Tree) (target : List Name) : Prop where
  inner : ∀ q j, T.inodeAt q = some j → q <+: target → q ≠ target → (s.inodes j).isDir = true
  leaf : ∀ j, T.inodeAt target = some j → (s.inodes j).isDir = false ∧
    ((s.inodes j).type = filetypeDevice → (s.inodes j).operations.openOp ≠ none)

theorem Clear.growth (clear : Clear s T target) (growth : Growth s t T T' target)
    (same : T'.inodeAt target = T.inodeAt target) : Clear t T' target where
  inner q j found within notTarget := by
    cases before : T.inodeAt q with
    | none => exact (growth.adds q j found before).2.2 notTarget
    | some k =>
      obtain rfl : k = j := Option.some.inj ((growth.keeps q k before).symm.trans found)
      rw [(growth.kinds q k before).1]
      exact clear.inner q k before within notTarget
  leaf j found := by
    rw [same] at found
    obtain ⟨kind, type, operations⟩ := growth.kinds target j found
    rw [kind, type, operations]
    exact clear.leaf j found

theorem Models.prefix_none (models : Models s base root T) {p : List Name} (absent : T.inodeAt p = none)
    (q : List Name) : T.inodeAt (p ++ q) = none := by
  induction q using List.reverseRecOn with
  | nil => rw [List.append_nil]; exact absent
  | append_singleton q x ih =>
    cases found : T.inodeAt (p ++ (q ++ [x])) with
    | none => rfl
    | some i =>
      rw [← List.append_assoc] at found
      obtain ⟨d, there, -⟩ := models.parent _ _ _ found
      rw [ih] at there
      cases there

variable {v : Vfs} {flags : OpenFlags} {n : Nat}

theorem Models.find_call (models : Models v.tempFs base root T) (at_ : T.inodeAt path = some d)
    (isDir : (v.tempFs.inodes d).isDir = true) (ordinary : Ordinary c) :
    FileSystem.tempFs.call (tempfsFind d c) v = .ok ((T.inodeAt (path ++ [c])).getD 0, v) :=
  FileSystem.call_run (models.find_run at_ isDir ordinary.2.2.1 ordinary.2.2.2.1)

theorem Created.found {t : TempFs} (created : Created v.tempFs t base root d T T' path c i)
    (growth : Growth v.tempFs t T T' target) (at_ : T.inodeAt path = some d) (isDir : (v.tempFs.inodes d).isDir = true)
    (ordinary : Ordinary c) : T'.inodeAt (path ++ [c]) = some i ∧
      FileSystem.tempFs.call (tempfsFind d c) { v with tempFs := t } = .ok (i, { v with tempFs := t }) := by
  have there : T'.inodeAt (path ++ [c]) = some i := by
    obtain ⟨e, newChain, rfl⟩ := created.added
    exact Tree.add_self
  have isDir' : (t.inodes d).isDir = true := by rw [(growth.kinds path d at_).1]; exact isDir
  refine ⟨there, ?_⟩
  rw [created.models.find_call (v := { v with tempFs := t }) (growth.keeps path d at_) isDir' ordinary, there]
  rfl

theorem Clear.opens {j : Nat} (clear : Clear v.tempFs T (path ++ c :: next :: rest)) (models : Models v.tempFs base root T)
    (found : T.inodeAt (path ++ [c]) = some j) : j ≠ 0 ∧ (v.tempFs.inodes j).isDir = true ∧
      FileSystem.tempFs.call (tempfsOpenDir j) v = .ok (j, v) := by
  have nonnull : j ≠ 0 := (models.valid _ j found).1
  have isDir : (v.tempFs.inodes j).isDir = true := clear.inner _ j found ⟨next :: rest, by simp⟩ (by simp)
  exact ⟨nonnull, isDir, FileSystem.call_run (tempfsOpenDir_run nonnull isDir)⟩

/-- A directory on the way: found, or made when `O_CREATALL` is given. -/
theorem findDir_run (models : Models v.tempFs base root T) (at_ : T.inodeAt path = some d)
    (isDir : (v.tempFs.inodes d).isDir = true) (ordinary : Ordinary c) (clear : Clear v.tempFs T target)
    (within : path ++ [c] <+: target) (inner : path ++ [c] ≠ target)
    (makes : T.inodeAt (path ++ [c]) = none → flags.creatAll = true) :
    ∃ t T' j, findDir .tempFs flags d c v = .ok (some j, { v with tempFs := t }) ∧ Models t base root T' ∧
      T'.inodeAt (path ++ [c]) = some j ∧ (t.inodes j).isDir = true ∧ Growth v.tempFs t T T' target ∧
      T'.inodeAt target = T.inodeAt target := by
  have find := models.find_call at_ isDir ordinary
  unfold findDir
  rw [bind_eq find]
  cases found : T.inodeAt (path ++ [c]) with
  | some j =>
    have nonnull : j ≠ 0 := (models.valid _ j found).1
    refine ⟨v.tempFs, T, j, ?_, models, found, clear.inner _ j found within inner, .refl .., rfl⟩
    rw [Option.getD_some, if_neg nonnull]
    rfl
  | none =>
    obtain ⟨t, T', run, created, newDir⟩ := models.mkdir at_ isDir found ordinary.2.2.1 ordinary.2.2.2.1
    have growth : Growth v.tempFs t T T' target :=
      created.growth isDir models found within fun _ => newDir
    obtain ⟨there, again⟩ := created.found growth at_ isDir ordinary
    have sameTarget : T'.inodeAt target = T.inodeAt target := by
      obtain ⟨e, newChain, rfl⟩ := created.added
      exact Tree.add_other inner.symm
    refine ⟨t, T', _, ?_, created.models, there, newDir, growth, sameTarget⟩
    rw [Option.getD_none, if_pos rfl, if_pos (makes found), bind_eq (FileSystem.call_run run), bind_eq again]
    rfl

/-- The last component: found, or made as a file when `O_CREATALL` is given. -/
theorem findFile_run (models : Models v.tempFs base root T) (at_ : T.inodeAt path = some d)
    (isDir : (v.tempFs.inodes d).isDir = true) (ordinary : Ordinary c)
    (makes : T.inodeAt (path ++ [c]) = none → flags.creatAll = true) :
    ∃ t T' j, findFile .tempFs flags d c v = .ok (some j, { v with tempFs := t }) ∧ Models t base root T' ∧
      T'.inodeAt (path ++ [c]) = some j ∧ Growth v.tempFs t T T' (path ++ [c]) ∧
      (T.inodeAt (path ++ [c]) = none → t.inodes j = { filename := c }) := by
  have find := models.find_call at_ isDir ordinary
  unfold findFile
  rw [bind_eq find]
  cases found : T.inodeAt (path ++ [c]) with
  | some j =>
    have nonnull : j ≠ 0 := (models.valid _ j found).1
    refine ⟨v.tempFs, T, j, ?_, models, found, .refl .., fun impossible => by cases impossible⟩
    rw [Option.getD_some, if_neg nonnull]
    rfl
  | none =>
    obtain ⟨t, T', run, created, node⟩ := models.mkfile at_ isDir found ordinary.2.2.1 ordinary.2.2.2.1
    have growth : Growth v.tempFs t T T' (path ++ [c]) :=
      created.growth isDir models found (List.prefix_refl _) fun other => absurd rfl other
    obtain ⟨there, again⟩ := created.found growth at_ isDir ordinary
    refine ⟨t, T', _, ?_, created.models, there, growth, fun _ => node⟩
    rw [Option.getD_none, if_pos rfl, if_pos (.inr (makes found)), bind_eq (FileSystem.call_run run), bind_eq again]
    rfl

/-- What the walk of `open` reaches: the inode at `target`, new if there was none. -/
structure Reached (s t : TempFs) (base root : Nat) (T T' : Tree) (target : List Name) (name : Name) (i : Nat) :
    Prop where
  models : Models t base root T'
  at_ : T'.inodeAt target = some i
  leaf : (t.inodes i).isDir = false
  growth : Growth s t T T' target
  new : T.inodeAt target = none → t.inodes i = { filename := name }

theorem openWalk_reaches (mode : UInt8) (models : Models v.tempFs base root T) (at_ : T.inodeAt path = some d)
    (isDir : (v.tempFs.inodes d).isDir = true) (nonempty : comps ≠ []) (ordinary : ∀ c ∈ comps, Ordinary c)
    (clear : Clear v.tempFs T (path ++ comps)) (enough : comps.length ≤ n)
    (makes : T.inodeAt (path ++ comps) = none → flags.creatAll = true) :
    ∃ t T' i, openWalk .tempFs flags mode n (joinPath comps) (joinPath comps) d v =
        .ok (some (i, comps.getLast nonempty), { v with tempFs := t }) ∧
      Reached v.tempFs t base root T T' (path ++ comps) (comps.getLast nonempty) i := by
  induction comps generalizing path d v T n with
  | nil => exact absurd rfl nonempty
  | cons c rest ih =>
    have here : Ordinary c := ordinary c (List.mem_cons_self ..)
    obtain ⟨n, rfl⟩ := Nat.exists_eq_succ_of_ne_zero (show n ≠ 0 by simp at enough; omega)
    cases rest with
    | nil =>
      obtain ⟨t, T', j, find, models', there, growth, new⟩ := findFile_run models at_ isDir here makes
      -- Whether it was there or is new, it is a file or a device that can be opened.
      have leaf : (t.inodes j).isDir = false ∧
          ((t.inodes j).type = filetypeDevice → (t.inodes j).operations.openOp ≠ none) := by
        cases before : T.inodeAt (path ++ [c]) with
        | none => rw [new before]; exact ⟨rfl, fun impossible => absurd impossible (by simp [filetypeDevice])⟩
        | some k =>
          obtain rfl : k = j := Option.some.inj ((growth.keeps _ k before).symm.trans there)
          obtain ⟨kind, type, operations⟩ := growth.kinds _ k before
          rw [kind, type, operations]
          exact clear.leaf k before
      obtain ⟨u, opens, opened⟩ := tempfsOpenFile_run mode (models'.valid _ j there).1 leaf.1 leaf.2
      have opens' : FileSystem.tempFs.call (tempfsOpenFile j mode) { v with tempFs := t } =
          .ok (j, { v with tempFs := u }) := FileSystem.call_run opens
      refine ⟨u, T', j, ?_, models'.same opened.sameTree, there, ?_, growth.trans (opened.growth T' _), ?_⟩
      · rw [openWalk_last here, bind_eq find]
        dsimp only
        rw [bind_eq opens']
        rfl
      · rw [opened.sameTree.kinds]
        exact leaf.1
      · intro before
        have regular : (t.inodes j).type ≠ filetypeDevice := by rw [new before]; simp [filetypeDevice]
        rw [opened.files j regular]
        exact new before
    | cons next rest =>
      have eq : path ++ c :: next :: rest = path ++ [c] ++ (next :: rest) := by simp
      have within : path ++ [c] <+: path ++ c :: next :: rest := ⟨next :: rest, eq.symm⟩
      have inner : path ++ [c] ≠ path ++ c :: next :: rest := by simp
      have makes' : T.inodeAt (path ++ [c]) = none → flags.creatAll = true := by
        intro absent
        apply makes
        rw [eq]
        exact models.prefix_none absent _
      obtain ⟨t, T', j, find, models', there, newDir, growth, sameTarget⟩ :=
        findDir_run models at_ isDir here clear within inner makes'
      have opens : FileSystem.tempFs.call (tempfsOpenDir j) { v with tempFs := t } = .ok (j, { v with tempFs := t }) :=
        FileSystem.call_run (tempfsOpenDir_run (models'.valid _ j there).1 newDir)
      have clear' := clear.growth growth sameTarget
      rw [eq] at clear' makes sameTarget
      obtain ⟨u, T'', i, walk, reached⟩ := ih (v := { v with tempFs := t }) (n := n) models' there newDir
        (List.cons_ne_nil _ _) (fun c inside => ordinary c (List.mem_cons_of_mem _ inside)) clear'
        (by simp only [List.length_cons] at enough ⊢; omega) (by rw [sameTarget]; exact makes)
      rw [eq]
      rw [eq] at growth
      refine ⟨u, T'', i, ?_, reached.models, reached.at_, reached.leaf, growth.trans reached.growth, ?_⟩
      · rw [openWalk_inner here, bind_eq find]
        dsimp only
        rw [bind_eq opens]
        exact walk
      · intro absent
        apply reached.new
        rw [sameTarget]
        exact absent

/-- Without the flags that create, a path with nothing at its end gives null. -/
theorem openWalk_missing (mode : UInt8) (models : Models v.tempFs base root T) (at_ : T.inodeAt path = some d)
    (isDir : (v.tempFs.inodes d).isDir = true) (nonempty : comps ≠ []) (ordinary : ∀ c ∈ comps, Ordinary c)
    (clear : Clear v.tempFs T (path ++ comps)) (enough : comps.length ≤ n)
    (absent : T.inodeAt (path ++ comps) = none) :
    openWalk .tempFs {} mode n (joinPath comps) (joinPath comps) d v = .ok (none, v) := by
  induction comps generalizing path d n with
  | nil => exact absurd rfl nonempty
  | cons c rest ih =>
    have here : Ordinary c := ordinary c (List.mem_cons_self ..)
    obtain ⟨n, rfl⟩ := Nat.exists_eq_succ_of_ne_zero (show n ≠ 0 by simp at enough; omega)
    have find := models.find_call at_ isDir here
    cases rest with
    | nil =>
      rw [openWalk_last here]
      unfold findFile
      rw [absent, Option.getD_none] at find
      rw [bind_assoc, bind_eq find]
      rfl
    | cons next rest =>
      have eq : path ++ c :: next :: rest = path ++ [c] ++ (next :: rest) := by simp
      rw [openWalk_inner here]
      cases found : T.inodeAt (path ++ [c]) with
      | none =>
        unfold findDir
        rw [found, Option.getD_none] at find
        rw [bind_assoc, bind_eq find]
        rfl
      | some j =>
        obtain ⟨nonnull, isDir', opens⟩ := clear.opens models found
        have finds : findDir .tempFs {} d c v = .ok (some j, v) := by
          unfold findDir
          rw [bind_eq find, found, Option.getD_some, if_neg nonnull]
          rfl
        rw [bind_eq finds]
        dsimp only
        rw [bind_eq opens]
        rw [eq] at clear absent
        exact ih found isDir' (List.cons_ne_nil _ _) (fun c inside => ordinary c (List.mem_cons_of_mem _ inside))
          clear (by simp only [List.length_cons] at enough ⊢; omega) absent

/-- The walk of `create_device`: 2 when a directory is missing, 1 when something is there already, else a new
device. -/
theorem deviceWalk_run (operations : DeviceOps) (models : Models v.tempFs base root T)
    (at_ : T.inodeAt path = some d) (isDir : (v.tempFs.inodes d).isDir = true) (nonempty : comps ≠ [])
    (ordinary : ∀ c ∈ comps, Ordinary c) (clear : Clear v.tempFs T (path ++ comps)) (enough : comps.length ≤ n) :
    let run := deviceWalk .tempFs operations n (joinPath comps) (joinPath comps) d v
    (T.inodeAt (path ++ comps.dropLast) = none → run = .ok (2, v)) ∧
    (T.inodeAt (path ++ comps) ≠ none → run = .ok (1, v)) ∧
    (T.inodeAt (path ++ comps.dropLast) ≠ none → T.inodeAt (path ++ comps) = none →
      ∃ t T', run = .ok (0, { v with tempFs := t }) ∧ Models t base root T' ∧
        T'.inodeAt (path ++ comps) = some (v.tempFs.used + 1) ∧ Growth v.tempFs t T T' (path ++ comps) ∧
        t.inodes (v.tempFs.used + 1) =
          { filename := comps.getLast nonempty, type := filetypeDevice, operations := operations }) := by
  induction comps generalizing path d n with
  | nil => exact absurd rfl nonempty
  | cons c rest ih =>
    have here : Ordinary c := ordinary c (List.mem_cons_self ..)
    obtain ⟨n, rfl⟩ := Nat.exists_eq_succ_of_ne_zero (show n ≠ 0 by simp at enough; omega)
    have find := models.find_call at_ isDir here
    dsimp only
    cases rest with
    | nil =>
      rw [deviceWalk_last here, bind_eq find]
      simp only [List.dropLast_singleton, List.append_nil]
      refine ⟨fun missing => ?_, fun present => ?_, fun _ absent => ?_⟩
      · rw [at_] at missing
        cases missing
      · obtain ⟨j, found⟩ := Option.ne_none_iff_exists'.mp present
        have nonnull : j ≠ 0 := (models.valid _ j found).1
        rw [found, Option.getD_some, if_pos nonnull]
        rfl
      · obtain ⟨t, T', run, created, node⟩ :=
          models.createDevice at_ isDir absent here.2.2.1 here.2.2.2.1 operations
        have growth : Growth v.tempFs t T T' (path ++ [c]) :=
          created.growth isDir models absent (List.prefix_refl _) fun other => absurd rfl other
        obtain ⟨there, again⟩ := created.found growth at_ isDir here
        refine ⟨t, T', ?_, created.models, there, growth, node⟩
        rw [absent, Option.getD_none, if_neg (by simp), bind_eq (FileSystem.call_run run), bind_eq again]
        rfl
    | cons next rest =>
      have eq : path ++ c :: next :: rest = path ++ [c] ++ (next :: rest) := by simp
      have eqParent : path ++ (c :: next :: rest).dropLast = path ++ [c] ++ (next :: rest).dropLast := by simp
      rw [eqParent, deviceWalk_inner here, bind_eq find]
      cases found : T.inodeAt (path ++ [c]) with
      | none =>
        have missing := models.prefix_none found
        rw [eq, missing, missing]
        refine ⟨fun _ => rfl, fun impossible => absurd rfl impossible, fun impossible => absurd rfl impossible⟩
      | some j =>
        obtain ⟨nonnull, isDir', opens⟩ := clear.opens models found
        rw [Option.getD_some, if_neg nonnull, bind_eq opens]
        rw [eq] at clear ⊢
        exact ih found isDir' (List.cons_ne_nil _ _) (fun c inside => ordinary c (List.mem_cons_of_mem _ inside))
          clear (by simp only [List.length_cons] at enough ⊢; omega)

end PotatOS.Fs
