import PotatOS.Fs.Walks
import Mathlib.Data.List.Infix

/-!
# Lookups through `.` and `..`

In a tree of ordinary names the first two entries of a directory lead to inodes
with the chain of the directory itself and of its parent: the first node of a
chain never changes while the chain grows. A path with `.` and `..` is therefore
looked up like the path without them.
-/

namespace PotatOS.Fs

open Prog

variable {s t u v' : TempFs} {T T' : Tree} {base root d i a b : Nat} {path p q front : List Name} {c x last : Name}

/-! ### Directories and their first two entries -/

/-- The inode `a` has the entries of the directory at `path`. -/
structure StandsFor (s : TempFs) (T : Tree) (path : List Name) (a : Nat) : Prop where
  nonnull : a ≠ 0
  isDir : (s.inodes a).isDir = true
  shares : ∃ d, T.inodeAt path = some d ∧ (s.inodes d).isDir = true ∧ (s.inodes a).firstNode = (s.inodes d).firstNode

/-- `.` stands for the directory at `path` and `..` for its parent; the root is its own parent. -/
def DotsLead (s : TempFs) (T : Tree) (path : List Name) : Prop :=
  ∃ dotEntry dotDotEntry rest, T.chain path = dotEntry :: dotDotEntry :: rest ∧
    StandsFor s T path (s.entryInode dotEntry) ∧ StandsFor s T path.dropLast (s.entryInode dotDotEntry)

/-- A tree built of ordinary names, whose devices can be opened. -/
structure Rooted (s : TempFs) (base root : Nat) (T : Tree) : Prop where
  models : Models s base root T
  dots : ∀ p d, T.inodeAt p = some d → (s.inodes d).isDir = true → DotsLead s T p
  above : ∀ p i, T.inodeAt p = some i → base < i
  devices : ∀ p i, T.inodeAt p = some i → (s.inodes i).type = filetypeDevice → (s.inodes i).operations.openOp ≠ none

theorem StandsFor.self (models : Models s base root T) (at_ : T.inodeAt path = some d)
    (isDir : (s.inodes d).isDir = true) : StandsFor s T path d :=
  ⟨(models.valid path d at_).1, isDir, d, at_, isDir, rfl⟩

/-- While inodes keep their chains and paths their inodes. -/
theorem StandsFor.kept (stands : StandsFor s T path a) (models : Models s base root T) (old : a ≤ s.used)
    (keeps : ∀ p i, T.inodeAt p = some i → T'.inodeAt p = some i)
    (same : ∀ b ≤ s.used, (s.inodes b).isDir = true →
      (t.inodes b).isDir = true ∧ (t.inodes b).firstNode = (s.inodes b).firstNode) : StandsFor t T' path a := by
  obtain ⟨d, at_, isDir, first⟩ := stands.shares
  have here := same a old stands.isDir
  have there := same d (models.valid path d at_).2 isDir
  exact ⟨stands.nonnull, here.1, d, keeps path d at_, there.1, here.2.trans (first.trans there.2.symm)⟩

theorem Furnished.dotsLead {n parent : Nat} (furnished : Furnished s t n a parent) (models : Models t base root T)
    (at_ : T.inodeAt path = some n) (isDir : (t.inodes n).isDir = true)
    (up : ∃ d, T.inodeAt path.dropLast = some d ∧ (t.inodes d).isDir = true ∧ (t.inodes d).firstNode = parent) :
    DotsLead t T path := by
  have first : (t.inodes n).firstNode = a + 1 := by rw [furnished.dir]
  have linked : Linked t.nextEntry (t.inodes n).firstNode [a + 1, a + 4] := by
    rw [first]
    refine ⟨rfl, Nat.succ_ne_zero _, ?_, Nat.succ_ne_zero _, ?_⟩
    · unfold TempFs.nextEntry
      rw [furnished.dotEntry]
    · change (t.dirEntries (a + 4)).nextNode = 0
      rw [furnished.dotDotEntry]
  have chain : T.chain path = [a + 1, a + 4] := (models.dirs path n at_ isDir).linked.unique linked
  have dotInode : t.entryInode (a + 1) = a + 2 := by
    unfold TempFs.entryInode
    rw [furnished.dotEntry]
  have dotDotInode : t.entryInode (a + 4) = a + 3 := by
    unfold TempFs.entryInode
    rw [furnished.dotDotEntry]
  refine ⟨a + 1, a + 4, [], chain, ?_, ?_⟩
  · rw [dotInode]
    refine ⟨Nat.succ_ne_zero _, ?_, n, at_, isDir, ?_⟩
    · rw [furnished.dotInode]
    · rw [furnished.dotInode, first]
  · rw [dotDotInode]
    obtain ⟨d, there, kind, same⟩ := up
    refine ⟨Nat.succ_ne_zero _, ?_, d, there, kind, ?_⟩
    · rw [furnished.dotDotInode]
    · rw [furnished.dotDotInode, same]

/-! ### Creating -/

theorem Rooted.grow (rooted : Rooted s base root T) (created : Created s t base root d T T' path x i)
    (absent : T.inodeAt (path ++ [x]) = none) (newDots : (t.inodes i).isDir = true → DotsLead t T' (path ++ [x]))
    (opens : (t.inodes i).type = filetypeDevice → (t.inodes i).operations.openOp ≠ none) :
    Rooted t base root T' := by
  obtain ⟨e, newChain, rfl⟩ := created.added
  obtain ⟨last, e', newChain', grown⟩ := created.grown
  have models := rooted.models
  have keeps : ∀ p j, T.inodeAt p = some j → (T.add path x i e newChain).inodeAt p = some j :=
    fun p j found => Tree.add_old absent found
  have cases : ∀ p j, (T.add path x i e newChain).inodeAt p = some j →
      p = path ++ [x] ∧ j = i ∨ p ≠ path ++ [x] ∧ T.inodeAt p = some j := by
    intro p j found
    by_cases new : p = path ++ [x]
    · rw [new, Tree.add_self] at found
      exact .inl ⟨new, (Option.some.inj found).symm⟩
    · rw [Tree.add_other new] at found
      exact .inr ⟨new, found⟩
  have same : ∀ b ≤ s.used, (s.inodes b).isDir = true →
      (t.inodes b).isDir = true ∧ (t.inodes b).firstNode = (s.inodes b).firstNode := by
    intro b old isDir
    obtain ⟨-, kind, first⟩ := grown.inode_kept old
    exact ⟨kind.trans isDir, first⟩
  have baseOld : base < s.used :=
    (rooted.above [] root models.rootAt).trans_le (models.valid [] root models.rootAt).2
  refine ⟨created.models, ?_, ?_, ?_⟩
  · intro p d' found isDir
    rcases cases p d' found with ⟨rfl, rfl⟩ | ⟨notNew, there⟩
    · exact newDots isDir
    have old := (models.valid p d' there).2
    have isDir' : (s.inodes d').isDir = true := (grown.inode_kept old).2.1.symm.trans isDir
    have dir := models.dirs p d' there isDir'
    obtain ⟨dotEntry, dotDotEntry, rest, chain, here, up⟩ := rooted.dots p d' there isDir'
    have dotOld := dir.old dotEntry (by rw [chain]; simp)
    have dotDotOld := dir.old dotDotEntry (by rw [chain]; simp)
    have leads : ∃ rest', (T.add path x i e newChain).chain p = dotEntry :: dotDotEntry :: rest' := by
      by_cases grew : p = path
      · subst grew
        exact ⟨rest ++ [e], by rw [Tree.add_chain_path, chain]; rfl⟩
      · exact ⟨rest, (Tree.add_chain_other notNew grew).trans chain⟩
    obtain ⟨rest', chain'⟩ := leads
    refine ⟨dotEntry, dotDotEntry, rest', chain', ?_, ?_⟩
    · rw [grown.entryInode_kept dotOld.1]
      exact here.kept models dotOld.2.2 keeps same
    · rw [grown.entryInode_kept dotDotOld.1]
      exact up.kept models dotDotOld.2.2 keeps same
  · intro p j found
    rcases cases p j found with ⟨rfl, rfl⟩ | ⟨-, there⟩
    · have := grown.inodeNew.1
      omega
    · exact rooted.above p j there
  · intro p j found
    rcases cases p j found with ⟨rfl, rfl⟩ | ⟨-, there⟩
    · exact opens
    have old := (models.valid p j there).2
    by_cases grew : j = d
    · rw [grew, grown.dir]
      exact grew ▸ rooted.devices p j there
    · rw [grown.inodes j grew old]
      exact rooted.devices p j there

def DeviceOps.Opens (operations : DeviceOps) : Prop := operations.openOp ≠ none

/-- Each call that creates, on a directory of the tree that has nothing of that name. -/
theorem Rooted.make (rooted : Rooted s base root T) (at_ : T.inodeAt path = some d)
    (isDir : (s.inodes d).isDir = true) (absent : T.inodeAt (path ++ [x]) = none) (notDot : x ≠ dot)
    (notDotDot : x ≠ dotDot) (maker : Maker)
    (allowed : maker.Allowed DeviceOps.Opens) (run : maker.call d x s = .ok (⟨⟩, t)) :
    ∃ T', Rooted t base root T' ∧ Created s t base root d T T' path x (s.used + 1) := by
  have models := rooted.models
  cases maker with
  | dir =>
    obtain ⟨t', T', run', created, newDir⟩ := models.mkdir at_ isDir absent notDot notDotDot
    obtain ⟨front, last, -, count, linked, below, nonnull, old, -⟩ := models.last_entry at_ isDir
    obtain ⟨u, run'', v, added, furnished⟩ := tempfsMkdir_run x nonnull old linked count below
    obtain rfl : t' = t := (Prod.mk.inj (Except.ok.inj (run'.symm.trans run))).2
    obtain rfl : t' = u := (Prod.mk.inj (Except.ok.inj (run'.symm.trans run''))).2
    obtain ⟨e, newChain, rfl⟩ := created.added
    obtain ⟨_, _, _, grown⟩ := created.grown
    refine ⟨_, rooted.grow created absent (fun newDir => ?_) fun device => ?_, created⟩
    · refine furnished.dotsLead created.models Tree.add_self newDir ⟨d, ?_, ?_, (grown.inode_kept old).2.2⟩
      · rw [List.dropLast_concat]
        exact Tree.add_old absent at_
      · exact (grown.inode_kept old).2.1.trans isDir
    · rw [furnished.dir, added.inode] at device
      cases device
  | file =>
    obtain ⟨t', T', run', created, node⟩ := models.mkfile at_ isDir absent notDot notDotDot
    obtain rfl : t' = t := (Prod.mk.inj (Except.ok.inj (run'.symm.trans run))).2
    refine ⟨T', rooted.grow created absent (fun newDir => ?_) fun device => ?_, created⟩
    · rw [node] at newDir
      cases newDir
    · rw [node] at device
      cases device
  | device operations =>
    obtain ⟨t', T', run', created, node⟩ := models.createDevice at_ isDir absent notDot notDotDot operations
    obtain rfl : t' = t := (Prod.mk.inj (Except.ok.inj (run'.symm.trans run))).2
    refine ⟨T', rooted.grow created absent (fun newDir => ?_) fun _ => ?_, created⟩
    · rw [node] at newDir
      cases newDir
    · rw [node]
      exact allowed

theorem Rooted.opened (rooted : Rooted s base root T) (opened : Opened s t i) : Rooted t base root T := by
  have same := opened.sameTree
  have leads : t.entryInode = s.entryInode := by unfold TempFs.entryInode; rw [same.dirEntries]
  refine ⟨rooted.models.same same, ?_, rooted.above, ?_⟩
  · intro p d found isDir
    rw [same.kinds] at isDir
    obtain ⟨dotEntry, dotDotEntry, rest, chain, here, up⟩ := rooted.dots p d found isDir
    have dir := rooted.models.dirs p d found isDir
    have kept : ∀ b ≤ s.used, (s.inodes b).isDir = true →
        (t.inodes b).isDir = true ∧ (t.inodes b).firstNode = (s.inodes b).firstNode :=
      fun b _ isDir => ⟨(same.kinds b).trans isDir, (same.dirs b isDir).1⟩
    have dotOld := dir.old dotEntry (by rw [chain]; simp)
    have dotDotOld := dir.old dotDotEntry (by rw [chain]; simp)
    refine ⟨dotEntry, dotDotEntry, rest, chain, ?_, ?_⟩
    · rw [leads]
      exact here.kept rooted.models dotOld.2.2 (fun _ _ found => found) kept
    · rw [leads]
      exact up.kept rooted.models dotDotOld.2.2 (fun _ _ found => found) kept
  · intro p j found
    rw [(opened.kinds j).1, (opened.kinds j).2]
    exact rooted.devices p j found

def Named (base : Nat) (s : TempFs) (a : Nat) : Prop :=
  base < a ∧ a ≤ s.used ∧ (s.inodes a).filename ≠ dot ∧ (s.inodes a).filename ≠ dotDot

/-- Calls with ordinary names keep a tree of ordinary names. -/
theorem kept_rooted (base root : Nat) : Kept Ordinary DeviceOps.Opens (fun s => ∃ T, Rooted s base root T) (Named base) where
  find := by
    rintro s d b c ⟨T, rooted⟩ ⟨above, -, notDot, notDotDot⟩ isDir ordinary run
    have models := rooted.models
    obtain ⟨p, at_⟩ := models.reached d above isDir notDot notDotDot
    have found := models.find_run at_ isDir ordinary.2.2.1 ordinary.2.2.2.1
    obtain ⟨rfl, -⟩ := Prod.mk.inj (Except.ok.inj (run.symm.trans found))
    cases child : T.inodeAt (p ++ [c]) with
    | none => exact .inl rfl
    | some i =>
      obtain ⟨name, notDot, notDotDot⟩ := models.named p c i child
      exact .inr ⟨rooted.above _ i child, (models.valid _ i child).2, name ▸ notDot, name ▸ notDotDot⟩
  make := by
    rintro s t d c maker allowed ⟨T, rooted⟩ ⟨above, -, notDot, notDotDot⟩ isDir ordinary missing run
    have models := rooted.models
    obtain ⟨p, at_⟩ := models.reached d above isDir notDot notDotDot
    have found := models.find_run at_ isDir ordinary.2.2.1 ordinary.2.2.2.1
    obtain ⟨null, -⟩ := Prod.mk.inj (Except.ok.inj (missing.symm.trans found))
    have absent : T.inodeAt (p ++ [c]) = none := by
      cases child : T.inodeAt (p ++ [c]) with
      | none => rfl
      | some i =>
        rw [child] at null
        exact absurd null.symm (models.valid _ i child).1
    obtain ⟨T', rooted', created⟩ :=
      rooted.make at_ isDir absent ordinary.2.2.1 ordinary.2.2.2.1 maker allowed run
    obtain ⟨_, _, _, grown⟩ := created.grown
    refine ⟨⟨T', rooted'⟩, ?_⟩
    rintro a ⟨above, old, notDot, notDotDot⟩
    obtain ⟨name, kind, -⟩ := grown.inode_kept old
    exact ⟨⟨above, old.trans grown.used, name ▸ notDot, name ▸ notDotDot⟩, kind⟩
  opened := by
    rintro s t i ⟨T, rooted⟩ opened
    refine ⟨⟨T, rooted.opened opened⟩, ?_⟩
    rintro a ⟨above, old, notDot, notDotDot⟩
    have same := opened.sameTree
    exact ⟨⟨above, old.trans same.used, same.names a ▸ notDot, same.names a ▸ notDotDot⟩, same.kinds a⟩

theorem tempfsNew_rooted {chain : List Nat} (models : Models t s.used root (.empty root chain))
    (run : tempfsNew s = .ok (root, t)) : Rooted t s.used root (.empty root chain) ∧ Named s.used t root := by
  obtain ⟨u, run', furnished⟩ := tempfsNew_run s
  obtain ⟨rfl, rfl⟩ := Prod.mk.inj (Except.ok.inj (run'.symm.trans run))
  have node : u.inodes (s.used + 1) = { isDir := true, firstNode := s.used + 1 + 1, numEntries := 1 } := by
    rw [furnished.dir, withRoot_root]
  refine ⟨⟨models, ?_, ?_, ?_⟩, Nat.lt_succ_self _, (models.valid [] _ models.rootAt).2, ?_, ?_⟩
  · intro p d found isDir
    obtain ⟨rfl, rfl⟩ := Tree.empty_cases found
    refine furnished.dotsLead models found isDir ⟨_, found, isDir, ?_⟩
    rw [node]
  · intro p i found
    rw [(Tree.empty_cases found).2]
    exact Nat.lt_succ_self _
  · intro p i found device
    rw [(Tree.empty_cases found).2, node] at device
    cases device
  · rw [node]
    exact (List.cons_ne_nil _ _).symm
  · rw [node]
    exact (List.cons_ne_nil _ _).symm

/-! ### Lookups -/

/-- What `tempfs_find` answers; null is `none`. -/
def TempFs.child (s : TempFs) (a : Nat) (c : Name) : Option Nat :=
  match tempfsFind a c s with
  | .ok (b, _) => if b = 0 then none else some b
  | .error _ => none

/-- The inode reached from `a` component by component. -/
def TempFs.resolve (s : TempFs) (a : Nat) (comps : List Name) : Option Nat := comps.foldlM s.child a

/-- One component over the path so far: `.` stays, `..` takes the last component back. -/
def pushComponent (path : List Name) (c : Name) : List Name :=
  if c = dot then path else if c = dotDot then path.dropLast else path ++ [c]

/-- The path without `.` and with each `d/..` cancelled. -/
def normalise (comps : List Name) : List Name := comps.foldl pushComponent []

/-- The walk over `front` meets no file or device, and `.` and `..` only in directories that exist. -/
structure Walkable (s : TempFs) (a : Nat) (front : List Name) : Prop where
  dirs : ∀ p b, p <+: front → s.resolve a p = some b → (s.inodes b).isDir = true
  dots : ∀ p c, p ++ [c] <+: front → c = dot ∨ c = dotDot → s.resolve a p ≠ none

theorem Walkable.tail (walkable : Walkable s a (c :: front)) (found : s.child a c = some b) : Walkable s b front := by
  have step : ∀ p, s.resolve a (c :: p) = s.resolve b p := by
    intro p
    unfold TempFs.resolve
    rw [List.foldlM_cons, found]
    rfl
  refine ⟨fun p e within resolves => ?_, fun p x within isDots => ?_⟩
  · apply walkable.dirs (c :: p) e (List.cons_prefix_cons.mpr ⟨rfl, within⟩)
    rw [step]
    exact resolves
  · rw [← step]
    exact walkable.dots (c :: p) x (List.cons_prefix_cons.mpr ⟨rfl, within⟩) isDots

/-- Behind a name that is missing come no `.` and `..`. -/
theorem Walkable.missing (walkable : Walkable s a (c :: front)) (absent : s.child a c = none) :
    ∀ x ∈ front, x ≠ dot ∧ x ≠ dotDot := by
  have stuck : ∀ p, s.resolve a (c :: p) = none := by
    intro p
    unfold TempFs.resolve
    rw [List.foldlM_cons, absent]
    rfl
  intro x inside
  obtain ⟨p, rest, rfl⟩ := List.append_of_mem inside
  have within : (c :: p) ++ [x] <+: c :: (p ++ x :: rest) := ⟨rest, by simp⟩
  constructor
  · intro isDot
    exact walkable.dots (c :: p) x within (.inl isDot) (stuck p)
  · intro isDotDot
    exact walkable.dots (c :: p) x within (.inr isDotDot) (stuck p)

theorem foldl_names (names : ∀ x ∈ front, x ≠ dot ∧ x ≠ dotDot) : front.foldl pushComponent q = q ++ front := by
  induction front generalizing q with
  | nil => simp
  | cons c front ih =>
    have here := names c (List.mem_cons_self ..)
    have push : pushComponent q c = q ++ [c] := by
      unfold pushComponent
      rw [if_neg here.1, if_neg here.2]
    rw [List.foldl_cons, push, ih fun x inside => names x (List.mem_cons_of_mem _ inside)]
    simp

theorem tempfsFind_congr (nonnull : a ≠ 0) (nonnull' : b ≠ 0)
    (same : (s.inodes a).firstNode = (s.inodes b).firstNode) : tempfsFind a c s = tempfsFind b c s := by
  unfold tempfsFind
  rw [bind_eq (inode_run nonnull), bind_eq (inode_run nonnull'), same]

theorem Rooted.find (rooted : Rooted s base root T) (stands : StandsFor s T q a) (c : Name) :
    ∃ b, tempfsFind a c s = .ok (b, s) ∧
      ((c = dot ∨ c = dotDot) → StandsFor s T (pushComponent q c) b) ∧
      (c ≠ dot → c ≠ dotDot → b = (T.inodeAt (q ++ [c])).getD 0) := by
  obtain ⟨d, at_, isDir, same⟩ := stands.shares
  have models := rooted.models
  have nonnull := (models.valid q d at_).1
  have dir := models.dirs q d at_ isDir
  rw [tempfsFind_congr stands.nonnull nonnull same]
  by_cases names : c ≠ dot ∧ c ≠ dotDot
  · refine ⟨_, models.find_run at_ isDir names.1 names.2, fun isDots => ?_, fun _ _ => rfl⟩
    exact absurd isDots (not_or.mpr names)
  obtain ⟨dotEntry, dotDotEntry, rest, chain, here, up⟩ := rooted.dots q d at_ isDir
  obtain ⟨e, e', rest', chain', dotName, dotDotName, -⟩ := dir.dots
  obtain ⟨rfl, rfl, rfl⟩ : dotEntry = e ∧ dotDotEntry = e' ∧ rest = rest' := by
    simpa using chain.symm.trans chain'
  have find : tempfsFind _ c _ = _ :=
    tempfsFind_run nonnull dir.linked dir.nonempty (fun e inside => (dir.old e inside).1)
      fun e inside => (dir.old e inside).2.1
  refine ⟨_, find, fun _ => ?_, fun notDot notDotDot => absurd ⟨notDot, notDotDot⟩ names⟩
  by_cases isDot : c = dot
  · rw [chain, List.find?_cons, isDot, dotName]
    exact here
  · have isDotDot : c = dotDot := by
      by_contra other
      exact names ⟨isDot, other⟩
    have other : ¬ dot = dotDot := by decide
    rw [chain, List.find?_cons, isDotDot, dotName, decide_eq_false other, List.find?_cons, dotDotName]
    exact up

theorem child_of_find (run : tempfsFind a c s = .ok (b, s)) : s.child a c = if b = 0 then none else some b := by
  unfold TempFs.child
  rw [run]

theorem Models.prefix_dir (models : Models s base root T) (at_ : T.inodeAt q = some d)
    (isDir : (s.inodes d).isDir = true) (within : p <+: q) (found : T.inodeAt p = some i) :
    (s.inodes i).isDir = true := by
  obtain ⟨rest, rfl⟩ := within
  cases rest with
  | nil =>
    rw [List.append_nil, found] at at_
    exact Option.some.inj at_ ▸ isDir
  | cons y rest =>
    cases child : T.inodeAt (p ++ [y]) with
    | none =>
      have missing := models.prefix_none child rest
      rw [List.append_assoc, List.singleton_append, at_] at missing
      cases missing
    | some j =>
      obtain ⟨d', there, kind⟩ := models.parent p y j child
      obtain rfl : i = d' := Option.some.inj (found.symm.trans there)
      exact kind

/-- `open_file` on what a lookup found. -/
def openFound (mode : UInt8) (name : Name) : Option Nat → VfsM (Option (Nat × Name))
  | none => return none
  | some i => return some (← FileSystem.tempFs.call (tempfsOpenFile i mode), name)

variable {v : Vfs}

/-- The walk of `open` from a directory, and what the tree has on the normalised path. -/
theorem openSteps_lookup (mode : UInt8) (rooted : Rooted v.tempFs base root T) (stands : StandsFor v.tempFs T q a)
    (walkable : Walkable v.tempFs a front) (ordinary : Ordinary last) :
    openSteps .tempFs {} mode (front ++ [last]) a v =
        openFound mode last (T.inodeAt (front.foldl pushComponent q ++ [last])) v ∧
      ∀ p i, p <+: front.foldl pushComponent q → T.inodeAt p = some i → (v.tempFs.inodes i).isDir = true := by
  have models := rooted.models
  induction front generalizing a q with
  | nil =>
    obtain ⟨d, at_, isDir, -⟩ := stands.shares
    obtain ⟨b, find, -, found⟩ := rooted.find stands last
    have call : FileSystem.tempFs.call (tempfsFind a last) v = .ok (b, v) := FileSystem.call_run find
    refine ⟨?_, fun p i within => models.prefix_dir at_ isDir within⟩
    rw [found ordinary.2.2.1 ordinary.2.2.2.1] at call
    rw [List.nil_append, openSteps, if_neg ordinary.1]
    unfold findFile
    rw [bind_assoc, bind_eq call, List.foldl_nil]
    cases child : T.inodeAt (q ++ [last]) with
    | none => rfl
    | some i =>
      rw [Option.getD_some, if_neg (models.valid _ i child).1]
      rfl
  | cons c front ih =>
    obtain ⟨d, at_, isDir, -⟩ := stands.shares
    obtain ⟨b, find, dots, names⟩ := rooted.find stands c
    have call : FileSystem.tempFs.call (tempfsFind a c) v = .ok (b, v) := FileSystem.call_run find
    have child := child_of_find find
    have more : front ++ [last] ≠ [] := by simp
    rw [List.cons_append, List.foldl_cons]
    -- Once the component leads to a directory, the walk goes on from there.
    have onward (stands' : StandsFor v.tempFs T (pushComponent q c) b) :=
      ih stands' (walkable.tail (by rw [child, if_neg stands'.nonnull]))
    have enters (stands' : StandsFor v.tempFs T (pushComponent q c) b) :
        openSteps .tempFs {} mode (c :: (front ++ [last])) a v = openSteps .tempFs {} mode (front ++ [last]) b v :=
      openSteps_enter find stands'.nonnull stands'.isDir more
    by_cases isDots : c = dot ∨ c = dotDot
    · rw [enters (dots isDots)]
      exact onward (dots isDots)
    obtain ⟨notDot, notDotDot⟩ := not_or.mp isDots
    have push : pushComponent q c = q ++ [c] := by
      unfold pushComponent
      rw [if_neg notDot, if_neg notDotDot]
    have answer := names notDot notDotDot
    cases found : T.inodeAt (q ++ [c]) with
    | some i =>
      obtain rfl : b = i := by rw [answer, found]; rfl
      have nonnull := (models.valid _ b found).1
      have resolves : v.tempFs.resolve a [c] = some b := by
        unfold TempFs.resolve
        rw [List.foldlM_cons, child, if_neg nonnull]
        rfl
      have kind := walkable.dirs [c] b ⟨front, rfl⟩ resolves
      have stands' : StandsFor v.tempFs T (pushComponent q c) b := push ▸ .self models found kind
      rw [enters stands']
      exact onward stands'
    | none =>
      have null : b = 0 := by rw [answer, found]; rfl
      have later := walkable.missing (by rw [child, if_pos null])
      rw [push, foldl_names later]
      refine ⟨?_, fun p i within found' => ?_⟩
      · rw [openSteps_cons more]
        unfold findDir
        rw [bind_assoc, bind_eq call, if_pos null, List.append_assoc, models.prefix_none found]
        rfl
      · rcases List.prefix_or_prefix_of_prefix within (List.prefix_append (q ++ [c]) front) with short | ⟨r, rfl⟩
        · rcases List.prefix_concat_iff.mp short with rfl | shorter
          · rw [found] at found'
            cases found'
          · exact models.prefix_dir at_ isDir shorter found'
        · rw [models.prefix_none found] at found'
          cases found'

/-! ### The normalised path -/

theorem mem_foldl_push {y : Name} (inside : y ∈ front.foldl pushComponent q) :
    y ∈ q ∨ y ∈ front ∧ y ≠ dot ∧ y ≠ dotDot := by
  induction front generalizing q with
  | nil => exact .inl inside
  | cons c front ih =>
    rcases ih inside with pushed | ⟨later, names⟩
    · unfold pushComponent at pushed
      split at pushed
      · exact .inl pushed
      split at pushed
      · exact .inl (List.mem_of_mem_dropLast pushed)
      · rcases List.mem_append.mp pushed with old | new
        · exact .inl old
        · obtain rfl := List.mem_singleton.mp new
          exact .inr ⟨List.mem_cons_self .., ‹_›, ‹_›⟩
    · exact .inr ⟨List.mem_cons_of_mem _ later, names⟩

/-- Over names alone the walk follows the tree. -/
theorem Rooted.resolve_names (rooted : Rooted s base root T)
    (dirs : ∀ p i, p <+: front → T.inodeAt p = some i → (s.inodes i).isDir = true)
    (names : ∀ x ∈ front, x ≠ dot ∧ x ≠ dotDot) (within : p <+: front) (resolves : s.resolve root p = some b) :
    T.inodeAt p = some b := by
  have models := rooted.models
  induction p using List.reverseRecOn generalizing b with
  | nil => exact models.rootAt.trans resolves
  | append_singleton p x ih =>
    have before : p <+: front := (List.prefix_append p [x]).trans within
    unfold TempFs.resolve at resolves
    rw [List.foldlM_append] at resolves
    obtain ⟨d, there, step⟩ := Option.bind_eq_some_iff.mp resolves
    have at_ := ih before there
    have name := names x (within.subset (by simp))
    have found := models.find_run at_ (dirs p d before at_) name.1 name.2
    have last : s.child d x = some b := by simpa using step
    rw [child_of_find found] at last
    cases child : T.inodeAt (p ++ [x]) with
    | none =>
      rw [child] at last
      cases last
    | some i =>
      rw [child, Option.getD_some, if_neg (models.valid _ i child).1] at last
      exact last

theorem Rooted.walkable_normalise (rooted : Rooted s base root T)
    (dirs : ∀ p i, p <+: normalise front → T.inodeAt p = some i → (s.inodes i).isDir = true) :
    Walkable s root (normalise front) := by
  have names : ∀ x ∈ normalise front, x ≠ dot ∧ x ≠ dotDot := by
    intro x inside
    rcases mem_foldl_push inside with impossible | ⟨-, names⟩
    · cases impossible
    · exact names
  refine ⟨fun p b within resolves => ?_, fun p c within isDots => ?_⟩
  · exact dirs p b within (rooted.resolve_names dirs names within resolves)
  · exact absurd isDots (not_or.mpr (names c (within.subset (by simp))))

theorem openFound_run (rooted : Rooted v.tempFs base root T) (mode : UInt8) (last : Name) (path : List Name) :
    ∃ r t, openFound mode last (T.inodeAt path) v = .ok (r, { v with tempFs := t }) ∧ SameTree v.tempFs t := by
  cases found : T.inodeAt path with
  | none => exact ⟨none, v.tempFs, rfl, fun _ => rfl, fun _ => rfl, fun _ _ => ⟨rfl, rfl⟩, rfl, le_rfl⟩
  | some i =>
    have nonnull := (rooted.models.valid path i found).1
    have runs : ∃ r t, tempfsOpenFile i mode v.tempFs = .ok (r, t) := by
      unfold tempfsOpenFile
      rw [bind_eq (inode_run nonnull)]
      by_cases device : (v.tempFs.inodes i).type = filetypeDevice
      · rw [if_pos device]
        obtain ⟨opens, provided⟩ := Option.ne_none_iff_exists'.mp (rooted.devices path i found device)
        rw [provided]
        dsimp only
        cases opens mode with
        | false => exact ⟨i, _, rfl⟩
        | true => exact ⟨i, _, rfl⟩
      · rw [if_neg device]
        cases (v.tempFs.inodes i).isDir with
        | false => exact ⟨i, _, rfl⟩
        | true => exact ⟨0, _, rfl⟩
    obtain ⟨r, t, run⟩ := runs
    refine ⟨some (r, last), t, ?_, (tempfsOpenFile_ok run).sameTree⟩
    exact bind_eq (FileSystem.call_run run)

theorem Rooted.vfsOpen_normalise {letter : UInt8} (rooted : Rooted v.tempFs base root T) (mounted : Mounted v letter root)
    (walkable : Walkable v.tempFs root front) (noSlash : ∀ c ∈ front, slash ∉ c) (ordinary : Ordinary last)
    (mode : UInt8) : ∃ f t, vfsOpen (drivePath letter (front ++ [last])) {} mode v = .ok (f, { v with tempFs := t }) ∧
      vfsOpen (drivePath letter (normalise (front ++ [last]))) {} mode v = .ok (f, { v with tempFs := t }) ∧
      SameTree v.tempFs t := by
  have models := rooted.models
  have nonnull := (models.valid [] root models.rootAt).1
  have stands : StandsFor v.tempFs T [] root := .self models models.rootAt models.rootDir
  obtain ⟨walk, dirs⟩ := openSteps_lookup mode rooted stands walkable ordinary
  have names : ∀ x ∈ normalise front, (x ≠ dot ∧ x ≠ dotDot) ∧ slash ∉ x := by
    intro x inside
    rcases mem_foldl_push inside with impossible | ⟨member, names⟩
    · cases impossible
    · exact ⟨names, noSlash x member⟩
  obtain ⟨walk', -⟩ := openSteps_lookup mode rooted stands (rooted.walkable_normalise dirs) ordinary
  rw [foldl_names fun x inside => (names x inside).1, List.nil_append] at walk'
  have push : normalise (front ++ [last]) = normalise front ++ [last] := by
    unfold normalise
    rw [List.foldl_append, List.foldl_cons, List.foldl_nil]
    unfold pushComponent
    rw [if_neg ordinary.2.2.1, if_neg ordinary.2.2.2.1]
  have lastSlash : slash ∉ last := ordinary.2.2.2.2.1
  have split : ∀ comps : List Name, (∀ c ∈ comps, slash ∉ c) →
      (joinPath (comps ++ [last])).splitOn slash = comps ++ [last] := by
    intro comps noSlash
    apply splitOn_joinPath (by simp)
    intro c inside
    rcases List.mem_append.mp inside with inside | inside
    · exact noSlash c inside
    · exact List.mem_singleton.mp inside ▸ lastSlash
  obtain ⟨r, t, found, same⟩ := openFound_run rooted mode last (normalise front ++ [last])
  have answer : ∀ comps : List Name, (∀ c ∈ comps, slash ∉ c) →
      openSteps .tempFs {} mode (comps ++ [last]) root v = .ok (r, { v with tempFs := t }) →
      vfsOpen (drivePath letter (comps ++ [last])) {} mode v =
        .ok (r.map fun pair => ⟨mode, letter, pair.1, checkFileType pair.2⟩, { v with tempFs := t }) := by
    intro comps noSlash walk
    unfold drivePath
    rw [vfsOpen_eq mounted nonnull models.rootDir, split comps noSlash, bind_eq walk]
    cases r <;> rfl
  rw [push]
  exact ⟨_, t, answer front noSlash (walk.trans found),
    answer (normalise front) (fun c inside => (names c inside).2) (walk'.trans found), same⟩

/-- On a new drive, after any creations with ordinary names: a path whose `.` and `..` stand in
directories that exist is opened like the normalised path, and the tree stays as it is. -/
theorem open_normalised (letter : UInt8) (isLetter : isDriveLetter letter = true) (start v : Vfs)
    (unused : ∀ a, start.tempFs.used < a → start.tempFs.inodes a = {}) (creations : List Creation)
    (opens : ∀ creation ∈ creations, creation.Allowed DeviceOps.Opens)
    (names : ∀ creation ∈ creations, ∀ c ∈ creation.names letter, Ordinary c)
    (run : (do let _ ← mountNew letter; runCreations letter creations) start = .ok (⟨⟩, v)) (front : List Name)
    (last : Name) (mode : UInt8) (noSlash : ∀ c ∈ front, slash ∉ c) (ordinary : Ordinary last)
    (walkable : Walkable v.tempFs (v.drives (driveNum letter)).memOffset front) :
    ∃ f t, vfsOpen (drivePath letter (front ++ [last])) {} mode v = .ok (f, { v with tempFs := t }) ∧
      vfsOpen (drivePath letter (normalise (front ++ [last]))) {} mode v = .ok (f, { v with tempFs := t }) ∧
      SameTree v.tempFs t := by
  obtain ⟨w, root, chain, mounts, mounted, models, new⟩ := mountNew_run isLetter unused
  obtain ⟨rooted, named⟩ := tempfsNew_rooted models new
  rw [bind_eq mounts] at run
  have nonnull := (models.valid [] root models.rootAt).1
  have stays := ((kept_rooted start.tempFs.used root).creations_sat mounted ⟨_, rooted⟩ named nonnull models.rootDir
    creations opens names).ok run
  obtain ⟨T, rooted'⟩ := stays.keeps.inv
  have mounted' : Mounted v letter root := ⟨isLetter, by rw [stays.drives, mounted.drive]⟩
  rw [mounted'.drive] at walkable
  exact rooted'.vfsOpen_normalise mounted' walkable noSlash ordinary mode

theorem Walkable.of_resolves (resolves : ∀ p ∈ front.inits, ∃ b ∈ s.resolve a p, (s.inodes b).isDir = true) :
    Walkable s a front := by
  refine ⟨fun p b within found => ?_, fun p c within _ absent => ?_⟩
  · obtain ⟨b', found', isDir⟩ := resolves p ((List.mem_inits _ _).mpr within)
    exact Option.some.inj (found.symm.trans found') ▸ isDir
  · have before : p <+: front := (List.prefix_append p [c]).trans within
    obtain ⟨b, found, -⟩ := resolves p ((List.mem_inits _ _).mpr before)
    rw [absent] at found
    cases found

/-- `R:/a/b` is a file and `R:/a/c` a directory. -/
def someTree : List Creation :=
  [.openFile (joinPath [[97], [98]]) oCreatAll 2, .mkdir (joinPath [[97], [99]]) (fun _ _ => 7) (fun _ _ => 0) 10]

/-- `R:/a/../a/c/./../b` is `R:/a/b`. -/
theorem open_normalised_someTree : ∃ v, (do let _ ← mountNew 82; runCreations 82 someTree) {} = .ok (⟨⟩, v) ∧
    ∃ f t, vfsOpen (drivePath 82 [[97], dotDot, [97], [99], dot, dotDot, [98]]) {} 1 v = .ok (f, { v with tempFs := t }) ∧
      vfsOpen (drivePath 82 [[97], [98]]) {} 1 v = .ok (f, { v with tempFs := t }) ∧ SameTree v.tempFs t := by
  let front : List Name := [[97], dotDot, [97], [99], dot, dotDot]
  have names : ∀ creation ∈ someTree, ∀ c ∈ creation.names 82, Ordinary c := by
    simp only [someTree, List.mem_cons, List.not_mem_nil, or_false, forall_eq_or_imp, forall_eq]
    constructor
    · rw [Creation.names, splitOn_joinPath (by decide) (by decide)]
      decide
    · rw [mkdir_names 82 _ (by decide) (by decide) (by decide)]
      decide
  have opens : ∀ creation ∈ someTree, creation.Allowed DeviceOps.Opens := by
    simp only [someTree, List.mem_cons, List.not_mem_nil, or_false, forall_eq_or_imp, forall_eq]
    exact ⟨trivial, trivial⟩
  have checked : (match (do let _ ← mountNew 82; runCreations 82 someTree : VfsM PUnit) {} with
      | .ok (_, v) => decide (∀ p ∈ front.inits,
          ∃ b ∈ v.tempFs.resolve (v.drives (driveNum 82)).memOffset p, (v.tempFs.inodes b).isDir = true)
      | .error _ => false) = true := by decide +kernel
  cases run : (do let _ ← mountNew 82; runCreations 82 someTree : VfsM PUnit) {} with
  | error e =>
    rw [run] at checked
    cases checked
  | ok pair =>
    rw [run] at checked
    exact ⟨pair.2, rfl, open_normalised 82 (by decide) {} pair.2 (fun _ _ => rfl) someTree opens names run front [98] 1
      (by decide) (by decide) (.of_resolves (of_decide_eq_true checked))⟩

end PotatOS.Fs
