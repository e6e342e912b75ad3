import PotatOS.Fs.MkdirNames
import PotatOS.Fs.Rejects

/-!
# What `mkdir` makes

`CreatesOnly` is what the call is for: the missing directories of the path and
nothing else. `MadeDir` is one round, and the walk puts rounds together inside
the directories that they made.
-/

namespace PotatOS.Fs

open Prog

variable {i root : Nat} {c c' : Name} {comps rest : List Name}

/-! ### One directory -/

variable {s t u : TempFs} {a b base : Nat}

/-- The inode counts to the last entry of its chain, so that a new one goes behind all of them. -/
def InOrder (s : TempFs) (a : Nat) : Prop :=
  ∃ chain, Linked s.nextEntry (s.inodes a).firstNode chain ∧ chain.length = (s.inodes a).numEntries + 1

/-- Two inodes of one directory: its own, its `.`, or the `..` of a subdirectory. -/
def SameDir (s : TempFs) (a b : Nat) : Prop := (s.inodes a).firstNode = (s.inodes b).firstNode

/-- `mkdir` made the directory `b`, called `c`, in `a`. -/
structure MadeDir (s t : TempFs) (base a : Nat) (c : Name) (b : Nat) : Prop where
  stands : Stands base t b
  found : t.child a c = some b
  counts : InOrder t b
  dots : ∀ x, t.child b x ≠ none → x = dot ∨ x = dotDot
  head : s.used < (t.inodes b).firstNode
  used : s.used ≤ t.used
  inodes : ∀ i ≤ s.used, t.inodes i = { s.inodes i with numEntries := (t.inodes i).numEntries }
  fileNodes : t.fileNodes = s.fileNodes
  added : ∀ d x i, Stands base s d → t.child d x = some i → s.child d x = some i ∨ SameDir s d a ∧ x = c
  kept : InOrder s a → ∀ d x i, Stands base s d → s.child d x = some i → t.child d x = some i
  lost : ¬ InOrder s a → ∃ x i, s.child a x = some i ∧ t.child a x = none

theorem InOrder.mkdir (inOrder : InOrder s a) (stands : Stands base s a) (c : Name) : ∃ t, tempfsMkdir a c s = .ok (⟨⟩, t) := by
  obtain ⟨home, shape⟩ := stands.shape
  obtain ⟨chain, entries⟩ := shape.chains a stands.known.1 stands.isDir
  obtain ⟨chain', linked, count⟩ := inOrder
  obtain rfl := entries.linked.unique linked
  obtain ⟨front, last, rfl⟩ := (List.eq_nil_or_concat' _).resolve_left entries.nonempty
  obtain ⟨t, run, -⟩ := tempfsMkdir_run c stands.nonnull stands.known.2 linked (by simpa using count.symm)
    fun e inside => (entries.old e inside).1
  exact ⟨t, run⟩

theorem Stands.mkdir (stands : Stands base s a) (absent : s.child a c = none) (run : tempfsMkdir a c s = .ok (⟨⟩, t)) :
    MadeDir s t base a c (s.used + 1) := by
  have made' : Maker.dir.call a c s = .ok (⟨⟩, t) := run
  obtain ⟨found, isDir, after⟩ := stands.make absent made'
  obtain ⟨home, shape⟩ := stands.shape
  obtain ⟨home', front, last, lost, newChain, spliced, made, makes⟩ := shape.make_new stands.known.1 stands.isDir absent made'
  have standsB := after.child found isDir
  obtain ⟨chain, entriesB⟩ := spliced.shape.chains _ standsB.known.1 isDir
  have newDir := made.grown.newDir isDir
  obtain rfl := entriesB.linked.unique newDir.linked
  obtain ⟨dotEntry, dotDotEntry, rfl, dotName, dotDotName⟩ := newDir.dots
  have firstB : (t.inodes (s.used + 1)).firstNode = dotEntry := newDir.linked.1
  have first : ∀ d, Stands base s d → (t.inodes d).firstNode = (s.inodes d).firstNode := fun d standsD =>
    ((spliced.inodes d standsD.known.2).2.2 standsD.isDir).1
  have within : ∀ e ∈ front ++ [last], e ∈ front ++ last :: lost := by
    intro e inside
    simp only [List.mem_append, List.mem_cons, List.not_mem_nil, or_false] at inside ⊢
    tauto
  -- The chain of the directory, as its inodes show it.
  have chains : ∀ d, Stands base s d → SameDir s d a →
      ChainFrom s base home (s.inodes d).firstNode (front ++ last :: lost) ∧
      ChainFrom t base home' (t.inodes d).firstNode (front ++ [last] ++ [s.used + 2]) := by
    intro d standsD same
    rw [first d standsD, same]
    exact ⟨spliced.before, spliced.after⟩
  have ordered : InOrder s a ↔ lost = [] := by
    constructor
    · rintro ⟨chain, linked, count⟩
      obtain rfl := spliced.before.linked.unique linked
      rw [spliced.count] at count
      simpa using count
    · rintro rfl
      exact ⟨_, spliced.before.linked, by simp [spliced.count]⟩
  refine ⟨standsB, found, ⟨_, newDir.linked, newDir.count⟩, fun x there => ?_, ?_, spliced.used, fun i old => ?_,
    made.grown.fileNodes, fun d x i standsD there => ?_, fun inOrder d x i standsD there => ?_, fun notInOrder => ?_⟩
  · obtain ⟨i, there⟩ := Option.ne_none_iff_exists'.mp there
    obtain ⟨e, inside, name, -⟩ := (entriesB.child_iff standsB.nonnull).mp there
    simp only [List.mem_cons, List.not_mem_nil, or_false] at inside
    rcases inside with rfl | rfl
    · exact .inl (name.symm.trans dotName)
    · exact .inr (name.symm.trans dotDotName)
  · rw [firstB]
    exact (newDir.new dotEntry (List.mem_cons_self ..)).1
  · by_cases here : i = a
    · rw [here, made.grown.dir]
    · rw [made.grown.inodes i here old]
  · by_cases same : SameDir s d a
    · obtain ⟨before, later⟩ := chains d standsD same
      obtain ⟨e, inside, name, leads⟩ := (later.child_iff standsD.nonnull).mp there
      rcases List.mem_append.mp inside with inside | new
      · obtain ⟨name', leads'⟩ := spliced.kept e (within e inside)
        exact .inl ((before.child_iff standsD.nonnull).mpr ⟨e, within e inside, name'.symm.trans name, leads'.symm.trans leads⟩)
      · obtain rfl := List.mem_singleton.mp new
        exact .inr ⟨same, name.symm.trans spliced.new.1⟩
    · rw [spliced.others d standsD.known standsD.isDir same] at there
      exact .inl there
  · obtain rfl := ordered.mp inOrder
    by_cases same : SameDir s d a
    · obtain ⟨before, later⟩ := chains d standsD same
      obtain ⟨e, inside, name, leads⟩ := (before.child_iff standsD.nonnull).mp there
      obtain ⟨name', leads'⟩ := spliced.kept e inside
      exact (later.child_iff standsD.nonnull).mpr ⟨e, List.mem_append_left _ inside, name'.trans name, leads'.trans leads⟩
    · rw [spliced.others d standsD.known standsD.isDir same]
      exact there
  · obtain ⟨e, cut⟩ := List.exists_mem_of_ne_nil _ (mt ordered.mpr notInOrder)
    obtain ⟨before, later⟩ := chains a stands rfl
    have inside : e ∈ front ++ last :: lost := by simp [cut]
    have there := (before.child_iff stands.nonnull).mpr ⟨e, inside, rfl, rfl⟩
    refine ⟨_, _, there, later.child_none stands.nonnull fun e' inside' name => ?_⟩
    rcases List.mem_append.mp inside' with inside' | new
    · rw [(spliced.kept e' (within e' inside')).1] at name
      obtain rfl := List.inj_on_of_nodup_map before.names (within e' inside') inside name
      have nodup := before.names.of_map
      rw [List.append_cons] at nodup
      exact (List.nodup_append.mp nodup).2.2 e' inside' e' cut rfl
    · obtain rfl := List.mem_singleton.mp new
      rw [spliced.new.1] at name
      rw [← name, absent] at there
      cases there

/-! ### The whole walk -/

/-- The components lead from `a` through directories. -/
def Followed (s : TempFs) : Nat → List Name → Prop
  | _, [] => True
  | a, c :: rest => ∃ b, s.child a c = some b ∧ (s.inodes b).isDir = true ∧ Followed s b rest

/-- None of the components that are there is a file, and the directory that the first of the others goes into is in
order. -/
def Makeable (s : TempFs) : Nat → List Name → Prop
  | _, [] => True
  | a, c :: rest =>
    (∃ b, s.child a c = some b ∧ (s.inodes b).isDir = true ∧ Makeable s b rest) ∨ s.child a c = none ∧ InOrder s a

/-- From `s` to `t` exactly the missing directories of the path `comps` from `a` were made: nothing was lost, the old
directories got components of the path only, the new ones have the next component, and of the old inodes no more than
the count of entries changed. -/
structure CreatesOnly (s t : TempFs) (base a : Nat) (comps : List Name) : Prop where
  made : Followed t a comps
  kept : ∀ d x i, Known base s d → (s.inodes d).isDir = true → s.child d x = some i → t.child d x = some i
  added : ∀ d x i, Known base s d → (s.inodes d).isDir = true → t.child d x = some i →
    s.child d x = some i ∨ ∃ p b, p ++ [x] <+: comps ∧ s.resolve a p = some b ∧ SameDir s d b
  inside : ∀ p b x, p <+: comps → t.resolve a p = some b → s.resolve a p = none → t.child b x ≠ none →
    x = dot ∨ x = dotDot ∨ p ++ [x] <+: comps
  inodes : ∀ i ≤ s.used, t.inodes i = { s.inodes i with numEntries := (t.inodes i).numEntries }
  fileNodes : t.fileNodes = s.fileNodes

variable {v w : Vfs}

theorem resolve_cons (s : TempFs) (a : Nat) (c : Name) (p : List Name) :
    s.resolve a (c :: p) = (s.child a c).bind fun b => s.resolve b p := List.foldlM_cons

/-! #### One round -/

theorem mkdirSteps_found (child : v.tempFs.child a c = some b) (isDir : (v.tempFs.inodes b).isDir = true) :
    mkdirSteps .tempFs (c :: rest) a v = mkdirSteps .tempFs rest b v := by
  obtain ⟨find, nonnull⟩ := find_of_child child
  rw [mkdirSteps, bind_eq (FileSystem.call_run find), if_neg nonnull, pure_bind]
  exact bind_eq (openDir_dir nonnull isDir)

theorem mkdirSteps_leaf (child : v.tempFs.child a c = some b) (leaf : (v.tempFs.inodes b).isDir = false) :
    mkdirSteps .tempFs (c :: rest) a v = mkdirSteps .tempFs rest 0 v := by
  obtain ⟨find, nonnull⟩ := find_of_child child
  rw [mkdirSteps, bind_eq (FileSystem.call_run find), if_neg nonnull, pure_bind]
  exact bind_eq (openDir_leaf nonnull leaf)

theorem mkdirSteps_made (stands : Stands base v.tempFs a) (absent : v.tempFs.child a c = none)
    (run : tempfsMkdir a c v.tempFs = .ok (⟨⟩, t)) (made : MadeDir v.tempFs t base a c b) :
    mkdirSteps .tempFs (c :: rest) a v = mkdirSteps .tempFs rest b { v with tempFs := t } := by
  obtain ⟨find, nonnull⟩ := find_of_child made.found
  rw [mkdirSteps, bind_eq (FileSystem.call_run (stands.find_missing absent)), if_pos rfl,
    bind_eq (FileSystem.call_run run), bind_eq (FileSystem.call_run find)]
  exact bind_eq (openDir_dir nonnull made.stands.isDir)

theorem mkdirSteps_absent (stands : Stands base v.tempFs a) (absent : v.tempFs.child a c = none)
    (run : mkdirSteps .tempFs (c :: rest) a v = .ok (⟨⟩, w)) : ∃ t, tempfsMkdir a c v.tempFs = .ok (⟨⟩, t) := by
  rw [mkdirSteps, bind_eq (FileSystem.call_run (stands.find_missing absent)), if_pos rfl] at run
  obtain ⟨_, _, called, -⟩ := bind_ok run
  obtain ⟨t, made, -⟩ := call_ok called
  exact ⟨t, made⟩

/-! #### Rounds together -/

theorem MadeDir.child_none (made : MadeDir s t base a c b) (ordinary : Ordinary c') : t.child b c' = none := by
  by_contra there
  obtain ⟨-, -, notDot, notDotDot, -⟩ := ordinary
  exact (made.dots c' there).elim notDot notDotDot

/-- In a new directory everything can be made. -/
theorem MadeDir.makeable (made : MadeDir s t base a c b) (ordinary : ∀ c ∈ rest, Ordinary c) : Makeable t b rest := by
  cases rest with
  | nil => trivial
  | cons c' rest => exact .inr ⟨made.child_none (ordinary c' (List.mem_cons_self ..)), made.counts⟩

/-- The path inside it leads nowhere yet. -/
theorem MadeDir.blank {p : List Name} (made : MadeDir s t base a c b) (ordinary : ∀ c ∈ rest, Ordinary c) (within : p <+: rest)
    (filled : p ≠ []) : t.resolve b p = none := by
  obtain ⟨c', p, rfl⟩ := List.exists_cons_of_ne_nil filled
  rw [resolve_cons, made.child_none (ordinary c' (within.subset (List.mem_cons_self ..)))]
  rfl

theorem MadeDir.old {d : Nat} (made : MadeDir s t base a c b) (stands : Stands base s d) :
    Known base t d ∧ (t.inodes d).isDir = true := by
  refine ⟨⟨stands.known.1, stands.known.2.trans made.used⟩, ?_⟩
  rw [made.inodes d stands.known.2]
  exact stands.isDir

namespace CreatesOnly

theorem refl (s : TempFs) (base a : Nat) : CreatesOnly s s base a [] where
  made := trivial
  kept _ _ _ _ _ there := there
  added _ _ _ _ _ there := .inl there
  inside p b x within found absent _ := by
    obtain rfl := List.prefix_nil.mp within
    cases absent
  inodes _ _ := rfl
  fileNodes := rfl

theorem isDir (created : CreatesOnly s t base a comps) (old : b ≤ s.used) : (t.inodes b).isDir = (s.inodes b).isDir := by
  rw [created.inodes b old]

theorem enter (created : CreatesOnly s t base b rest) (stands : Stands base s a) (child : s.child a c = some b)
    (isDir : (s.inodes b).isDir = true) : CreatesOnly s t base a (c :: rest) where
  made := by
    have standsB := stands.child child isDir
    exact ⟨b, created.kept a c b stands.known stands.isDir child, (created.isDir standsB.known.2).trans isDir, created.made⟩
  kept := created.kept
  added d x i known dir there := by
    refine (created.added d x i known dir there).imp_right ?_
    rintro ⟨p, b', within, found, same⟩
    refine ⟨c :: p, b', by simpa using within, ?_, same⟩
    rw [resolve_cons, child]
    exact found
  inside p b' x within found absent there := by
    cases p with
    | nil => cases absent
    | cons c' p =>
      obtain ⟨rfl, behind⟩ := List.cons_prefix_cons.mp within
      rw [resolve_cons, created.kept a c' b stands.known stands.isDir child] at found
      rw [resolve_cons, child] at absent
      simpa using created.inside p b' x behind found absent there
  inodes := created.inodes
  fileNodes := created.fileNodes

/-- A creation inside a new directory shows in no old one. -/
theorem outside {d : Nat} {x : Name} (created : CreatesOnly t u base b rest) (made : MadeDir s t base a c b)
    (ordinary : ∀ c ∈ rest, Ordinary c) (standsD : Stands base s d) (there : u.child d x = some i) : t.child d x = some i := by
  obtain ⟨known, isDir⟩ := made.old standsD
  rcases created.added d x i known isDir there with there | ⟨p, b', within, found, same⟩
  · exact there
  · exfalso
    by_cases first : p = []
    · subst first
      cases found
      -- The chain of the new directory is younger than that of an old one.
      obtain ⟨home, shape⟩ := standsD.shape
      obtain ⟨chain, entries⟩ := shape.chains d standsD.known.1 standsD.isDir
      have old := (entries.old _ entries.head_mem).1
      have new := made.head
      unfold SameDir at same
      rw [made.inodes d standsD.known.2] at same
      dsimp only at same
      omega
    · rw [made.blank ordinary ((List.prefix_append _ _).trans within) first] at found
      cases found

theorem make (created : CreatesOnly t u base b rest) (made : MadeDir s t base a c b) (inOrder : InOrder s a)
    (stands : Stands base s a) (absent : s.child a c = none) (ordinary : ∀ c ∈ rest, Ordinary c) :
    CreatesOnly s u base a (c :: rest) := by
  have standsIn : ∀ {d}, Known base s d → (s.inodes d).isDir = true → Stands base s d :=
    fun known isDir => ⟨stands.shape, stands.plain, known, isDir⟩
  obtain ⟨knownA, isDirA⟩ := made.old stands
  have foundB : u.child a c = some b := created.kept a c b knownA isDirA made.found
  refine ⟨⟨b, foundB, (created.isDir made.stands.known.2).trans made.stands.isDir, created.made⟩,
    fun d x i known isDir there => ?_, fun d x i known isDir there => ?_, fun p b' x within found none there => ?_,
    fun i old => ?_, created.fileNodes.trans made.fileNodes⟩
  · obtain ⟨knownT, isDirT⟩ := made.old (standsIn known isDir)
    exact created.kept d x i knownT isDirT (made.kept inOrder d x i (standsIn known isDir) there)
  · have there' := created.outside made ordinary (standsIn known isDir) there
    refine (made.added d x i (standsIn known isDir) there').imp_right ?_
    rintro ⟨same, rfl⟩
    exact ⟨[], a, by simp, rfl, same⟩
  · cases p with
    | nil => cases none
    | cons c' p =>
      obtain ⟨rfl, behind⟩ := List.cons_prefix_cons.mp within
      rw [resolve_cons, foundB] at found
      by_cases first : p = []
      · subst first
        cases found
        obtain ⟨i, there'⟩ := Option.ne_none_iff_exists'.mp there
        rcases created.added b x i made.stands.known made.stands.isDir there' with there' | ⟨p, b', within', found', -⟩
        · have dots := made.dots x (by rw [there']; exact Option.some_ne_none _)
          exact dots.imp_right .inl
        · by_cases first : p = []
          · subst first
            exact .inr (.inr (by simpa using within'))
          · rw [made.blank ordinary ((List.prefix_append _ _).trans within') first] at found'
            cases found'
      · simpa using created.inside p b' x behind found (made.blank ordinary behind first) there
  · rw [created.inodes i (old.trans made.used), made.inodes i old]

end CreatesOnly

theorem mkdirSteps_creates (ordinary : ∀ c ∈ comps, Ordinary c) (stands : Stands base v.tempFs a)
    (makeable : Makeable v.tempFs a comps) :
    ∃ t, mkdirSteps .tempFs comps a v = .ok (⟨⟩, { v with tempFs := t }) ∧ CreatesOnly v.tempFs t base a comps := by
  induction comps generalizing a v with
  | nil => exact ⟨v.tempFs, rfl, .refl ..⟩
  | cons c rest ih =>
    have ordinary' : ∀ c ∈ rest, Ordinary c := fun c inside => ordinary c (List.mem_cons_of_mem _ inside)
    rcases makeable with ⟨b, child, isDir, makeable⟩ | ⟨absent, inOrder⟩
    · obtain ⟨t, run, created⟩ := ih ordinary' (stands.child child isDir) makeable
      exact ⟨t, (mkdirSteps_found child isDir).trans run, created.enter stands child isDir⟩
    · obtain ⟨t, run⟩ := inOrder.mkdir stands c
      have made := stands.mkdir absent run
      obtain ⟨u, run', created⟩ := ih (v := { v with tempFs := t }) ordinary' made.stands (made.makeable ordinary')
      exact ⟨u, (mkdirSteps_made stands absent run made).trans run', created.make made inOrder stands absent ordinary'⟩

theorem mkdirSteps_null (run : mkdirSteps .tempFs comps 0 v = .ok (⟨⟩, w)) : comps = [] ∧ w = v := by
  cases comps with
  | nil => exact ⟨rfl, (pure_ok run).2.symm⟩
  | cons c rest => cases run

/-- A walk that made the directories and lost nothing found them makeable. -/
theorem makeable_of_ok (ordinary : ∀ c ∈ comps, Ordinary c) (stands : Stands base v.tempFs a)
    (run : mkdirSteps .tempFs comps a v = .ok (⟨⟩, w)) (made : Followed w.tempFs a comps)
    (kept : ∀ d x i, Known base v.tempFs d → (v.tempFs.inodes d).isDir = true → v.tempFs.child d x = some i →
      w.tempFs.child d x = some i) : Makeable v.tempFs a comps := by
  induction comps generalizing a v with
  | nil => trivial
  | cons c rest ih =>
    have ordinary' : ∀ c ∈ rest, Ordinary c := fun c inside => ordinary c (List.mem_cons_of_mem _ inside)
    obtain ⟨b', found, isDir', made⟩ := made
    cases child : v.tempFs.child a c with
    | some b =>
      rw [kept a c b stands.known stands.isDir child] at found
      obtain rfl := Option.some.inj found
      cases isDir : (v.tempFs.inodes b).isDir with
      | true =>
        rw [mkdirSteps_found child isDir] at run
        exact .inl ⟨b, child, isDir, ih ordinary' (stands.child child isDir) run made kept⟩
      | false =>
        rw [mkdirSteps_leaf child isDir] at run
        obtain ⟨-, rfl⟩ := mkdirSteps_null run
        rw [isDir] at isDir'
        cases isDir'
    | none =>
      refine .inr ⟨child, ?_⟩
      by_contra notInOrder
      obtain ⟨t, make⟩ := mkdirSteps_absent stands child run
      have madeDir := stands.mkdir child make
      rw [mkdirSteps_made stands child make madeDir] at run
      obtain ⟨u, run', created⟩ := mkdirSteps_creates (v := { v with tempFs := t }) ordinary' madeDir.stands
        (madeDir.makeable ordinary')
      rw [run] at run'
      obtain ⟨-, rfl⟩ := Prod.mk.inj (Except.ok.inj run')
      -- What was lost at the first creation stays lost.
      obtain ⟨x, i, there, gone⟩ := madeDir.lost notInOrder
      have still : u.child a x = some i := kept a x i stands.known stands.isDir there
      rw [created.outside madeDir ordinary' stands still] at gone
      cases gone

/-! ### The call -/

/-- What `mkdir` of the path promises: on a mounted drive it ends, returns 0 and makes exactly the missing directories, and
on another it returns an error and changes nothing. -/
def MkdirExact (base : Nat) (v : Vfs) (letter : UInt8) (comps : List Name) (trailing : Bool)
    (beyond stale : Nat → Nat → UInt8) : Prop :=
  if (v.drives (driveNum (upperCase letter))).present then
    ∃ bound t, vfsMkdir (mkdirPath letter comps trailing) beyond stale bound v = .ok (0, { v with tempFs := t }) ∧
      CreatesOnly v.tempFs t base (v.drives (driveNum (upperCase letter))).memOffset comps
  else ∃ bound status, vfsMkdir (mkdirPath letter comps trailing) beyond stale bound v = .ok (status, v) ∧ status ≠ 0

/-- The drive is mounted and the directories can be made on it. -/
def CanMake (v : Vfs) (letter : UInt8) (comps : List Name) : Prop :=
  ∃ root, Mounted v (upperCase letter) root ∧ Makeable v.tempFs root comps

variable {letter : UInt8} {trailing : Bool} {beyond stale : Nat → Nat → UInt8}

theorem not_mkdirExact_absent (isLetter : isDriveLetter (upperCase letter) = true)
    (empty : v.drives (driveNum (upperCase letter)) = {}) : ¬ MkdirExact base v letter comps trailing beyond stale := by
  unfold MkdirExact mkdirPath
  rw [empty, if_neg (by simp)]
  rintro ⟨bound, status, run, -⟩
  rw [vfsMkdir_absent (.inr empty), if_pos isLetter] at run
  cases run

section call

variable (drives : Drives base v) (ordinary : ∀ c ∈ comps, Ordinary c)
include drives ordinary

theorem mkdirExact_mounted (mounted : Mounted v (upperCase letter) root)
    (reads : Reads (fun k => pathByte (mkdirPath letter comps trailing) (beyond k))
      (fun k => copyByte (mkdirPath letter comps trailing) (stale k)) 0 3 comps) :
    MkdirExact base v letter comps trailing beyond stale ↔ Makeable v.tempFs root comps := by
  have stands := drives.stands mounted
  unfold MkdirExact
  rw [mounted.drive, if_pos rfl]
  constructor
  · rintro ⟨bound, t, run, created⟩
    unfold mkdirPath at run
    rw [vfsMkdir_upper mounted stands.nonnull stands.isDir] at run
    obtain ⟨⟨⟩, w, walk, run⟩ := bind_ok run
    obtain ⟨-, rfl⟩ := pure_ok run
    obtain ⟨names, reads', steps⟩ := reads_of_ok walk
    obtain rfl := reads.unique reads'
    exact makeable_of_ok ordinary stands steps created.made created.kept
  · intro makeable
    obtain ⟨t, steps, created⟩ := mkdirSteps_creates ordinary stands makeable
    obtain ⟨enough, walk⟩ := reads.walk
    refine ⟨enough, t, ?_, created⟩
    unfold mkdirPath
    rw [vfsMkdir_upper mounted stands.nonnull stands.isDir]
    exact bind_eq ((congrFun (walk enough le_rfl enough le_rfl root) v).trans steps)

theorem mkdirExact_benign_iff (isLetter : isDriveLetter (upperCase letter) = true) (nonempty : comps ≠ [])
    (benign : Benign comps trailing beyond stale) :
    MkdirExact base v letter comps trailing beyond stale ↔ CanMake v letter comps := by
  rcases drives.each (driveNum (upperCase letter)) with empty | ⟨root, drive, -⟩
  · refine iff_of_false (not_mkdirExact_absent isLetter empty) ?_
    rintro ⟨root, mounted, -⟩
    rw [mounted.drive] at empty
    cases empty
  · have mounted : Mounted v (upperCase letter) root := ⟨isLetter, drive⟩
    rw [mkdirExact_mounted drives ordinary mounted (benign.reads nonempty ordinary)]
    constructor
    · exact fun makeable => ⟨root, mounted, makeable⟩
    · rintro ⟨root', mounted', makeable⟩
      have same := mounted'.drive
      rw [mounted.drive] at same
      cases same
      exact makeable

/-- Without a `/` behind the last name there are bytes with which the loop does not end. -/
theorem not_mkdirExact_open (isLetter : isDriveLetter (upperCase letter) = true) (nonempty : comps ≠ []) :
    ¬ MkdirExact base v letter comps false beyond fun _ _ => 1 := by
  rcases drives.each (driveNum (upperCase letter)) with empty | ⟨root, drive, -⟩
  · exact not_mkdirExact_absent isLetter empty
  · have mounted : Mounted v (upperCase letter) root := ⟨isLetter, drive⟩
    have stands := drives.stands mounted
    unfold MkdirExact
    rw [drive, if_pos rfl]
    rintro ⟨bound, t, run, -⟩
    unfold mkdirPath at run
    rw [vfsMkdir_upper mounted stands.nonnull stands.isDir] at run
    obtain ⟨⟨⟩, w, walk, -⟩ := bind_ok run
    obtain ⟨names, reads, -⟩ := reads_of_ok walk
    refine not_reads nonempty ordinary pathByte_bytesOf copyByte_bytesOf (fun round k far => ?_) reads
    unfold copyByte
    rw [List.getD_eq_default _ _ (by rw [mkdirPath_length]; simpa using far)]
    have other : (1 : UInt8) ≠ slash ∧ (1 : UInt8) ≠ 0 := by decide
    exact other

theorem mkdirExact_iff (isLetter : isDriveLetter (upperCase letter) = true) (nonempty : comps ≠ []) :
    (∀ beyond stale, MkdirExact base v letter comps trailing beyond stale) ↔ trailing = true ∧ CanMake v letter comps := by
  cases trailing with
  | true =>
    constructor
    · intro exact_
      exact ⟨rfl, (mkdirExact_benign_iff drives ordinary isLetter nonempty (.inl rfl)).mp (exact_ (fun _ _ => 0) fun _ _ => 0)⟩
    · rintro ⟨-, canMake⟩ beyond stale
      exact (mkdirExact_benign_iff drives ordinary isLetter nonempty (.inl rfl)).mpr canMake
  | false =>
    refine iff_of_false (fun exact_ => ?_) (by simp)
    exact not_mkdirExact_open drives ordinary isLetter nonempty (exact_ (fun _ _ => 0) _)

end call

/-- In every state that calls reach from empty drives: `mkdir` makes exactly the directories of the path, whatever bytes
follow the two strings in each round, if and only if the path ends in a `/` and they can be made; with bytes that end the
last name, if and only if they can be made. -/
theorem mkdir_exact_iff (start v : Vfs) (unused : ∀ a, start.tempFs.used < a → start.tempFs.inodes a = {})
    (empty : ∀ n, start.drives n = {}) (run : DriveRun start v) (letter : UInt8)
    (isLetter : isDriveLetter (upperCase letter) = true) (comps : List Name) (nonempty : comps ≠ [])
    (ordinary : ∀ c ∈ comps, Ordinary c) (trailing : Bool) :
    ((∀ beyond stale, MkdirExact start.tempFs.used v letter comps trailing beyond stale) ↔
      trailing = true ∧ CanMake v letter comps) ∧
    ∀ beyond stale, Benign comps trailing beyond stale →
      (MkdirExact start.tempFs.used v letter comps trailing beyond stale ↔ CanMake v letter comps) :=
  have drives := (Drives.start unused empty).run run
  ⟨mkdirExact_iff drives ordinary isLetter nonempty, fun _ _ => mkdirExact_benign_iff drives ordinary isLetter nonempty⟩

theorem newDrive_run : ∃ v root, DriveRun {} v ∧ Mounted v 82 root ∧ v.tempFs.child root [97] = none ∧ InOrder v.tempFs root ∧
    returns (mkdirSteps .tempFs [[97, 98]] root) v (fun _ w => decide (w.tempFs.child root [97] = none)) = true := by
  have check : returns (mountNew 82) {} (fun _ v =>
      let root := (v.drives (driveNum 82)).memOffset
      decide ((v.drives (driveNum 82)).present = true ∧ (v.drives (driveNum 82)).fs = .tempFs ∧
        v.tempFs.child root [97] = none ∧ (v.tempFs.inodes root).firstNode = 2 ∧ (v.tempFs.inodes root).numEntries = 1 ∧
        v.tempFs.nextEntry 2 = 5 ∧ v.tempFs.nextEntry 5 = 0) &&
      returns (mkdirSteps .tempFs [[97, 98]] root) v (fun _ w => decide (w.tempFs.child root [97] = none))) = true := by
    decide +kernel
  obtain ⟨status, v, run, check⟩ := returns_iff.mp check
  obtain ⟨tree, other⟩ := Bool.and_eq_true_iff.mp check
  obtain ⟨present, fs, absent, first, count, next, last⟩ := of_decide_eq_true tree
  refine ⟨v, _, .single (.mount 82 status run), ⟨by decide, ?_⟩, absent, ⟨[2, 5], ?_, by rw [count]; rfl⟩, other⟩
  · rw [← present, ← fs]
  · rw [first]
    refine ⟨rfl, by decide, ?_⟩
    rw [next]
    exact ⟨rfl, by decide, last⟩

theorem mkdir_exact_iff_newDrive : ∃ v, DriveRun {} v ∧ ∀ beyond stale, MkdirExact 0 v 82 [[97]] true beyond stale := by
  obtain ⟨v, root, run, mounted, absent, inOrder, -⟩ := newDrive_run
  have exact_ := mkdir_exact_iff {} v (fun _ _ => rfl) (fun _ => rfl) run 82 (by decide) [[97]] (by decide) (by decide) true
  exact ⟨v, run, exact_.1.mpr ⟨rfl, root, mounted, .inr ⟨absent, inOrder⟩⟩⟩

/-- With a `b` behind the copy, `mkdir("R:/a")` makes `R:/ab`; on a drive that is not mounted it calls a null pointer. -/
theorem mkdir_reads_behind : ∃ v, DriveRun {} v ∧
    ¬ MkdirExact 0 v 82 [[97]] false (fun _ _ => 0) (fun _ i => if i = 4 then 98 else 0) ∧
    ¬ MkdirExact 0 {} 82 [[97]] true (fun _ _ => 0) fun _ _ => 0 := by
  obtain ⟨v, root, run, mounted, -, -, other⟩ := newDrive_run
  have drives : Drives 0 v := (Drives.start (fun _ _ => rfl) fun _ => rfl).run run
  refine ⟨v, run, ?_, not_mkdirExact_absent (by decide) rfl⟩
  have stands := drives.stands mounted
  have mounted' : Mounted v (upperCase 82) root := mounted
  unfold MkdirExact
  rw [mounted'.drive, if_pos rfl]
  rintro ⟨bound, t, run, created⟩
  unfold mkdirPath at run
  rw [vfsMkdir_upper mounted' stands.nonnull stands.isDir] at run
  obtain ⟨⟨⟩, w, walk, run⟩ := bind_ok run
  obtain ⟨-, rfl⟩ := pure_ok run
  obtain ⟨names, reads, steps⟩ := reads_of_ok walk
  have here : nameFrom (copyByte (mkdirPath 82 [[97]] false) fun i => if i = 4 then 98 else 0) 3 3 = some [97, 98] := by
    decide
  have reads' : Reads (fun _ => pathByte (mkdirPath 82 [[97]] false) fun _ => 0)
      (fun _ => copyByte (mkdirPath 82 [[97]] false) fun i => if i = 4 then 98 else 0) 0 3 [[97, 98]] :=
    .name (by decide) here (by decide) (.done (by decide))
  obtain rfl := reads.unique reads'
  obtain ⟨_, w', steps', none⟩ := returns_iff.mp other
  rw [steps] at steps'
  cases steps'
  obtain ⟨b, found, -⟩ := created.made
  rw [of_decide_eq_true none] at found
  cases found

end PotatOS.Fs
