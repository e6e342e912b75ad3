import PotatOS.Fs.Directory

/-!
# The tree of names

`Tree` says which inode stands at each path and which entries the directory at a
path has. `Models` ties it to the objects of the file system. Every call that
creates extends the tree by one path, and no other path changes.
-/

namespace PotatOS.Fs

open Prog

/-- The inode at each path and the chain of entries of each directory. -/
structure Tree where
  inodeAt : List Name → Option Nat
  chain : List Name → List Nat

/-- The directory `d` at `path`: `.`, `..`, then one entry for each child. -/
structure DirectoryAt (s : TempFs) (T : Tree) (path : List Name) (d : Nat) : Prop where
  linked : Linked s.nextEntry (s.inodes d).firstNode (T.chain path)
  count : (T.chain path).length = (s.inodes d).numEntries + 1
  old : ∀ e ∈ T.chain path, e ≤ s.used ∧ s.entryInode e ≠ 0 ∧ s.entryInode e ≤ s.used
  dots : ∃ dotEntry dotDotEntry rest, T.chain path = dotEntry :: dotDotEntry :: rest ∧
    s.entryName dotEntry = dot ∧ s.entryName dotDotEntry = dotDot ∧
    ∀ e ∈ rest, ∃ x, T.inodeAt (path ++ [x]) = some (s.entryInode e)
  children : ∀ x i, T.inodeAt (path ++ [x]) = some i → ∃ e ∈ T.chain path, s.entryInode e = i
  single : ∀ e ∈ T.chain path, ∀ e' ∈ T.chain path, s.entryInode e = s.entryInode e' → e = e'

/-- The objects of the file system at `root`, all given out after `base`, form the tree `T`. -/
structure Models (s : TempFs) (base root : Nat) (T : Tree) : Prop where
  rootAt : T.inodeAt [] = some root
  rootDir : (s.inodes root).isDir = true
  valid : ∀ p i, T.inodeAt p = some i → i ≠ 0 ∧ i ≤ s.used
  parent : ∀ p x i, T.inodeAt (p ++ [x]) = some i → ∃ d, T.inodeAt p = some d ∧ (s.inodes d).isDir = true
  distinct : ∀ p q i, T.inodeAt p = some i → T.inodeAt q = some i → p = q
  named : ∀ p x i, T.inodeAt (p ++ [x]) = some i → (s.inodes i).filename = x ∧ x ≠ dot ∧ x ≠ dotDot
  dirs : ∀ p d, T.inodeAt p = some d → (s.inodes d).isDir = true → DirectoryAt s T p d
  apart : ∀ p q d d', T.inodeAt p = some d → T.inodeAt q = some d' → (s.inodes d).isDir = true →
    (s.inodes d').isDir = true → p ≠ q → ∀ e ∈ T.chain p, e ∉ T.chain q
  /-- Directory inodes other than those behind `.` and `..` are in the tree. -/
  reached : ∀ a, base < a → (s.inodes a).isDir = true → (s.inodes a).filename ≠ dot → (s.inodes a).filename ≠ dotDot →
    ∃ p, T.inodeAt p = some a

variable {s t u : TempFs} {T : Tree} {base root d : Nat} {path : List Name}

/-! ### Looking up -/

theorem DirectoryAt.entry_cases {e : Nat} (dir : DirectoryAt s T path d) (inside : e ∈ T.chain path) :
    s.entryName e = dot ∨ s.entryName e = dotDot ∨ ∃ x, T.inodeAt (path ++ [x]) = some (s.entryInode e) := by
  obtain ⟨dotEntry, dotDotEntry, rest, chain, dotName, dotDotName, others⟩ := dir.dots
  rw [chain] at inside
  rcases List.mem_cons.mp inside with rfl | inside
  · exact .inl dotName
  · rcases List.mem_cons.mp inside with rfl | inside
    · exact .inr (.inl dotDotName)
    · exact .inr (.inr (others e inside))

theorem DirectoryAt.nonempty (dir : DirectoryAt s T path d) : T.chain path ≠ [] := by
  obtain ⟨dotEntry, dotDotEntry, rest, chain, -⟩ := dir.dots
  rw [chain]
  exact List.cons_ne_nil _ _

/-- `tempfs_find` gives the inode of the child of that name, or null. -/
theorem Models.find_run (models : Models s base root T) (at_ : T.inodeAt path = some d)
    (isDir : (s.inodes d).isDir = true) {name : Name} (notDot : name ≠ dot) (notDotDot : name ≠ dotDot) :
    tempfsFind d name s = .ok ((T.inodeAt (path ++ [name])).getD 0, s) := by
  have dir := models.dirs path d at_ isDir
  rw [tempfsFind_run (models.valid path d at_).1 dir.linked dir.nonempty (fun e inside => (dir.old e inside).1)
    fun e inside => (dir.old e inside).2.1]
  have entry : ∀ e ∈ T.chain path, s.entryName e = name → T.inodeAt (path ++ [name]) = some (s.entryInode e) := by
    intro e inside same
    rcases dir.entry_cases inside with isDot | isDotDot | ⟨x, child⟩
    · exact absurd (same.symm.trans isDot) notDot
    · exact absurd (same.symm.trans isDotDot) notDotDot
    · obtain rfl : name = x := same.symm.trans (models.named path x _ child).1
      exact child
  cases found : (T.chain path).find? fun e => s.entryName e = name with
  | some e =>
    have same : s.entryName e = name := by simpa using List.find?_some found
    rw [entry e (List.mem_of_find?_eq_some found) same]
    rfl
  | none =>
    cases child : T.inodeAt (path ++ [name]) with
    | none => rfl
    | some i =>
      obtain ⟨e, inside, leads⟩ := dir.children name i child
      have same : s.entryName e = name := by
        unfold TempFs.entryName
        rw [leads]
        exact (models.named path name i child).1
      have missed := List.find?_eq_none.mp found e inside
      exact absurd same (by simpa using missed)

theorem Models.names_nodup (models : Models s base root T) (dir : DirectoryAt s T path d) :
    ((T.chain path).map s.entryName).Nodup := by
  have ordinary : ∀ x i, T.inodeAt (path ++ [x]) = some i → ∀ e, s.entryInode e = i → s.entryName e = x := by
    intro x i child e leads
    unfold TempFs.entryName
    rw [leads]
    exact (models.named path x i child).1
  obtain ⟨dotEntry, dotDotEntry, rest, chain, dotName, dotDotName, others⟩ := dir.dots
  have distinct := dir.linked.nodup
  have restNames : ∀ e ∈ rest, s.entryName e ≠ dot ∧ s.entryName e ≠ dotDot := by
    intro e inside
    obtain ⟨x, child⟩ := others e inside
    rw [ordinary x _ child e rfl]
    exact (models.named path x _ child).2
  have injective : ∀ e ∈ rest, ∀ e' ∈ rest, s.entryName e = s.entryName e' → e = e' := by
    intro e inside e' inside' same
    obtain ⟨x, child⟩ := others e inside
    obtain ⟨y, child'⟩ := others e' inside'
    rw [ordinary x _ child e rfl, ordinary y _ child' e' rfl] at same
    rw [← same, child] at child'
    have within : ∀ e ∈ rest, e ∈ T.chain path := fun e inside => by
      rw [chain]
      exact List.mem_cons_of_mem _ (List.mem_cons_of_mem _ inside)
    exact dir.single e (within e inside) e' (within e' inside') (Option.some.inj child')
  rw [chain] at distinct ⊢
  simp only [List.map_cons, List.nodup_cons, List.mem_cons, List.mem_map, dotName, dotDotName]
  refine ⟨?_, ?_, ?_⟩
  · rintro (same | ⟨e, inside, same⟩)
    · exact absurd same (by decide)
    · exact (restNames e inside).1 same
  · rintro ⟨e, inside, same⟩
    exact (restNames e inside).2 same
  · have restDistinct := (List.nodup_cons.mp (List.nodup_cons.mp distinct).2).2
    exact (List.nodup_map_iff_inj_on restDistinct).mpr injective

/-! ### Extending the tree -/

/-- A new child `x` of the directory at `path`, with its own chain when it is a directory. -/
def Tree.add (T : Tree) (path : List Name) (x : Name) (i e : Nat) (newChain : List Nat) : Tree where
  inodeAt := Function.update T.inodeAt (path ++ [x]) (some i)
  chain := Function.update (Function.update T.chain path (T.chain path ++ [e])) (path ++ [x]) newChain

section add

variable {x : Name} {i e : Nat} {newChain : List Nat} {p : List Name}

theorem append_singleton_ne (p : List Name) (x : Name) : p ++ [x] ≠ p := by
  intro same
  have := congrArg List.length same
  simp at this

theorem Tree.add_self : (T.add path x i e newChain).inodeAt (path ++ [x]) = some i := Function.update_self ..

theorem Tree.add_other (other : p ≠ path ++ [x]) : (T.add path x i e newChain).inodeAt p = T.inodeAt p :=
  Function.update_of_ne other ..

theorem Tree.add_chain_self : (T.add path x i e newChain).chain (path ++ [x]) = newChain :=
  Function.update_self ..

theorem Tree.add_chain_path : (T.add path x i e newChain).chain path = T.chain path ++ [e] := by
  unfold Tree.add
  dsimp only
  rw [Function.update_of_ne (append_singleton_ne path x).symm, Function.update_self]

theorem Tree.add_chain_other (notNew : p ≠ path ++ [x]) (other : p ≠ path) :
    (T.add path x i e newChain).chain p = T.chain p := by
  unfold Tree.add
  dsimp only
  rw [Function.update_of_ne notNew, Function.update_of_ne other]

end add

/-- The chain of a directory that was just made: `.` and `..`, on new objects other than `e`. -/
structure NewChain (s t : TempFs) (i e : Nat) (newChain : List Nat) : Prop where
  linked : Linked t.nextEntry (t.inodes i).firstNode newChain
  count : newChain.length = (t.inodes i).numEntries + 1
  new : ∀ e' ∈ newChain, s.used < e' ∧ e' ≤ t.used ∧ e' ≠ e
  inodes : ∀ e' ∈ newChain, t.entryInode e' ≠ 0 ∧ t.entryInode e' ≤ t.used
  dots : ∃ dotEntry dotDotEntry, newChain = [dotEntry, dotDotEntry] ∧ t.entryName dotEntry = dot ∧
    t.entryName dotDotEntry = dotDot

/-- The store grew by the inode `i` and its entry `e` at the end of the chain of `d`. -/
structure Grown (s t : TempFs) (d last i e : Nat) (x : Name) (newChain : List Nat) : Prop where
  inodeNew : s.used < i ∧ i ≤ t.used
  entryNew : s.used < e ∧ e ≤ t.used
  filename : (t.inodes i).filename = x
  dir : t.inodes d = { s.inodes d with numEntries := (s.inodes d).numEntries + 1 }
  inodes : ∀ a, a ≠ d → a ≤ s.used → t.inodes a = s.inodes a
  newInodes : ∀ a, s.used < a → a ≠ i →
    t.inodes a = s.inodes a ∨ (t.inodes a).filename = dot ∨ (t.inodes a).filename = dotDot
  leads : t.entryInode e = i
  ends : t.nextEntry e = 0
  link : t.dirEntries last = { s.dirEntries last with nextNode := e }
  dirEntries : ∀ e, e ≠ last → e ≤ s.used → t.dirEntries e = s.dirEntries e
  fileNodes : t.fileNodes = s.fileNodes
  used : s.used ≤ t.used
  newDir : (t.inodes i).isDir = true → NewChain s t i e newChain

namespace Grown

variable {last i e : Nat} {x : Name} {newChain front : List Nat}

theorem inode_kept (grown : Grown s t d last i e x newChain) {a : Nat} (old : a ≤ s.used) :
    (t.inodes a).filename = (s.inodes a).filename ∧ (t.inodes a).isDir = (s.inodes a).isDir ∧
      (t.inodes a).firstNode = (s.inodes a).firstNode := by
  by_cases same : a = d
  · rw [same, grown.dir]
    exact ⟨rfl, rfl, rfl⟩
  · rw [grown.inodes a same old]
    exact ⟨rfl, rfl, rfl⟩

theorem entryInode_kept (grown : Grown s t d last i e x newChain) {a : Nat} (old : a ≤ s.used) :
    t.entryInode a = s.entryInode a := by
  unfold TempFs.entryInode
  by_cases same : a = last
  · rw [same, grown.link]
  · rw [grown.dirEntries a same old]

theorem entryName_kept (grown : Grown s t d last i e x newChain) {a : Nat} (old : a ≤ s.used)
    (leads : s.entryInode a ≤ s.used) : t.entryName a = s.entryName a := by
  unfold TempFs.entryName
  rw [grown.entryInode_kept old]
  exact (grown.inode_kept leads).1

end Grown

section extend

variable {last i e : Nat} {x : Name} {newChain front : List Nat}

theorem DirectoryAt.kept (grown : Grown s t d last i e x newChain) {T' : Tree} {p : List Name} {d' : Nat}
    (dir : DirectoryAt s T p d') (other : d' ≠ d) (old : d' ≤ s.used) (away : last ∉ T.chain p)
    (chain : T'.chain p = T.chain p) (children : ∀ y, T'.inodeAt (p ++ [y]) = T.inodeAt (p ++ [y])) :
    DirectoryAt t T' p d' := by
  have inode : t.inodes d' = s.inodes d' := grown.inodes d' other old
  have leads : ∀ e ∈ T.chain p, t.entryInode e = s.entryInode e := fun e inside =>
    grown.entryInode_kept (dir.old e inside).1
  refine ⟨?_, ?_, ?_, ?_, ?_, ?_⟩
  · rw [chain, inode]
    refine dir.linked.congr fun e inside => ?_
    have notLast : e ≠ last := fun same => away (same ▸ inside)
    unfold TempFs.nextEntry
    rw [grown.dirEntries e notLast (dir.old e inside).1]
  · rw [chain, inode]
    exact dir.count
  · rw [chain]
    intro e inside
    obtain ⟨below, nonnull, inodeBelow⟩ := dir.old e inside
    rw [leads e inside]
    exact ⟨below.trans grown.used, nonnull, inodeBelow.trans grown.used⟩
  · obtain ⟨dotEntry, dotDotEntry, rest, eq, dotName, dotDotName, others⟩ := dir.dots
    have inChain : ∀ e ∈ dotEntry :: dotDotEntry :: rest, e ∈ T.chain p := fun e inside => eq ▸ inside
    have names : ∀ e ∈ T.chain p, t.entryName e = s.entryName e := fun e inside =>
      grown.entryName_kept (dir.old e inside).1 (dir.old e inside).2.2
    refine ⟨dotEntry, dotDotEntry, rest, chain.trans eq, ?_, ?_, ?_⟩
    · rw [names dotEntry (inChain _ (by simp)), dotName]
    · rw [names dotDotEntry (inChain _ (by simp)), dotDotName]
    · intro e inside
      obtain ⟨y, child⟩ := others e inside
      refine ⟨y, ?_⟩
      rw [children y, leads e (inChain e (by simp [inside]))]
      exact child
  · intro y j child
    rw [children y] at child
    obtain ⟨e, inside, found⟩ := dir.children y j child
    rw [chain]
    exact ⟨e, inside, (leads e inside).trans found⟩
  · rw [chain]
    intro e inside e' inside' same
    rw [leads e inside, leads e' inside'] at same
    exact dir.single e inside e' inside' same

theorem DirectoryAt.grew (grown : Grown s t d last i e x newChain) {T' : Tree} (dir : DirectoryAt s T path d)
    (old : d ≤ s.used) (ends : T.chain path = front ++ [last]) (chain : T'.chain path = T.chain path ++ [e])
    (child : T'.inodeAt (path ++ [x]) = some i)
    (children : ∀ y, y ≠ x → T'.inodeAt (path ++ [y]) = T.inodeAt (path ++ [y]))
    (absent : T.inodeAt (path ++ [x]) = none) : DirectoryAt t T' path d := by
  have leads : ∀ e ∈ T.chain path, t.entryInode e = s.entryInode e := fun e inside =>
    grown.entryInode_kept (dir.old e inside).1
  have below : ∀ e ∈ T.chain path, e ≤ s.used := fun e inside => (dir.old e inside).1
  have kept : ∀ y j, T.inodeAt (path ++ [y]) = some j → T'.inodeAt (path ++ [y]) = some j := by
    intro y j child'
    rw [children y (fun same => by rw [same, absent] at child'; cases child')]
    exact child'
  refine ⟨?_, ?_, ?_, ?_, ?_, ?_⟩
  · rw [chain, ends, (grown.inode_kept old).2.2]
    have linked := dir.linked
    rw [ends] at linked
    have nonnull : e ≠ 0 := by have := grown.entryNew.1; omega
    have seam : t.nextEntry last = e := by
      unfold TempFs.nextEntry
      rw [grown.link]
    refine linked.concat nonnull seam grown.ends fun a inside notLast => ?_
    unfold TempFs.nextEntry
    rw [grown.dirEntries a notLast (below a (by rw [ends]; simp [inside]))]
  · rw [chain, List.length_append, dir.count, grown.dir]
    rfl
  · rw [chain]
    intro a inside
    rcases List.mem_append.mp inside with inside | inside
    · obtain ⟨below, nonnull, inodeBelow⟩ := dir.old a inside
      rw [leads a inside]
      exact ⟨below.trans grown.used, nonnull, inodeBelow.trans grown.used⟩
    · obtain rfl := List.mem_singleton.mp inside
      rw [grown.leads]
      have new := grown.inodeNew
      exact ⟨grown.entryNew.2, by omega, new.2⟩
  · obtain ⟨dotEntry, dotDotEntry, rest, eq, dotName, dotDotName, others⟩ := dir.dots
    have inChain : ∀ e ∈ dotEntry :: dotDotEntry :: rest, e ∈ T.chain path := fun e inside => eq ▸ inside
    have names : ∀ e ∈ T.chain path, t.entryName e = s.entryName e := fun e inside =>
      grown.entryName_kept (dir.old e inside).1 (dir.old e inside).2.2
    refine ⟨dotEntry, dotDotEntry, rest ++ [e], ?_, ?_, ?_, ?_⟩
    · rw [chain, eq]
      rfl
    · rw [names dotEntry (inChain _ (by simp)), dotName]
    · rw [names dotDotEntry (inChain _ (by simp)), dotDotName]
    · intro a inside
      rcases List.mem_append.mp inside with inside | inside
      · obtain ⟨y, child'⟩ := others a inside
        rw [leads a (inChain a (by simp [inside]))]
        exact ⟨y, kept y _ child'⟩
      · obtain rfl := List.mem_singleton.mp inside
        rw [grown.leads]
        exact ⟨x, child⟩
  · intro y j child'
    rw [chain]
    by_cases same : y = x
    · rw [same, child] at child'
      refine ⟨e, by simp, ?_⟩
      rw [grown.leads]
      exact Option.some.inj child'
    · rw [children y same] at child'
      obtain ⟨a, inside, found⟩ := dir.children y j child'
      exact ⟨a, List.mem_append_left _ inside, (leads a inside).trans found⟩
  · rw [chain]
    have oldLeads : ∀ a ∈ T.chain path, t.entryInode a ≠ i := by
      intro a inside same
      rw [leads a inside] at same
      have := (dir.old a inside).2.2
      have := grown.inodeNew.1
      omega
    intro a inside a' inside' same
    rcases List.mem_append.mp inside with first | first
    · rcases List.mem_append.mp inside' with second | second
      · rw [leads a first, leads a' second] at same
        exact dir.single a first a' second same
      · rw [List.mem_singleton.mp second, grown.leads] at same
        exact absurd same (oldLeads a first)
    · rcases List.mem_append.mp inside' with second | second
      · rw [List.mem_singleton.mp first, grown.leads] at same
        exact absurd same.symm (oldLeads a' second)
      · rw [List.mem_singleton.mp first, List.mem_singleton.mp second]

theorem NewChain.directoryAt (new : NewChain s t i e newChain) {T' : Tree} {p : List Name}
    (chain : T'.chain p = newChain) (leaf : ∀ y, T'.inodeAt (p ++ [y]) = none) : DirectoryAt t T' p i := by
  obtain ⟨dotEntry, dotDotEntry, eq, dotName, dotDotName⟩ := new.dots
  refine ⟨chain ▸ new.linked, chain ▸ new.count, ?_, ⟨dotEntry, dotDotEntry, [], chain.trans eq, dotName,
    dotDotName, by simp⟩, ?_, ?_⟩
  · rw [chain]
    intro a inside
    exact ⟨(new.new a inside).2.1, new.inodes a inside⟩
  · intro y j child
    rw [leaf y] at child
    cases child
  · have apart : t.entryInode dotEntry ≠ t.entryInode dotDotEntry := by
      intro same
      unfold TempFs.entryName at dotName dotDotName
      rw [same, dotDotName] at dotName
      exact absurd dotName (by decide)
    rw [chain, eq]
    intro a inside a' inside' same
    simp only [List.mem_cons, List.not_mem_nil, or_false] at inside inside'
    rcases inside with rfl | rfl <;> rcases inside' with rfl | rfl
    · rfl
    · exact absurd same apart
    · exact absurd same.symm apart
    · rfl

theorem Models.add_cases (models : Models s base root T) (grown : Grown s t d last i e x newChain) {p : List Name}
    {j : Nat} (found : (T.add path x i e newChain).inodeAt p = some j) :
    p = path ++ [x] ∧ j = i ∨
      p ≠ path ++ [x] ∧ T.inodeAt p = some j ∧ j ≤ s.used ∧ (t.inodes j).isDir = (s.inodes j).isDir ∧
        (t.inodes j).filename = (s.inodes j).filename := by
  by_cases new : p = path ++ [x]
  · rw [new, Tree.add_self] at found
    exact .inl ⟨new, (Option.some.inj found).symm⟩
  · rw [Tree.add_other new] at found
    have old := (models.valid p j found).2
    have kept := grown.inode_kept old
    exact .inr ⟨new, found, old, kept.2.1, kept.1⟩

theorem Tree.add_old (absent : T.inodeAt (path ++ [x]) = none) {p : List Name} {j : Nat}
    (found : T.inodeAt p = some j) : (T.add path x i e newChain).inodeAt p = some j := by
  have other : p ≠ path ++ [x] := by
    rintro rfl
    rw [absent] at found
    cases found
  rw [Tree.add_other other]
  exact found

/-- No path leads through the place of the new inode. -/
theorem Models.add_leaf (models : Models s base root T) (absent : T.inodeAt (path ++ [x]) = none)
    (grown : Grown s t d last i e x newChain) (y : Name) :
    (T.add path x i e newChain).inodeAt (path ++ [x] ++ [y]) = none := by
  cases found : (T.add path x i e newChain).inodeAt (path ++ [x] ++ [y]) with
  | none => rfl
  | some j =>
    rcases models.add_cases grown found with ⟨same, -⟩ | ⟨-, child, -⟩
    · exact absurd same (append_singleton_ne _ _)
    · obtain ⟨d', there, -⟩ := models.parent _ _ _ child
      rw [absent] at there
      cases there

section grow

variable (models : Models s base root T) (at_ : T.inodeAt path = some d) (isDir : (s.inodes d).isDir = true)
  (absent : T.inodeAt (path ++ [x]) = none) (grown : Grown s t d last i e x newChain)
  (ends : T.chain path = front ++ [last])
include models at_ isDir absent grown ends

theorem Models.grow_dirs (p : List Name) (d' : Nat)
    (found : (T.add path x i e newChain).inodeAt p = some d') (isDir' : (t.inodes d').isDir = true) :
    DirectoryAt t (T.add path x i e newChain) p d' := by
  have dOld := (models.valid path d at_).2
  have lastIn : last ∈ T.chain path := by rw [ends]; simp
  rcases models.add_cases grown found with ⟨rfl, rfl⟩ | ⟨notNew, there, old, kind, -⟩
  · exact (grown.newDir isDir').directoryAt Tree.add_chain_self (models.add_leaf absent grown)
  · rw [kind] at isDir'
    by_cases same : p = path
    · subst same
      obtain rfl : d = d' := Option.some.inj (at_.symm.trans there)
      refine (models.dirs p d at_ isDir).grew grown dOld ends Tree.add_chain_path Tree.add_self ?_ absent
      intro y other
      exact Tree.add_other fun same => other (by simpa using same)
    · have other : d' ≠ d := fun eq => same (models.distinct p path d' there (eq ▸ at_))
      have away : last ∉ T.chain p := fun inside =>
        models.apart p path d' d there at_ isDir' isDir same last inside lastIn
      refine (models.dirs p d' there isDir').kept grown other old away (Tree.add_chain_other notNew same) ?_
      intro y
      exact Tree.add_other fun eq => same (List.append_inj' eq rfl).1

omit at_ isDir absent ends in
theorem Models.grow_apart (p q : List Name) (d₁ d₂ : Nat)
    (first : (T.add path x i e newChain).inodeAt p = some d₁)
    (second : (T.add path x i e newChain).inodeAt q = some d₂) (isDir₁ : (t.inodes d₁).isDir = true)
    (isDir₂ : (t.inodes d₂).isDir = true) (other : p ≠ q) :
    ∀ a ∈ (T.add path x i e newChain).chain p, a ∉ (T.add path x i e newChain).chain q := by
  -- An entry of a chain is an old one of that chain, the entry `e`, or one of the new directory's.
  have entries : ∀ r d', (T.add path x i e newChain).inodeAt r = some d' → (t.inodes d').isDir = true →
      ∀ a ∈ (T.add path x i e newChain).chain r,
        (T.inodeAt r = some d' ∧ (s.inodes d').isDir = true ∧ a ∈ T.chain r ∧ a ≤ s.used) ∨
          (r = path ∧ a = e) ∨ (r = path ++ [x] ∧ s.used < a ∧ a ≠ e) := by
    intro r d' found isDir' a inside
    rcases models.add_cases grown found with ⟨rfl, rfl⟩ | ⟨notNew, there, -, kind, -⟩
    · rw [Tree.add_chain_self] at inside
      have new := (grown.newDir isDir').new a inside
      exact .inr (.inr ⟨rfl, new.1, new.2.2⟩)
    · rw [kind] at isDir'
      have dir := models.dirs r d' there isDir'
      by_cases same : r = path
      · subst same
        rw [Tree.add_chain_path] at inside
        rcases List.mem_append.mp inside with inside | inside
        · exact .inl ⟨there, isDir', inside, (dir.old a inside).1⟩
        · exact .inr (.inl ⟨rfl, List.mem_singleton.mp inside⟩)
      · rw [Tree.add_chain_other notNew same] at inside
        exact .inl ⟨there, isDir', inside, (dir.old a inside).1⟩
  have entryNew := grown.entryNew.1
  intro a inside inside'
  rcases entries p d₁ first isDir₁ a inside with ⟨there, kind, old, below⟩ | ⟨atPath, isNew⟩ | ⟨atNew, new, notE⟩
  · rcases entries q d₂ second isDir₂ a inside' with ⟨there', kind', old', -⟩ | ⟨-, isNew⟩ | ⟨-, new, -⟩
    · exact models.apart p q d₁ d₂ there there' kind kind' other a old old'
    · omega
    · omega
  · rcases entries q d₂ second isDir₂ a inside' with ⟨-, -, -, below⟩ | ⟨atPath', -⟩ | ⟨-, -, notE⟩
    · omega
    · exact other (atPath.trans atPath'.symm)
    · exact notE isNew
  · rcases entries q d₂ second isDir₂ a inside' with ⟨-, -, -, below⟩ | ⟨-, isNew⟩ | ⟨atNew', -⟩
    · omega
    · exact notE isNew
    · exact other (atNew.trans atNew'.symm)

theorem Models.grow (notDot : x ≠ dot) (notDotDot : x ≠ dotDot) :
    Models t base root (T.add path x i e newChain) where
  rootAt := Tree.add_old absent models.rootAt
  rootDir := by
    rw [(grown.inode_kept (models.valid [] root models.rootAt).2).2.1]
    exact models.rootDir
  valid p j found := by
    rcases models.add_cases grown found with ⟨-, rfl⟩ | ⟨-, there, old, -⟩
    · have new := grown.inodeNew
      exact ⟨by omega, new.2⟩
    · exact ⟨(models.valid p j there).1, old.trans grown.used⟩
  parent p y j found := by
    rcases models.add_cases grown found with ⟨same, -⟩ | ⟨-, there, -⟩
    · obtain ⟨rfl, -⟩ := List.append_inj' same rfl
      refine ⟨d, Tree.add_old absent at_, ?_⟩
      rw [(grown.inode_kept (models.valid p d at_).2).2.1]
      exact isDir
    · obtain ⟨d', parent, isDir'⟩ := models.parent p y j there
      refine ⟨d', Tree.add_old absent parent, ?_⟩
      rw [(grown.inode_kept (models.valid p d' parent).2).2.1]
      exact isDir'
  distinct p q j first second := by
    have new := grown.inodeNew.1
    rcases models.add_cases grown first with ⟨rfl, rfl⟩ | ⟨-, there, old, -⟩
    · rcases models.add_cases grown second with ⟨rfl, -⟩ | ⟨-, -, old, -⟩
      · rfl
      · omega
    · rcases models.add_cases grown second with ⟨-, rfl⟩ | ⟨-, there', -⟩
      · omega
      · exact models.distinct p q j there there'
  named p y j found := by
    rcases models.add_cases grown found with ⟨same, rfl⟩ | ⟨-, there, -, -, name⟩
    · obtain ⟨-, rfl⟩ : p = path ∧ y = x := by simpa using same
      exact ⟨grown.filename, notDot, notDotDot⟩
    · rw [name]
      exact models.named p y j there
  dirs := models.grow_dirs at_ isDir absent grown ends
  apart := models.grow_apart grown
  reached a above isDir' notDot notDotDot := by
    by_cases new : a = i
    · exact ⟨path ++ [x], new ▸ Tree.add_self⟩
    · by_cases old : a ≤ s.used
      · obtain ⟨name, kind, -⟩ := grown.inode_kept old
        rw [name] at notDot notDotDot
        rw [kind] at isDir'
        obtain ⟨p, there⟩ := models.reached a above isDir' notDot notDotDot
        exact ⟨p, Tree.add_old absent there⟩
      · rcases grown.newInodes a (by omega) new with same | isDot | isDotDot
        · rw [same] at isDir' notDot notDotDot
          obtain ⟨p, there⟩ := models.reached a above isDir' notDot notDotDot
          exact absurd (models.valid p a there).2 old
        · exact absurd isDot notDot
        · exact absurd isDotDot notDotDot

end grow

/-! ### The calls that create -/

theorem Added.grown {node : Inode} (added : Added s t d last node) (leaf : node.isDir = false)
    (dOld : d ≤ s.used) : Grown s t d last (s.used + 1) (s.used + 2) node.filename [] where
  inodeNew := by have := added.used; omega
  entryNew := by have := added.used; omega
  filename := by rw [added.inode]
  dir := added.dir
  inodes a other old := added.inodes a other (by omega)
  newInodes a new other := .inl (added.inodes a (by omega) other)
  leads := by unfold TempFs.entryInode; rw [added.entry]
  ends := by unfold TempFs.nextEntry; rw [added.entry]
  link := added.link
  dirEntries e other old := added.dirEntries e other (by omega)
  fileNodes := added.fileNodes
  used := by have := added.used; omega
  newDir isDir := by
    rw [added.inode, leaf] at isDir
    cases isDir

theorem Furnished.chain_new {n base parent : Nat} (furnished : Furnished t u n base parent) (new : s.used < base + 1)
    (entryOld : e ≤ base) : NewChain s u n e [base + 1, base + 4] := by
  have used := furnished.used
  refine ⟨?_, ?_, ?_, ?_, base + 1, base + 4, rfl, ?_, ?_⟩
  · rw [furnished.dir]
    refine ⟨rfl, Nat.succ_ne_zero _, ?_, Nat.succ_ne_zero _, ?_⟩
    · unfold TempFs.nextEntry
      rw [furnished.dotEntry]
    · change (u.dirEntries (base + 4)).nextNode = 0
      rw [furnished.dotDotEntry]
  · rw [furnished.dir]
    rfl
  · intro e' inside
    simp only [List.mem_cons, List.not_mem_nil, or_false] at inside
    omega
  · intro e' inside
    simp only [List.mem_cons, List.not_mem_nil, or_false] at inside
    unfold TempFs.entryInode
    rcases inside with rfl | rfl
    · rw [furnished.dotEntry]
      exact ⟨Nat.succ_ne_zero _, show base + 2 ≤ u.used by omega⟩
    · rw [furnished.dotDotEntry]
      exact ⟨Nat.succ_ne_zero _, show base + 3 ≤ u.used by omega⟩
  · unfold TempFs.entryName TempFs.entryInode
    rw [furnished.dotEntry, furnished.dotInode]
  · unfold TempFs.entryName TempFs.entryInode
    rw [furnished.dotDotEntry, furnished.dotDotInode]

theorem Added.grown_dir {name : Name} {parent : Nat} (added : Added s t d last { filename := name, isDir := true })
    (furnished : Furnished t u (s.used + 1) t.used parent) (dOld : d ≤ s.used) (lastOld : last ≤ s.used) :
    Grown s u d last (s.used + 1) (s.used + 2) name [t.used + 1, t.used + 4] := by
  have used := added.used
  have used' := furnished.used
  have inodes : ∀ a, a ≠ s.used + 1 → a ≤ t.used → u.inodes a = t.inodes a := fun a other old =>
    furnished.inodes a other (by omega) (by omega)
  have entries : ∀ e, e ≤ t.used → u.dirEntries e = t.dirEntries e := fun e old =>
    furnished.dirEntries e (by omega) (by omega)
  exact {
    inodeNew := by omega
    entryNew := by omega
    filename := by rw [furnished.dir, added.inode]
    dir := by rw [inodes d (by omega) (by omega), added.dir]
    inodes := fun a other old => by rw [inodes a (by omega) (by omega), added.inodes a other (by omega)]
    newInodes := fun a new other => by
      by_cases isDot : a = t.used + 2
      · rw [isDot, furnished.dotInode]
        exact .inr (.inl rfl)
      · by_cases isDotDot : a = t.used + 3
        · rw [isDotDot, furnished.dotDotInode]
          exact .inr (.inr rfl)
        · rw [furnished.inodes a other isDot isDotDot, added.inodes a (by omega) other]
          exact .inl rfl
    leads := by unfold TempFs.entryInode; rw [entries _ (by omega), added.entry]
    ends := by unfold TempFs.nextEntry; rw [entries _ (by omega), added.entry]
    link := by rw [entries last (by omega), added.link]
    dirEntries := fun e other old => by rw [entries e (by omega), added.dirEntries e other (by omega)]
    fileNodes := furnished.fileNodes.trans added.fileNodes
    used := by omega
    newDir := fun _ => furnished.chain_new (by omega) (by omega) }

end extend

/-- Everything the tree depends on is the same. -/
structure SameTree (s t : TempFs) : Prop where
  names : ∀ a, (t.inodes a).filename = (s.inodes a).filename
  kinds : ∀ a, (t.inodes a).isDir = (s.inodes a).isDir
  dirs : ∀ a, (s.inodes a).isDir = true →
    (t.inodes a).firstNode = (s.inodes a).firstNode ∧ (t.inodes a).numEntries = (s.inodes a).numEntries
  dirEntries : t.dirEntries = s.dirEntries
  used : s.used ≤ t.used

theorem DirectoryAt.same (dir : DirectoryAt s T path d) (same : SameTree s t) (isDir : (s.inodes d).isDir = true) :
    DirectoryAt t T path d := by
  have next : t.nextEntry = s.nextEntry := by unfold TempFs.nextEntry; rw [same.dirEntries]
  have leads : t.entryInode = s.entryInode := by unfold TempFs.entryInode; rw [same.dirEntries]
  have names : t.entryName = s.entryName := by
    funext e
    unfold TempFs.entryName
    rw [leads, same.names]
  obtain ⟨first, count⟩ := same.dirs d isDir
  refine ⟨?_, ?_, ?_, ?_, ?_, ?_⟩
  · rw [next, first]
    exact dir.linked
  · rw [count]
    exact dir.count
  · intro e inside
    obtain ⟨below, nonnull, inodeBelow⟩ := dir.old e inside
    rw [leads]
    exact ⟨below.trans same.used, nonnull, inodeBelow.trans same.used⟩
  · rw [names, leads]
    exact dir.dots
  · rw [leads]
    exact dir.children
  · rw [leads]
    exact dir.single

theorem Models.same (models : Models s base root T) (same : SameTree s t) : Models t base root T where
  rootAt := models.rootAt
  rootDir := by rw [same.kinds]; exact models.rootDir
  valid p i found := ⟨(models.valid p i found).1, (models.valid p i found).2.trans same.used⟩
  parent p x i found := by
    obtain ⟨d, there, isDir⟩ := models.parent p x i found
    exact ⟨d, there, by rw [same.kinds]; exact isDir⟩
  distinct := models.distinct
  named p x i found := by
    rw [same.names]
    exact models.named p x i found
  dirs p d found isDir := by
    rw [same.kinds] at isDir
    exact (models.dirs p d found isDir).same same isDir
  apart p q d d' first second isDir isDir' := by
    rw [same.kinds] at isDir isDir'
    exact models.apart p q d d' first second isDir isDir'
  reached a above isDir := by
    rw [same.kinds] at isDir
    rw [same.names]
    exact models.reached a above isDir

/-! ### The calls on a directory of the tree -/

/-- One call: the new inode `i` at `path ++ [x]`. -/
structure Created (s t : TempFs) (base root d : Nat) (T T' : Tree) (path : List Name) (x : Name) (i : Nat) : Prop where
  models : Models t base root T'
  added : ∃ e newChain, T' = T.add path x i e newChain
  grown : ∃ last e newChain, Grown s t d last i e x newChain

section calls

variable {x : Name} (models : Models s base root T) (at_ : T.inodeAt path = some d)
  (isDir : (s.inodes d).isDir = true) (absent : T.inodeAt (path ++ [x]) = none) (notDot : x ≠ dot)
  (notDotDot : x ≠ dotDot)
include models at_ isDir

theorem Models.last_entry : ∃ front last, T.chain path = front ++ [last] ∧
    (s.inodes d).numEntries = front.length ∧
    Linked s.nextEntry (s.inodes d).firstNode (front ++ [last]) ∧ (∀ e ∈ front ++ [last], e ≤ s.used) ∧
    d ≠ 0 ∧ d ≤ s.used ∧ last ≤ s.used := by
  have dir := models.dirs path d at_ isDir
  obtain ⟨nonnull, old⟩ := models.valid path d at_
  have eq : T.chain path = (T.chain path).dropLast ++ [(T.chain path).getLast dir.nonempty] :=
    (List.dropLast_append_getLast dir.nonempty).symm
  have below : ∀ e ∈ T.chain path, e ≤ s.used := fun e inside => (dir.old e inside).1
  refine ⟨_, _, eq, ?_, ?_, ?_, nonnull, old, below _ (List.getLast_mem _)⟩
  · have count := dir.count
    rw [List.length_dropLast]
    omega
  · rw [← eq]
    exact dir.linked
  · rw [← eq]
    exact below

include absent notDot notDotDot

theorem Models.mkdir : ∃ t T', tempfsMkdir d x s = .ok (⟨⟩, t) ∧
    Created s t base root d T T' path x (s.used + 1) ∧ (t.inodes (s.used + 1)).isDir = true := by
  obtain ⟨front, last, ends, count, linked, below, nonnull, old, lastOld⟩ := models.last_entry at_ isDir
  obtain ⟨t, run, v, added, furnished⟩ := tempfsMkdir_run x nonnull old linked count below
  have grown := added.grown_dir furnished old lastOld
  refine ⟨t, _, run, ⟨models.grow at_ isDir absent grown ends notDot notDotDot, ⟨_, _, rfl⟩, ⟨_, _, _, grown⟩⟩, ?_⟩
  rw [furnished.dir, added.inode]

theorem Models.mkfile : ∃ t T', tempfsMkfile d x s = .ok (⟨⟩, t) ∧
    Created s t base root d T T' path x (s.used + 1) ∧ t.inodes (s.used + 1) = { filename := x } := by
  obtain ⟨front, last, ends, count, linked, below, nonnull, old, -⟩ := models.last_entry at_ isDir
  obtain ⟨t, run, added⟩ := tempfsMkfile_run x nonnull old linked count below
  have grown := added.grown rfl old
  exact ⟨t, _, run, ⟨models.grow at_ isDir absent grown ends notDot notDotDot, ⟨_, _, rfl⟩, ⟨_, _, _, grown⟩⟩,
    added.inode⟩

theorem Models.createDevice (operations : DeviceOps) : ∃ t T', tempfsCreateDevice d x operations s = .ok (⟨⟩, t) ∧
    Created s t base root d T T' path x (s.used + 1) ∧
    t.inodes (s.used + 1) = { filename := x, type := filetypeDevice, operations := operations } := by
  obtain ⟨front, last, ends, count, linked, below, nonnull, old, -⟩ := models.last_entry at_ isDir
  obtain ⟨t, run, added⟩ := tempfsCreateDevice_run x nonnull old linked count below operations
  have grown := added.grown rfl old
  exact ⟨t, _, run, ⟨models.grow at_ isDir absent grown ends notDot notDotDot, ⟨_, _, rfl⟩, ⟨_, _, _, grown⟩⟩,
    added.inode⟩

end calls

/-! ### A new file system -/

/-- The tree of an empty file system. -/
def Tree.empty (root : Nat) (chain : List Nat) : Tree where
  inodeAt p := if p = [] then some root else none
  chain _ := chain

theorem Tree.empty_cases {chain : List Nat} {p : List Name} {i : Nat}
    (found : (Tree.empty root chain).inodeAt p = some i) : p = [] ∧ i = root := by
  unfold Tree.empty at found
  dsimp only at found
  split at found
  · exact ⟨‹_›, (Option.some.inj found).symm⟩
  · cases found

/-- `tempfs_new`, on a heap whose unused blocks read as zeros. -/
theorem tempfsNew_models (unused : ∀ a, s.used < a → s.inodes a = {}) :
    ∃ t chain, tempfsNew s = .ok (s.used + 1, t) ∧
      Models t s.used (s.used + 1) (.empty (s.used + 1) chain) ∧ t.fileNodes = s.fileNodes := by
  obtain ⟨t, run, furnished⟩ := tempfsNew_run s
  have used : t.used = s.used + 1 + 4 := furnished.used
  have new : NewChain s t (s.used + 1) (s.used + 1) [s.used + 1 + 1, s.used + 1 + 4] :=
    furnished.chain_new (by omega) le_rfl
  have rootInode : (t.inodes (s.used + 1)).isDir = true := by rw [furnished.dir, withRoot_root]
  refine ⟨t, [s.used + 1 + 1, s.used + 1 + 4], run, ?_, furnished.fileNodes⟩
  exact {
    rootAt := by simp [Tree.empty]
    rootDir := rootInode
    valid := fun p i found => by
      obtain ⟨-, rfl⟩ := Tree.empty_cases found
      exact ⟨Nat.succ_ne_zero _, by omega⟩
    parent := fun p x i found => by
      obtain ⟨impossible, -⟩ := Tree.empty_cases found
      simp at impossible
    distinct := fun p q i first second => by
      rw [(Tree.empty_cases first).1, (Tree.empty_cases second).1]
    named := fun p x i found => by
      obtain ⟨impossible, -⟩ := Tree.empty_cases found
      simp at impossible
    dirs := fun p d found _ => by
      obtain ⟨rfl, rfl⟩ := Tree.empty_cases found
      exact new.directoryAt rfl fun y => by simp [Tree.empty]
    apart := fun p q d d' first second _ _ other => by
      exact absurd ((Tree.empty_cases first).1.trans (Tree.empty_cases second).1.symm) other
    reached := fun a above isDir notDot notDotDot => by
      by_cases isRoot : a = s.used + 1
      · exact ⟨[], by simp [Tree.empty, isRoot]⟩
      · have helper : a = s.used + 1 + 2 ∨ a = s.used + 1 + 3 := by
          by_contra other
          rw [furnished.inodes a isRoot (by omega) (by omega), withRoot_other s true isRoot, unused a above] at isDir
          cases isDir
        rcases helper with rfl | rfl
        · rw [furnished.dotInode] at notDot
          exact absurd rfl notDot
        · rw [furnished.dotDotInode] at notDotDot
          exact absurd rfl notDotDot }

end PotatOS.Fs
