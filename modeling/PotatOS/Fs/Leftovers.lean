import PotatOS.Fs.Reused

/-!
# What the calls of TempFS make of leftover bytes

`Shows` relates a heap with leftover bytes to the store of `Fs.TempFs`, whose
objects start as zeros. It compares the fields that a call may read, of every
object the calls have made but for those still being filled in, the `raw` ones.
Each call keeps it as long as the two fields that no call sets read as zero, so
the replies are those of the store and the leftover bytes do not matter.
-/

namespace PotatOS.Fs.Reused

open Memory

variable {h h' t : Heap} {s s' u : TempFs} {a e : Nat} {o : Object} {raw : List Object}

/-! ### Objects -/

def Heap.note (h : Heap) (o : Object) : Heap := { h with followed := o :: h.followed }

def Heap.alloc (h : Heap) (kind : Nat → Object) : Heap :=
  { h with used := h.used + 1, made := kind (h.used + 1) :: h.made }

def Heap.putInode (h : Heap) (a : Nat) (r : RawInode) : Heap :=
  { h.note (.inode a) with inodes := Function.update h.inodes a r }

def Heap.putDirEntry (h : Heap) (e : Nat) (r : DirEntryNode) : Heap :=
  { h.note (.dirEntry e) with dirEntries := Function.update h.dirEntries e r }

def Heap.putFileNode (h : Heap) (a : Nat) (r : FileNode) : Heap :=
  { h.note (.fileNode a) with fileNodes := Function.update h.fileNodes a r }

theorem malloc_run (kind : Nat → Object) : malloc kind h = (.ok (h.used + 1), h.alloc kind) := rfl

theorem follow_run (nonnull : o.address ≠ 0) : follow o h = (.ok ⟨⟩, h.note o) := by
  simp only [follow, if_neg nonnull]
  rfl

theorem inode_run (nonnull : a ≠ 0) : inode a h = (.ok (h.inodes a), h.note (.inode a)) := by
  rw [inode, Traced.bind_eq (follow_run (o := .inode a) nonnull)]
  rfl

theorem dirEntry_run (nonnull : e ≠ 0) : dirEntry e h = (.ok (h.dirEntries e), h.note (.dirEntry e)) := by
  rw [dirEntry, Traced.bind_eq (follow_run (o := .dirEntry e) nonnull)]
  rfl

theorem fileNode_run (nonnull : a ≠ 0) : fileNode a h = (.ok (h.fileNodes a), h.note (.fileNode a)) := by
  rw [fileNode, Traced.bind_eq (follow_run (o := .fileNode a) nonnull)]
  rfl

theorem setInode_run {f : RawInode → RawInode} (nonnull : a ≠ 0) :
    setInode a f h = (.ok ⟨⟩, h.putInode a (f (h.inodes a))) := by
  rw [setInode, Traced.bind_eq (follow_run (o := .inode a) nonnull)]
  rfl

theorem setDirEntry_run {f : DirEntryNode → DirEntryNode} (nonnull : e ≠ 0) :
    setDirEntry e f h = (.ok ⟨⟩, h.putDirEntry e (f (h.dirEntries e))) := by
  rw [setDirEntry, Traced.bind_eq (follow_run (o := .dirEntry e) nonnull)]
  rfl

theorem setFileNode_run {f : FileNode → FileNode} (nonnull : a ≠ 0) :
    setFileNode a f h = (.ok ⟨⟩, h.putFileNode a (f (h.fileNodes a))) := by
  rw [setFileNode, Traced.bind_eq (follow_run (o := .fileNode a) nonnull)]
  rfl

/-! ### Names -/

/-- The bytes of `m` up to the terminator are the C string `name`. -/
structure Named (m : Mem) (name : Name) : Prop where
  spells : Spells m name
  plain : 0 ∉ name

theorem nameBytes_end {name : Name} : nameBytes name name.length = 0 := by simp [nameBytes]

theorem nameBytes_nonzero {name : Name} {i : Nat} (plain : 0 ∉ name) (inside : i < name.length) :
    nameBytes name i ≠ 0 := by
  intro zero
  have member : name[i] ∈ name := List.getElem_mem inside
  rw [nameBytes, List.getD_eq_getElem _ _ inside] at zero
  exact plain (zero ▸ member)

theorem Named.spells_iff {m : Mem} {name other : Name} (named : Named m name) (plain : 0 ∉ other) :
    Spells m other ↔ name = other := by
  constructor
  · intro spells
    have sameLength : name.length = other.length := by
      rcases Nat.lt_trichotomy name.length other.length with shorter | same | longer
      · have stop := named.spells name.length (by omega)
        rw [nameBytes_end, spells name.length (by omega)] at stop
        exact absurd stop (nameBytes_nonzero plain shorter)
      · exact same
      · have stop := spells other.length (by omega)
        rw [nameBytes_end, named.spells other.length (by omega)] at stop
        exact absurd stop (nameBytes_nonzero named.plain longer)
    apply List.ext_getElem sameLength
    intro i inside inside'
    have left := named.spells i (by omega)
    have right := spells i (by omega)
    rw [nameBytes, List.getD_eq_getElem _ _ inside] at left
    rw [nameBytes, List.getD_eq_getElem _ _ inside'] at right
    exact left.symm.trans right
  · rintro rfl
    exact named.spells

/-- A name copied over cleared bytes ends where it should. -/
theorem named_copy {name : Name} (plain : 0 ∉ name) :
    Named (copyBytes (fun _ => 0) 0 (nameBytes name) name.length) name := by
  refine ⟨fun i below => ?_, plain⟩
  unfold copyBytes
  split
  · rfl
  · rename_i outside
    have atEnd : i = name.length := by unfold InRange at outside; omega
    rw [atEnd, nameBytes_end]

theorem named_dot {m : Mem} (terminated : m 1 = 0) : Named (Function.update m 0 46) dot := by
  refine ⟨fun i below => ?_, by decide⟩
  have cases : i = 0 ∨ i = 1 := by
    have length : dot.length = 1 := rfl
    omega
  rcases cases with rfl | rfl
  · rfl
  · exact terminated

/-! ### The relation -/

/-- Null, or an object of this kind that the calls have made. -/
def Known (made : List Object) (kind : Nat → Object) (a : Nat) : Prop := a = 0 ∨ kind a ∈ made

/-- Both chains of file nodes from `a` hold the same first `n` bytes. -/
inductive SameBytes (h : Heap) (s : TempFs) : Nat → Nat → Prop
  | done (a : Nat) : SameBytes h s 0 a
  | node {n a : Nat} (more : 0 < n) (made : .fileNode a ∈ h.made)
      (data : ∀ x < min filenodeDataSize n, (h.fileNodes a).data x = (s.fileNodes a).data x)
      (rest : SameBytes h s (n - filenodeDataSize) (s.fileNodes a).nextNode) : SameBytes h s n a

/-- The longest file whose write comes to an end: behind it the index of `tempfs_write` wraps. -/
def lengthLimit : Nat := (2 ^ 64 - 1) / filenodeDataSize * filenodeDataSize

structure SameInode (h : Heap) (s : TempFs) (r : RawInode) (i : Inode) : Prop where
  isDir : r.isDir = i.isDir
  firstNode : r.firstNode = i.firstNode
  directory : i.isDir = true → r.numEntries = i.numEntries ∧ Known h.made .dirEntry i.firstNode
  file : i.isDir = false → r.length = i.length ∧ r.type = i.type ∧ r.operations = i.operations ∧
    Known h.made .fileNode i.firstNode ∧ SameBytes h s i.length i.firstNode ∧ i.length ≤ lengthLimit

/-- The entry leads to the same inode, under the same name. -/
structure Entered (h : Heap) (s : TempFs) (r i : DirEntryNode) : Prop where
  inode : r.inode = i.inode
  named : i.inode = 0 ∨
    .inode i.inode ∈ h.made ∧ Named (h.inodes i.inode).filename (s.inodes i.inode).filename

structure SameDirEntry (h : Heap) (s : TempFs) (r i : DirEntryNode) : Prop extends Entered h s r i where
  next : r.nextNode = i.nextNode
  known : Known h.made .dirEntry i.nextNode

structure SameFileNode (h : Heap) (r i : FileNode) : Prop where
  next : r.nextNode = i.nextNode
  known : Known h.made .fileNode i.nextNode

def Same (h : Heap) (s : TempFs) : Object → Prop
  | .inode a => SameInode h s (h.inodes a) (s.inodes a)
  | .dirEntry e => SameDirEntry h s (h.dirEntries e) (s.dirEntries e)
  | .fileNode a => SameFileNode h (h.fileNodes a) (s.fileNodes a)

/-- Every object accessed is one that the calls have allocated. -/
def FollowsOwn (h : Heap) : Prop := ∀ o ∈ h.followed, o ∈ h.made

/-- The heap shows the store `s`, in every object that is not `raw`. -/
structure Shows (raw : List Object) (h : Heap) (s : TempFs) : Prop where
  used : h.used = s.used
  made : ∀ o ∈ h.made, o.address ≠ 0 ∧ o.address ≤ h.used
  followed : FollowsOwn h
  same : ∀ o ∈ h.made, o ∉ raw → Same h s o

/-! ### What steps keep -/

/-- What no step takes back: allocations, names, links and bytes that agree. -/
structure Kept (h : Heap) (s : TempFs) (t : Heap) (u : TempFs) : Prop where
  made : ∀ o ∈ h.made, o ∈ t.made
  names : ∀ a, .inode a ∈ h.made → Named (h.inodes a).filename (s.inodes a).filename →
    Named (t.inodes a).filename (u.inodes a).filename
  data : ∀ a, .fileNode a ∈ h.made → ∀ x, (h.fileNodes a).data x = (s.fileNodes a).data x →
    (t.fileNodes a).data x = (u.fileNodes a).data x
  links : ∀ a, .fileNode a ∈ h.made → (s.fileNodes a).nextNode ≠ 0 →
    (u.fileNodes a).nextNode = (s.fileNodes a).nextNode

theorem Kept.refl (h : Heap) (s : TempFs) : Kept h s h s :=
  ⟨fun _ made => made, fun _ _ named => named, fun _ _ _ same => same, fun _ _ _ => rfl⟩

theorem Kept.trans (first : Kept h s h' s') (second : Kept h' s' t u) : Kept h s t u where
  made o made := second.made o (first.made o made)
  names a made named := second.names a (first.made _ made) (first.names a made named)
  data a made x same := second.data a (first.made _ made) x (first.data a made x same)
  links a made linked := by
    have link := first.links a made linked
    rw [← link] at linked
    exact (second.links a (first.made _ made) linked).trans link

theorem Known.mono {kind : Nat → Object} (known : Known h.made kind a) (kept : Kept h s t u) :
    Known t.made kind a := known.imp_right (kept.made _)

theorem SameBytes.made {n : Nat} (bytes : SameBytes h s n a) (some : n ≠ 0) : .fileNode a ∈ h.made := by
  cases bytes with
  | done => exact absurd rfl some
  | node _ made => exact made

theorem SameBytes.kept {n : Nat} (bytes : SameBytes h s n a) (kept : Kept h s t u)
    (nonnull : ∀ o ∈ h.made, o.address ≠ 0) : SameBytes t u n a := by
  induction bytes with
  | done a => exact .done a
  | @node n a more made data rest ih =>
    apply SameBytes.node more (kept.made _ made)
    · intro x inside
      exact kept.data a made x (data x inside)
    · by_cases last : n - filenodeDataSize = 0
      · rw [last]
        exact .done _
      · have next := rest.made last
        rwa [kept.links a made (nonnull _ next)]

theorem SameBytes.shorten {n m : Nat} (bytes : SameBytes h s n a) (le : m ≤ n) : SameBytes h s m a := by
  induction bytes generalizing m with
  | done a =>
    obtain rfl : m = 0 := by omega
    exact .done a
  | @node n a more made data rest ih =>
    rcases Nat.eq_zero_or_pos m with rfl | some
    · exact .done a
    · have within : min filenodeDataSize m ≤ min filenodeDataSize n := min_le_min_left _ le
      exact .node some made (fun x inside => data x (inside.trans_le within)) (ih (Nat.sub_le_sub_right le _))

section

variable (step : Kept h s t u) (nonnull : ∀ o ∈ h.made, o.address ≠ 0)
include step

theorem Entered.kept {r i : DirEntryNode} (entered : Entered h s r i) : Entered t u r i :=
  ⟨entered.inode, entered.named.imp_right fun ⟨made, named⟩ => ⟨step.made _ made, step.names _ made named⟩⟩

theorem SameDirEntry.kept {r i : DirEntryNode} (same : SameDirEntry h s r i) : SameDirEntry t u r i :=
  ⟨same.toEntered.kept step, same.next, same.known.mono step⟩

theorem SameFileNode.kept {r i : FileNode} (same : SameFileNode h r i) : SameFileNode t r i :=
  ⟨same.next, same.known.mono step⟩

include nonnull in
theorem SameInode.kept {r : RawInode} {i : Inode} (same : SameInode h s r i) : SameInode t u r i where
  isDir := same.isDir
  firstNode := same.firstNode
  directory dir := ⟨(same.directory dir).1, (same.directory dir).2.mono step⟩
  file notDir := by
    obtain ⟨length, type, operations, known, bytes, limit⟩ := same.file notDir
    exact ⟨length, type, operations, known.mono step, bytes.kept step nonnull, limit⟩

end

def Untouched (h : Heap) (s : TempFs) (t : Heap) (u : TempFs) : Object → Prop
  | .inode a => t.inodes a = h.inodes a ∧ u.inodes a = s.inodes a
  | .dirEntry e => t.dirEntries e = h.dirEntries e ∧ u.dirEntries e = s.dirEntries e
  | .fileNode a => t.fileNodes a = h.fileNodes a ∧ u.fileNodes a = s.fileNodes a

theorem Same.kept (same : Same h s o) (kept : Kept h s t u) (untouched : Untouched h s t u o)
    (nonnull : ∀ o ∈ h.made, o.address ≠ 0) : Same t u o := by
  cases o with
  | inode a =>
    have same : SameInode h s (h.inodes a) (s.inodes a) := same
    change SameInode t u (t.inodes a) (u.inodes a)
    rw [untouched.1, untouched.2]
    exact same.kept kept nonnull
  | dirEntry e =>
    have same : SameDirEntry h s (h.dirEntries e) (s.dirEntries e) := same
    change SameDirEntry t u (t.dirEntries e) (u.dirEntries e)
    rw [untouched.1, untouched.2]
    exact same.kept kept
  | fileNode a =>
    have same : SameFileNode h (h.fileNodes a) (s.fileNodes a) := same
    change SameFileNode t (t.fileNodes a) (u.fileNodes a)
    rw [untouched.1, untouched.2]
    exact same.kept kept

/-- A step that changes the one object `o`, or none. -/
theorem Shows.changes (shows : Shows raw h s) (changed : Object → Prop) (kept : Kept h s t u)
    (used : t.used = u.used) (made : t.made = h.made) (sameUsed : t.used = h.used) (followed : FollowsOwn t)
    (others : ∀ o, ¬ changed o → Untouched h s t u o)
    (same : ∀ o ∈ h.made, changed o → o ∉ raw → Same t u o) : Shows raw t u where
  used := used
  made := by
    rw [made, sameUsed]
    exact shows.made
  followed := followed
  same o inside notRaw := by
    rw [made] at inside
    by_cases isChanged : changed o
    · exact same o inside isChanged notRaw
    · exact (shows.same o inside notRaw).kept kept (others o isChanged) fun o made => (shows.made o made).1

theorem Shows.settle (shows : Shows (o :: raw) h s) (same : o ∈ h.made → Same h s o) : Shows raw h s where
  used := shows.used
  made := shows.made
  followed := shows.followed
  same p inside notRaw := by
    by_cases here : p = o
    · exact here ▸ same (here ▸ inside)
    · exact shows.same p inside (by simp [here, notRaw])

theorem Shows.weaken {more : List Object} (shows : Shows raw h s) (sub : ∀ o ∈ raw, o ∈ more) : Shows more h s :=
  ⟨shows.used, shows.made, shows.followed, fun o made notRaw => shows.same o made fun inside => notRaw (sub o inside)⟩

theorem Shows.nonnull (shows : Shows raw h s) : ∀ o ∈ h.made, o.address ≠ 0 := fun o made => (shows.made o made).1

theorem Kept.note (h : Heap) (s : TempFs) (o : Object) : Kept h s (h.note o) s :=
  ⟨fun _ made => made, fun _ _ named => named, fun _ _ _ same => same, fun _ _ _ => rfl⟩

theorem FollowsOwn.cons (own : FollowsOwn h) (made : o ∈ h.made) (same : t.made = h.made)
    (followed : t.followed = o :: h.followed) : FollowsOwn t := by
  intro p inside
  rw [followed] at inside
  rw [same]
  rcases List.mem_cons.mp inside with rfl | old
  · exact made
  · exact own p old

theorem Shows.note (shows : Shows raw h s) (made : o ∈ h.made) : Shows raw (h.note o) s := by
  apply shows.changes (fun _ => False) (Kept.note h s o) shows.used rfl rfl (shows.followed.cons made rfl rfl)
  · rintro (a | e | a) - <;> exact ⟨rfl, rfl⟩
  · intro _ _ changed
    exact changed.elim

/-! ### Allocation -/

/-- The store has handed out one more address. -/
structure Allocated (s u : TempFs) : Prop where
  used : u.used = s.used + 1
  inodes : ∀ a ≤ s.used, u.inodes a = s.inodes a
  dirEntries : ∀ e ≤ s.used, u.dirEntries e = s.dirEntries e
  fileNodes : ∀ a ≤ s.used, u.fileNodes a = s.fileNodes a

theorem Shows.kept_alloc (shows : Shows raw h s) (allocated : Allocated s u) (kind : Nat → Object) :
    Kept h s (h.alloc kind) u where
  made _ made := List.mem_cons_of_mem _ made
  names a made named := by
    have below : a ≤ s.used := shows.used ▸ (shows.made _ made).2
    rwa [allocated.inodes a below]
  data a made x same := by
    have below : a ≤ s.used := shows.used ▸ (shows.made _ made).2
    rwa [allocated.fileNodes a below]
  links a made _ := by
    have below : a ≤ s.used := shows.used ▸ (shows.made _ made).2
    rw [allocated.fileNodes a below]

theorem Shows.alloc (shows : Shows raw h s) (allocated : Allocated s u) (kind : Nat → Object)
    (address : (kind (h.used + 1)).address = h.used + 1) : Shows (kind (h.used + 1) :: raw) (h.alloc kind) u where
  used := by rw [allocated.used, ← shows.used, Heap.alloc]
  made o inside := by
    rcases List.mem_cons.mp inside with rfl | old
    · exact ⟨by omega, by rw [address, Heap.alloc]⟩
    · have bounds := shows.made o old
      exact ⟨bounds.1, bounds.2.trans (Nat.le_succ _)⟩
  followed o inside := List.mem_cons_of_mem _ (shows.followed o inside)
  same o inside notRaw := by
    obtain ⟨notNew, notRaw⟩ := not_or.mp (mt List.mem_cons.mpr notRaw)
    have old : o ∈ h.made := (List.mem_cons.mp inside).resolve_left notNew
    have below : o.address ≤ s.used := shows.used ▸ (shows.made o old).2
    apply (shows.same o old notRaw).kept (shows.kept_alloc allocated kind) _ shows.nonnull
    cases o with
    | inode a => exact ⟨rfl, allocated.inodes a below⟩
    | dirEntry e => exact ⟨rfl, allocated.dirEntries e below⟩
    | fileNode a => exact ⟨rfl, allocated.fileNodes a below⟩

theorem allocated_inode (s : TempFs) : Allocated s
    { s with inodes := Function.update s.inodes (s.used + 1) {}, used := s.used + 1 } :=
  ⟨rfl, fun _ below => Function.update_of_ne (by omega) .., fun _ _ => rfl, fun _ _ => rfl⟩

theorem allocated_dirEntry (s : TempFs) : Allocated s
    { s with dirEntries := Function.update s.dirEntries (s.used + 1) {}, used := s.used + 1 } :=
  ⟨rfl, fun _ _ => rfl, fun _ below => Function.update_of_ne (by omega) .., fun _ _ => rfl⟩

theorem allocated_fileNode (s : TempFs) : Allocated s
    { s with fileNodes := Function.update s.fileNodes (s.used + 1) {}, used := s.used + 1 } :=
  ⟨rfl, fun _ _ => rfl, fun _ _ => rfl, fun _ below => Function.update_of_ne (by omega) ..⟩

/-! ### Stores -/

section

variable {r : RawInode} {i : Inode} (name : Named (h.inodes a).filename (s.inodes a).filename → Named r.filename i.filename)
include name

theorem Kept.putInode : Kept h s (h.putInode a r) { s with inodes := Function.update s.inodes a i } where
  made _ made := made
  names b _ named := by
    by_cases here : b = a
    · subst here
      simpa only [Heap.putInode, Function.update_self] using name named
    · simpa only [Heap.putInode, Function.update_of_ne here] using named
  data _ _ _ same := same
  links _ _ _ := rfl

theorem Shows.putInode (shows : Shows raw h s) (made : .inode a ∈ h.made)
    (same : .inode a ∉ raw → SameInode h s r i) :
    Shows raw (h.putInode a r) { s with inodes := Function.update s.inodes a i } := by
  apply shows.changes (· = .inode a) (.putInode name) shows.used rfl rfl (shows.followed.cons made rfl rfl)
  · rintro (b | e | b) other
    · have apart : b ≠ a := fun eq => other (eq ▸ rfl)
      exact ⟨Function.update_of_ne apart .., Function.update_of_ne apart ..⟩
    · exact ⟨rfl, rfl⟩
    · exact ⟨rfl, rfl⟩
  · rintro _ - rfl notRaw
    change SameInode _ _ (Function.update h.inodes a r a) (Function.update s.inodes a i a)
    rw [Function.update_self, Function.update_self]
    exact (same notRaw).kept (.putInode name) shows.nonnull

end

theorem Kept.putDirEntry (r i : DirEntryNode) :
    Kept h s (h.putDirEntry e r) { s with dirEntries := Function.update s.dirEntries e i } :=
  ⟨fun _ made => made, fun _ _ named => named, fun _ _ _ same => same, fun _ _ _ => rfl⟩

theorem Shows.putDirEntry {r i : DirEntryNode} (shows : Shows raw h s) (made : .dirEntry e ∈ h.made)
    (same : .dirEntry e ∉ raw → SameDirEntry h s r i) :
    Shows raw (h.putDirEntry e r) { s with dirEntries := Function.update s.dirEntries e i } := by
  apply shows.changes (· = .dirEntry e) (.putDirEntry r i) shows.used rfl rfl (shows.followed.cons made rfl rfl)
  · rintro (b | b | b) other
    · exact ⟨rfl, rfl⟩
    · have apart : b ≠ e := fun eq => other (eq ▸ rfl)
      exact ⟨Function.update_of_ne apart .., Function.update_of_ne apart ..⟩
    · exact ⟨rfl, rfl⟩
  · rintro _ - rfl notRaw
    change SameDirEntry _ _ (Function.update h.dirEntries e r e) (Function.update s.dirEntries e i e)
    rw [Function.update_self, Function.update_self]
    exact (same notRaw).kept (.putDirEntry r i)

theorem Kept.clearDirEntry (r : DirEntryNode) : Kept h s (h.putDirEntry e r) s :=
  ⟨fun _ made => made, fun _ _ named => named, fun _ _ _ same => same, fun _ _ _ => rfl⟩

theorem Kept.clearInode {r : RawInode}
    (name : Named (h.inodes a).filename (s.inodes a).filename → Named r.filename (s.inodes a).filename) :
    Kept h s (h.putInode a r) s := by
  have cleared := Kept.putInode name
  rwa [Function.update_eq_self] at cleared

/-- A store on the left that the store on the right needs not make. -/
theorem Shows.clearDirEntry {r : DirEntryNode} (shows : Shows raw h s) (made : .dirEntry e ∈ h.made)
    (same : .dirEntry e ∉ raw → SameDirEntry h s r (s.dirEntries e)) : Shows raw (h.putDirEntry e r) s := by
  have cleared := shows.putDirEntry made same
  rwa [Function.update_eq_self] at cleared

theorem Shows.clearInode {r : RawInode} (shows : Shows raw h s)
    (name : Named (h.inodes a).filename (s.inodes a).filename → Named r.filename (s.inodes a).filename)
    (made : .inode a ∈ h.made) (same : .inode a ∉ raw → SameInode h s r (s.inodes a)) :
    Shows raw (h.putInode a r) s := by
  have cleared := shows.putInode name made same
  rwa [Function.update_eq_self] at cleared

section

variable {r i : FileNode} (data : ∀ x, (h.fileNodes a).data x = (s.fileNodes a).data x → r.data x = i.data x)
  (link : (s.fileNodes a).nextNode ≠ 0 → i.nextNode = (s.fileNodes a).nextNode)
include data link

theorem Kept.putFileNode :
    Kept h s (h.putFileNode a r) { s with fileNodes := Function.update s.fileNodes a i } where
  made _ made := made
  names _ _ named := named
  data b _ x same := by
    by_cases here : b = a
    · subst here
      simpa only [Heap.putFileNode, Function.update_self] using data x same
    · simpa only [Heap.putFileNode, Function.update_of_ne here] using same
  links b _ linked := by
    by_cases here : b = a
    · subst here
      simpa only [Function.update_self] using link linked
    · simp only [Function.update_of_ne here]

theorem Shows.putFileNode (shows : Shows raw h s) (made : .fileNode a ∈ h.made)
    (same : .fileNode a ∉ raw → SameFileNode h r i) :
    Shows raw (h.putFileNode a r) { s with fileNodes := Function.update s.fileNodes a i } := by
  apply shows.changes (· = .fileNode a) (.putFileNode data link) shows.used rfl rfl (shows.followed.cons made rfl rfl)
  · rintro (b | e | b) other
    · exact ⟨rfl, rfl⟩
    · exact ⟨rfl, rfl⟩
    · have apart : b ≠ a := fun eq => other (eq ▸ rfl)
      exact ⟨Function.update_of_ne apart .., Function.update_of_ne apart ..⟩
  · rintro _ - rfl notRaw
    change SameFileNode _ (Function.update h.fileNodes a r a) (Function.update s.fileNodes a i a)
    rw [Function.update_self, Function.update_self]
    exact (same notRaw).kept (.putFileNode data link)

end

theorem Kept.clearFileNode {r : FileNode} (data : ∀ x, r.data x = (h.fileNodes a).data x) :
    Kept h s (h.putFileNode a r) s := by
  have cleared := Kept.putFileNode (h := h) (s := s) (a := a) (r := r) (fun x same => (data x).trans same) fun _ => rfl
  rwa [Function.update_eq_self] at cleared

theorem Shows.clearFileNode {r : FileNode} (shows : Shows raw h s) (data : ∀ x, r.data x = (h.fileNodes a).data x)
    (made : .fileNode a ∈ h.made) (same : .fileNode a ∉ raw → SameFileNode h r (s.fileNodes a)) :
    Shows raw (h.putFileNode a r) s := by
  have cleared := shows.putFileNode (fun x same => (data x).trans same) (fun _ => rfl) made same
  rwa [Function.update_eq_self] at cleared

/-! ### Both programs at an object

The pointer is null or leads to an object the calls have made. At null both stop. -/

section

variable (shows : Shows raw h s)
include shows

theorem inode_coupled (known : Known h.made .inode a) :
    Coupled (inode a) h (Fs.inode a) s (fun r t i u => r = h.inodes a ∧ i = s.inodes a ∧ .inode a ∈ h.made ∧
      t = h.note (.inode a) ∧ u = s ∧ Shows raw t u) FollowsOwn := by
  rcases known with rfl | made
  · exact .stops rfl rfl shows.followed
  · have nonnull : a ≠ 0 := shows.nonnull _ made
    exact .returns (inode_run nonnull) (Fs.inode_run nonnull) ⟨rfl, rfl, made, rfl, rfl, shows.note made⟩

theorem dirEntry_coupled (known : Known h.made .dirEntry e) :
    Coupled (dirEntry e) h (Fs.dirEntry e) s (fun r t i u => r = h.dirEntries e ∧ i = s.dirEntries e ∧
      .dirEntry e ∈ h.made ∧ t = h.note (.dirEntry e) ∧ u = s ∧ Shows raw t u) FollowsOwn := by
  rcases known with rfl | made
  · exact .stops rfl rfl shows.followed
  · have nonnull : e ≠ 0 := shows.nonnull _ made
    exact .returns (dirEntry_run nonnull) (Fs.dirEntry_run nonnull) ⟨rfl, rfl, made, rfl, rfl, shows.note made⟩

theorem fileNode_coupled (known : Known h.made .fileNode a) :
    Coupled (fileNode a) h (Fs.fileNode a) s (fun r t i u => r = h.fileNodes a ∧ i = s.fileNodes a ∧
      .fileNode a ∈ h.made ∧ t = h.note (.fileNode a) ∧ u = s ∧ Shows raw t u) FollowsOwn := by
  rcases known with rfl | made
  · exact .stops rfl rfl shows.followed
  · have nonnull : a ≠ 0 := shows.nonnull _ made
    exact .returns (fileNode_run nonnull) (Fs.fileNode_run nonnull) ⟨rfl, rfl, made, rfl, rfl, shows.note made⟩

theorem malloc_coupled {y : TempFsM Nat} (kind : Nat → Object)
    (address : (kind (h.used + 1)).address = h.used + 1) (run : y s = .ok (s.used + 1, u))
    (allocated : Allocated s u) :
    Coupled (malloc kind) h y s (fun a t b u' => a = b ∧ a = h.used + 1 ∧ t = h.alloc kind ∧ u' = u ∧
      kind a ∈ t.made ∧ Shows (kind a :: raw) t u' ∧ Kept h s t u') FollowsOwn := by
  rw [← shows.used] at run
  exact .returns (malloc_run kind) run ⟨rfl, rfl, rfl, rfl, List.mem_cons_self ..,
    shows.alloc allocated kind address, shows.kept_alloc allocated kind⟩

theorem setInode_coupled {f : RawInode → RawInode} {g : Inode → Inode} (made : .inode a ∈ h.made)
    (name : Named (h.inodes a).filename (s.inodes a).filename →
      Named (f (h.inodes a)).filename (g (s.inodes a)).filename)
    (same : .inode a ∉ raw → SameInode h s (f (h.inodes a)) (g (s.inodes a))) :
    Coupled (setInode a f) h (Fs.setInode a g) s (fun _ t _ u => t = h.putInode a (f (h.inodes a)) ∧
      u = { s with inodes := Function.update s.inodes a (g (s.inodes a)) } ∧ Shows raw t u ∧ Kept h s t u)
      FollowsOwn := by
  have nonnull : a ≠ 0 := shows.nonnull _ made
  exact .returns (setInode_run nonnull) (Fs.setInode_run nonnull)
    ⟨rfl, rfl, shows.putInode name made same, .putInode name⟩

theorem setDirEntry_coupled {f g : DirEntryNode → DirEntryNode} (known : Known h.made .dirEntry e)
    (same : .dirEntry e ∈ h.made → .dirEntry e ∉ raw → SameDirEntry h s (f (h.dirEntries e)) (g (s.dirEntries e))) :
    Coupled (setDirEntry e f) h (Fs.setDirEntry e g) s (fun _ t _ u => .dirEntry e ∈ h.made ∧
      t = h.putDirEntry e (f (h.dirEntries e)) ∧
      u = { s with dirEntries := Function.update s.dirEntries e (g (s.dirEntries e)) } ∧ Shows raw t u ∧
      Kept h s t u) FollowsOwn := by
  rcases known with rfl | made
  · exact .stops rfl rfl shows.followed
  · have nonnull : e ≠ 0 := shows.nonnull _ made
    exact .returns (setDirEntry_run nonnull) (Fs.setDirEntry_run nonnull)
      ⟨made, rfl, rfl, shows.putDirEntry made (same made), .putDirEntry ..⟩

theorem setFileNode_coupled {f g : FileNode → FileNode} (made : .fileNode a ∈ h.made)
    (data : ∀ x, (h.fileNodes a).data x = (s.fileNodes a).data x →
      (f (h.fileNodes a)).data x = (g (s.fileNodes a)).data x)
    (link : (s.fileNodes a).nextNode ≠ 0 → (g (s.fileNodes a)).nextNode = (s.fileNodes a).nextNode)
    (same : .fileNode a ∉ raw → SameFileNode h (f (h.fileNodes a)) (g (s.fileNodes a))) :
    Coupled (setFileNode a f) h (Fs.setFileNode a g) s (fun _ t _ u => t = h.putFileNode a (f (h.fileNodes a)) ∧
      u = { s with fileNodes := Function.update s.fileNodes a (g (s.fileNodes a)) } ∧ Shows raw t u ∧
      Kept h s t u) FollowsOwn := by
  have nonnull : a ≠ 0 := shows.nonnull _ made
  exact .returns (setFileNode_run nonnull) (Fs.setFileNode_run nonnull)
    ⟨rfl, rfl, shows.putFileNode data link made same, .putFileNode data link⟩

end

end PotatOS.Fs.Reused
