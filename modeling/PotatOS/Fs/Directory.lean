import PotatOS.Fs.TempFs
import PotatOS.Lib.Linked
import Mathlib.Data.Finset.Card
import Mathlib.Order.Interval.Finset.Nat

/-!
# Directories as chains of entries

What `tempfs_addentry`, `tempfs_mkdir` and `tempfs_find` do to a directory whose
entries form a null-terminated chain. The new entry goes behind the one that
`num_entries` counts to, the last unless the counter is wrong. The calls that
create are described by the objects they change.
-/

namespace PotatOS.Fs

open Prog

variable {s t u : TempFs} {d last a e : Nat} {front lost chain : List Nat}

def TempFs.nextEntry (s : TempFs) (a : Nat) : Nat := (s.dirEntries a).nextNode

/-- The name and the inode an entry leads to. -/
def TempFs.entryInode (s : TempFs) (e : Nat) : Nat := (s.dirEntries e).inode

def TempFs.entryName (s : TempFs) (e : Nat) : Name := (s.inodes (s.entryInode e)).filename

/-! ### Adding an entry -/

theorem entryAt_run {e : Nat} (linked : Linked s.nextEntry a (front ++ e :: chain)) :
    entryAt front.length a s = .ok (e, s) := by
  induction front generalizing a with
  | nil =>
    obtain ⟨rfl, -⟩ := linked
    rfl
  | cons x front ih =>
    obtain ⟨rfl, nonnull, tail⟩ := linked
    rw [List.length_cons, entryAt, bind_eq (dirEntry_run nonnull)]
    exact ih tail

/-- What a call that adds the inode `node` to `d` changes, when it counts to the entry `last`. -/
structure Added (s t : TempFs) (d last : Nat) (node : Inode) : Prop where
  used : t.used = s.used + 2
  inode : t.inodes (s.used + 1) = node
  dir : t.inodes d = { s.inodes d with numEntries := (s.inodes d).numEntries + 1 }
  inodes : ∀ a, a ≠ d → a ≠ s.used + 1 → t.inodes a = s.inodes a
  entry : t.dirEntries (s.used + 2) = { inode := s.used + 1 }
  link : t.dirEntries last = { s.dirEntries last with nextNode := s.used + 2 }
  dirEntries : ∀ e, e ≠ last → e ≠ s.used + 2 → t.dirEntries e = s.dirEntries e
  fileNodes : t.fileNodes = s.fileNodes

theorem tempfsAddentry_run (name : Name) (isDir : Bool) (nonnull : d ≠ 0) (old : d ≤ s.used)
    (linked : Linked s.nextEntry (s.inodes d).firstNode (front ++ last :: lost))
    (count : (s.inodes d).numEntries = front.length) (lastOld : ∀ e ∈ front ++ last :: lost, e ≤ s.used) :
    ∃ t, tempfsAddentry d name isDir s = .ok (s.used + 1, t) ∧
      Added s t d last { filename := name, isDir := isDir } := by
  have lastNonnull : last ≠ 0 := linked.nonnull last (by simp)
  have lastBelow : last ≤ s.used := lastOld last (by simp)
  have first : (s.inodes d).firstNode ≠ 0 := by
    intro null
    rw [null] at linked
    have empty := linked.unique (show Linked s.nextEntry 0 [] from rfl)
    simp at empty
  -- The two allocations change no entry of the chain.
  let v : TempFs := { s with
    inodes := Function.update s.inodes (s.used + 1) {}
    dirEntries := Function.update s.dirEntries (s.used + 1 + 1) {}
    used := s.used + 1 + 1 }
  have linked' : Linked v.nextEntry (s.inodes d).firstNode (front ++ last :: lost) := by
    refine linked.congr fun e inside => ?_
    have below := lastOld e inside
    change (Function.update s.dirEntries (s.used + 1 + 1) {} e).nextNode = _
    rw [Function.update_of_ne (by omega)]
    rfl
  unfold tempfsAddentry
  rw [bind_eq (inode_run nonnull), bind_eq mallocInode_run, bind_eq mallocDirEntry_run]
  dsimp only
  rw [if_pos first, count]
  rw [bind_eq (entryAt_run (s := v) linked'), bind_eq (setDirEntry_run lastNonnull),
    bind_eq (setInode_run (Nat.succ_ne_zero _)), bind_eq (setDirEntry_run (Nat.succ_ne_zero _)),
    bind_eq (setInode_run nonnull)]
  refine ⟨_, rfl, ?_⟩
  have apart : d ≠ s.used + 1 := by omega
  have lastApart : last ≠ s.used + 1 + 1 := by omega
  dsimp only [v]
  exact {
    used := rfl
    inode := by simp [Function.update_of_ne apart.symm]
    dir := by simp [Function.update_of_ne apart]
    inodes := fun a notDir notNew => by
      simp [Function.update_of_ne notDir, Function.update_of_ne notNew]
    entry := by simp [Function.update_of_ne lastApart.symm]
    link := by simp [Function.update_of_ne lastApart]
    dirEntries := fun e notLast notNew => by
      simp [Function.update_of_ne notLast, Function.update_of_ne (show e ≠ s.used + 1 + 1 from notNew)]
    fileNodes := rfl }

theorem Added.fill {node : Inode} (added : Added s t d last node) (old : d ≤ s.used) (f : Inode → Inode) :
    Added s { t with inodes := Function.update t.inodes (s.used + 1) (f (t.inodes (s.used + 1))) } d last
      (f node) where
  used := added.used
  inode := by simp only [Function.update_self, added.inode]
  dir := by
    have apart : d ≠ s.used + 1 := by omega
    simp only [Function.update_of_ne apart, added.dir]
  inodes a notDir notNew := by simp only [Function.update_of_ne notNew, added.inodes a notDir notNew]
  entry := added.entry
  link := added.link
  dirEntries := added.dirEntries
  fileNodes := added.fileNodes

section adding

variable (name : Name) (nonnull : d ≠ 0) (old : d ≤ s.used)
  (linked : Linked s.nextEntry (s.inodes d).firstNode (front ++ last :: lost))
  (count : (s.inodes d).numEntries = front.length) (lastOld : ∀ e ∈ front ++ last :: lost, e ≤ s.used)
include nonnull old linked count lastOld

theorem tempfsMkdirNonlinear_run (firstDirEntry : Nat) :
    ∃ t, tempfsMkdirNonlinear d name firstDirEntry s = .ok (⟨⟩, t) ∧
      Added s t d last { filename := name, isDir := true, firstNode := firstDirEntry } := by
  obtain ⟨t, run, added⟩ := tempfsAddentry_run name _ nonnull old linked count lastOld
  refine ⟨_, ?_, added.fill old fun i => { i with firstNode := firstDirEntry }⟩
  unfold tempfsMkdirNonlinear
  rw [bind_eq run, setInode_run (Nat.succ_ne_zero _)]

theorem tempfsMkfile_run :
    ∃ t, tempfsMkfile d name s = .ok (⟨⟩, t) ∧ Added s t d last { filename := name } := by
  obtain ⟨t, run, added⟩ := tempfsAddentry_run name _ nonnull old linked count lastOld
  refine ⟨t, ?_, added⟩
  unfold tempfsMkfile
  rw [bind_eq run]
  rfl

theorem tempfsCreateDevice_run (operations : DeviceOps) :
    ∃ t, tempfsCreateDevice d name operations s = .ok (⟨⟩, t) ∧
      Added s t d last { filename := name, type := filetypeDevice, operations := operations } := by
  obtain ⟨t, run, added⟩ := tempfsAddentry_run name _ nonnull old linked count lastOld
  refine ⟨_, ?_, added.fill old fun i => { i with type := filetypeDevice, operations := operations }⟩
  unfold tempfsCreateDevice
  rw [bind_eq run, setInode_run (Nat.succ_ne_zero _)]

end adding

/-! ### Making a directory -/

/-- What `makeDot` changes for the new directory `n`. -/
structure Dotted (s t : TempFs) (n : Nat) : Prop where
  used : t.used = s.used + 2
  dir : t.inodes n = { s.inodes n with firstNode := s.used + 1 }
  inode : t.inodes (s.used + 2) = { filename := dot, isDir := true, firstNode := s.used + 1, numEntries := 2 }
  inodes : ∀ a, a ≠ n → a ≠ s.used + 2 → t.inodes a = s.inodes a
  entry : t.dirEntries (s.used + 1) = { isDir := true, inode := s.used + 2 }
  dirEntries : ∀ e, e ≠ s.used + 1 → t.dirEntries e = s.dirEntries e
  fileNodes : t.fileNodes = s.fileNodes

theorem makeDot_run {n : Nat} (nonnull : n ≠ 0) (old : n ≤ s.used) :
    ∃ t, makeDot n s = .ok (s.used + 1, t) ∧ Dotted s t n := by
  unfold makeDot
  rw [bind_eq mallocDirEntry_run, bind_eq (setInode_run nonnull), bind_eq mallocInode_run,
    bind_eq (setDirEntry_run (Nat.succ_ne_zero _)), bind_eq (setInode_run (Nat.succ_ne_zero _))]
  refine ⟨_, rfl, ?_⟩
  have apart : n ≠ s.used + 1 + 1 := by omega
  exact {
    used := rfl
    dir := by simp [Function.update_of_ne apart]
    inode := by simp
    inodes := fun a notDir notNew => by
      simp [Function.update_of_ne notDir, Function.update_of_ne (show a ≠ s.used + 1 + 1 from notNew)]
    entry := by simp
    dirEntries := fun e notNew => by simp [Function.update_of_ne notNew]
    fileNodes := rfl }

/-- The objects of the new directory `n`, whose `..` leads to the chain from `parent`:
the two entries are `base + 1` and `base + 4`, their inodes `base + 2` and `base + 3`. -/
structure Furnished (s t : TempFs) (n base parent : Nat) : Prop where
  used : t.used = base + 4
  inodes : ∀ a, a ≠ n → a ≠ base + 2 → a ≠ base + 3 → t.inodes a = s.inodes a
  dir : t.inodes n = { s.inodes n with firstNode := base + 1, numEntries := 1 }
  dotInode : t.inodes (base + 2) = { filename := dot, isDir := true, firstNode := base + 1, numEntries := 2 }
  dotDotInode : t.inodes (base + 3) = { filename := dotDot, isDir := true, firstNode := parent }
  dotEntry : t.dirEntries (base + 1) = { isDir := true, inode := base + 2, nextNode := base + 4 }
  dotDotEntry : t.dirEntries (base + 4) = { inode := base + 3 }
  dirEntries : ∀ e, e ≠ base + 1 → e ≠ base + 4 → t.dirEntries e = s.dirEntries e
  fileNodes : t.fileNodes = s.fileNodes

theorem furnish_run {n : Nat} (parent : Nat) (nonnull : n ≠ 0) (old : n ≤ s.used) (new : (s.inodes n).numEntries = 0)
    (dotted : Dotted s t n) :
    ∃ u, tempfsMkdirNonlinear n dotDot parent t = .ok (⟨⟩, u) ∧ Furnished s u n s.used parent := by
  have entries : (t.inodes n).numEntries = 0 := by rw [dotted.dir]; exact new
  have linked : Linked t.nextEntry (t.inodes n).firstNode ([] ++ [s.used + 1]) := by
    rw [dotted.dir]
    refine ⟨rfl, Nat.succ_ne_zero _, ?_⟩
    change (t.dirEntries (s.used + 1)).nextNode = 0
    rw [dotted.entry]
  have below : ∀ e ∈ [] ++ [s.used + 1], e ≤ t.used := by
    have used := dotted.used
    simp only [List.nil_append, List.mem_singleton, forall_eq]
    omega
  have used := dotted.used
  obtain ⟨u, run, added⟩ := tempfsMkdirNonlinear_run dotDot nonnull (by omega) linked entries below parent
  have more := added.used
  refine ⟨u, run, ?_⟩
  exact {
    used := by omega
    inodes := fun a notDir notDot notDotDot => by
      rw [added.inodes a notDir (by omega), dotted.inodes a notDir notDot]
    dir := by
      rw [added.dir, dotted.dir]
      simp only [new]
    dotInode := by rw [added.inodes _ (by omega) (by omega), dotted.inode]
    dotDotInode := by
      rw [show s.used + 3 = t.used + 1 by omega, added.inode]
    dotEntry := by
      rw [added.link, dotted.entry, show t.used + 2 = s.used + 4 by omega]
    dotDotEntry := by
      rw [show s.used + 4 = t.used + 2 by omega, added.entry, show t.used + 1 = s.used + 3 by omega]
    dirEntries := fun e notDot notDotDot => by
      rw [added.dirEntries e notDot (by omega), dotted.dirEntries e notDot]
    fileNodes := added.fileNodes.trans dotted.fileNodes }

/-- The store with the root inode of a new file system. -/
def withRoot (s : TempFs) (isDir : Bool) : TempFs :=
  { s with inodes := Function.update s.inodes (s.used + 1) { isDir := isDir }, used := s.used + 1 }

theorem withRoot_root (s : TempFs) (isDir : Bool) :
    (withRoot s isDir).inodes (s.used + 1) = { isDir := isDir } := Function.update_self ..

theorem withRoot_other (s : TempFs) (isDir : Bool) {a : Nat} (other : a ≠ s.used + 1) :
    (withRoot s isDir).inodes a = s.inodes a := Function.update_of_ne other ..

theorem tempfsNew_run (s : TempFs) : ∃ t, tempfsNew s = .ok (s.used + 1, t) ∧
    Furnished (withRoot s true) t (s.used + 1) (s.used + 1) (s.used + 2) := by
  have nonnull : s.used + 1 ≠ 0 := Nat.succ_ne_zero _
  have start : mallocInode s = .ok (s.used + 1, withRoot s false) := rfl
  have new : ((withRoot s false).inodes (s.used + 1)).numEntries = 0 := by rw [withRoot_root]
  obtain ⟨v, dotRun, dotted⟩ := makeDot_run (s := withRoot s false) nonnull le_rfl
  obtain ⟨u, run, furnished⟩ := furnish_run (s.used + 2) nonnull le_rfl new dotted
  let rootNode : Inode := { u.inodes (s.used + 1) with isDir := true }
  have kept : ∀ a, a ≠ s.used + 1 → Function.update u.inodes (s.used + 1) rootNode a = u.inodes a :=
    fun a other => Function.update_of_ne other ..
  refine ⟨{ u with inodes := Function.update u.inodes (s.used + 1) rootNode }, ?_, ?_⟩
  · unfold tempfsNew
    rw [bind_eq start, bind_eq dotRun]
    have run' : tempfsMkdirNonlinear (s.used + 1) dotDot ((withRoot s false).used + 1) v = .ok (⟨⟩, u) := run
    rw [bind_eq run', bind_eq (setInode_run nonnull)]
    rfl
  · exact {
      used := furnished.used
      inodes := fun a other notDot notDotDot => by
        rw [withRoot_other s true other, ← withRoot_other s false other,
          ← furnished.inodes a other notDot notDotDot]
        exact kept a other
      dir := by
        rw [withRoot_root]
        dsimp only [rootNode]
        rw [Function.update_self, furnished.dir, withRoot_root]
        rfl
      dotInode := (kept _ (by omega)).trans furnished.dotInode
      dotDotInode := (kept _ (by omega)).trans furnished.dotDotInode
      dotEntry := furnished.dotEntry
      dotDotEntry := furnished.dotDotEntry
      dirEntries := furnished.dirEntries
      fileNodes := furnished.fileNodes }

theorem tempfsMkdir_run (name : Name) (nonnull : d ≠ 0) (old : d ≤ s.used)
    (linked : Linked s.nextEntry (s.inodes d).firstNode (front ++ last :: lost))
    (count : (s.inodes d).numEntries = front.length) (lastOld : ∀ e ∈ front ++ last :: lost, e ≤ s.used) :
    ∃ u, tempfsMkdir d name s = .ok (⟨⟩, u) ∧
      ∃ t, Added s t d last { filename := name, isDir := true } ∧
        Furnished t u (s.used + 1) t.used (s.inodes d).firstNode := by
  obtain ⟨t, run, added⟩ := tempfsAddentry_run name true nonnull old linked count lastOld
  have used := added.used
  obtain ⟨v, dotRun, dotted⟩ := makeDot_run (s := t) (n := s.used + 1) (Nat.succ_ne_zero _) (by omega)
  have new : (t.inodes (s.used + 1)).numEntries = 0 := by rw [added.inode]
  obtain ⟨u, runs, furnished⟩ := furnish_run (s.inodes d).firstNode (Nat.succ_ne_zero _) (by omega) new dotted
  have parent : (v.inodes d).firstNode = (s.inodes d).firstNode := by
    rw [dotted.inodes d (by omega) (by omega), added.dir]
  refine ⟨u, ?_, t, added, furnished⟩
  unfold tempfsMkdir
  rw [bind_eq run, bind_eq dotRun, bind_eq (inode_run nonnull), parent]
  exact runs

/-! ### Finding an entry -/

theorem findEntry_run {name : Name} {rounds : Nat} (linked : Linked s.nextEntry a chain)
    (inodes : ∀ e ∈ chain, s.entryInode e ≠ 0) (enough : chain.length < rounds) :
    findEntry name rounds a s =
      .ok (((chain.find? fun e => s.entryName e = name).map s.entryInode).getD 0, s) := by
  induction chain generalizing a rounds with
  | nil =>
    obtain rfl : a = 0 := linked
    obtain ⟨rounds, rfl⟩ := Nat.exists_eq_succ_of_ne_zero (show rounds ≠ 0 by omega)
    rfl
  | cons e chain ih =>
    obtain ⟨rfl, nonnull, tail⟩ := linked
    obtain ⟨rounds, rfl⟩ := Nat.exists_eq_succ_of_ne_zero (show rounds ≠ 0 by omega)
    have inodeNonnull : (s.dirEntries a).inode ≠ 0 := inodes a (List.mem_cons_self ..)
    rw [findEntry, if_neg nonnull, bind_eq (dirEntry_run nonnull), bind_eq (inode_run inodeNonnull), List.find?_cons]
    by_cases found : s.entryName a = name
    · have found' : (s.inodes (s.dirEntries a).inode).filename = name := found
      rw [if_pos found', decide_eq_true found]
      rfl
    · have found' : ¬ (s.inodes (s.dirEntries a).inode).filename = name := found
      rw [if_neg found', decide_eq_false found]
      exact ih tail (fun e inside => inodes e (List.mem_cons_of_mem a inside)) (by
        rw [List.length_cons] at enough
        omega)

theorem length_le_of_nodup {l : List Nat} {n : Nat} (distinct : l.Nodup) (bounds : ∀ e ∈ l, e ≠ 0 ∧ e ≤ n) :
    l.length ≤ n := by
  have within : l.toFinset ⊆ Finset.Icc 1 n := by
    intro e inside
    obtain ⟨nonnull, below⟩ := bounds e (List.mem_toFinset.mp inside)
    exact Finset.mem_Icc.mpr ⟨Nat.pos_of_ne_zero nonnull, below⟩
  have card := Finset.card_le_card within
  rw [List.toFinset_card_of_nodup distinct, Nat.card_Icc] at card
  omega

theorem tempfsFind_run {name : Name} (nonnull : d ≠ 0) (linked : Linked s.nextEntry (s.inodes d).firstNode chain)
    (nonempty : chain ≠ []) (old : ∀ e ∈ chain, e ≤ s.used) (inodes : ∀ e ∈ chain, s.entryInode e ≠ 0) :
    tempfsFind d name s = .ok (((chain.find? fun e => s.entryName e = name).map s.entryInode).getD 0, s) := by
  have first : (s.inodes d).firstNode ≠ 0 := by
    obtain ⟨e, rest, rfl⟩ := List.exists_cons_of_ne_nil nonempty
    rw [linked.1]
    exact linked.2.1
  have short : chain.length ≤ s.used :=
    length_le_of_nodup linked.nodup fun e inside => ⟨linked.nonnull e inside, old e inside⟩
  unfold tempfsFind
  rw [bind_eq (inode_run nonnull), bind_eq (dirEntry_run first), bind_eq run_get]
  exact findEntry_run linked inodes (by omega)

end PotatOS.Fs
