import PotatOS.Fs.TempFs
import PotatOS.Lib.Regions

/-!
# What a call of TempFS reaches

Each call, started inside a region of objects, stays in it and in what it
allocates; the calls that only read depend on nothing else.
-/

namespace PotatOS.Fs

open Prog Memory Regions

def objects : Store TempFs where
  used := TempFs.used
  Points s a b := b = (s.inodes a).firstNode ∨ b = (s.dirEntries a).inode ∨ b = (s.dirEntries a).nextNode ∨
    b = (s.fileNodes a).nextNode
  Same a s t := s.inodes a = t.inodes a ∧ s.dirEntries a = t.dirEntries a ∧ s.fileNodes a = t.fileNodes a
  Rest _ _ := True
  same_refl _ _ := ⟨rfl, rfl, rfl⟩
  same_trans first second := ⟨first.1.trans second.1, first.2.1.trans second.2.1, first.2.2.trans second.2.2⟩
  rest_refl _ := trivial
  rest_trans _ _ := trivial
  points same reaches := by
    obtain ⟨inodes, entries, nodes⟩ := same
    rwa [inodes, entries, nodes]

variable {own : Nat → Prop} {s : TempFs} {a b n d : Nat} {name : Name}

/-! ### Objects -/

theorem inode_steady (region : Region objects s own) (within : Within own a) :
    Steady objects own s (inode a) fun i => own a ∧ Within own i.firstNode := by
  intro r t run
  by_cases null : a = 0
  · subst null
    cases run
  · rw [inode_run null] at run
    obtain ⟨rfl, rfl⟩ := Prod.mk.inj (Except.ok.inj run)
    have mine := within null
    refine ⟨rfl, ⟨mine, region.closed a _ mine (.inl rfl)⟩, fun u agrees => ?_⟩
    rw [inode_run null, (agrees.same a mine).1]

theorem dirEntry_steady (region : Region objects s own) (within : Within own a) :
    Steady objects own s (dirEntry a) fun e => own a ∧ Within own e.inode ∧ Within own e.nextNode := by
  intro r t run
  by_cases null : a = 0
  · subst null
    cases run
  · rw [dirEntry_run null] at run
    obtain ⟨rfl, rfl⟩ := Prod.mk.inj (Except.ok.inj run)
    have mine := within null
    refine ⟨rfl, ⟨mine, region.closed a _ mine (.inr (.inl rfl)), region.closed a _ mine (.inr (.inr (.inl rfl)))⟩,
      fun u agrees => ?_⟩
    rw [dirEntry_run null, (agrees.same a mine).2.1]

theorem fileNode_steady (region : Region objects s own) (within : Within own a) :
    Steady objects own s (fileNode a) fun f => own a ∧ Within own f.nextNode := by
  intro r t run
  by_cases null : a = 0
  · subst null
    cases run
  · rw [fileNode_run null] at run
    obtain ⟨rfl, rfl⟩ := Prod.mk.inj (Except.ok.inj run)
    have mine := within null
    refine ⟨rfl, ⟨mine, region.closed a _ mine (.inr (.inr (.inr rfl)))⟩, fun u agrees => ?_⟩
    rw [fileNode_run null, (agrees.same a mine).2.2]

theorem setInode_confined {f : Inode → Inode} (region : Region objects s own) (within : Within own a)
    (keeps : ∀ i : Inode, Within own i.firstNode → Within own (f i).firstNode) :
    Confined objects own s (setInode a f) fun _ own' => own' = own := by
  intro r t run
  by_cases null : a = 0
  · subst null
    cases run
  · rw [setInode_run null] at run
    obtain ⟨-, rfl⟩ := Prod.mk.inj (Except.ok.inj run)
    have mine := within null
    refine ⟨own, .store region mine (Nat.le_refl _) (fun b other => ?_) (fun b reaches => ?_) trivial, rfl⟩
    · exact ⟨(Function.update_of_ne other ..).symm, rfl, rfl⟩
    · rcases reaches with first | later
      · rw [first]
        simp only [Function.update_self]
        exact keeps _ (region.closed a _ mine (.inl rfl))
      · exact region.closed a b mine (.inr later)

theorem setDirEntry_confined {f : DirEntryNode → DirEntryNode} (region : Region objects s own) (within : Within own a)
    (keeps : ∀ e : DirEntryNode, Within own e.inode → Within own e.nextNode →
      Within own (f e).inode ∧ Within own (f e).nextNode) :
    Confined objects own s (setDirEntry a f) fun _ own' => own' = own := by
  intro r t run
  by_cases null : a = 0
  · subst null
    cases run
  · rw [setDirEntry_run null] at run
    obtain ⟨-, rfl⟩ := Prod.mk.inj (Except.ok.inj run)
    have mine := within null
    have kept := keeps (s.dirEntries a) (region.closed a _ mine (.inr (.inl rfl)))
      (region.closed a _ mine (.inr (.inr (.inl rfl))))
    refine ⟨own, .store region mine (Nat.le_refl _) (fun b other => ?_) (fun b reaches => ?_) trivial, rfl⟩
    · exact ⟨rfl, (Function.update_of_ne other ..).symm, rfl⟩
    · rcases reaches with first | inner | next | last
      · exact region.closed a b mine (.inl first)
      · rw [inner]
        simp only [Function.update_self]
        exact kept.1
      · rw [next]
        simp only [Function.update_self]
        exact kept.2
      · exact region.closed a b mine (.inr (.inr (.inr last)))

theorem setFileNode_confined {f : FileNode → FileNode} (region : Region objects s own) (within : Within own a)
    (keeps : ∀ i : FileNode, Within own i.nextNode → Within own (f i).nextNode) :
    Confined objects own s (setFileNode a f) fun _ own' => own' = own := by
  intro r t run
  by_cases null : a = 0
  · subst null
    cases run
  · rw [setFileNode_run null] at run
    obtain ⟨-, rfl⟩ := Prod.mk.inj (Except.ok.inj run)
    have mine := within null
    refine ⟨own, .store region mine (Nat.le_refl _) (fun b other => ?_) (fun b reaches => ?_) trivial, rfl⟩
    · exact ⟨rfl, rfl, (Function.update_of_ne other ..).symm⟩
    · rcases reaches with first | inner | next | last
      · exact region.closed a b mine (.inl first)
      · exact region.closed a b mine (.inr (.inl inner))
      · exact region.closed a b mine (.inr (.inr (.inl next)))
      · rw [last]
        simp only [Function.update_self]
        exact keeps _ (region.closed a _ mine (.inr (.inr (.inr rfl))))

theorem mallocInode_confined (region : Region objects s own) :
    Confined objects own s mallocInode fun r own' => own' r := by
  intro r t run
  rw [mallocInode_run] at run
  obtain ⟨rfl, rfl⟩ := Prod.mk.inj (Except.ok.inj run)
  refine ⟨_, .alloc region rfl (fun b other => ⟨(Function.update_of_ne other ..).symm, rfl, rfl⟩) (fun b reaches => ?_)
    trivial, .inr rfl⟩
  rcases reaches with first | later
  · rw [first]
    exact congrArg Inode.firstNode (Function.update_self (s.used + 1) ({} : Inode) s.inodes)
  · exact region.fresh _ b (Nat.lt_succ_self _) (.inr later)

theorem mallocDirEntry_confined (region : Region objects s own) :
    Confined objects own s mallocDirEntry fun r own' => own' r := by
  intro r t run
  rw [mallocDirEntry_run] at run
  obtain ⟨rfl, rfl⟩ := Prod.mk.inj (Except.ok.inj run)
  refine ⟨_, .alloc region rfl (fun b other => ⟨rfl, (Function.update_of_ne other ..).symm, rfl⟩) (fun b reaches => ?_)
    trivial, .inr rfl⟩
  rcases reaches with first | inner | next | last
  · exact region.fresh _ b (Nat.lt_succ_self _) (.inl first)
  · rw [inner]
    exact congrArg DirEntryNode.inode (Function.update_self (s.used + 1) ({} : DirEntryNode) s.dirEntries)
  · rw [next]
    exact congrArg DirEntryNode.nextNode (Function.update_self (s.used + 1) ({} : DirEntryNode) s.dirEntries)
  · exact region.fresh _ b (Nat.lt_succ_self _) (.inr (.inr (.inr last)))

theorem mallocFileNode_confined (region : Region objects s own) :
    Confined objects own s mallocFileNode fun r own' => own' r := by
  intro r t run
  rw [mallocFileNode_run] at run
  obtain ⟨rfl, rfl⟩ := Prod.mk.inj (Except.ok.inj run)
  refine ⟨_, .alloc region rfl (fun b other => ⟨rfl, rfl, (Function.update_of_ne other ..).symm⟩) (fun b reaches => ?_)
    trivial, .inr rfl⟩
  rcases reaches with first | inner | next | last
  · exact region.fresh _ b (Nat.lt_succ_self _) (.inl first)
  · exact region.fresh _ b (Nat.lt_succ_self _) (.inr (.inl inner))
  · exact region.fresh _ b (Nat.lt_succ_self _) (.inr (.inr (.inl next)))
  · rw [last]
    exact congrArg FileNode.nextNode (Function.update_self (s.used + 1) ({} : FileNode) s.fileNodes)

/-! ### Directories -/

theorem entryAt_steady (region : Region objects s own) (within : Within own a) :
    Steady objects own s (entryAt n a) (Within own) := by
  induction n generalizing a with
  | zero => exact .pure within
  | succ n ih => exact (dirEntry_steady region within).bind fun e inside => ih inside.2.2

theorem tempfsAddentry_confined {isDir : Bool} (region : Region objects s own) (within : Within own d) :
    Confined objects own s (tempfsAddentry d name isDir) fun r own' => own' r := by
  unfold tempfsAddentry
  refine ((inode_steady region within).confined region).bind fun dir own₁ s₁ g₁ ⟨⟨mine, first⟩, same₁⟩ => ?_
  subst same₁
  refine (mallocInode_confined g₁.region).bind fun inodeNew own₂ s₂ g₂ new => ?_
  refine (mallocDirEntry_confined g₂.region).bind fun newEntry own₃ s₃ g₃ entry => ?_
  have wide := (g₂.trans g₃).keeps
  have rest : ∀ t, Region objects t own₃ → Confined objects own₃ t (do
      setInode inodeNew fun i => { i with filename := name, isDir := isDir }
      setDirEntry newEntry fun e => { e with inode := inodeNew }
      setInode d fun i => { i with numEntries := i.numEntries + 1 }
      return inodeNew) fun r own' => own' r := by
    intro t region
    refine .bind (setInode_confined region (fun _ => g₃.keeps _ new) fun _ keep => keep) fun _ own₄ s₄ g₄ same => ?_
    subst same
    refine .bind (setDirEntry_confined g₄.region (fun _ => entry) fun _ _ next => ⟨fun _ => g₃.keeps _ new, next⟩)
      fun _ own₅ s₅ g₅ same => ?_
    subst same
    refine .bind (setInode_confined g₅.region (fun _ => wide _ mine) fun _ keep => keep) fun _ own₆ s₆ g₆ same => ?_
    subst same
    exact .pure g₆.region (g₃.keeps _ new)
  by_cases some : dir.firstNode ≠ 0
  · rw [if_pos some]
    refine ((entryAt_steady g₃.region (first.mono wide)).confined g₃.region).bind fun last own₄ s₄ g₄ ⟨inside, same⟩ => ?_
    subst same
    refine .bind (setDirEntry_confined g₄.region inside fun _ inner _ => ⟨inner, fun _ => entry⟩) fun _ own₅ s₅ g₅ same => ?_
    subst same
    exact rest _ g₅.region
  · rw [if_neg some]
    refine .bind (setInode_confined g₃.region (fun _ => wide _ mine) fun _ _ _ => entry) fun _ own₄ s₄ g₄ same => ?_
    subst same
    exact rest _ g₄.region

theorem tempfsMkdirNonlinear_confined (region : Region objects s own) (within : Within own d) (first : Within own a) :
    Confined objects own s (tempfsMkdirNonlinear d name a) fun _ _ => True := by
  refine (tempfsAddentry_confined region within).bind fun r own₁ s₁ g₁ mine => ?_
  exact .imp (setInode_confined g₁.region (fun _ => mine) fun _ _ => first.mono g₁.keeps) fun _ _ _ => trivial

theorem makeDot_confined (region : Region objects s own) (mine : own d) :
    Confined objects own s (makeDot d) fun r own' => own' r := by
  refine (mallocDirEntry_confined region).bind fun entry own₁ s₁ g₁ new => ?_
  refine .bind (setInode_confined g₁.region (fun _ => g₁.keeps _ mine) fun _ _ _ => new) fun _ own₂ s₂ g₂ same => ?_
  subst same
  refine (mallocInode_confined g₂.region).bind fun firstInode own₃ s₃ g₃ inner => ?_
  have kept := g₃.keeps _ new
  refine .bind (setDirEntry_confined g₃.region (fun _ => kept) fun _ _ next => ⟨fun _ => inner, next⟩)
    fun _ own₄ s₄ g₄ same => ?_
  subst same
  refine .bind (setInode_confined g₄.region (fun _ => inner) fun _ _ _ => kept) fun _ own₅ s₅ g₅ same => ?_
  subst same
  exact .pure g₅.region kept

theorem tempfsNew_confined (region : Region objects s own) : Confined objects own s tempfsNew fun r own' => own' r := by
  refine (mallocInode_confined region).bind fun root own₁ s₁ g₁ mine => ?_
  refine (makeDot_confined g₁.region mine).bind fun entry own₂ s₂ g₂ inner => ?_
  refine (tempfsMkdirNonlinear_confined g₂.region (fun _ => g₂.keeps _ mine) fun _ => inner).bind fun _ own₃ s₃ g₃ _ => ?_
  have kept := g₃.keeps _ (g₂.keeps _ mine)
  refine .bind (setInode_confined g₃.region (fun _ => kept) fun _ keep => keep) fun _ own₄ s₄ g₄ same => ?_
  subst same
  exact .pure g₄.region kept

theorem tempfsMkdir_confined (region : Region objects s own) (within : Within own d) :
    Confined objects own s (tempfsMkdir d name) fun _ _ => True := by
  refine (tempfsAddentry_confined region within).bind fun newInode own₁ s₁ g₁ mine => ?_
  refine (makeDot_confined g₁.region mine).bind fun _ own₂ s₂ g₂ _ => ?_
  have parent := within.mono (g₁.trans g₂).keeps
  refine ((inode_steady g₂.region parent).confined g₂.region).bind fun i own₃ s₃ g₃ ⟨⟨_, first⟩, same⟩ => ?_
  subst same
  exact tempfsMkdirNonlinear_confined g₃.region (fun _ => g₂.keeps _ mine) first

theorem tempfsMkfile_confined (region : Region objects s own) (within : Within own d) :
    Confined objects own s (tempfsMkfile d name) fun _ _ => True :=
  (tempfsAddentry_confined region within).bind fun _ _ _ g₁ _ => .pure g₁.region trivial

theorem tempfsCreateDevice_confined {operations : DeviceOps} (region : Region objects s own) (within : Within own d) :
    Confined objects own s (tempfsCreateDevice d name operations) fun _ _ => True := by
  refine (tempfsAddentry_confined region within).bind fun newDevice own₁ s₁ g₁ mine => ?_
  exact .imp (setInode_confined g₁.region (fun _ => mine) fun _ keep => keep) fun _ _ _ => trivial

/-- More rounds than are needed change nothing. -/
theorem findEntry_steady {t : TempFs} (region : Region objects s own) (within : Within own a)
    (run : findEntry name n a s = .ok (b, t)) :
    t = s ∧ Within own b ∧ ∀ u m, Regions.Agrees objects own s u → n ≤ m → findEntry name m a u = .ok (b, u) := by
  induction n generalizing a with
  | zero => exact (stop_ok run).elim
  | succ n ih =>
    unfold findEntry at run
    by_cases null : a = 0
    · rw [if_pos null] at run
      obtain ⟨rfl, rfl⟩ := pure_ok run
      refine ⟨rfl, within_null, fun u m _ more => ?_⟩
      obtain ⟨m, rfl⟩ := Nat.exists_eq_add_of_le' (Nat.lt_of_lt_of_le (Nat.succ_pos n) more)
      unfold findEntry
      rw [if_pos null]
      rfl
    rw [if_neg null] at run
    obtain ⟨entry, s₁, reads, run₁⟩ := bind_ok run
    obtain ⟨rfl, ⟨_, inner, next⟩, again₁⟩ := dirEntry_steady region within _ _ reads
    obtain ⟨i, s₂, names, run₂⟩ := bind_ok run₁
    obtain ⟨rfl, _, again₂⟩ := inode_steady region inner _ _ names
    have onward : ∀ u m, Regions.Agrees objects own s₂ u → n + 1 ≤ m → ∃ m', n ≤ m' ∧ findEntry name m a u =
        (if i.filename = name then return entry.inode else findEntry name m' entry.nextNode) u := by
      intro u m agrees more
      obtain ⟨m, rfl⟩ := Nat.exists_eq_add_of_le' (Nat.lt_of_lt_of_le (Nat.succ_pos n) more)
      refine ⟨m, by omega, ?_⟩
      rw [findEntry, if_neg null, bind_eq (again₁ u agrees), bind_eq (again₂ u agrees)]
    split at run₂
    next found =>
      obtain ⟨rfl, rfl⟩ := pure_ok run₂
      refine ⟨rfl, inner, fun u m agrees more => ?_⟩
      obtain ⟨m', _, step⟩ := onward u m agrees more
      rw [step, if_pos found]
      rfl
    next other =>
      obtain ⟨rfl, reached, again⟩ := ih next run₂
      refine ⟨rfl, reached, fun u m agrees more => ?_⟩
      obtain ⟨m', enough, step⟩ := onward u m agrees more
      rw [step, if_neg other]
      exact again u m' agrees enough

theorem tempfsFind_steady (region : Region objects s own) (within : Within own d) :
    Steady objects own s (tempfsFind d name) (Within own) := by
  intro r t run
  unfold tempfsFind at run
  obtain ⟨dir, s₁, reads, run₁⟩ := bind_ok run
  obtain ⟨rfl, ⟨_, first⟩, again₁⟩ := inode_steady region within _ _ reads
  obtain ⟨_, s₂, enters, run₂⟩ := bind_ok run₁
  obtain ⟨rfl, _, again₂⟩ := dirEntry_steady region first _ _ enters
  rw [bind_eq run_get] at run₂
  obtain ⟨rfl, reached, again⟩ := findEntry_steady region first run₂
  refine ⟨rfl, reached, fun u agrees => ?_⟩
  unfold tempfsFind
  rw [bind_eq (again₁ u agrees), bind_eq (again₂ u agrees), bind_eq run_get]
  exact again u _ agrees (Nat.succ_le_succ agrees.used)

theorem tempfsOpenDir_steady (region : Region objects s own) (within : Within own d) :
    Steady objects own s (tempfsOpenDir d) (Within own) := by
  refine (inode_steady region within).bind fun i _ => ?_
  split
  · exact .pure within
  · exact .pure within_null

/-! ### Files -/

theorem tempfsOpenFile_confined {mode : UInt8} (region : Region objects s own) (within : Within own a) :
    Confined objects own s (tempfsOpenFile a mode) fun r own' => Within own' r := by
  refine ((inode_steady region within).confined region).bind fun i own₁ s₁ g₁ ⟨⟨mine, _⟩, same⟩ => ?_
  subst same
  split
  next device =>
    split
    next => exact .stop
    next opens _ =>
      have opened : Confined objects own₁ s₁ (do
          modify fun s => { s with
            inodes := Function.update s.inodes a { s.inodes a with privateData := s.used + 1 }
            used := s.used + 1 }
          return a) fun r own' => Within own' r := by
        intro r t run
        obtain ⟨_, s₂, changes, run⟩ := bind_ok run
        obtain rfl := modify_ok changes
        obtain ⟨rfl, rfl⟩ := pure_ok run
        refine ⟨own₁, .store g₁.region mine (Nat.le_succ _) (fun b other => ?_) (fun b reaches => ?_) trivial, within⟩
        · exact ⟨(Function.update_of_ne other ..).symm, rfl, rfl⟩
        · rcases reaches with first | later
          · rw [first]
            simp only [Function.update_self]
            exact g₁.region.closed a _ mine (.inl rfl)
          · exact g₁.region.closed a b mine (.inr later)
      split
      · exact opened
      · exact .pure g₁.region within
  next =>
    split
    · exact .pure g₁.region within_null
    · exact .pure g₁.region within

theorem tempfsOpenFile_stable {mode : UInt8} (region : Region objects s own) (within : Within own a) :
    Stable objects own s (tempfsOpenFile a mode) := by
  refine .bind (inode_steady region within) fun i _ => ?_
  split
  next =>
    split
    next => exact .stop
    next opens _ =>
      split
      · intro r t run u _
        obtain ⟨_, s₂, changes, run⟩ := bind_ok run
        obtain ⟨rfl, rfl⟩ := pure_ok run
        exact ⟨_, rfl⟩
      · exact .pure
  next =>
    split
    · exact .pure
    · exact .pure

theorem tempfsClose_steady (region : Region objects s own) (within : Within own a) :
    Steady objects own s (tempfsClose a) fun _ => True := by
  refine (inode_steady region within).bind fun i _ => ?_
  split
  · exact .stop
  · exact .pure trivial

theorem tempfsLength_steady (region : Region objects s own) (within : Within own a) :
    Steady objects own s (tempfsLength a) fun _ => True :=
  (inode_steady region within).bind fun _ _ => .pure trivial

theorem readNodes_steady {maxLen i lenLeft : Nat} {buffer : Mem} (region : Region objects s own) (within : Within own a) :
    Steady objects own s (readNodes maxLen n i lenLeft a buffer) fun _ => True := by
  induction n generalizing i lenLeft a buffer with
  | zero =>
    unfold readNodes
    split
    · exact .stop
    · exact .pure trivial
  | succ n ih =>
    unfold readNodes
    split
    · exact (fileNode_steady region within).bind fun f inside => ih inside.2
    · exact .pure trivial

theorem tempfsRead_steady {buffer : Mem} {maxLen : Nat} (region : Region objects s own) (within : Within own a) :
    Steady objects own s (tempfsRead a buffer maxLen) fun _ => True := by
  refine (inode_steady region within).bind fun i inside => ?_
  split
  next =>
    split
    · exact .stop
    · exact .pure trivial
  next => exact (readNodes_steady region inside.2).bind fun _ _ => .pure trivial

theorem writeNodes_confined {data : Mem} {len i lenLeft : Nat} (region : Region objects s own) (within : Within own a) :
    Confined objects own s (writeNodes data len n i lenLeft a) fun _ _ => True := by
  induction n generalizing s own i lenLeft a with
  | zero =>
    unfold writeNodes
    split
    · exact .stop
    · exact .pure region trivial
  | succ n ih =>
    unfold writeNodes
    split
    next =>
      have rest : ∀ own' t, Region objects t own' → Within own' a → Confined objects own' t (do
          setFileNode a fun f => { f with data := copyBytes f.data 0 (fun x => data (i + x)) (amountToCopy lenLeft) }
          let next := (← fileNode a).nextNode
          writeNodes data len n (add64 i filenodeDataSize) (sub64 lenLeft filenodeDataSize) next) fun _ _ => True := by
        intro own' t region within
        refine .bind (setFileNode_confined region within fun _ keep => keep) fun _ own₁ s₁ g₁ same => ?_
        subst same
        refine ((fileNode_steady g₁.region within).confined g₁.region).bind fun f own₂ s₂ g₂ ⟨⟨_, next⟩, same⟩ => ?_
        subst same
        exact ih g₂.region next
      refine ((fileNode_steady region within).confined region).bind fun f own₁ s₁ g₁ ⟨⟨mine, _⟩, same⟩ => ?_
      subst same
      split
      · refine (mallocFileNode_confined g₁.region).bind fun next own₂ s₂ g₂ new => ?_
        refine .bind (setFileNode_confined g₂.region (fun _ => g₂.keeps _ mine) fun _ _ _ => new) fun _ own₃ s₃ g₃ same => ?_
        subst same
        exact rest _ _ g₃.region fun _ => g₂.keeps _ mine
      · exact rest _ _ g₁.region within
    next => exact .pure region trivial

theorem tempfsWrite_confined {data : Mem} {len : Nat} (region : Region objects s own) (within : Within own a) :
    Confined objects own s (tempfsWrite a data len) fun _ _ => True := by
  have rest : ∀ own' t, Region objects t own' → Within own' a → Confined objects own' t (do
      writeNodes data len (len / filenodeDataSize + 1) 0 len (← inode a).firstNode
      return 0) fun _ _ => True := by
    intro own' t region within
    refine ((inode_steady region within).confined region).bind fun i own₁ s₁ g₁ ⟨⟨_, first⟩, same⟩ => ?_
    subst same
    exact (writeNodes_confined g₁.region first).bind fun _ _ _ g₂ _ => .pure g₂.region trivial
  refine ((inode_steady region within).confined region).bind fun i own₁ s₁ g₁ ⟨⟨mine, _⟩, same⟩ => ?_
  subst same
  split
  next =>
    split
    · exact .stop
    · exact .pure g₁.region trivial
  next =>
    refine .bind (setInode_confined g₁.region within fun _ keep => keep) fun _ own₂ s₂ g₂ same => ?_
    subst same
    split
    · refine (mallocFileNode_confined g₂.region).bind fun first own₃ s₃ g₃ new => ?_
      refine .bind (setInode_confined g₃.region (fun _ => g₃.keeps _ mine) fun _ _ _ => new) fun _ own₄ s₄ g₄ same => ?_
      subst same
      exact rest _ _ g₄.region fun _ => g₃.keeps _ mine
    · exact rest _ _ g₂.region within

end PotatOS.Fs
