import PotatOS.Fs.FileData
import PotatOS.Fs.Leftovers

/-!
# The calls of TempFS keep `Shows`

Each function of `tempfs.c` runs beside its model in `Fs.TempFs`. `tempfs_addentry`
is taken in two parts, the walk to the last entry with the link, and the filling in
of the new objects; the entry of a new `.` gets its link from the `..` behind it.
-/

namespace PotatOS.Fs.Reused

open Memory

variable {h h' t : Heap} {s s' u : TempFs} {a e : Nat} {raw : List Object}

/-! ### Adding an entry -/

variable {d : Nat} {name : Name}

/-- The heap with more accesses noted. -/
def Heap.Noted (h t : Heap) : Prop := ∃ more, t = { h with followed := more ++ h.followed }

theorem Heap.Noted.note (h : Heap) (o : Object) : h.Noted (h.note o) := ⟨[o], rfl⟩

theorem Heap.Noted.trans (first : h.Noted h') (second : h'.Noted t) : h.Noted t := by
  obtain ⟨more, rfl⟩ := first
  obtain ⟨rest, rfl⟩ := second
  exact ⟨rest ++ more, by simp⟩

theorem Heap.Noted.kept (noted : h.Noted t) (s : TempFs) : Kept h s t s := by
  obtain ⟨more, rfl⟩ := noted
  exact ⟨fun _ made => made, fun _ _ named => named, fun _ _ _ same => same, fun _ _ _ => rfl⟩

theorem entryAt_coupled {n : Nat} (shows : Shows raw h s) (known : Known h.made .dirEntry e)
    (linked : n = 0 ∨ ∀ e, .dirEntry e ∉ raw) :
    Coupled (entryAt n e) h (Fs.entryAt n e) s
      (fun last t last' u => last = last' ∧ Known h.made .dirEntry last ∧ (n = 0 → last = e) ∧ h.Noted t ∧
        u = s ∧ Shows raw t s) FollowsOwn := by
  induction n generalizing h e with
  | zero => exact .pure ⟨rfl, known, fun _ => rfl, ⟨[], rfl⟩, rfl, shows⟩
  | succ n ih =>
    have settled : ∀ e, .dirEntry e ∉ raw := linked.resolve_left (Nat.succ_ne_zero n)
    apply Coupled.bind (dirEntry_coupled shows known)
    rintro _ _ _ s ⟨rfl, rfl, made, rfl, rfl, shows'⟩
    have same : SameDirEntry h s (h.dirEntries e) (s.dirEntries e) := shows.same _ made (settled e)
    rw [same.next]
    apply (ih shows' same.known (.inr settled)).weaken
    rintro last t last' u ⟨rfl, lastKnown, -, noted, rfl, shows'⟩
    have trail := (Heap.Noted.note h (.dirEntry e)).trans noted
    exact ⟨rfl, lastKnown, fun zero => absurd zero (Nat.succ_ne_zero n), trail, rfl, shows'⟩

/-- Both sides see the same chain of entries in the directory. -/
structure Walkable (h : Heap) (s : TempFs) (d : Nat) : Prop where
  made : .inode d ∈ h.made
  first : (h.inodes d).firstNode = (s.inodes d).firstNode
  count : (h.inodes d).numEntries = (s.inodes d).numEntries
  known : Known h.made .dirEntry (s.inodes d).firstNode

theorem Walkable.kept (walkable : Walkable h s d) (kept : Kept h s t u) (same : t.inodes d = h.inodes d)
    (same' : u.inodes d = s.inodes d) : Walkable t u d where
  made := kept.made _ walkable.made
  first := by rw [same, same', walkable.first]
  count := by rw [same, same', walkable.count]
  known := by
    rw [same']
    exact walkable.known.mono kept

theorem SameInode.zero : SameInode h s .zero {} where
  isDir := rfl
  firstNode := rfl
  directory notDir := absurd notDir Bool.false_ne_true
  file _ := ⟨rfl, rfl, rfl, .inl rfl, .done _, Nat.zero_le _⟩

theorem SameDirEntry.zero : SameDirEntry h s {} {} := ⟨⟨rfl, .inl rfl⟩, rfl, .inl rfl⟩

theorem named_zero : Named RawInode.zero.filename [] := by
  refine ⟨fun i below => ?_, List.not_mem_nil⟩
  simp [RawInode.zero, nameBytes]

theorem SameInode.counted {r : RawInode} {i : Inode} (same : SameInode h s r i)
    (count : r.numEntries = i.numEntries) :
    SameInode h s { r with numEntries := r.numEntries + 1 } { i with numEntries := i.numEntries + 1 } where
  isDir := same.isDir
  firstNode := same.firstNode
  directory dir := ⟨by rw [count], (same.directory dir).2⟩
  file := same.file

theorem Walkable.counted (walkable : Walkable h s d) :
    let counted : Inode := { s.inodes d with numEntries := (s.inodes d).numEntries + 1 }
    Walkable (h.putInode d { h.inodes d with numEntries := (h.inodes d).numEntries + 1 })
      { s with inodes := Function.update s.inodes d counted } d where
  made := walkable.made
  first := by simp [Heap.putInode, walkable.first]
  count := by simp [Heap.putInode, walkable.count]
  known := by simpa [Heap.putInode, Heap.note] using walkable.known

/-- The last part of `tempfs_addentry`: name the new inode, fill the entry and count it. -/
theorem fill_coupled {new newEntry : Nat} (isDir : Bool) (shows : Shows raw h s) (plain : 0 ∉ name)
    (walkable : Walkable h s d) (apart : d ≠ new) (madeNew : .inode new ∈ h.made)
    (madeEntry : .dirEntry newEntry ∈ h.made) (zero : h.inodes new = .zero)
    (zero' : s.inodes new = {}) :
    Coupled
      (do
        setInode new fun i =>
          { i with filename := copyBytes i.filename 0 (nameBytes name) name.length, isDir := isDir }
        setDirEntry newEntry fun e => { e with inode := new }
        setInode d fun i => { i with numEntries := i.numEntries + 1 }
        return new) h
      (do
        Fs.setInode new fun i => { i with filename := name, isDir := isDir }
        Fs.setDirEntry newEntry fun e => { e with inode := new }
        Fs.setInode d fun i => { i with numEntries := i.numEntries + 1 }
        return new) s
      (fun a t b u => a = new ∧ b = new ∧ Shows raw t u ∧ Kept h s t u ∧ Walkable t u d ∧
        u.inodes new = { filename := name, isDir := isDir }) FollowsOwn := by
  have named : Named (copyBytes (h.inodes new).filename 0 (nameBytes name) name.length) name := by
    rw [zero]
    exact named_copy plain
  apply Coupled.bind (setInode_coupled shows madeNew (fun _ => named) fun _ => ?_)
  · rintro _ t1 _ u1 ⟨eq1, eq1', shows1, kept1⟩
    apply Coupled.bind (setDirEntry_coupled shows1 (.inr (kept1.made _ madeEntry)) fun made settled => ?_)
    · rintro _ t2 _ u2 ⟨-, eq2, eq2', shows2, kept2⟩
      have walkable2 : Walkable t2 u2 d := by
        apply walkable.kept (kept1.trans kept2)
        · rw [eq2, eq1]
          exact Function.update_of_ne apart ..
        · rw [eq2', eq1']
          exact Function.update_of_ne apart ..
      apply Coupled.bind (setInode_coupled shows2 walkable2.made id fun settled => ?_)
      · rintro _ t _ u ⟨rfl, rfl, shows, kept⟩
        refine .pure ⟨rfl, rfl, shows, (kept1.trans kept2).trans kept, walkable2.counted, ?_⟩
        change Function.update u2.inodes d _ new = _
        rw [Function.update_of_ne apart.symm, eq2', eq1', zero']
        exact Function.update_self ..
      · exact (shows2.same _ walkable2.made settled).counted walkable2.count
    · have same : SameDirEntry t1 u1 (t1.dirEntries newEntry) (u1.dirEntries newEntry) := shows1.same _ made settled
      refine ⟨⟨rfl, .inr ⟨kept1.made _ madeNew, ?_⟩⟩, same.next, same.known⟩
      rw [eq1, eq1', zero']
      change Named (Function.update h.inodes new _ new).filename (Function.update s.inodes new _ new).filename
      rw [Function.update_self, Function.update_self]
      exact named
  · rw [zero, zero']
    exact ⟨rfl, rfl, fun _ => ⟨rfl, .inl rfl⟩, fun _ => ⟨rfl, rfl, rfl, .inl rfl, .done _, Nat.zero_le _⟩⟩

/-- A new inode and a new entry, both cleared. -/
def Heap.withEntry (h : Heap) : Heap :=
  (((h.alloc .inode).alloc .dirEntry).putDirEntry (h.used + 1 + 1) {}).putInode (h.used + 1) .zero

def storeWithEntry (s : TempFs) : TempFs :=
  { s with
    inodes := Function.update s.inodes (s.used + 1) {}
    dirEntries := Function.update s.dirEntries (s.used + 1 + 1) {}
    used := s.used + 1 + 1 }

theorem Shows.withEntry (shows : Shows raw h s) :
    Shows raw h.withEntry (storeWithEntry s) ∧ Kept h s h.withEntry (storeWithEntry s) := by
  have used := shows.used
  have inode := allocated_inode s
  have entry := allocated_dirEntry { s with inodes := Function.update s.inodes (s.used + 1) {}, used := s.used + 1 }
  have shows1 := shows.alloc inode .inode rfl
  have shows2 : Shows (.dirEntry (h.used + 1 + 1) :: .inode (h.used + 1) :: raw)
      ((h.alloc .inode).alloc .dirEntry) (storeWithEntry s) := shows1.alloc entry .dirEntry rfl
  have kept2 : Kept h s ((h.alloc .inode).alloc .dirEntry) (storeWithEntry s) :=
    (shows.kept_alloc inode .inode).trans (shows1.kept_alloc entry .dirEntry)
  have zeroEntry : (storeWithEntry s).dirEntries (h.used + 1 + 1) = {} := by
    rw [used]
    exact Function.update_self ..
  have zeroInode : (storeWithEntry s).inodes (h.used + 1) = {} := by
    rw [used]
    exact Function.update_self ..
  have madeEntry : .dirEntry (h.used + 1 + 1) ∈ ((h.alloc .inode).alloc .dirEntry).made := List.mem_cons_self ..
  have madeInode : .inode (h.used + 1) ∈ ((h.alloc .inode).alloc .dirEntry).made :=
    List.mem_cons_of_mem _ (List.mem_cons_self ..)
  have named : Named RawInode.zero.filename ((storeWithEntry s).inodes (h.used + 1)).filename := by
    rw [zeroInode]
    exact named_zero
  have shows3 := shows2.clearDirEntry (r := {}) madeEntry fun settled => absurd (List.mem_cons_self ..) settled
  have shows4 := shows3.settle fun _ => by
    change SameDirEntry _ _ (Function.update h.dirEntries (h.used + 1 + 1) {} (h.used + 1 + 1)) _
    rw [Function.update_self, zeroEntry]
    exact .zero
  have shows5 := shows4.clearInode (r := .zero) (fun _ => named) madeInode fun settled =>
    absurd (List.mem_cons_self ..) settled
  have shows6 := shows5.settle fun _ => by
    change SameInode _ _ (Function.update h.inodes (h.used + 1) .zero (h.used + 1)) _
    rw [Function.update_self, zeroInode]
    exact .zero
  exact ⟨shows6, (kept2.trans (.clearDirEntry _)).trans (.clearInode fun _ => named)⟩

/-- The entry at the end of the chain may still lack its link when the directory counts none behind it. -/
def Open (h : Heap) (s : TempFs) (d : Nat) (pending : List Object) : Prop :=
  pending = [] ∨ pending = [.dirEntry (s.inodes d).firstNode] ∧ (s.inodes d).numEntries = 0 ∧
    Entered h s (h.dirEntries (s.inodes d).firstNode) (s.dirEntries (s.inodes d).firstNode)

theorem addentry_coupled {roots : List Object} (pending : List Object) (isDir : Bool) (shows : Shows (pending ++ roots) h s)
    (walkable : Walkable h s d) (plain : 0 ∉ name) (dir : .inode d ∉ roots → (s.inodes d).isDir = true)
    (ends : Open h s d pending) (settled : ∀ e, .dirEntry e ∉ roots) :
    Coupled (tempfsAddentry d name isDir) h (Fs.tempfsAddentry d name isDir) s
      (fun new t new' u => new = new' ∧ new = h.used + 1 ∧ Shows roots t u ∧ Kept h s t u ∧ Walkable t u d ∧
        .inode new ∈ t.made ∧ u.inodes new = { filename := name, isDir := isDir }) FollowsOwn := by
  have below : d ≤ h.used := (shows.made _ walkable.made).2
  have apart : d ≠ h.used + 1 := by omega
  unfold tempfsAddentry Fs.tempfsAddentry
  apply Coupled.bind (inode_coupled shows (.inr walkable.made))
  rintro _ _ _ s ⟨rfl, rfl, -, rfl, rfl, shows1⟩
  apply Coupled.left (malloc_run .inode)
  apply Coupled.right mallocInode_run
  apply Coupled.left (malloc_run .dirEntry)
  apply Coupled.right mallocDirEntry_run
  apply Coupled.left (setDirEntry_run (Nat.succ_ne_zero _))
  apply Coupled.left (setInode_run (Nat.succ_ne_zero _))
  obtain ⟨shows2, kept2⟩ := shows1.withEntry
  have kept2 : Kept h s (h.note (.inode d)).withEntry (storeWithEntry s) := (Kept.note ..).trans kept2
  have madeNew : .inode (h.used + 1) ∈ (h.note (.inode d)).withEntry.made :=
    List.mem_cons_of_mem _ (List.mem_cons_self ..)
  have madeEntry : .dirEntry (h.used + 1 + 1) ∈ (h.note (.inode d)).withEntry.made := List.mem_cons_self ..
  change Coupled _ (h.note (.inode d)).withEntry _ (storeWithEntry s) _ _
  dsimp only
  rw [walkable.first, walkable.count, ← shows.used]
  have zero : (h.note (.inode d)).withEntry.inodes (h.used + 1) = .zero := Function.update_self ..
  have zero' : (storeWithEntry s).inodes (h.used + 1) = {} := shows.used ▸ Function.update_self ..
  have same : (h.note (.inode d)).withEntry.inodes d = h.inodes d := Function.update_of_ne apart ..
  have same' : (storeWithEntry s).inodes d = s.inodes d := Function.update_of_ne (shows.used ▸ apart) ..
  by_cases linked : (s.inodes d).firstNode ≠ 0
  · simp only [if_pos linked]
    have quiet : (s.inodes d).numEntries = 0 ∨ ∀ e, .dirEntry e ∉ pending ++ roots := by
      rcases ends with rfl | ⟨-, none, -⟩
      · exact .inr settled
      · exact .inl none
    apply Coupled.bind (entryAt_coupled shows2 (walkable.known.mono kept2) quiet)
    rintro last t _ _ ⟨rfl, known, atFirst, noted, rfl, shows3⟩
    have kept3 := kept2.trans (noted.kept _)
    obtain ⟨more, rfl⟩ := noted
    have same3 := shows3.same (.dirEntry last)
    apply Coupled.bind (setDirEntry_coupled shows3 known fun made notRaw => ?_)
    · rintro _ t4 _ u4 ⟨madeLast, eq, eq', shows4, kept4⟩
      have shows5 : Shows roots t4 u4 := by
        rcases ends with rfl | ⟨rfl, none, entered⟩
        · exact shows4
        · obtain rfl := atFirst none
          have old : (s.inodes d).firstNode ≠ h.used + 1 + 1 := by
            have below := (shows.made _ (walkable.known.resolve_left linked)).2
            change (s.inodes d).firstNode ≤ h.used at below
            omega
          have link : (h.note (.inode d)).withEntry.dirEntries (s.inodes d).firstNode =
            h.dirEntries (s.inodes d).firstNode := Function.update_of_ne old ..
          have link' : (storeWithEntry s).dirEntries (s.inodes d).firstNode =
            s.dirEntries (s.inodes d).firstNode := Function.update_of_ne (shows.used ▸ old) ..
          apply shows4.settle
          intro _
          have entered4 := entered.kept (kept3.trans kept4)
          change SameDirEntry _ _ (t4.dirEntries _) (u4.dirEntries _)
          rw [show t4.dirEntries (s.inodes d).firstNode =
              { h.dirEntries (s.inodes d).firstNode with nextNode := h.used + 1 + 1 } by
              rw [eq, ← link]
              exact Function.update_self ..,
            show u4.dirEntries (s.inodes d).firstNode =
              { s.dirEntries (s.inodes d).firstNode with nextNode := h.used + 1 + 1 } by
              rw [eq', ← link']
              exact Function.update_self ..]
          exact ⟨⟨entered4.inode, entered4.named⟩, rfl, .inr (kept4.made _ madeEntry)⟩
      have kept5 := kept3.trans kept4
      have walkable5 : Walkable t4 u4 d := walkable.kept kept5 (eq ▸ same) (eq' ▸ same')
      apply (fill_coupled isDir shows5 plain walkable5 apart (kept4.made _ madeNew) (kept4.made _ madeEntry)
        (eq ▸ zero) (eq' ▸ zero')).weaken
      rintro _ t _ u ⟨rfl, rfl, shows, kept, walkable, contents⟩
      exact ⟨rfl, rfl, shows, kept5.trans kept, walkable, kept.made _ (kept4.made _ madeNew), contents⟩
    · have same : SameDirEntry _ _ _ _ := same3 made notRaw
      exact ⟨⟨same.inode, same.named⟩, rfl, .inr madeEntry⟩
  · simp only [if_neg linked]
    apply Coupled.bind (setInode_coupled shows2 (kept2.made _ walkable.made) id fun notRaw => ?_)
    · rintro _ t4 _ u4 ⟨eq, eq', shows4, kept4⟩
      have shows5 : Shows roots t4 u4 := by
        rcases ends with rfl | ⟨rfl, -, -⟩
        · exact shows4
        · exact shows4.settle fun made => absurd (not_ne_iff.mp linked) (shows4.nonnull _ made)
      have kept5 := kept2.trans kept4
      have inode : t4.inodes d = { h.inodes d with firstNode := h.used + 1 + 1 } := by
        rw [eq, ← same]
        exact Function.update_self ..
      have inode' : u4.inodes d = { s.inodes d with firstNode := h.used + 1 + 1 } := by
        rw [eq', ← same']
        exact Function.update_self ..
      have walkable5 : Walkable t4 u4 d := by
        refine ⟨kept5.made _ walkable.made, ?_, ?_, ?_⟩
        · rw [inode, inode']
        · rw [inode, inode']
          exact walkable.count
        · rw [inode']
          exact .inr (kept4.made _ madeEntry)
      have zero5 : t4.inodes (h.used + 1) = .zero := by
        rw [eq, ← zero]
        exact Function.update_of_ne apart.symm ..
      have zero5' : u4.inodes (h.used + 1) = {} := by
        rw [eq', ← zero']
        exact Function.update_of_ne apart.symm ..
      apply (fill_coupled isDir shows5 plain walkable5 apart (kept4.made _ madeNew) (kept4.made _ madeEntry)
        zero5 zero5').weaken
      rintro _ t _ u ⟨rfl, rfl, shows, kept, walkable, contents⟩
      exact ⟨rfl, rfl, shows, kept5.trans kept, walkable, kept.made _ (kept4.made _ madeNew), contents⟩
    · have settledDir := shows2.same _ (kept2.made _ walkable.made) notRaw
      have isDirectory := dir fun inside => notRaw (List.mem_append_right _ inside)
      have sameInode : SameInode _ _ _ _ := settledDir
      refine ⟨sameInode.isDir, rfl, fun _ => ⟨?_, .inr madeEntry⟩, fun notDir => ?_⟩
      · rw [same, same', walkable.count]
      · rw [same', isDirectory] at notDir
        cases notDir

theorem mkdirNonlinear_coupled {roots : List Object} {first : Nat} (pending : List Object)
    (shows : Shows (pending ++ roots) h s) (walkable : Walkable h s d) (plain : 0 ∉ name)
    (dir : .inode d ∉ roots → (s.inodes d).isDir = true)
    (ends : Open h s d pending) (settled : ∀ e, .dirEntry e ∉ roots) (known : Known h.made .dirEntry first) :
    Coupled (tempfsMkdirNonlinear d name first) h (Fs.tempfsMkdirNonlinear d name first) s
      (fun _ t _ u => Shows roots t u ∧ Kept h s t u ∧ Walkable t u d) FollowsOwn := by
  have below : d ≤ h.used := (shows.made _ walkable.made).2
  unfold tempfsMkdirNonlinear Fs.tempfsMkdirNonlinear
  apply Coupled.bind (addentry_coupled pending true shows walkable plain dir ends settled)
  rintro new t1 _ u1 ⟨rfl, isNew, shows1, kept1, walkable1, made, contents⟩
  have apart : d ≠ new := by omega
  apply (setInode_coupled shows1 made id fun notRaw => ?_).weaken
  · rintro _ t _ u ⟨eq, eq', shows2, kept2⟩
    refine ⟨shows2, kept1.trans kept2, walkable1.kept kept2 ?_ ?_⟩
    · rw [eq]
      exact Function.update_of_ne apart ..
    · rw [eq']
      exact Function.update_of_ne apart ..
  · have same : SameInode t1 u1 (t1.inodes new) (u1.inodes new) := shows1.same _ made notRaw
    have isDir : (u1.inodes new).isDir = true := by rw [contents]
    refine ⟨same.isDir, rfl, fun _ => ⟨(same.directory isDir).1, known.mono kept1⟩, fun notDir => ?_⟩
    rw [isDir] at notDir
    cases notDir

/-! ### Making a directory -/

theorem makeDot_coupled (prepare : RawInode → RawInode) (shows : Shows raw h s) (made : .inode d ∈ h.made)
    (dir : .inode d ∉ raw → (s.inodes d).isDir = true) (count : (h.inodes d).numEntries = (s.inodes d).numEntries)
    (terminated : ∀ r, (prepare r).filename 1 = 0)
    (empty : ∀ r, Named r.filename [] → Named (prepare r).filename []) :
    Coupled (makeDot d prepare) h (Fs.makeDot d) s
      (fun e t e' u => e = e' ∧ Shows (.dirEntry e :: raw) t u ∧ Kept h s t u ∧ .dirEntry e ∈ t.made ∧
        t.inodes d = { h.inodes d with firstNode := e } ∧ u.inodes d = { s.inodes d with firstNode := e } ∧
        (∀ b ≤ h.used, b ≠ d → t.inodes b = h.inodes b ∧ u.inodes b = s.inodes b) ∧
        Entered t u (t.dirEntries e) (u.dirEntries e)) FollowsOwn := by
  have below : d ≤ h.used := (shows.made _ made).2
  unfold makeDot Fs.makeDot
  apply Coupled.bind (malloc_coupled shows .dirEntry rfl mallocDirEntry_run (allocated_dirEntry s))
  rintro e t1 _ u1 ⟨rfl, isEntry, eq1, eq1', madeEntry, shows1, kept1⟩
  have dirInode : t1.inodes d = h.inodes d := eq1 ▸ rfl
  have dirInode' : u1.inodes d = s.inodes d := eq1' ▸ rfl
  apply Coupled.bind (setInode_coupled shows1 (kept1.made _ made) id fun notRaw => ?_)
  · rintro _ t2 _ u2 ⟨eq2, eq2', shows2, kept2⟩
    apply Coupled.bind (malloc_coupled shows2 .inode rfl mallocInode_run (allocated_inode u2))
    rintro i t3 _ u3 ⟨rfl, isInode, eq3, eq3', madeInode, shows3, kept3⟩
    have clean : u3.inodes i = {} := by
      rw [eq3', isInode, shows2.used]
      exact Function.update_self ..
    apply Coupled.bind (setDirEntry_coupled shows3 (.inr (kept3.made _ (kept2.made _ madeEntry))) fun _ out => ?_)
    · rintro _ t4 _ u4 ⟨-, eq4, eq4', shows4, kept4⟩
      have clean4 : u4.inodes i = {} := eq4' ▸ clean
      have blank : Named (t4.inodes i).filename (u4.inodes i).filename →
          Named (prepare (t4.inodes i)).filename (u4.inodes i).filename := by
        rw [clean4]
        exact empty _
      have madeInode4 := kept4.made _ madeInode
      apply Coupled.left (setInode_run (shows4.nonnull _ madeInode4))
      have shows5 := shows4.clearInode (r := prepare (t4.inodes i)) blank madeInode4 fun out =>
        absurd (List.mem_cons_self ..) out
      have kept5 := Kept.clearInode blank
      have prepared : (t4.putInode i (prepare (t4.inodes i))).inodes i = prepare (t4.inodes i) :=
        Function.update_self ..
      apply Coupled.bind (setInode_coupled shows5 madeInode4 (fun _ => ?_) fun out => ?_)
      · rintro _ t6 _ u6 ⟨eq6, eq6', shows6, kept6⟩
        have isFresh : i = h.used + 1 + 1 := by
          rw [isInode, eq2, eq1]
          rfl
        have inode6 : t6.inodes i = { prepare (t4.inodes i) with
            filename := Function.update (prepare (t4.inodes i)).filename 0 46
            isDir := true
            firstNode := e
            numEntries := 2 } := by
          rw [eq6, prepared]
          exact Function.update_self ..
        have inode6' : u6.inodes i = { filename := dot, isDir := true, firstNode := e, numEntries := 2 } := by
          rw [eq6', clean4]
          exact Function.update_self ..
        have kept := ((kept4.trans kept5).trans kept6)
        have madeEntry6 := kept.made _ (kept3.made _ (kept2.made _ madeEntry))
        have shows7 := shows6.settle fun _ => by
          change SameInode t6 u6 (t6.inodes i) (u6.inodes i)
          rw [inode6, inode6']
          exact ⟨rfl, rfl, fun _ => ⟨rfl, .inr madeEntry6⟩, fun notDir => absurd notDir Bool.noConfusion⟩
        have old : ∀ b ≤ h.used, t6.inodes b = t2.inodes b ∧ u6.inodes b = u2.inodes b := by
          intro b below
          have apart : b ≠ i := by omega
          constructor
          · have earlier : t4.inodes b = t2.inodes b := by
              rw [eq4, eq3]
              rfl
            rw [← earlier, eq6]
            change Function.update (Function.update t4.inodes i _) i _ b = _
            rw [Function.update_of_ne apart, Function.update_of_ne apart]
          · have earlier : u3.inodes b = u2.inodes b := by
              rw [eq3', ← shows2.used, ← isInode]
              exact Function.update_of_ne apart ..
            rw [← earlier, eq6', eq4']
            exact Function.update_of_ne apart ..
        refine .pure ⟨rfl, shows7, ((kept1.trans kept2).trans kept3).trans kept, madeEntry6, ?_, ?_, ?_, ?_⟩
        · rw [(old d below).1, eq2, ← dirInode]
          exact Function.update_self ..
        · rw [(old d below).2, eq2', ← dirInode']
          exact Function.update_self ..
        · intro b below other
          rw [(old b below).1, (old b below).2, eq2, eq2', eq1, eq1']
          exact ⟨Function.update_of_ne other .., Function.update_of_ne other ..⟩
        · have entry : t6.dirEntries e = { t3.dirEntries e with inode := i, isDir := true } := by
            rw [eq6, eq4]
            exact Function.update_self ..
          have entry' : u6.dirEntries e = { u3.dirEntries e with inode := i, isDir := true } := by
            rw [eq6', eq4']
            exact Function.update_self ..
          rw [entry, entry']
          refine ⟨rfl, .inr ⟨kept6.made _ (kept5.made _ madeInode4), ?_⟩⟩
          rw [inode6, inode6']
          exact named_dot (terminated _)
      · rw [prepared]
        exact named_dot (terminated _)
      · exact absurd (List.mem_cons_self ..) out
    · exact absurd (List.mem_cons_of_mem _ (List.mem_cons_self ..)) out
  · rw [dirInode, dirInode']
    have same : SameInode t1 u1 (t1.inodes d) (u1.inodes d) := shows1.same _ (kept1.made _ made) notRaw
    have isDir := dir fun inside => notRaw (List.mem_cons_of_mem _ inside)
    refine ⟨?_, rfl, fun _ => ⟨count, .inr madeEntry⟩, fun notDir => ?_⟩
    · rw [← dirInode, ← dirInode']
      exact same.isDir
    · exact absurd (isDir.symm.trans notDir) Bool.noConfusion

theorem Walkable.open {e : Nat} (made : .inode d ∈ h.made) (inode : (h.inodes d).firstNode = e)
    (inode' : (s.inodes d).firstNode = e) (count : (h.inodes d).numEntries = 0) (count' : (s.inodes d).numEntries = 0)
    (madeEntry : .dirEntry e ∈ h.made) (entered : Entered h s (h.dirEntries e) (s.dirEntries e)) :
    Walkable h s d ∧ Open h s d [.dirEntry e] := by
  subst inode'
  exact ⟨⟨made, inode, count.trans count'.symm, .inr madeEntry⟩, .inr ⟨rfl, count', entered⟩⟩

theorem tempfsNew_coupled (shows : Shows [] h s) (cleared : (h.inodes (h.used + 1)).numEntries = 0) :
    Coupled tempfsNew h Fs.tempfsNew s (fun root t root' u => root = root' ∧ Shows [] t u) FollowsOwn := by
  unfold tempfsNew Fs.tempfsNew
  apply Coupled.bind (malloc_coupled shows .inode rfl mallocInode_run (allocated_inode s))
  rintro root t1 _ u1 ⟨rfl, isRoot, eq1, eq1', made, shows1, kept1⟩
  have count : (t1.inodes root).numEntries = 0 := by
    rw [eq1, isRoot]
    exact cleared
  have count' : (u1.inodes root).numEntries = 0 := by
    rw [eq1', isRoot, shows.used]
    change (Function.update s.inodes (s.used + 1) {} (s.used + 1)).numEntries = 0
    rw [Function.update_self]
  have plain : 0 ∉ dotDot := by decide
  apply Coupled.bind (makeDot_coupled _ shows1 made (fun out => absurd (List.mem_cons_self ..) out)
    (count.trans count'.symm) (fun r => by simp) fun r named => ?_)
  · rintro e t2 _ u2 ⟨rfl, shows2, kept2, madeEntry, inode2, inode2', -, entered⟩
    obtain ⟨walkable, ends⟩ := Walkable.open (kept2.made _ made) (by rw [inode2]) (by rw [inode2'])
      (by rw [inode2]; exact count) (by rw [inode2']; exact count') madeEntry entered
    apply Coupled.bind (mkdirNonlinear_coupled [.dirEntry e] shows2 walkable plain
      (fun out => absurd (List.mem_cons_self ..) out) ends (by simp) (.inr madeEntry))
    rintro _ t3 _ u3 ⟨shows3, kept3, walkable⟩
    apply Coupled.bind (setInode_coupled shows3 walkable.made id fun out => absurd (List.mem_cons_self ..) out)
    rintro _ t _ u ⟨rfl, rfl, shows4, kept4⟩
    refine .pure ⟨rfl, shows4.settle fun _ => ?_⟩
    change SameInode _ _ (Function.update t3.inodes root _ root) (Function.update u3.inodes root _ root)
    rw [Function.update_self, Function.update_self]
    exact ⟨rfl, walkable.first, fun _ => ⟨walkable.count, walkable.known.mono kept4⟩,
      fun notDir => absurd notDir Bool.noConfusion⟩
  · refine ⟨fun i below => ?_, List.not_mem_nil⟩
    have here : i = 0 := by
      rw [List.length_nil] at below
      omega
    have first := named.spells i below
    simpa [here] using first

/-- What a made directory looks like on both sides. -/
theorem Shows.walkable (shows : Shows raw h s) (made : .inode d ∈ h.made) (settled : .inode d ∉ raw)
    (isDir : (s.inodes d).isDir = true) : Walkable h s d := by
  have same : SameInode h s (h.inodes d) (s.inodes d) := shows.same _ made settled
  exact ⟨made, same.firstNode, (same.directory isDir).1, (same.directory isDir).2⟩

theorem tempfsMkdir_coupled (shows : Shows [] h s) (made : .inode d ∈ h.made) (isDir : (s.inodes d).isDir = true)
    (plain : 0 ∉ name) :
    Coupled (tempfsMkdir d name) h (Fs.tempfsMkdir d name) s (fun _ t _ u => Shows [] t u) FollowsOwn := by
  have below : d ≤ h.used := (shows.made _ made).2
  have walkable := shows.walkable made List.not_mem_nil isDir
  unfold tempfsMkdir Fs.tempfsMkdir
  apply Coupled.bind (addentry_coupled [] true shows walkable plain (fun _ => isDir) (.inl rfl)
    fun _ => List.not_mem_nil)
  rintro new t1 _ u1 ⟨rfl, isNew, shows1, kept1, walkable1, madeNew, contents⟩
  have isDir1 : (u1.inodes new).isDir = true := by rw [contents]
  have count' : (u1.inodes new).numEntries = 0 := by rw [contents]
  have count : (t1.inodes new).numEntries = 0 := by
    rw [(shows1.walkable madeNew List.not_mem_nil isDir1).count, count']
  have below1 := (shows1.made _ (kept1.made _ made)).2
  apply Coupled.bind (makeDot_coupled (fun _ => .zero) shows1 madeNew (fun _ => isDir1) (count.trans count'.symm)
    (fun _ => rfl) fun _ _ => named_zero)
  rintro e t2 _ u2 ⟨rfl, shows2, kept2, madeEntry, inode2, inode2', others, entered⟩
  obtain ⟨walkable2, ends⟩ := Walkable.open (kept2.made _ madeNew) (by rw [inode2]) (by rw [inode2'])
    (by rw [inode2]; exact count) (by rw [inode2']; exact count') madeEntry entered
  have parent := others d below1 (by omega)
  have walkableParent := walkable1.kept kept2 parent.1 parent.2
  apply Coupled.bind (inode_coupled shows2 (.inr walkableParent.made))
  rintro _ _ _ u2 ⟨rfl, rfl, -, rfl, rfl, shows3⟩
  rw [walkableParent.first]
  have walkable3 : Walkable (t2.note (.inode d)) u2 new := walkable2.kept (Kept.note ..) rfl rfl
  have ends3 : Open (t2.note (.inode d)) u2 new [.dirEntry e] := ends.imp_right fun ⟨same, zero, entered⟩ =>
    ⟨same, zero, entered.kept (Kept.note ..)⟩
  apply (mkdirNonlinear_coupled [.dirEntry e] shows3 walkable3 (by decide) (fun _ => ?_) ends3
    (fun _ => List.not_mem_nil) walkableParent.known).weaken
  · rintro _ t _ u ⟨shows, -, -⟩
    exact shows
  · rw [inode2']
    exact isDir1

/-! ### Files, devices and lookups -/

section

variable (shows : Shows [] h s) (made : .inode d ∈ h.made) (isDir : (s.inodes d).isDir = true) (plain : 0 ∉ name)
include shows made isDir plain

theorem tempfsMkfile_coupled :
    Coupled (tempfsMkfile d name) h (Fs.tempfsMkfile d name) s (fun _ t _ u => Shows [] t u) FollowsOwn := by
  have walkable := shows.walkable made List.not_mem_nil isDir
  unfold tempfsMkfile Fs.tempfsMkfile
  apply Coupled.bind (addentry_coupled [] false shows walkable plain (fun _ => isDir) (.inl rfl)
    fun _ => List.not_mem_nil)
  rintro _ t _ u ⟨-, -, shows, -⟩
  exact .pure shows

theorem tempfsCreateDevice_coupled (operations : DeviceOps) :
    Coupled (tempfsCreateDevice d name operations) h (Fs.tempfsCreateDevice d name operations) s
      (fun _ t _ u => Shows [] t u) FollowsOwn := by
  have walkable := shows.walkable made List.not_mem_nil isDir
  unfold tempfsCreateDevice Fs.tempfsCreateDevice
  apply Coupled.bind (addentry_coupled [] false shows walkable plain (fun _ => isDir) (.inl rfl)
    fun _ => List.not_mem_nil)
  rintro new t _ u ⟨rfl, -, shows1, -, -, madeNew, contents⟩
  apply (setInode_coupled shows1 madeNew id fun notRaw => ?_).weaken
  · rintro _ _ _ _ ⟨-, -, shows2, -⟩
    exact shows2
  · have same : SameInode t u (t.inodes new) (u.inodes new) := shows1.same _ madeNew notRaw
    refine ⟨same.isDir, same.firstNode, fun dir => ?_, fun notDir => ?_⟩
    · rw [contents] at dir
      cases dir
    · obtain ⟨length, -, -, known, bytes⟩ := same.file notDir
      exact ⟨length, rfl, rfl, known, bytes⟩

end

theorem findEntry_coupled {rounds : Nat} (plain : 0 ∉ name) (shows : Shows [] h s)
    (known : Known h.made .dirEntry e) :
    Coupled (findEntry name rounds e) h (Fs.findEntry name rounds e) s
      (fun a t b u => a = b ∧ Shows [] t u) FollowsOwn := by
  induction rounds generalizing h e with
  | zero => exact .stops rfl rfl shows.followed
  | succ rounds ih =>
    rw [findEntry, Fs.findEntry]
    by_cases null : e = 0
    · simp only [if_pos null]
      exact .pure ⟨rfl, shows⟩
    · simp only [if_neg null]
      apply Coupled.bind (dirEntry_coupled shows known)
      rintro _ _ _ s ⟨rfl, rfl, made, rfl, rfl, shows1⟩
      have same : SameDirEntry h s (h.dirEntries e) (s.dirEntries e) := shows.same _ made List.not_mem_nil
      rw [same.inode]
      apply Coupled.bind (inode_coupled shows1 (same.named.imp_right And.left))
      rintro _ _ _ s ⟨rfl, rfl, madeInode, rfl, rfl, shows2⟩
      have named : Named ((h.note (.dirEntry e)).inodes (s.dirEntries e).inode).filename
          (s.inodes (s.dirEntries e).inode).filename := (same.named.resolve_left (shows.nonnull _ madeInode)).2
      by_cases found : (s.inodes (s.dirEntries e).inode).filename = name
      · simp only [if_pos found, if_pos ((named.spells_iff plain).mpr found)]
        exact .pure ⟨rfl, shows2⟩
      · simp only [if_neg found, if_neg (mt (named.spells_iff plain).mp found)]
        rw [same.next]
        exact ih shows2 same.known

theorem tempfsFind_coupled (plain : 0 ∉ name) (shows : Shows [] h s) (made : .inode d ∈ h.made)
    (isDir : (s.inodes d).isDir = true) :
    Coupled (tempfsFind d name) h (Fs.tempfsFind d name) s (fun a t b u => a = b ∧ Shows [] t u) FollowsOwn := by
  have walkable := shows.walkable made List.not_mem_nil isDir
  unfold tempfsFind Fs.tempfsFind
  apply Coupled.bind (inode_coupled shows (.inr made))
  rintro _ _ _ s ⟨rfl, rfl, -, rfl, rfl, shows1⟩
  rw [walkable.first]
  apply Coupled.bind (dirEntry_coupled shows1 walkable.known)
  rintro _ _ _ s ⟨-, -, madeEntry, rfl, rfl, shows2⟩
  apply Coupled.left Traced.run_get
  apply Coupled.right Prog.run_get
  rw [shows2.used]
  exact findEntry_coupled plain shows2 walkable.known

/-! ### File contents -/

variable {f i len lenLeft maxLen rounds : Nat} {source buffer : Mem}

/-- `len_left` counts what is left behind `i`, also where the index wraps. -/
theorem lenLeft_step (small : len < 2 ^ 64) (more : i < len) (left : lenLeft = len - i)
    (again : add64 i filenodeDataSize < len) :
    sub64 lenLeft filenodeDataSize = len - add64 i filenodeDataSize := by
  unfold add64 sub64 filenodeDataSize at *
  split <;> omega

theorem lenLeft_covers (small : len < 2 ^ 64) :
    len - i - filenodeDataSize ≤ len - add64 i filenodeDataSize := by
  unfold add64 filenodeDataSize
  omega

theorem copyBytes_same {dest dest' : Mem} {start n x : Nat} (same : dest x = dest' x) :
    copyBytes dest start source n x = copyBytes dest' start source n x := by
  unfold copyBytes
  split
  · rfl
  · exact same

/-- What the write loop leaves when `n` bytes go to the chain from `a`. -/
structure Written (raw : List Object) (len n a : Nat) (h : Heap) (s : TempFs) (t : Heap) (u : TempFs) : Prop where
  shows : Shows raw t u
  kept : Kept h s t u
  bytes : SameBytes t u n a
  inodes : t.inodes = h.inodes
  inodes' : u.inodes = s.inodes
  limit : len ≤ lengthLimit

theorem Written.after {n : Nat} (kept : Kept h s h' s') (inodes : h'.inodes = h.inodes) (inodes' : s'.inodes = s.inodes)
    (written : Written raw len n a h' s' t u) : Written raw len n a h s t u :=
  ⟨written.shows, kept.trans written.kept, written.bytes, written.inodes.trans inodes,
    written.inodes'.trans inodes', written.limit⟩

/-- One round of `tempfs_write` behind the link, then the rest of the loop. -/
theorem chunk_coupled (shows : Shows raw h s) (made : .fileNode a ∈ h.made) (settled : .fileNode a ∉ raw)
    (linked : (s.fileNodes a).nextNode ≠ 0) (small : len < 2 ^ 64) (more : i < len) (left : lenLeft = len - i)
    (rest : ∀ t u, Shows raw t u → Known t.made .fileNode (u.fileNodes a).nextNode →
      Coupled
        (writeNodes source len rounds (add64 i filenodeDataSize) (sub64 lenLeft filenodeDataSize)
          (u.fileNodes a).nextNode) t
        (Fs.writeNodes source len rounds (add64 i filenodeDataSize) (sub64 lenLeft filenodeDataSize)
          (u.fileNodes a).nextNode) u
        (fun _ t' _ u' => Written raw len (len - add64 i filenodeDataSize) (u.fileNodes a).nextNode t u t' u')
        FollowsOwn) :
    Coupled
      (do
        setFileNode a fun f => { f with data := copyBytes f.data 0 (fun x => source (i + x)) (amountToCopy lenLeft) }
        let next := (← fileNode a).nextNode
        writeNodes source len rounds (add64 i filenodeDataSize) (sub64 lenLeft filenodeDataSize) next) h
      (do
        Fs.setFileNode a fun f =>
          { f with data := copyBytes f.data 0 (fun x => source (i + x)) (amountToCopy lenLeft) }
        let next := (← Fs.fileNode a).nextNode
        Fs.writeNodes source len rounds (add64 i filenodeDataSize) (sub64 lenLeft filenodeDataSize) next) s
      (fun _ t _ u => Written raw len (len - i) a h s t u) FollowsOwn := by
  have same : SameFileNode h (h.fileNodes a) (s.fileNodes a) := shows.same _ made settled
  have chunk : ∀ x, (h.fileNodes a).data x = (s.fileNodes a).data x →
      copyBytes (h.fileNodes a).data 0 (fun x => source (i + x)) (amountToCopy lenLeft) x =
        copyBytes (s.fileNodes a).data 0 (fun x => source (i + x)) (amountToCopy lenLeft) x :=
    fun _ same => copyBytes_same same
  apply Coupled.bind (setFileNode_coupled shows made chunk (fun _ => rfl) fun _ => ⟨same.next, same.known⟩)
  rintro _ t1 _ u1 ⟨eq1, eq1', shows1, kept1⟩
  apply Coupled.bind (fileNode_coupled shows1 (.inr (kept1.made _ made)))
  rintro _ _ _ u1 ⟨rfl, rfl, made1, rfl, rfl, shows2⟩
  have same1 : SameFileNode t1 (t1.fileNodes a) (u1.fileNodes a) := shows1.same _ made1 settled
  dsimp only
  rw [same1.next]
  apply (rest _ _ shows2 same1.known).weaken
  intro _ t _ u written
  have all : Kept h s t u := (kept1.trans (Kept.note ..)).trans written.kept
  have linked1 : (u1.fileNodes a).nextNode ≠ 0 := by
    rw [eq1']
    change (Function.update s.fileNodes a _ a).nextNode ≠ 0
    rw [Function.update_self]
    exact linked
  refine ⟨written.shows, all, .node (by omega) (all.made _ made) ?_ ?_, ?_, ?_, written.limit⟩
  · intro x inside
    have copied : (t1.fileNodes a).data x = (u1.fileNodes a).data x := by
      have within : InRange 0 (amountToCopy lenLeft) x := by
        rw [amountToCopy_eq, left]
        exact ⟨Nat.zero_le x, by omega⟩
      rw [eq1, eq1']
      change (Function.update h.fileNodes a _ a).data x = (Function.update s.fileNodes a _ a).data x
      rw [Function.update_self, Function.update_self]
      dsimp only
      rw [copyBytes_inside within, copyBytes_inside within]
    exact written.kept.data a made1 x copied
  · rw [written.kept.links a made1 linked1]
    exact written.bytes.shorten (lenLeft_covers small)
  · rw [written.inodes, eq1]
    rfl
  · rw [written.inodes', eq1']

/-- A node of a chain that `tempfs_write` extends: its link is set, then that of the node behind it. -/
theorem extend_coupled {γ δ : Type} {rest : HeapM γ} {rest' : TempFsM δ} {post : γ → Heap → δ → TempFs → Prop}
    (shows : Shows raw h s) (made : .fileNode a ∈ h.made) (last : (s.fileNodes a).nextNode = 0)
    (later : ∀ t u, Shows raw t u → Kept h s t u → t.inodes = h.inodes → u.inodes = s.inodes →
      (u.fileNodes a).nextNode ≠ 0 → Coupled rest t rest' u post FollowsOwn) :
    Coupled
      (do
        let next ← malloc .fileNode
        setFileNode a fun f => { f with nextNode := next }
        setFileNode next fun f => { f with nextNode := 0 }
        rest) h
      (do
        let next ← mallocFileNode
        Fs.setFileNode a fun f => { f with nextNode := next }
        rest') s post FollowsOwn := by
  have below : a ≤ h.used := (shows.made _ made).2
  apply Coupled.bind (malloc_coupled shows .fileNode rfl mallocFileNode_run (allocated_fileNode s))
  rintro next t1 _ u1 ⟨rfl, isNext, eq1, eq1', madeNext, shows1, kept1⟩
  have apart : a ≠ next := by omega
  have old : u1.fileNodes a = s.fileNodes a := by
    rw [eq1', ← shows.used, ← isNext]
    exact Function.update_of_ne apart ..
  apply Coupled.bind (setFileNode_coupled shows1 (kept1.made _ made) (fun _ same => same) (fun linked => ?_)
    fun _ => ⟨rfl, .inr madeNext⟩)
  · rintro _ t2 _ u2 ⟨eq2, eq2', shows2, kept2⟩
    have madeNext2 := kept2.made _ madeNext
    apply Coupled.left (setFileNode_run (shows2.nonnull _ madeNext2))
    have shows3 := shows2.clearFileNode (r := { t2.fileNodes next with nextNode := 0 }) (fun _ => rfl) madeNext2
      fun out => absurd (List.mem_cons_self ..) out
    have kept3 : Kept t2 u2 (t2.putFileNode next { t2.fileNodes next with nextNode := 0 }) u2 :=
      .clearFileNode fun _ => rfl
    have shows4 := shows3.settle fun _ => by
      change SameFileNode _ (Function.update t2.fileNodes next _ next) (u2.fileNodes next)
      have clean : u2.fileNodes next = {} := by
        rw [eq2', eq1', isNext, shows.used]
        change Function.update (Function.update s.fileNodes (s.used + 1) {}) a _ (s.used + 1) = {}
        rw [Function.update_of_ne (by have := shows.used; omega), Function.update_self]
      rw [Function.update_self, clean]
      exact ⟨rfl, .inl rfl⟩
    apply later _ _ shows4 ((kept1.trans kept2).trans kept3)
    · rw [Heap.putFileNode, eq2, eq1]
      rfl
    · rw [eq2', eq1']
    · rw [eq2']
      change (Function.update u1.fileNodes a _ a).nextNode ≠ 0
      rw [Function.update_self]
      exact shows1.nonnull _ madeNext
  · rw [old, last] at linked
    exact absurd rfl linked

theorem le_lengthLimit {n m : Nat} (aligned : filenodeDataSize ∣ m) (small : m < 2 ^ 64) (le : n ≤ m) :
    n ≤ lengthLimit := by
  obtain ⟨k, rfl⟩ := aligned
  have quotient : k ≤ (2 ^ 64 - 1) / filenodeDataSize :=
    (Nat.le_div_iff_mul_le (by decide)).mpr (by rw [Nat.mul_comm]; omega)
  rw [Nat.mul_comm] at le
  exact le.trans (Nat.mul_le_mul_right _ quotient)

/-- An index that wraps has come to the last round, and there is more to write. -/
theorem rounds_left (small : len < 2 ^ 64) (index : i < 2 ^ 64) (more : i < len)
    (enough : i + filenodeDataSize * (rounds + 1) ≤ len + filenodeDataSize) (wraps : 2 ^ 64 ≤ i + filenodeDataSize) :
    rounds = 0 ∧ add64 i filenodeDataSize < len := by
  unfold add64 filenodeDataSize at *
  omega

theorem writeNodes_coupled (shows : Shows raw h s) (settled : ∀ a, .fileNode a ∉ raw)
    (known : Known h.made .fileNode a) (small : len < 2 ^ 64) (left : i < len → lenLeft = len - i)
    (aligned : filenodeDataSize ∣ i) (index : i < 2 ^ 64)
    (enough : i + filenodeDataSize * rounds ≤ len + filenodeDataSize) :
    Coupled (writeNodes source len rounds i lenLeft a) h (Fs.writeNodes source len rounds i lenLeft a) s
      (fun _ t _ u => Written raw len (len - i) a h s t u) FollowsOwn := by
  induction rounds generalizing i lenLeft a h s with
  | zero =>
    simp only [writeNodes, Fs.writeNodes]
    by_cases more : i < len
    · simp only [if_pos more]
      exact .stops rfl rfl shows.followed
    · simp only [if_neg more]
      have none : len - i = 0 := by omega
      exact .pure ⟨shows, .refl .., none ▸ .done a, rfl, rfl, le_lengthLimit aligned index (by omega)⟩
  | succ rounds ih =>
    rw [writeNodes, Fs.writeNodes]
    by_cases more : i < len
    · simp only [if_pos more]
      apply Coupled.bind (fileNode_coupled shows known)
      rintro _ _ _ s ⟨rfl, rfl, made, rfl, rfl, shows1⟩
      have same : SameFileNode h (h.fileNodes a) (s.fileNodes a) := shows.same _ made (settled a)
      have again : ∀ t u, Shows raw t u → Known t.made .fileNode (u.fileNodes a).nextNode →
          Coupled
            (writeNodes source len rounds (add64 i filenodeDataSize) (sub64 lenLeft filenodeDataSize)
              (u.fileNodes a).nextNode) t
            (Fs.writeNodes source len rounds (add64 i filenodeDataSize) (sub64 lenLeft filenodeDataSize)
              (u.fileNodes a).nextNode) u
            (fun _ t' _ u' => Written raw len (len - add64 i filenodeDataSize) (u.fileNodes a).nextNode t u t' u')
            FollowsOwn := by
        intro t u shows known
        by_cases wraps : 2 ^ 64 ≤ i + filenodeDataSize
        · obtain ⟨rfl, more⟩ := rounds_left small index more enough wraps
          simp only [writeNodes, Fs.writeNodes, if_pos more]
          exact .stops rfl rfl shows.followed
        · have next : add64 i filenodeDataSize = i + filenodeDataSize := add64_of_lt (by omega)
          apply ih shows known (lenLeft_step small more (left more)) _ (add64_lt ..)
          · rw [next]
            rw [Nat.mul_add] at enough
            omega
          · rw [next]
            exact Nat.dvd_add aligned (Nat.dvd_refl _)
      rw [same.next]
      by_cases last : (s.fileNodes a).nextNode = 0
      · simp only [if_pos last]
        apply extend_coupled shows1 made last
        intro t u shows2 kept2 inodes inodes' linked
        apply (chunk_coupled shows2 (kept2.made _ made) (settled a) linked small more (left more) again).weaken
        exact fun _ _ _ _ => Written.after ((Kept.note ..).trans kept2) inodes inodes'
      · simp only [if_neg last]
        apply (chunk_coupled shows1 made (settled a) last small more (left more) again).weaken
        exact fun _ _ _ _ => Written.after (Kept.note ..) rfl rfl
    · simp only [if_neg more]
      have none : len - i = 0 := by omega
      exact .pure ⟨shows, .refl .., none ▸ .done a, rfl, rfl, le_lengthLimit aligned index (by omega)⟩

/-- The loop of `tempfs_write` on the file `f`, whose length is set and whose first node is `first`. -/
theorem contents_coupled {r : RawInode} {i : Inode} {first : Nat} (shows : Shows [.inode f] h s)
    (made : .inode f ∈ h.made) (same : SameInode h' s' r i) (isFile : i.isDir = false)
    (known : Known h.made .fileNode first) (small : len < 2 ^ 64)
    (inode : h.inodes f = { r with length := len, firstNode := first })
    (inode' : s.inodes f = { i with length := len, firstNode := first }) :
    Coupled
      (do
        writeNodes source len (len / filenodeDataSize + 1) 0 len (← Reused.inode f).firstNode
        return 0) h
      (do
        Fs.writeNodes source len (len / filenodeDataSize + 1) 0 len (← Fs.inode f).firstNode
        return 0) s
      (fun a t b u => a = b ∧ Shows [] t u) FollowsOwn := by
  obtain ⟨-, type, operations, -⟩ := same.file isFile
  apply Coupled.bind (inode_coupled shows (.inr made))
  rintro _ _ _ s ⟨rfl, rfl, -, rfl, rfl, shows1⟩
  rw [inode, inode']
  have rounds : 0 + filenodeDataSize * (len / filenodeDataSize + 1) ≤ len + filenodeDataSize := by
    have floor := Nat.mul_div_le len filenodeDataSize
    rw [Nat.mul_add]
    omega
  apply Coupled.bind (writeNodes_coupled shows1 (by simp) known small (fun _ => rfl) (Nat.dvd_zero _) (by decide) rounds)
  intro _ t _ u written
  refine .pure ⟨rfl, written.shows.settle fun _ => ?_⟩
  have left : t.inodes f = { r with length := len, firstNode := first } := written.inodes ▸ inode
  have right : u.inodes f = { i with length := len, firstNode := first } := written.inodes' ▸ inode'
  have knownAfter := known.mono ((Kept.note h s (.inode f)).trans written.kept)
  change SameInode t u (t.inodes f) (u.inodes f)
  rw [left, right]
  exact ⟨same.isDir, rfl, fun dir => absurd (isFile.symm.trans dir) Bool.noConfusion,
    fun _ => ⟨rfl, type, operations, knownAfter, written.bytes, written.limit⟩⟩

theorem tempfsWrite_coupled (shows : Shows [] h s) (made : .inode f ∈ h.made) (isFile : (s.inodes f).isDir = false)
    (small : len < 2 ^ 64) (cleared : (h.inodes f).type ≠ filetypeDevice → (h.inodes f).firstNode = 0 →
      (h.fileNodes (h.used + 1)).nextNode = 0) :
    Coupled (tempfsWrite f source len) h (Fs.tempfsWrite f source len) s
      (fun a t b u => a = b ∧ Shows [] t u) FollowsOwn := by
  have same : SameInode h s (h.inodes f) (s.inodes f) := shows.same _ made List.not_mem_nil
  obtain ⟨-, type, operations, known, -⟩ := same.file isFile
  unfold tempfsWrite Fs.tempfsWrite
  apply Coupled.bind (inode_coupled shows (.inr made))
  rintro _ _ _ s ⟨rfl, rfl, -, rfl, rfl, shows1⟩
  rw [type] at cleared ⊢
  by_cases device : (s.inodes f).type = filetypeDevice
  · simp only [if_pos device, operations]
    cases (s.inodes f).operations.writeOp with
    | none => exact .stops rfl rfl shows1.followed
    | some writes => exact .pure ⟨rfl, shows1⟩
  · simp only [if_neg device]
    apply Coupled.bind (setInode_coupled (shows1.weaken (List.nil_subset [.inode f])) made id
      fun out => absurd (List.mem_cons_self ..) out)
    rintro _ t2 _ u2 ⟨eq2, eq2', shows2, kept2⟩
    have made2 := kept2.made _ made
    rw [same.firstNode] at cleared ⊢
    by_cases fresh : (s.inodes f).firstNode = 0
    · simp only [if_pos fresh]
      apply Coupled.bind (malloc_coupled shows2 .fileNode rfl mallocFileNode_run (allocated_fileNode u2))
      rintro new t3 _ u3 ⟨rfl, isNew, eq3, eq3', madeNew, shows3, kept3⟩
      have shows4 := shows3.settle fun _ => by
        have left : t3.fileNodes new = h.fileNodes (h.used + 1) := by
          rw [eq3, isNew, eq2]
          rfl
        have right : u3.fileNodes new = {} := by
          rw [eq3', isNew, shows2.used]
          exact Function.update_self ..
        change SameFileNode t3 (t3.fileNodes new) (u3.fileNodes new)
        rw [left, right]
        exact ⟨cleared device fresh, .inl rfl⟩
      apply Coupled.bind (setInode_coupled shows4 (kept3.made _ made2) id
        fun out => absurd (List.mem_cons_self ..) out)
      rintro _ t4 _ u4 ⟨eq4, eq4', shows5, kept4⟩
      apply contents_coupled shows5 (kept4.made _ (kept3.made _ made2)) same isFile
        (.inr (kept4.made _ madeNew)) small
      · have before : t3.inodes f = { h.inodes f with length := len } := by
          rw [eq3, eq2]
          exact Function.update_self ..
        rw [eq4, before]
        exact Function.update_self ..
      · have before : u3.inodes f = { s.inodes f with length := len } := by
          rw [eq3', eq2']
          exact Function.update_self ..
        rw [eq4', before]
        exact Function.update_self ..
    · simp only [if_neg fresh]
      apply contents_coupled shows2 made2 same isFile (known.mono ((Kept.note ..).trans kept2)) small
      · rw [eq2, ← same.firstNode]
        exact Function.update_self ..
      · rw [eq2']
        exact Function.update_self ..

theorem lengthLimit_step (aligned : filenodeDataSize ∣ i) (below : i < lengthLimit) : i + filenodeDataSize < 2 ^ 64 := by
  obtain ⟨k, rfl⟩ := aligned
  unfold lengthLimit at below
  rw [Nat.mul_comm] at below
  have next : k + 1 ≤ (2 ^ 64 - 1) / filenodeDataSize := Nat.lt_of_mul_lt_mul_right below
  have bound := (Nat.le_div_iff_mul_le (by decide)).mp next
  have shifted : filenodeDataSize * k + filenodeDataSize = (k + 1) * filenodeDataSize := by ring
  omega

theorem copyBytes_congr {dest source' : Mem} {start n : Nat} (same : ∀ x < n, source x = source' x) :
    copyBytes dest start source n = copyBytes dest start source' n := by
  funext x
  unfold copyBytes
  split
  · rename_i inside
    exact same _ (by unfold InRange at inside; omega)
  · rfl

theorem readNodes_coupled {n : Nat} (shows : Shows raw h s) (settled : ∀ a, .fileNode a ∉ raw)
    (bytes : SameBytes h s n a) (within : maxLen - i ≤ n) (limit : maxLen ≤ lengthLimit)
    (left : i < maxLen → lenLeft = maxLen - i) (aligned : filenodeDataSize ∣ i) :
    Coupled (readNodes maxLen rounds i lenLeft a buffer) h (Fs.readNodes maxLen rounds i lenLeft a buffer) s
      (fun b t b' u => b = b' ∧ Shows raw t u) FollowsOwn := by
  induction rounds generalizing h s n i lenLeft a buffer with
  | zero =>
    simp only [readNodes, Fs.readNodes]
    by_cases more : i < maxLen ∧ a ≠ 0
    · simp only [if_pos more]
      exact .stops rfl rfl shows.followed
    · simp only [if_neg more]
      exact .pure ⟨rfl, shows⟩
  | succ rounds ih =>
    rw [readNodes, Fs.readNodes]
    by_cases more : i < maxLen ∧ a ≠ 0
    · simp only [if_pos more]
      cases bytes with
      | done => exact absurd within (by omega)
      | node some made data rest =>
        apply Coupled.bind (fileNode_coupled shows (.inr made))
        rintro _ _ _ s ⟨rfl, rfl, -, rfl, rfl, shows1⟩
        have same : SameFileNode h (h.fileNodes a) (s.fileNodes a) := shows.same _ made (settled a)
        have small := lengthLimit_step aligned (by omega)
        have copied : copyBytes buffer i (h.fileNodes a).data (amountToCopy lenLeft) =
            copyBytes buffer i (s.fileNodes a).data (amountToCopy lenLeft) := by
          apply copyBytes_congr
          intro x inside
          rw [amountToCopy_eq, left more.1] at inside
          exact data x (by omega)
        rw [same.next, copied, add64_of_lt small]
        apply ih shows1 (rest.kept (Kept.note ..) shows.nonnull) (by omega)
        · intro again
          rw [left more.1, sub64_of_le (by omega), Nat.sub_sub]
        · exact Nat.dvd_add aligned (Nat.dvd_refl _)
    · simp only [if_neg more]
      exact .pure ⟨rfl, shows⟩

section

variable (shows : Shows [] h s) (made : .inode f ∈ h.made) (isFile : (s.inodes f).isDir = false)
include shows made isFile

theorem tempfsLength_coupled :
    Coupled (tempfsLength f) h (Fs.tempfsLength f) s (fun a t b u => a = b ∧ Shows [] t u) FollowsOwn := by
  have same : SameInode h s (h.inodes f) (s.inodes f) := shows.same _ made List.not_mem_nil
  apply Coupled.bind (inode_coupled shows (.inr made))
  rintro _ _ _ s ⟨rfl, rfl, -, rfl, rfl, shows1⟩
  rw [(same.file isFile).1]
  exact .pure ⟨rfl, shows1⟩

theorem tempfsRead_coupled (within : (h.inodes f).type = filetypeDevice ∨ maxLen ≤ (h.inodes f).length) :
    Coupled (tempfsRead f buffer maxLen) h (Fs.tempfsRead f buffer maxLen) s
      (fun a t b u => a = b ∧ Shows [] t u) FollowsOwn := by
  have same : SameInode h s (h.inodes f) (s.inodes f) := shows.same _ made List.not_mem_nil
  obtain ⟨length, type, operations, known, bytes, limit⟩ := same.file isFile
  unfold tempfsRead Fs.tempfsRead
  apply Coupled.bind (inode_coupled shows (.inr made))
  rintro _ _ _ s ⟨rfl, rfl, -, rfl, rfl, shows1⟩
  rw [type, length] at within
  rw [type]
  by_cases device : (s.inodes f).type = filetypeDevice
  · simp only [if_pos device, operations]
    cases (s.inodes f).operations.readOp with
    | none => exact .stops rfl rfl shows1.followed
    | some reads => exact .pure ⟨rfl, shows1⟩
  · simp only [if_neg device]
    have short : maxLen ≤ (s.inodes f).length := within.resolve_left device
    rw [same.firstNode]
    apply Coupled.bind (readNodes_coupled shows1 (fun _ => List.not_mem_nil)
      (bytes.kept (Kept.note ..) shows.nonnull) (by omega) (short.trans limit) (fun _ => rfl) (Nat.dvd_zero _))
    rintro filled t _ u ⟨rfl, shows2⟩
    exact .pure ⟨rfl, shows2⟩

end

end PotatOS.Fs.Reused
