import PotatOS.Fs.EntryCalls

/-!
# Names that can be stored and found again

A name of more than 20 bytes runs over its field. A shorter one stays in it, and the
lookup keeps leading to its inode.
-/

namespace PotatOS.Fs.Layout

open Memory Prog
open Mem (PageAllocator)

/-- The name goes into the field of the new inode and nowhere else, the lookup then leads to that inode, also after writes
to files, and the inode is as the call intends. -/
def Stores (A : PageAllocator) (devices : Nat → Option (Mem → Nat → Nat)) (files : List Nat) (k : Kernel) (dir : Nat)
    (name : Name)
    (c : Creation) : Prop :=
  ∃ p k' k₀, tempfsAddentry A.kmalloc dir name c.isDir k = .ok (p, k') ∧
    tempfsAddentry A.kmalloc dir [] c.isDir k = .ok (p, k₀) ∧ (∀ x, ¬ InRange p 20 x → k'.mem x = k₀.mem x) ∧
    tempfsFind dir name k' = .ok (p, k') ∧
    ∀ k'', c.run A.kmalloc dir name k = .ok ((), k'') → c.Intended k''.mem p ∧
      ∀ t, Writes A devices (c.files p files) k'' t → tempfsFind dir name t = .ok (p, t)

section stores

variable {A : PageAllocator} {devices : Nat → Option (Mem → Nat → Nat)} {k k₁ k₂ k' k'' t : Kernel}
  {live live' live'' : List (Nat × Nat)} {dir p q last x : Nat} {front es files nodes : List Nat} {name : Name}
  {c : Creation}
  {isDir : Bool} {m : Mem}

section watched

variable (heap : Mem.Heap A k live) (directory : Directory k live dir es) (watched : Watched k.mem dir es x)

include directory watched

theorem Watched.block : ∃ b ∈ live, b.2 ≠ sizeofFileNode ∧ InRange b.1 b.2 x := by
  rcases watched with first | ⟨e, listed, entry | inode⟩
  · refine ⟨_, directory.member, inode_ne_node, ?_⟩
    simp only [InRange, sizeofInode] at *
    omega
  · exact ⟨_, directory.entries e listed, (show sizeofDirEntryNode ≠ sizeofFileNode by decide), entry⟩
  · refine ⟨_, directory.inodes e listed, inode_ne_node, ?_⟩
    simp only [InRange, sizeofInode] at *
    omega

include heap

/-- The lookup reads no inode but its own directory behind the name. -/
theorem Watched.apart {f : Nat} (member : (f, sizeofInode) ∈ live) (other : f ≠ dir) : ¬ InRange (f + 32) 72 x := by
  intro inside
  have within : InRange f sizeofInode x := by
    simp only [InRange, sizeofInode] at *
    omega
  rcases watched with first | ⟨e, listed, entry | inode⟩
  · refine outside_of_ne heap member directory.member (fun same => other (congrArg Prod.fst same)) within ?_
    simp only [InRange, sizeofInode] at *
    omega
  · exact outside_of_ne heap member (directory.entries e listed) (inode_ne_entry f e) within entry
  · by_cases same : DirEntry.inode.of k.mem e = f
    · unfold InRange at *
      omega
    · refine outside_of_ne heap member (directory.inodes e listed) (fun eq => same (congrArg Prod.fst eq).symm) within ?_
      simp only [InRange, sizeofInode] at *
      omega

end watched

theorem Added.other_kept {b : Nat × Nat} (added : Added A k live dir last p q name isDir k')
    (heap : Mem.Heap A k live)
    (entry : LastEntry k live dir front last) (member : b ∈ live) (notDir : b ≠ (dir, sizeofInode))
    (notEntry : b ≠ (last, sizeofDirEntryNode))
    (inside : InRange b.1 b.2 x) : k'.mem x = k.mem x := by
  have fromDir := outside_of_ne heap member entry.member notDir inside
  have fromEntry := outside_of_ne heap member (entry.entries last (by simp)) notEntry inside
  simp only [InRange, sizeofInode, sizeofDirEntryNode] at fromDir fromEntry
  exact added.kept b member x inside (by unfold InRange; omega) (by unfold InRange; omega)

/-- The files are in order after the call, the new one too. -/
theorem filesOk_finish (added : Added A k live dir last p q name isDir k') (heap : Mem.Heap A k live)
    (entry : LastEntry k live dir front last) (ok : FilesOk k.mem live files nodes) (notFile : dir ∉ files)
    (finished : Finished A k' ((q, sizeofDirEntryNode) :: (p, sizeofInode) :: live) p k'' live'')
    (intended : c.Intended k''.mem p) : FilesOk k''.mem live'' (c.files p files) nodes := by
  have pMember : (p, sizeofInode) ∈ (q, sizeofDirEntryNode) :: (p, sizeofInode) :: live := second_mem
  have kept : ∀ b ∈ live, b ≠ (dir, sizeofInode) → b ≠ (last, sizeofDirEntryNode) → ∀ x, InRange b.1 b.2 x →
      k''.mem x = k.mem x := by
    intro b member notDir notEntry x inside
    have far := not_inRange_of_apart (added.fresh.inode b member) inside
    rw [finished.kept b (old_mem member) x inside (by simp only [InRange, sizeofInode] at *; omega)]
    exact added.other_kept heap entry member notDir notEntry inside
  have field : ∀ (f : Field) (a n : Nat), (a, n) ∈ live → (a, n) ≠ (dir, sizeofInode) → (a, n) ≠ (last, sizeofDirEntryNode) →
      f.offset + f.size ≤ n → f.of k''.mem a = f.of k.mem a := by
    intro f a n member notDir notEntry fits
    refine Field.of_congr fun x inside => kept _ member notDir notEntry x ?_
    unfold InRange at *
    omega
  have oldFirst : ∀ f ∈ files, Inode.type.of k''.mem f = filetypeDevice ∨ Inode.firstNode.of k''.mem f = 0 ∨
      Inode.firstNode.of k''.mem f ∈ nodes := by
    intro f listed
    have notDir : (f, sizeofInode) ≠ (dir, sizeofInode) := fun same => notFile ((Prod.mk.inj same).1 ▸ listed)
    rw [field Inode.type f _ (ok.blocks f listed) notDir (inode_ne_entry f last) (by decide),
      field Inode.firstNode f _ (ok.blocks f listed) notDir (inode_ne_entry f last) (by decide)]
    exact ok.first f listed
  have chains : NodesOk k''.mem live'' nodes := by
    intro n listed
    obtain ⟨block, next⟩ := ok.chains n listed
    refine ⟨finished.blocks _ (old_mem block), ?_⟩
    rw [field nextFileNode n _ block (fun same => by cases congrArg Prod.snd same)
      (fun same => by cases congrArg Prod.snd same) (by decide)]
    exact next
  have blocks : ∀ f ∈ files, (f, sizeofInode) ∈ live'' := fun f listed => finished.blocks _ (old_mem (ok.blocks f listed))
  have withNew : ∀ (first : Inode.type.of k''.mem p = filetypeDevice ∨ Inode.firstNode.of k''.mem p = 0 ∨
      Inode.firstNode.of k''.mem p ∈ nodes), FilesOk k''.mem live'' (p :: files) nodes := fun first =>
    ⟨chains, List.forall_mem_cons.mpr ⟨finished.blocks _ pMember, blocks⟩, List.forall_mem_cons.mpr ⟨first, oldFirst⟩⟩
  cases c with
  | mkdir => exact ⟨chains, blocks, oldFirst⟩
  | mkfile => exact withNew (.inr (.inl intended.first))
  | device ops => exact withNew (.inl intended.type)

theorem mem_files {f : Nat} (listed : f ∈ c.files p files) : f = p ∨ f ∈ files := by
  cases c with
  | mkdir => exact .inr listed
  | mkfile => exact List.mem_cons.mp listed
  | device ops => exact List.mem_cons.mp listed

/-- The lookup keeps leading to the new inode. -/
theorem finds_later (added : Added A k live dir last p q name c.isDir k') (heap : Mem.Heap A k live)
    (entry : LastEntry k live dir front last)
    (inodes : ∀ e ∈ front ++ [last], (DirEntry.inode.of k.mem e, sizeofInode) ∈ live)
    (ok : FilesOk k.mem live files nodes) (notFile : dir ∉ files) (short : name.length ≤ 20)
    (finds : Finds k'.mem dir (front ++ [last]) q p name)
    (finished : Finished A k' ((q, sizeofDirEntryNode) :: (p, sizeofInode) :: live) p k'' live'')
    (intended : c.Intended k''.mem p)
    (writes : Writes A devices (c.files p files) k'' t) : tempfsFind dir name t = .ok (p, t) := by
  have pMember : (p, sizeofInode) ∈ (q, sizeofDirEntryNode) :: (p, sizeofInode) :: live := second_mem
  have new := added.new
  have notDir : p ≠ dir := by
    rintro rfl
    exact new entry.member
  have directory := added.directory heap entry inodes
  have filesOk := filesOk_finish added heap entry ok notFile finished intended
  obtain ⟨live', nodes', written⟩ := writes.written finished.heap filesOk
  have later : Finds t.mem dir (front ++ [last]) q p name := by
    refine finds.congr short fun x watched => ?_
    obtain ⟨b, member, notNode, inside⟩ := watched.block directory
    have apart : ∀ f, (f, sizeofInode) ∈ (q, sizeofDirEntryNode) :: (p, sizeofInode) :: live → f ≠ dir →
        ¬ InRange (f + 32) 72 x :=
      fun f listed other => watched.apart added.heap directory listed other
    rw [written.spares b (finished.blocks b member) notNode x inside,
      finished.kept b member x inside (apart p pMember notDir)]
    intro f listed
    have far : ¬ InRange (f + 32) 72 x := by
      rcases mem_files listed with rfl | file
      · exact apart f pMember notDir
      · exact apart f (old_mem (ok.blocks f file)) fun same => notFile (same ▸ file)
    unfold InRange at *
    omega
  exact later.run written.heap (written.blocks _ (finished.blocks _ directory.member))
    (fun e listed => written.blocks _ (finished.blocks _ (directory.entries e listed))) added.fresh.inodeBounds.1.ne'

end stores

section theorems

variable {A : PageAllocator} {k k₁ k₂ : Kernel} {live : List (Nat × Nat)} {dir p q last : Nat} {front es : List Nat}
  {name : Name} {isDir : Bool} {m : Mem}

theorem foundIn_listed (rest : List Nat) (listed : ∃ e ∈ es, SpellsAt m (DirEntry.inode.of m e) name) :
    ∃ e ∈ es, foundIn m name (es ++ rest) = DirEntry.inode.of m e := by
  obtain ⟨e, member, spells⟩ := listed
  have some : (es.find? fun e => decide (SpellsAt m (DirEntry.inode.of m e) name)).isSome :=
    List.find?_isSome.mpr ⟨e, member, by simpa using spells⟩
  obtain ⟨found, here⟩ := Option.isSome_iff_exists.mp some
  refine ⟨found, List.mem_of_find?_eq_some here, ?_⟩
  rw [foundIn, List.find?_append, here]
  rfl

/-- A name behind its field shows in the memory. -/
theorem withEntry_long (fresh : Fresh live p q) (dirMember : (dir, sizeofInode) ∈ live)
    (lastMember : (last, sizeofDirEntryNode) ∈ live)
    (noZero : 0 ∉ name)
    (same : ∀ x, ¬ InRange p 20 x → withEntry m dir last p q name isDir x = withEntry m dir last p q [] isDir x) :
    name.length ≤ 20 := by
  by_contra long
  have here := same (p + 20) (by unfold InRange; omega)
  rw [withEntry_name fresh dirMember lastMember (by decide) (by decide),
    withEntry_name fresh dirMember lastMember (by decide) (by decide), List.getD_eq_getElem _ _ (by omega)] at here
  have zero : name[20] = 0 := here
  exact noZero (zero ▸ List.getElem_mem (by omega))

/-- Another entry under the name is in front of the new one. -/
theorem Added.not_hidden {k' : Kernel} (added : Added A k live dir last p q name isDir k') (heap : Mem.Heap A k live)
    (entry : LastEntry k live dir front last) (short : name.length ≤ 20)
    (inodes : ∀ e ∈ front ++ [last], (DirEntry.inode.of k.mem e, sizeofInode) ∈ live)
    (found : tempfsFind dir name k' = .ok (p, k')) :
    ∀ e ∈ front ++ [last], ¬ SpellsAt k.mem (DirEntry.inode.of k.mem e) name := by
  intro e member spells
  have new := added.new
  have run := (added.directory heap entry inodes).find added.heap name
  have hidden : SpellsAt k'.mem (DirEntry.inode.of k'.mem e) name := by
    rw [added.entry_inode heap entry member, added.spells_old heap entry short (inodes e member)]
    exact spells
  obtain ⟨e', member', first⟩ := foundIn_listed [q] ⟨e, member, hidden⟩
  rw [first, added.entry_inode heap entry member'] at run
  obtain ⟨same, -⟩ := Prod.mk.inj (Except.ok.inj (run.symm.trans found))
  exact new (same ▸ inodes e' member')

end theorems

/-- A name can be stored exactly when it has at most 20 bytes, the count of the directory leads to an entry, and no entry
up to there has the name. -/
theorem stores_iff (A : PageAllocator) (devices : Nat → Option (Mem → Nat → Nat)) (k k₁ k₂ : Kernel)
    (live : List (Nat × Nat))
    (es files nodes : List Nat) (dir p q : Nat) (name : Name) (c : Creation) (heap : Mem.Heap A k live)
    (room : Room A k k₁ k₂ p q)
    (directory : Directory k live dir es) (ok : FilesOk k.mem live files nodes) (notFile : dir ∉ files)
    (noZero : 0 ∉ name) :
    Stores A devices files k dir name c ↔ name.length ≤ 20 ∧ Inode.numEntries.of k.mem dir < es.length ∧
      ∀ e ∈ es.take (Inode.numEntries.of k.mem dir + 1), ¬ SpellsAt k.mem (DirEntry.inode.of k.mem e) name := by
  have fresh := fresh_of_heap (room.heap heap).1
  generalize count : Inode.numEntries.of k.mem dir = n
  constructor
  · rintro ⟨p', k', k₀, run, run₀, same, found, -⟩
    have counted : n < es.length := by
      by_contra past
      rw [addentry_past heap room directory.member directory.linked directory.nonempty directory.entries (by omega)] at run
      cases run
    have entry := directory.lastEntry count counted
    rw [addentry_run heap entry room name c.isDir] at run
    rw [addentry_run heap entry room [] c.isDir] at run₀
    obtain ⟨rfl, rfl⟩ := Prod.mk.inj (Except.ok.inj run)
    obtain ⟨-, rfl⟩ := Prod.mk.inj (Except.ok.inj run₀)
    have lastMember := entry.entries _ (List.mem_append_right _ List.mem_cons_self)
    have short := withEntry_long fresh directory.member lastMember noZero same
    refine ⟨short, counted, ?_⟩
    rw [← List.take_append_getElem counted]
    refine (added c.isDir heap entry room short).not_hidden heap entry short (fun e listed => directory.inodes e ?_) found
    rw [List.take_append_getElem] at listed
    exact List.mem_of_mem_take listed
  · rintro ⟨short, counted, absent⟩
    have entry := directory.lastEntry count counted
    have lastMember := entry.entries _ (List.mem_append_right _ List.mem_cons_self)
    have apart := heap.apart directory.member lastMember (inode_ne_entry _ _)
    have isAdded := added c.isDir heap entry room short
    rw [← List.take_append_getElem counted] at absent
    have inodes : ∀ e ∈ es.take n ++ [es[n]], (DirEntry.inode.of k.mem e, sizeofInode) ∈ live := by
      intro e listed
      rw [List.take_append_getElem] at listed
      exact directory.inodes e (List.mem_of_mem_take listed)
    have run := addentry_run heap entry room name c.isDir
    have finds := isAdded.finds heap entry short inodes absent
    refine ⟨p, _, _, run, addentry_run heap entry room [] c.isDir, ?_, ?_, fun k'' call => ?_⟩
    · exact fun x outside => withEntry_field fresh short directory.member apart outside
    · rw [(isAdded.directory heap entry inodes).find isAdded.heap name, foundIn_last finds.inode finds.spells finds.others]
    · rw [c.run_eq, bind_eq run] at call
      obtain ⟨live'', finished, intended⟩ := finish_ok isAdded short call
      exact ⟨intended, fun t writes => finds_later isAdded heap entry inodes ok notFile short finds finished intended writes⟩

/-- A new heap with a directory that has only its dot. -/
def withDirectory : KernelM Nat := do
  Mem.initKheap Mem.pmm.kmalloc
  let dir ← Mem.malloc Mem.pmm.kmalloc sizeofInode
  kuMemset dir 0 sizeofInode
  let _ ← makeDot Mem.pmm.kmalloc dir
  return dir

theorem withDirectory_ok {dir : Nat} {k : Kernel} (run : withDirectory Mem.smallMachineReady = .ok (dir, k))
    (ends : DirEntry.nextNode.of k.mem (Inode.firstNode.of k.mem dir) = 0) :
    ∃ live e, Mem.Heap Mem.pmm k live ∧ Directory k live dir [e] ∧ Inode.numEntries.of k.mem dir = 0 ∧
      SpellsAt k.mem (DirEntry.inode.of k.mem e) [46] := by
  unfold withDirectory kuMemset at run
  obtain ⟨⟨⟩, k₁, started, run⟩ := bind_ok run
  have heap : Mem.Heap Mem.pmm k₁ [] := by
    obtain ⟨ready, rep⟩ := Mem.initKheap_ok Mem.smallMachineReady_ready
      (by simp [Mem.smallMachineReady, Mem.smallMachine]) started
    exact ⟨ready, rep⟩
  obtain ⟨p, k₂, got, run⟩ := bind_ok run
  obtain ⟨heap₂, -⟩ := heap.malloc (by decide) got
  rw [bind_eq (run_modify _)] at run
  have cleared := heap₂.write List.mem_cons_self (m := fill k₂.mem p sizeofInode 0) fun x outside => fill_outside outside
  obtain ⟨a, k₃, dot, run⟩ := bind_ok run
  obtain ⟨rfl, rfl⟩ := pure_ok run
  obtain ⟨e, i, dotted⟩ := makeDot_ok cleared List.mem_cons_self dot
  have count : Inode.numEntries.of k₃.mem p = 0 := by
    refine load_zero fun x inside => ?_
    simp only [InRange, Inode.numEntries] at inside
    rw [dotted.kept _ List.mem_cons_self x ⟨by omega, by simp only [sizeofInode]; omega⟩ (by unfold InRange; omega)]
    exact fill_inside ⟨by omega, by simp only [sizeofInode]; omega⟩
  rw [dotted.first] at ends
  refine ⟨_, e, dotted.heap, ⟨by simp, ⟨dotted.first, ?_, ends⟩, by simp, by simp, by simp [dotted.inode]⟩, count, ?_⟩
  · exact (dotted.heap.bounds (b := (e, sizeofDirEntryNode)) (by simp)).1.ne'
  · rw [dotted.inode]
    exact dotted.spells

theorem withDirectory_room : returns withDirectory Mem.smallMachineReady (fun dir k =>
    decide (DirEntry.nextNode.of k.mem (Inode.firstNode.of k.mem dir) = 0) &&
      returns (Mem.malloc Mem.pmm.kmalloc sizeofInode) k (fun _ k₁ =>
        returns (Mem.malloc Mem.pmm.kmalloc sizeofDirEntryNode) k₁ fun _ _ => true)) = true := by
  decide +kernel

theorem stores_iff_twenty_letters : ∃ dir k, withDirectory Mem.smallMachineReady = .ok (dir, k) ∧
    Stores Mem.pmm (fun _ => none) [] k dir (List.replicate 20 97) .mkfile := by
  obtain ⟨dir, k, run, check⟩ := returns_iff.mp withDirectory_room
  simp only [Bool.and_eq_true, returns_iff, decide_eq_true_eq] at check
  obtain ⟨ends, p, k₁, inode, q, k₂, entry, -⟩ := check
  obtain ⟨live, e, heap, directory, count, spells⟩ := withDirectory_ok run ends
  have other : ¬ SpellsAt k.mem (DirEntry.inode.of k.mem e) (List.replicate 20 97) := by
    intro also
    have first : Reused.nameBytes [46] 0 = Reused.nameBytes (List.replicate 20 97) 0 :=
      (spells 0 (by decide)).symm.trans (also 0 (by decide))
    revert first
    decide
  refine ⟨dir, k, run, (stores_iff Mem.pmm (fun _ => none) k k₁ k₂ live [e] [] [] dir p q (List.replicate 20 97) .mkfile heap
    ⟨inode, entry⟩ directory ⟨by simp [NodesOk], by simp, by simp⟩ (by simp) (by decide)).mpr ⟨by decide, ?_, ?_⟩⟩
  · rw [count]
    exact Nat.zero_lt_one
  · rw [count]
    simpa using other

/-- 33 letters -/
def longName : Name := List.replicate 33 97

/-- The last letter is the length of the file. A write of five bytes sets the length, and the file is lost. -/
theorem long_name_lost : ∃ dir k t p u, withDirectory Mem.smallMachineReady = .ok (dir, k) ∧
    ¬ Stores Mem.pmm (fun _ => none) [] k dir longName .mkfile ∧ tempfsMkfile Mem.pmm.kmalloc dir longName k = .ok ((), t) ∧
    p ≠ 0 ∧ (∃ v, tempfsFind dir longName t = .ok (p, v)) ∧ Inode.length.of t.mem p = 97 ∧
    tempfsWrite Mem.pmm.kmalloc (fun _ => none) p (fun _ => 0) 5 t = .ok (0, u) ∧
    ∃ v, tempfsFind dir longName u = .ok (0, v) := by
  have check : returns withDirectory Mem.smallMachineReady (fun dir k =>
      returns (tempfsAddentry Mem.pmm.kmalloc dir longName false) k (fun p k' =>
        returns (tempfsAddentry Mem.pmm.kmalloc dir [] false) k (fun _ k₀ => decide (k'.mem (p + 20) ≠ k₀.mem (p + 20)))) &&
      returns (tempfsMkfile Mem.pmm.kmalloc dir longName) k (fun _ t =>
        returns (tempfsFind dir longName) t (fun p _ => decide (p ≠ 0 ∧ Inode.length.of t.mem p = 97) &&
          returns (tempfsWrite Mem.pmm.kmalloc (fun _ => none) p (fun _ => 0) 5) t (fun r u => decide (r = 0) &&
            returns (tempfsFind dir longName) u (fun p _ => decide (p = 0)))))) = true := by
    decide +kernel
  simp only [Bool.and_eq_true, returns_iff, decide_eq_true_eq] at check
  obtain ⟨dir, k, run, ⟨a, k', added, b, k₀, empty, other⟩, ⟨⟩, t, made, p, v, found, ⟨nonnull, length⟩, rest⟩ := check
  obtain ⟨_, u, written, rfl, _, w, lost, rfl⟩ := rest
  refine ⟨dir, k, t, p, u, run, ?_, made, nonnull, ⟨v, found⟩, length, written, w, lost⟩
  rintro ⟨a', s', s₀, again, empty', same, -⟩
  obtain ⟨rfl, rfl⟩ := Prod.mk.inj (Except.ok.inj (added.symm.trans again))
  obtain ⟨-, rfl⟩ := Prod.mk.inj (Except.ok.inj (empty.symm.trans empty'))
  exact other (same (a + 20) (by unfold InRange; omega))

end PotatOS.Fs.Layout
