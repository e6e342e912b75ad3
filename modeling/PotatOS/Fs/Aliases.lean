import PotatOS.Fs.Dots
import Mathlib.Data.Set.Finite.Basic

/-!
# Creating through `.` and `..`

The inodes behind `.` and `..` share the chain of their directory but count its
entries themselves, and a new entry goes behind the one that the inode in use
counts to. `Shape` holds in every state, also after entries were lost; it shows
that no creation through `.` or `..` does what the direct one does.
-/

namespace PotatOS.Fs

open Prog

variable {s t u : TempFs} {base d a b i e last head : Nat} {front lost chain newChain : List Nat}
  {home home' : Nat → Nat} {x c : Name}

/-! ### Chains from which entries may have been cut -/

/-- The entries in the chain from `head`; `home` is the chain that an entry was put into. -/
structure ChainFrom (s : TempFs) (base : Nat) (home : Nat → Nat) (head : Nat) (chain : List Nat) : Prop where
  linked : Linked s.nextEntry head chain
  nonempty : chain ≠ []
  old : ∀ e ∈ chain, e ≤ s.used ∧ home e = head
  leads : ∀ e ∈ chain, base < s.entryInode e ∧ s.entryInode e ≤ s.used
  names : (chain.map s.entryName).Nodup
  self : s.entryName head = dot ∧ (s.inodes (s.entryInode head)).isDir = true ∧
    (s.inodes (s.entryInode head)).firstNode = head
  deeper : ∀ e ∈ chain, s.entryName e ≠ dot → s.entryName e ≠ dotDot →
    (s.inodes (s.entryInode e)).isDir = true → head < (s.inodes (s.entryInode e)).firstNode

/-- Every directory inode given out after `base` has such a chain. -/
structure Shape (s : TempFs) (base : Nat) (home : Nat → Nat) : Prop where
  old : ∀ a, base < a → (s.inodes a).isDir = true → a ≤ s.used
  chains : ∀ a, base < a → (s.inodes a).isDir = true → ∃ chain, ChainFrom s base home (s.inodes a).firstNode chain

namespace ChainFrom

theorem head_mem (entries : ChainFrom s base home head chain) : head ∈ chain := by
  obtain ⟨e, rest, rfl⟩ := List.exists_cons_of_ne_nil entries.nonempty
  rw [entries.linked.1]
  exact List.mem_cons_self ..

/-- `tempfs_find` finds exactly the entries of the chain. -/
theorem child_iff (entries : ChainFrom s base home (s.inodes a).firstNode chain) (nonnull : a ≠ 0) :
    s.child a c = some i ↔ ∃ e ∈ chain, s.entryName e = c ∧ s.entryInode e = i := by
  have find : tempfsFind a c s =
      .ok (((chain.find? fun e => s.entryName e = c).map s.entryInode).getD 0, s) :=
    tempfsFind_run nonnull entries.linked entries.nonempty (fun e inside => (entries.old e inside).1)
      fun e inside => Nat.ne_of_gt (Nat.zero_lt_of_lt (entries.leads e inside).1)
  rw [child_of_find find]
  cases found : chain.find? fun e => s.entryName e = c with
  | none =>
    have missed := List.find?_eq_none.mp found
    constructor
    · intro impossible
      cases impossible
    · rintro ⟨e, inside, name, -⟩
      exact absurd name (by simpa using missed e inside)
  | some e =>
    have inside := List.mem_of_find?_eq_some found
    have name : s.entryName e = c := by simpa using List.find?_some found
    have leads : s.entryInode e ≠ 0 := Nat.ne_of_gt (Nat.zero_lt_of_lt (entries.leads e inside).1)
    rw [Option.map_some, Option.getD_some, if_neg leads]
    constructor
    · intro same
      exact ⟨e, inside, name, Option.some.inj same⟩
    · rintro ⟨e', inside', name', rfl⟩
      rw [List.inj_on_of_nodup_map entries.names inside inside' (name.trans name'.symm)]

theorem child_none (entries : ChainFrom s base home (s.inodes a).firstNode chain) (nonnull : a ≠ 0)
    (absent : ∀ e ∈ chain, s.entryName e ≠ c) : s.child a c = none := by
  cases found : s.child a c with
  | none => rfl
  | some i =>
    obtain ⟨e, inside, name, -⟩ := (entries.child_iff nonnull).mp found
    exact absurd name (absent e inside)

theorem child_eq (entries : ChainFrom s base home (s.inodes a).firstNode chain) (nonnull : a ≠ 0)
    (entries' : ChainFrom t base home' (t.inodes a).firstNode chain)
    (same : ∀ e ∈ chain, t.entryName e = s.entryName e ∧ t.entryInode e = s.entryInode e) (c : Name) :
    t.child a c = s.child a c := by
  ext i
  have found : t.child a c = some i ↔ s.child a c = some i := by
    rw [entries.child_iff nonnull, entries'.child_iff nonnull]
    refine exists_congr fun e => and_congr_right fun inside => ?_
    rw [(same e inside).1, (same e inside).2]
  exact found

theorem congr (entries : ChainFrom s base home head chain) (used : s.used ≤ t.used)
    (next : ∀ e ∈ chain, t.nextEntry e = s.nextEntry e) (leads : ∀ e ∈ chain, t.entryInode e = s.entryInode e)
    (inodes : ∀ a ≤ s.used, (t.inodes a).filename = (s.inodes a).filename ∧ (t.inodes a).isDir = (s.inodes a).isDir ∧
      ((s.inodes a).isDir = true → (t.inodes a).firstNode = (s.inodes a).firstNode))
    (homes : ∀ e ∈ chain, home' e = home e) : ChainFrom t base home' head chain := by
  have names : ∀ e ∈ chain, t.entryName e = s.entryName e := by
    intro e inside
    unfold TempFs.entryName
    rw [leads e inside]
    exact (inodes _ (entries.leads e inside).2).1
  have kind : ∀ e ∈ chain, (t.inodes (s.entryInode e)).isDir = (s.inodes (s.entryInode e)).isDir ∧
      ((s.inodes (s.entryInode e)).isDir = true →
        (t.inodes (s.entryInode e)).firstNode = (s.inodes (s.entryInode e)).firstNode) := by
    intro e inside
    exact (inodes _ (entries.leads e inside).2).2
  have first := entries.head_mem
  refine ⟨entries.linked.congr next, entries.nonempty, ?_, ?_, ?_, ?_, ?_⟩
  · intro e inside
    obtain ⟨old, at_⟩ := entries.old e inside
    exact ⟨old.trans used, (homes e inside).trans at_⟩
  · intro e inside
    obtain ⟨above, old⟩ := entries.leads e inside
    rw [leads e inside]
    exact ⟨above, old.trans used⟩
  · rw [List.map_congr_left names]
    exact entries.names
  · obtain ⟨name, isDir, first'⟩ := entries.self
    rw [names head first, leads head first, (kind head first).1, (kind head first).2 isDir]
    exact ⟨name, isDir, first'⟩
  · intro e inside notDot notDotDot isDir
    rw [names e inside] at notDot notDotDot
    rw [leads e inside, (kind e inside).1] at isDir
    rw [leads e inside, (kind e inside).2 isDir]
    exact entries.deeper e inside notDot notDotDot isDir

end ChainFrom

/-! ### The calls that create -/

theorem entryAt_past {n : Nat} (linked : Linked s.nextEntry a chain) (past : chain.length ≤ n) :
    entryAt n a s = .ok (0, s) ∨ entryAt n a s = .error .fault := by
  induction chain generalizing a n with
  | nil =>
    obtain rfl : a = 0 := linked
    cases n with
    | zero => exact .inl rfl
    | succ n => exact .inr rfl
  | cons e chain ih =>
    obtain ⟨rfl, nonnull, tail⟩ := linked
    obtain ⟨n, rfl⟩ := Nat.exists_eq_succ_of_ne_zero (show n ≠ 0 by simp at past; omega)
    rw [entryAt, bind_eq (dirEntry_run nonnull)]
    exact ih tail (by simpa using past)

theorem addentry_counts {isDir : Bool} {r : Nat × TempFs} (nonnull : d ≠ 0)
    (linked : Linked s.nextEntry (s.inodes d).firstNode chain) (nonempty : chain ≠ [])
    (old : ∀ e ∈ chain, e ≤ s.used) (run : tempfsAddentry d x isDir s = .ok r) :
    (s.inodes d).numEntries < chain.length := by
  by_contra past
  have first : (s.inodes d).firstNode ≠ 0 := by
    obtain ⟨e, rest, rfl⟩ := List.exists_cons_of_ne_nil nonempty
    rw [linked.1]
    exact linked.2.1
  let v : TempFs := { s with
    inodes := Function.update s.inodes (s.used + 1) {}
    dirEntries := Function.update s.dirEntries (s.used + 1 + 1) {}
    used := s.used + 1 + 1 }
  have linked' : Linked v.nextEntry (s.inodes d).firstNode chain := by
    refine linked.congr fun e inside => ?_
    have below := old e inside
    change (Function.update s.dirEntries (s.used + 1 + 1) {} e).nextNode = _
    rw [Function.update_of_ne (by omega)]
    rfl
  unfold tempfsAddentry at run
  rw [bind_eq (inode_run nonnull), bind_eq mallocInode_run, bind_eq mallocDirEntry_run] at run
  dsimp only at run
  rw [if_pos first] at run
  rcases entryAt_past (n := (s.inodes d).numEntries) linked' (by omega) with null | fault
  · rw [bind_eq (s := v) null] at run
    cases run
  · rw [bind_error (s := v) fault] at run
    cases run

theorem Maker.addentry {maker : Maker} (run : maker.call d x s = .ok (⟨⟩, t)) :
    ∃ isDir r, tempfsAddentry d x isDir s = .ok r := by
  cases maker with
  | dir =>
    obtain ⟨_, _, added, -⟩ := bind_ok run
    exact ⟨_, _, added⟩
  | file =>
    obtain ⟨_, _, added, -⟩ := bind_ok run
    exact ⟨_, _, added⟩
  | device operations =>
    obtain ⟨_, _, added, -⟩ := bind_ok run
    exact ⟨_, _, added⟩

/-- What the call makes is a directory. -/
def Maker.makesDir : Maker → Bool
  | .dir => true
  | _ => false

/-- What a call makes: no directory is a device that was not one before. -/
structure Makes (s t : TempFs) (maker : Maker) : Prop where
  isDir : (t.inodes (s.used + 1)).isDir = maker.makesDir
  plain : ∀ a, (t.inodes a).isDir = true → (t.inodes a).type = filetypeDevice →
    (s.inodes a).isDir = true ∧ (s.inodes a).type = filetypeDevice

theorem Added.plain {node : Inode} (added : Added s t d last node) (harmless : node.isDir = true → node.type ≠ filetypeDevice)
    (a : Nat) (isDir : (t.inodes a).isDir = true) (device : (t.inodes a).type = filetypeDevice) :
    (s.inodes a).isDir = true ∧ (s.inodes a).type = filetypeDevice := by
  by_cases new : a = s.used + 1
  · rw [new, added.inode] at isDir device
    exact absurd device (harmless isDir)
  by_cases here : a = d
  · rw [here, added.dir] at isDir device
    rw [here]
    exact ⟨isDir, device⟩
  · rw [added.inodes a here new] at isDir device
    exact ⟨isDir, device⟩

theorem Furnished.plain {n parent : Nat} (furnished : Furnished s t n base parent) (a : Nat)
    (isDir : (t.inodes a).isDir = true) (device : (t.inodes a).type = filetypeDevice) :
    (s.inodes a).isDir = true ∧ (s.inodes a).type = filetypeDevice := by
  have zero : 0 ≠ filetypeDevice := by decide
  by_cases here : a = n
  · rw [here, furnished.dir] at isDir device
    rw [here]
    exact ⟨isDir, device⟩
  by_cases isDot : a = base + 2
  · rw [isDot, furnished.dotInode] at device
    exact absurd device zero
  by_cases isDotDot : a = base + 3
  · rw [isDotDot, furnished.dotDotInode] at device
    exact absurd device zero
  · rw [furnished.inodes a here isDot isDotDot] at isDir device
    exact ⟨isDir, device⟩

/-- A call created `x` through `d`, which counted to the entry `last`. -/
structure Made (s t : TempFs) (d last : Nat) (x : Name) (newChain : List Nat) : Prop where
  grown : Grown s t d last (s.used + 1) (s.used + 2) x newChain
  newDirs : ∀ a, s.used < a → (t.inodes a).isDir = true → (s.inodes a).isDir = true ∨
    a ≤ t.used ∧ (t.inodes (s.used + 1)).isDir = true ∧
      ((t.inodes a).firstNode = (t.inodes (s.used + 1)).firstNode ∨ (t.inodes a).firstNode = (s.inodes d).firstNode)
  newHead : (t.inodes (s.used + 1)).isDir = true → ∃ dotEntry dotDotEntry, newChain = [dotEntry, dotDotEntry] ∧
    s.used < t.entryInode dotEntry ∧ s.used < t.entryInode dotDotEntry ∧
    (t.inodes (t.entryInode dotEntry)).isDir = true ∧ (t.inodes (t.entryInode dotEntry)).firstNode = dotEntry

/-- Every call that returns, with what it counted to. -/
theorem make_run {maker : Maker} (nonnull : d ≠ 0) (old : d ≤ s.used)
    (entries : ChainFrom s base home (s.inodes d).firstNode chain) (run : maker.call d x s = .ok (⟨⟩, t)) :
    ∃ front last lost newChain, chain = front ++ last :: lost ∧ (s.inodes d).numEntries = front.length ∧
      Made s t d last x newChain ∧ Makes s t maker := by
  have below : ∀ e ∈ chain, e ≤ s.used := fun e inside => (entries.old e inside).1
  obtain ⟨isDir, r, added⟩ := Maker.addentry run
  have counts := addentry_counts nonnull entries.linked entries.nonempty below added
  obtain ⟨front, last, lost, split, count⟩ : ∃ front last lost, chain = front ++ last :: lost ∧
      (s.inodes d).numEntries = front.length := by
    refine ⟨chain.take (s.inodes d).numEntries, chain[(s.inodes d).numEntries],
      chain.drop ((s.inodes d).numEntries + 1), ?_, ?_⟩
    · rw [← List.drop_eq_getElem_cons counts, List.take_append_drop]
    · rw [List.length_take]
      omega
  have linked := entries.linked
  rw [split] at linked below
  have lastOld : last ≤ s.used := below last (by simp)
  -- A file or a device has no directories of its own.
  have plain : ∀ {node : Inode}, Added s t d last node → node.isDir = false → node.filename = x →
      Made s t d last x [] ∧ (t.inodes (s.used + 1)).isDir = false := by
    intro node added leaf name
    have kind : (t.inodes (s.used + 1)).isDir = false := by rw [added.inode]; exact leaf
    refine ⟨⟨name ▸ added.grown leaf old, fun a new isDir => ?_, fun isDir => ?_⟩, kind⟩
    · by_cases self : a = s.used + 1
      · rw [self, kind] at isDir
        cases isDir
      · rw [added.inodes a (by omega) self] at isDir
        exact .inl isDir
    · rw [kind] at isDir
      cases isDir
  cases maker with
  | dir =>
    obtain ⟨u, run', v, added, furnished⟩ := tempfsMkdir_run x nonnull old linked count below
    obtain rfl : u = t := (Prod.mk.inj (Except.ok.inj (run'.symm.trans run))).2
    have used := added.used
    have used' := furnished.used
    have isDir : (u.inodes (s.used + 1)).isDir = true := by rw [furnished.dir, added.inode]
    refine ⟨front, last, lost, _, split, count, ⟨added.grown_dir furnished old lastOld, fun a new kind => ?_, fun _ => ?_⟩,
      isDir, fun a kind device => ?_⟩
    · by_cases self : a = s.used + 1
      · exact .inr ⟨by omega, isDir, .inl (by rw [self])⟩
      by_cases isDot : a = v.used + 2
      · refine .inr ⟨by omega, isDir, .inl ?_⟩
        rw [isDot, furnished.dotInode, furnished.dir]
      by_cases isDotDot : a = v.used + 3
      · refine .inr ⟨by omega, isDir, .inr ?_⟩
        rw [isDotDot, furnished.dotDotInode]
      · rw [furnished.inodes a self isDot isDotDot, added.inodes a (by omega) self] at kind
        exact .inl kind
    · have dotLeads : u.entryInode (v.used + 1) = v.used + 2 := by
        unfold TempFs.entryInode
        rw [furnished.dotEntry]
      have dotDotLeads : u.entryInode (v.used + 4) = v.used + 3 := by
        unfold TempFs.entryInode
        rw [furnished.dotDotEntry]
      refine ⟨_, _, rfl, by omega, by omega, ?_, ?_⟩
      · rw [dotLeads, furnished.dotInode]
      · rw [dotLeads, furnished.dotInode]
    · obtain ⟨kind, device⟩ := furnished.plain a kind device
      exact added.plain (by simp [filetypeDevice]) a kind device
  | file =>
    obtain ⟨u, run', added⟩ := tempfsMkfile_run x nonnull old linked count below
    obtain rfl : u = t := (Prod.mk.inj (Except.ok.inj (run'.symm.trans run))).2
    obtain ⟨made, isDir⟩ := plain added rfl rfl
    exact ⟨front, last, lost, [], split, count, made, isDir, added.plain (by simp [filetypeDevice])⟩
  | device operations =>
    obtain ⟨u, run', added⟩ := tempfsCreateDevice_run x nonnull old linked count below operations
    obtain rfl : u = t := (Prod.mk.inj (Except.ok.inj (run'.symm.trans run))).2
    obtain ⟨made, isDir⟩ := plain added rfl rfl
    exact ⟨front, last, lost, [], split, count, made, isDir, added.plain (by simp)⟩

def Known (base : Nat) (s : TempFs) (a : Nat) : Prop := base < a ∧ a ≤ s.used

/-- What a creation of `x` through `d` does to the chains: the entries `lost`, behind the one that `d` counted
to, are replaced by the new entry `e`. -/
structure Spliced (s t : TempFs) (base : Nat) (home home' : Nat → Nat) (d : Nat) (x : Name) (front : List Nat)
    (last : Nat) (lost : List Nat) (e : Nat) : Prop where
  before : ChainFrom s base home (s.inodes d).firstNode (front ++ last :: lost)
  count : (s.inodes d).numEntries = front.length
  used : s.used ≤ t.used
  shape : Shape t base home'
  after : ChainFrom t base home' (s.inodes d).firstNode (front ++ [last] ++ [e])
  new : t.entryName e = x ∧ s.used < e ∧
    ((t.inodes (t.entryInode e)).isDir = true → s.used < (t.inodes (t.entryInode e)).firstNode)
  kept : ∀ e ∈ front ++ last :: lost, t.entryName e = s.entryName e ∧ t.entryInode e = s.entryInode e
  others : ∀ b, Known base s b → (s.inodes b).isDir = true → (s.inodes b).firstNode ≠ (s.inodes d).firstNode →
    ∀ c, t.child b c = s.child b c
  inodes : ∀ b ≤ s.used, (t.inodes b).filename = (s.inodes b).filename ∧ (t.inodes b).isDir = (s.inodes b).isDir ∧
    ((s.inodes b).isDir = true → (t.inodes b).firstNode = (s.inodes b).firstNode ∧
      (b ≠ d → (t.inodes b).numEntries = (s.inodes b).numEntries))

theorem Made.after (made : Made s t d last x newChain)
    (entries : ChainFrom s base home (s.inodes d).firstNode (front ++ last :: lost))
    (fresh : ∀ e ∈ front ++ last :: lost, s.entryName e ≠ x) (baseOld : base ≤ s.used)
    (homes : ∀ e ≤ s.used, home' e = home e) (homeNew : home' (s.used + 2) = (s.inodes d).firstNode) :
    ChainFrom t base home' (s.inodes d).firstNode (front ++ [last] ++ [s.used + 2]) := by
  have grown := made.grown
  have within : ∀ e ∈ front ++ [last], e ∈ front ++ last :: lost := by
    intro e inside
    simp only [List.mem_append, List.mem_cons, List.not_mem_nil, or_false] at inside ⊢
    tauto
  have below : ∀ e ∈ front ++ [last], e ≤ s.used := fun e inside => (entries.old e (within e inside)).1
  have leads : ∀ e ∈ front ++ [last], t.entryInode e = s.entryInode e := fun e inside =>
    grown.entryInode_kept (below e inside)
  have names : ∀ e ∈ front ++ [last], t.entryName e = s.entryName e := fun e inside =>
    grown.entryName_kept (below e inside) (entries.leads e (within e inside)).2
  have newName : t.entryName (s.used + 2) = x := by
    unfold TempFs.entryName
    rw [grown.leads]
    exact grown.filename
  have headIn : (s.inodes d).firstNode ∈ front ++ [last] := by
    have linked := entries.linked
    cases front with
    | nil => rw [linked.1]; exact List.mem_singleton_self _
    | cons e front => rw [linked.1]; exact List.mem_cons_self ..
  have headOld := below _ headIn
  refine ⟨?_, by simp, ?_, ?_, ?_, ?_, ?_⟩
  · have seam : t.nextEntry last = s.used + 2 := by
      unfold TempFs.nextEntry
      rw [grown.link]
    apply entries.linked.splice (Nat.succ_ne_zero _) seam grown.ends
    intro e inside notLast
    unfold TempFs.nextEntry
    rw [grown.dirEntries e notLast (below e (by simp [inside]))]
  · intro e inside
    rcases List.mem_append.mp inside with inside | new
    · obtain ⟨old, at_⟩ := entries.old e (within e inside)
      exact ⟨old.trans grown.used, (homes e old).trans at_⟩
    · obtain rfl := List.mem_singleton.mp new
      exact ⟨grown.entryNew.2, homeNew⟩
  · intro e inside
    rcases List.mem_append.mp inside with inside | new
    · obtain ⟨above, old⟩ := entries.leads e (within e inside)
      rw [leads e inside]
      exact ⟨above, old.trans grown.used⟩
    · obtain rfl := List.mem_singleton.mp new
      rw [grown.leads]
      exact ⟨by omega, grown.inodeNew.2⟩
  · rw [List.map_append, List.map_congr_left names, List.map_singleton, newName, List.nodup_append]
    refine ⟨?_, List.nodup_singleton x, ?_⟩
    · have whole := entries.names
      rw [List.append_cons, List.map_append] at whole
      exact whole.of_append_left
    · rintro _ old _ new rfl
      obtain ⟨e, inside, same⟩ := List.mem_map.mp old
      exact fresh e (within e inside) (same.trans (List.mem_singleton.mp new))
  · obtain ⟨name, isDir, first⟩ := entries.self
    obtain ⟨-, kind, node⟩ := grown.inode_kept (entries.leads _ (within _ headIn)).2
    rw [names _ headIn, leads _ headIn, kind, node]
    exact ⟨name, isDir, first⟩
  · intro e inside notDot notDotDot isDir
    rcases List.mem_append.mp inside with inside | new
    · obtain ⟨-, kind, node⟩ := grown.inode_kept (entries.leads e (within e inside)).2
      rw [names e inside] at notDot notDotDot
      rw [leads e inside, kind] at isDir
      rw [leads e inside, node]
      exact entries.deeper e (within e inside) notDot notDotDot isDir
    · obtain rfl := List.mem_singleton.mp new
      rw [grown.leads] at isDir ⊢
      obtain ⟨dotEntry, dotDotEntry, rfl, -⟩ := made.newHead isDir
      have newDir := grown.newDir isDir
      have first : (t.inodes (s.used + 1)).firstNode = dotEntry := newDir.linked.1
      have new := (newDir.new dotEntry (List.mem_cons_self ..)).1
      omega

theorem Made.newEntries (made : Made s t d last x newChain) (isDir : (t.inodes (s.used + 1)).isDir = true)
    (baseOld : base ≤ s.used) (homes : ∀ e, s.used < e → e ≠ s.used + 2 → home' e = (t.inodes (s.used + 1)).firstNode) :
    ChainFrom t base home' (t.inodes (s.used + 1)).firstNode newChain := by
  have newDir := made.grown.newDir isDir
  obtain ⟨dotEntry, dotDotEntry, rfl, dotNew, dotDotNew, dotDir, dotFirst⟩ := made.newHead isDir
  obtain ⟨e, e', same, dotName, dotDotName⟩ := newDir.dots
  obtain ⟨rfl, rfl⟩ : dotEntry = e ∧ dotDotEntry = e' := by simpa using same
  have first : (t.inodes (s.used + 1)).firstNode = dotEntry := newDir.linked.1
  have differ : dot ≠ dotDot := by decide
  refine ⟨newDir.linked, List.cons_ne_nil _ _, ?_, ?_, ?_, ?_, ?_⟩
  · intro a inside
    obtain ⟨new, old, other⟩ := newDir.new a inside
    exact ⟨old, homes a new other⟩
  · intro a inside
    refine ⟨?_, (newDir.inodes a inside).2⟩
    simp only [List.mem_cons, List.not_mem_nil, or_false] at inside
    rcases inside with rfl | rfl <;> omega
  · simp [dotName, dotDotName, differ]
  · rw [first]
    exact ⟨dotName, dotDir, dotFirst⟩
  · intro a inside notDot notDotDot
    simp only [List.mem_cons, List.not_mem_nil, or_false] at inside
    rcases inside with rfl | rfl
    · exact absurd dotName notDot
    · exact absurd dotDotName notDotDot

/-- Each call that creates a name the directory does not have. -/
theorem Shape.make_new (shape : Shape s base home) (above : base < d) (isDir : (s.inodes d).isDir = true)
    {maker : Maker} (missing : s.child d x = none) (run : maker.call d x s = .ok (⟨⟩, t)) :
    ∃ home' front last lost newChain, Spliced s t base home home' d x front last lost (s.used + 2) ∧
      Made s t d last x newChain ∧ Makes s t maker := by
  obtain ⟨chain, entries⟩ := shape.chains d above isDir
  have nonnull : d ≠ 0 := Nat.ne_of_gt (Nat.zero_lt_of_lt above)
  have old := shape.old d above isDir
  have fresh : ∀ e ∈ chain, s.entryName e ≠ x := by
    intro e inside name
    have found := (entries.child_iff nonnull).mpr ⟨e, inside, name, rfl⟩
    rw [missing] at found
    cases found
  obtain ⟨front, last, lost, newChain, rfl, count, made, makes⟩ := make_run nonnull old entries run
  have grown := made.grown
  have lastHome : home last = (s.inodes d).firstNode := (entries.old last (by simp)).2
  let home' : Nat → Nat := fun e =>
    if e ≤ s.used then home e
    else if e = s.used + 2 then (s.inodes d).firstNode else (t.inodes (s.used + 1)).firstNode
  have homes : ∀ e ≤ s.used, home' e = home e := fun e old => if_pos old
  have after : ChainFrom t base home' (s.inodes d).firstNode (front ++ [last] ++ [s.used + 2]) := by
    apply made.after entries fresh (by omega) homes
    dsimp only [home']
    rw [if_neg (by omega), if_pos rfl]
  have inodes : ∀ a ≤ s.used, (t.inodes a).filename = (s.inodes a).filename ∧
      (t.inodes a).isDir = (s.inodes a).isDir ∧ (t.inodes a).firstNode = (s.inodes a).firstNode :=
    fun a old => grown.inode_kept old
  -- The other chains do not have the entry that changed.
  have elsewhere : ∀ a chain, (s.inodes a).firstNode ≠ (s.inodes d).firstNode →
      ChainFrom s base home (s.inodes a).firstNode chain → ChainFrom t base home' (s.inodes a).firstNode chain := by
    intro a chain other entries'
    apply entries'.congr grown.used
    · intro e inside
      have notLast : e ≠ last := by
        rintro rfl
        exact other ((entries'.old e inside).2.symm.trans lastHome)
      unfold TempFs.nextEntry
      rw [grown.dirEntries e notLast (entries'.old e inside).1]
    · intro e inside
      exact grown.entryInode_kept (entries'.old e inside).1
    · intro a old
      exact ⟨(inodes a old).1, (inodes a old).2.1, fun _ => (inodes a old).2.2⟩
    · intro e inside
      exact homes e (entries'.old e inside).1
  have shape' : Shape t base home' := by
    refine ⟨fun a above kind => ?_, fun a above kind => ?_⟩
    · by_cases before : a ≤ s.used
      · exact before.trans grown.used
      · rcases made.newDirs a (by omega) kind with isDir' | ⟨below, -⟩
        · exact (shape.old a above isDir').trans grown.used
        · exact below
    · by_cases before : a ≤ s.used
      · rw [(inodes a before).2.1] at kind
        rw [(inodes a before).2.2]
        by_cases same : (s.inodes a).firstNode = (s.inodes d).firstNode
        · rw [same]
          exact ⟨_, after⟩
        · obtain ⟨chain, entries'⟩ := shape.chains a above kind
          exact ⟨chain, elsewhere a chain same entries'⟩
      · rcases made.newDirs a (by omega) kind with isDir' | ⟨-, newDir, first | first⟩
        · exact absurd (shape.old a above isDir') before
        · rw [first]
          refine ⟨newChain, made.newEntries newDir (by omega) fun e new other => ?_⟩
          dsimp only [home']
          rw [if_neg (by omega), if_neg other]
        · rw [first]
          exact ⟨_, after⟩
  refine ⟨home', front, last, lost, newChain, ⟨entries, count, grown.used, shape', after, ⟨?_, by omega, ?_⟩, ?_, ?_, ?_⟩,
    made, makes⟩
  · unfold TempFs.entryName
    rw [grown.leads]
    exact grown.filename
  · rw [grown.leads]
    intro newDir
    have new := grown.newDir newDir
    obtain ⟨dotEntry, dotDotEntry, rfl, -⟩ := made.newHead newDir
    have first : (t.inodes (s.used + 1)).firstNode = dotEntry := new.linked.1
    rw [first]
    exact (new.new dotEntry (List.mem_cons_self ..)).1
  · intro e inside
    have below := (entries.old e inside).1
    exact ⟨grown.entryName_kept below (entries.leads e inside).2, grown.entryInode_kept below⟩
  · rintro b ⟨above', below⟩ isDir' other c
    obtain ⟨chain, entries'⟩ := shape.chains b above' isDir'
    have moved : ChainFrom t base home' (t.inodes b).firstNode chain := by
      rw [(inodes b below).2.2]
      exact elsewhere b chain other entries'
    refine entries'.child_eq (Nat.ne_of_gt (Nat.zero_lt_of_lt above')) moved (fun e inside => ?_) c
    have old := entries'.old e inside
    exact ⟨grown.entryName_kept old.1 (entries'.leads e inside).2, grown.entryInode_kept old.1⟩
  · intro b below
    refine ⟨(inodes b below).1, (inodes b below).2.1, fun _ => ⟨(inodes b below).2.2, fun other => ?_⟩⟩
    rw [grown.inodes b other below]

theorem Shape.make (shape : Shape s base home) (above : base < d) (isDir : (s.inodes d).isDir = true)
    {maker : Maker} (missing : s.child d x = none) (run : maker.call d x s = .ok (⟨⟩, t)) :
    ∃ home' front last lost e, Spliced s t base home home' d x front last lost e := by
  obtain ⟨home', front, last, lost, _, spliced, -, -⟩ := shape.make_new above isDir missing run
  exact ⟨home', front, last, lost, _, spliced⟩

theorem Shape.make_found (shape : Shape s base home) (above : base < d) (isDir : (s.inodes d).isDir = true)
    {maker : Maker} (missing : s.child d x = none) (run : maker.call d x s = .ok (⟨⟩, t)) :
    t.child d x = some (s.used + 1) ∧ Makes s t maker := by
  obtain ⟨home', front, last, lost, _, spliced, made, makes⟩ := shape.make_new above isDir missing run
  have after := spliced.after
  rw [← ((spliced.inodes d (shape.old d above isDir)).2.2 isDir).1] at after
  refine ⟨(after.child_iff (Nat.ne_of_gt (Nat.zero_lt_of_lt above))).mpr ⟨_, by simp, spliced.new.1, made.grown.leads⟩, makes⟩

theorem ChainFrom.sameTree (entries : ChainFrom s base home head chain) (same : SameTree s t) :
    ChainFrom t base home head chain := by
  apply entries.congr same.used
  · intro e _
    unfold TempFs.nextEntry
    rw [same.dirEntries]
  · intro e _
    unfold TempFs.entryInode
    rw [same.dirEntries]
  · intro a _
    exact ⟨same.names a, same.kinds a, fun isDir => (same.dirs a isDir).1⟩
  · intro e _
    rfl

theorem Shape.sameTree (shape : Shape s base home) (same : SameTree s t) : Shape t base home := by
  refine ⟨fun a above isDir => ?_, fun a above isDir => ?_⟩
  · rw [same.kinds] at isDir
    exact (shape.old a above isDir).trans same.used
  · rw [same.kinds] at isDir
    rw [(same.dirs a isDir).1]
    obtain ⟨chain, entries⟩ := shape.chains a above isDir
    exact ⟨chain, entries.sameTree same⟩

theorem SameTree.entry (same : SameTree s t) (e : Nat) :
    t.entryName e = s.entryName e ∧ t.entryInode e = s.entryInode e := by
  unfold TempFs.entryName TempFs.entryInode
  rw [same.dirEntries]
  exact ⟨same.names _, rfl⟩

theorem Shape.child_sameTree (shape : Shape s base home) (same : SameTree s t) (above : base < a)
    (isDir : (s.inodes a).isDir = true) (c : Name) : t.child a c = s.child a c := by
  obtain ⟨chain, entries⟩ := shape.chains a above isDir
  have entries' : ChainFrom t base home (t.inodes a).firstNode chain := by
    rw [(same.dirs a isDir).1]
    exact entries.sameTree same
  exact entries.child_eq (Nat.ne_of_gt (Nat.zero_lt_of_lt above)) entries' (fun e _ => same.entry e) c

theorem Spliced.sameTree (spliced : Spliced s t base home home' d x front last lost e) (same : SameTree t u) :
    Spliced s u base home home' d x front last lost e where
  before := spliced.before
  count := spliced.count
  used := spliced.used.trans same.used
  shape := spliced.shape.sameTree same
  after := spliced.after.sameTree same
  new := by
    obtain ⟨name, new, first⟩ := spliced.new
    rw [(same.entry e).1, (same.entry e).2, same.kinds]
    refine ⟨name, new, fun isDir => ?_⟩
    rw [(same.dirs _ isDir).1]
    exact first isDir
  kept e' inside := by
    rw [(same.entry e').1, (same.entry e').2]
    exact spliced.kept e' inside
  others b known isDir other c := by
    have isDir' : (t.inodes b).isDir = true := (spliced.inodes b known.2).2.1.trans isDir
    exact (spliced.shape.child_sameTree same known.1 isDir' c).trans (spliced.others b known isDir other c)
  inodes b below := by
    obtain ⟨name, kind, dir⟩ := spliced.inodes b below
    rw [same.names, same.kinds]
    refine ⟨name, kind, fun isDir => ?_⟩
    obtain ⟨first, count⟩ := dir isDir
    obtain ⟨first', count'⟩ := same.dirs b (kind.trans isDir)
    exact ⟨first'.trans first, fun other => count'.trans (count other)⟩

/-! ### Every reachable state -/

/-- The state of a drive whose root has no name. -/
structure Sound (s : TempFs) (base root : Nat) : Prop where
  shape : ∃ home, Shape s base home
  known : Known base s root
  isDir : (s.inodes root).isDir = true
  unnamed : (s.inodes root).filename = []

/-- What a directory has is an inode given out by the calls. -/
theorem Shape.child_cases (shape : Shape s base home) (above : base < a) (isDir : (s.inodes a).isDir = true)
    (found : s.child a c = some b) : Known base s b ∧ (s.inodes b).filename = c ∧
      (c ≠ dot → c ≠ dotDot → (s.inodes b).isDir = true → (s.inodes a).firstNode < (s.inodes b).firstNode) := by
  obtain ⟨chain, entries⟩ := shape.chains a above isDir
  obtain ⟨e, inside, name, rfl⟩ := (entries.child_iff (Nat.ne_of_gt (Nat.zero_lt_of_lt above))).mp found
  refine ⟨entries.leads e inside, name, fun notDot notDotDot => ?_⟩
  rw [← name] at notDot notDotDot
  exact entries.deeper e inside notDot notDotDot

theorem child_missing (missing : tempfsFind a c s = .ok (0, s)) : s.child a c = none := by
  rw [child_of_find missing, if_pos rfl]

theorem kept_sound (base root : Nat) :
    Kept (fun _ => True) (fun _ => True) (fun s => Sound s base root) (Known base) where
  find := by
    rintro s d b c ⟨⟨home, shape⟩, -⟩ known isDir - run
    by_cases null : b = 0
    · exact .inl null
    have found := child_of_find run
    rw [if_neg null] at found
    exact .inr (shape.child_cases known.1 isDir found).1
  make := by
    rintro s t d c maker - ⟨⟨home, shape⟩, root', rootDir, unnamed⟩ known isDir - missing run
    obtain ⟨home', front, last, lost, e, spliced⟩ := shape.make known.1 isDir (child_missing missing) run
    have kept : ∀ a, Known base s a → Known base t a ∧ (t.inodes a).isDir = (s.inodes a).isDir :=
      fun a known => ⟨⟨known.1, known.2.trans spliced.used⟩, (spliced.inodes a known.2).2.1⟩
    exact ⟨⟨⟨home', spliced.shape⟩, (kept root root').1, (kept root root').2.trans rootDir,
      (spliced.inodes root root'.2).1.trans unnamed⟩, kept⟩
  opened := by
    rintro s t i ⟨⟨home, shape⟩, root', rootDir, unnamed⟩ opened
    have same := opened.sameTree
    have kept : ∀ a, Known base s a → Known base t a ∧ (t.inodes a).isDir = (s.inodes a).isDir :=
      fun a known => ⟨⟨known.1, known.2.trans same.used⟩, same.kinds a⟩
    exact ⟨⟨⟨home, shape.sameTree same⟩, (kept root root').1, (kept root root').2.trans rootDir,
      (same.names root).trans unnamed⟩, kept⟩

/-- A new drive beside others: the three directory inodes share its chain. -/
theorem Shape.tempfsNew {root : Nat} (shape : Shape s base home) (baseOld : base ≤ s.used)
    (run : tempfsNew s = .ok (root, t)) : Sound t base root ∧ s.used ≤ t.used ∧ (∀ a ≤ s.used, t.inodes a = s.inodes a) ∧
      ∀ a, (t.inodes a).isDir = true → (t.inodes a).type = filetypeDevice →
        (s.inodes a).isDir = true ∧ (s.inodes a).type = filetypeDevice := by
  obtain ⟨u, run', furnished⟩ := tempfsNew_run s
  obtain ⟨rfl, rfl⟩ := Prod.mk.inj (Except.ok.inj (run'.symm.trans run))
  have node : u.inodes (s.used + 1) = { isDir := true, firstNode := s.used + 1 + 1, numEntries := 1 } := by
    rw [furnished.dir, withRoot_root]
  have used : u.used = s.used + 1 + 4 := furnished.used
  have new : NewChain s u (s.used + 1) (s.used + 1) [s.used + 1 + 1, s.used + 1 + 4] :=
    furnished.chain_new (by omega) le_rfl
  have dotLeads : u.entryInode (s.used + 1 + 1) = s.used + 1 + 2 := by
    unfold TempFs.entryInode
    rw [furnished.dotEntry]
  have dotDotLeads : u.entryInode (s.used + 1 + 4) = s.used + 1 + 3 := by
    unfold TempFs.entryInode
    rw [furnished.dotDotEntry]
  have dotName : u.entryName (s.used + 1 + 1) = dot := by
    unfold TempFs.entryName
    rw [dotLeads, furnished.dotInode]
  have dotDotName : u.entryName (s.used + 1 + 4) = dotDot := by
    unfold TempFs.entryName
    rw [dotDotLeads, furnished.dotDotInode]
  have differ : dot ≠ dotDot := by decide
  let home' : Nat → Nat := fun e => if e ≤ s.used then home e else s.used + 1 + 1
  have entries : ChainFrom u base home' (s.used + 1 + 1) [s.used + 1 + 1, s.used + 1 + 4] := by
    refine ⟨?_, List.cons_ne_nil _ _, ?_, ?_, ?_, ?_, ?_⟩
    · have linked := new.linked
      rw [node] at linked
      exact linked
    · intro e inside
      obtain ⟨fresh, old, -⟩ := new.new e inside
      exact ⟨old, if_neg (by omega)⟩
    · intro e inside
      refine ⟨?_, (new.inodes e inside).2⟩
      simp only [List.mem_cons, List.not_mem_nil, or_false] at inside
      rcases inside with rfl | rfl <;> omega
    · simp [dotName, dotDotName, differ]
    · rw [dotLeads, furnished.dotInode]
      exact ⟨dotName, rfl, rfl⟩
    · intro e inside notDot notDotDot
      simp only [List.mem_cons, List.not_mem_nil, or_false] at inside
      rcases inside with rfl | rfl
      · exact absurd dotName notDot
      · exact absurd dotDotName notDotDot
  have before : ∀ a ≤ s.used, u.inodes a = s.inodes a := by
    intro a old
    rw [furnished.inodes a (by omega) (by omega) (by omega), withRoot_other s true (by omega)]
  have dirs : ∀ a, s.used < a → base < a → (u.inodes a).isDir = true →
      a ≤ u.used ∧ (u.inodes a).firstNode = s.used + 1 + 1 := by
    intro a later above isDir
    by_cases isRoot : a = s.used + 1
    · rw [isRoot, node]
      exact ⟨by omega, rfl⟩
    by_cases isDot : a = s.used + 1 + 2
    · rw [isDot, furnished.dotInode]
      exact ⟨by omega, rfl⟩
    by_cases isDotDot : a = s.used + 1 + 3
    · rw [isDotDot, furnished.dotDotInode]
      exact ⟨by omega, rfl⟩
    · rw [furnished.inodes a isRoot isDot isDotDot, withRoot_other s true isRoot] at isDir
      exact absurd (shape.old a above isDir) (by omega)
  have kept : ∀ e ≤ s.used, u.dirEntries e = s.dirEntries e := fun e old =>
    furnished.dirEntries e (by omega) (by omega)
  have shape' : Shape u base home' := by
    refine ⟨fun a above isDir => ?_, fun a above isDir => ?_⟩
    · by_cases old : a ≤ s.used
      · omega
      · exact (dirs a (by omega) above isDir).1
    · by_cases old : a ≤ s.used
      · rw [before a old] at isDir ⊢
        obtain ⟨chain, entries'⟩ := shape.chains a above isDir
        refine ⟨chain, entries'.congr (by omega) (fun e inside => ?_) (fun e inside => ?_) (fun b below => ?_) fun e inside => ?_⟩
        · unfold TempFs.nextEntry
          rw [kept e (entries'.old e inside).1]
        · unfold TempFs.entryInode
          rw [kept e (entries'.old e inside).1]
        · rw [before b below]
          exact ⟨rfl, rfl, fun _ => rfl⟩
        · exact if_pos (entries'.old e inside).1
      · rw [(dirs a (by omega) above isDir).2]
        exact ⟨_, entries⟩
  refine ⟨⟨⟨_, shape'⟩, ⟨by omega, by omega⟩, ?_, ?_⟩, by omega, before, fun a isDir device => ?_⟩
  · rw [node]
  · rw [node]
  · obtain ⟨isDir, device⟩ := furnished.plain a isDir device
    by_cases isRoot : a = s.used + 1
    · rw [isRoot, withRoot_root] at device
      cases device
    · rw [withRoot_other s true isRoot] at isDir device
      exact ⟨isDir, device⟩

theorem Shape.unused (unused : ∀ a, s.used < a → s.inodes a = {}) (home : Nat → Nat) : Shape s s.used home := by
  have none : ∀ a, s.used < a → (s.inodes a).isDir = true → False := by
    intro a above isDir
    rw [unused a above] at isDir
    cases isDir
  exact ⟨fun a above isDir => (none a above isDir).elim, fun a above isDir => (none a above isDir).elim⟩

theorem tempfsNew_sound {root : Nat} (unused : ∀ a, s.used < a → s.inodes a = {})
    (run : tempfsNew s = .ok (root, t)) : Sound t s.used root :=
  ((Shape.unused unused id).tempfsNew le_rfl run).1

/-! ### Creating the last component -/

/-- A name that can stand between two slashes. -/
def Component (c : Name) : Prop := c ≠ [] ∧ slash ∉ c ∧ 0 ∉ c

instance (c : Name) : Decidable (Component c) := inferInstanceAs (Decidable (_ ∧ _))

variable {v w : Vfs} {mode : UInt8} {comps : List Name}

theorem call_ok {α : Type} {call : TempFsM α} {r : α} (run : FileSystem.tempFs.call call v = .ok (r, w)) :
    ∃ t, call v.tempFs = .ok (r, t) ∧ w = { v with tempFs := t } := by
  unfold FileSystem.call at run
  cases h : call v.tempFs with
  | error e =>
    simp only [h] at run
    cases run
  | ok pair =>
    simp only [h] at run
    obtain ⟨rfl, rfl⟩ := Prod.mk.inj (Except.ok.inj run)
    exact ⟨_, rfl, rfl⟩

theorem find_ok {b : Nat} (run : FileSystem.tempFs.call (tempfsFind a x) v = .ok (b, w)) :
    v = w ∧ tempfsFind a x v.tempFs = .ok (b, v.tempFs) := by
  obtain ⟨t, find, rfl⟩ := call_ok run
  obtain rfl := (tempfsFind_ok find).1
  exact ⟨rfl, find⟩

theorem find_missing {b : Nat} (missing : s.child a x = none) (find : tempfsFind a x s = .ok (b, s)) : b = 0 := by
  by_contra nonnull
  rw [child_of_find find, if_neg nonnull] at missing
  cases missing

/-- `open(O_CREATALL)` of a last component that is missing. -/
theorem openLast_creates {r : Option (Nat × Name)} (filled : x ≠ []) (missing : v.tempFs.child a x = none)
    (run : openSteps .tempFs oCreatAll mode [x] a v = .ok (r, w)) :
    ∃ t, tempfsMkfile a x v.tempFs = .ok (⟨⟩, t) ∧ SameTree t w.tempFs ∧ w.drives = v.drives := by
  rw [openSteps, if_neg filled] at run
  obtain ⟨found, v₁, finds, run⟩ := bind_ok run
  unfold findFile at finds
  obtain ⟨b, v₂, first, finds⟩ := bind_ok finds
  obtain ⟨rfl, find⟩ := find_ok first
  have null := find_missing missing find
  rw [if_pos null, if_pos (.inr rfl)] at finds
  obtain ⟨_, v₃, made, finds⟩ := bind_ok finds
  obtain ⟨t, make, rfl⟩ := call_ok made
  obtain ⟨b', v₄, again, finds⟩ := bind_ok finds
  obtain ⟨rfl, find'⟩ := find_ok again
  obtain ⟨rfl, rfl⟩ := pure_ok finds
  dsimp only at run
  obtain ⟨i, v₅, opens, run⟩ := bind_ok run
  obtain ⟨t₅, opened, rfl⟩ := call_ok opens
  obtain ⟨-, rfl⟩ := pure_ok run
  exact ⟨_, make, (tempfsOpenFile_ok opened).sameTree, rfl⟩

theorem Shape.openLast {r : Option (Nat × Name)} (shape : Shape v.tempFs base home) (above : base < a)
    (isDir : (v.tempFs.inodes a).isDir = true) (filled : x ≠ []) (missing : v.tempFs.child a x = none)
    (run : openSteps .tempFs oCreatAll mode [x] a v = .ok (r, w)) : w.drives = v.drives ∧
      ∃ home' front last lost e, Spliced v.tempFs w.tempFs base home home' a x front last lost e := by
  obtain ⟨t, make, same, drives⟩ := openLast_creates filled missing run
  have made : Maker.file.call a x v.tempFs = .ok (⟨⟩, t) := make
  obtain ⟨home', front, last, lost, e, spliced⟩ := shape.make above isDir missing made
  exact ⟨drives, home', front, last, lost, e, spliced.sameTree same⟩

/-! ### Paths to a directory -/

/-- The components lead from `a` through directories to `d`, and none is `.` or `..`. -/
inductive DirectoryPath (s : TempFs) : Nat → List Name → Nat → Prop
  | here {d : Nat} (isDir : (s.inodes d).isDir = true) : DirectoryPath s d [] d
  | step {a b d : Nat} {c : Name} {rest : List Name} (isDir : (s.inodes a).isDir = true) (component : Component c)
    (notDot : c ≠ dot)
    (notDotDot : c ≠ dotDot) (child : s.child a c = some b) (behind : DirectoryPath s b rest d) :
    DirectoryPath s a (c :: rest) d

namespace DirectoryPath

theorem isDir_start (path : DirectoryPath s a comps d) : (s.inodes a).isDir = true := by
  cases path with
  | here isDir => exact isDir
  | step isDir => exact isDir

theorem isDir_end (path : DirectoryPath s a comps d) : (s.inodes d).isDir = true := by
  induction path with
  | here isDir => exact isDir
  | step _ _ _ _ _ _ ih => exact ih

theorem components (path : DirectoryPath s a comps d) : ∀ c ∈ comps, Component c := by
  induction path with
  | here => exact fun c impossible => absurd impossible (List.not_mem_nil)
  | step _ component _ _ _ _ ih =>
    intro c inside
    rcases List.mem_cons.mp inside with rfl | inside
    · exact component
    · exact ih c inside

/-- The directory at the end is a new inode with a chain of its own, and it is not behind `.` or `..`. -/
theorem facts (path : DirectoryPath s a comps d) (shape : Shape s base home) (known : Known base s a)
    (named : (s.inodes a).filename ≠ dot ∧ (s.inodes a).filename ≠ dotDot) :
    Known base s d ∧ ((s.inodes d).filename ≠ dot ∧ (s.inodes d).filename ≠ dotDot) ∧
      (comps ≠ [] → (s.inodes a).firstNode < (s.inodes d).firstNode) := by
  induction path with
  | here => exact ⟨known, named, fun impossible => absurd rfl impossible⟩
  | step isDir _ notDot notDotDot child behind ih =>
    obtain ⟨known', name, deeper⟩ := shape.child_cases known.1 isDir child
    have first := deeper notDot notDotDot behind.isDir_start
    obtain ⟨knownEnd, namedEnd, later⟩ := ih known' (by rw [name]; exact ⟨notDot, notDotDot⟩)
    refine ⟨knownEnd, namedEnd, fun _ => ?_⟩
    cases behind with
    | here => exact first
    | step => exact first.trans (later (List.cons_ne_nil _ _))

/-- A change in the directory at the end does not touch the way there. -/
theorem stable (path : DirectoryPath s a comps d) (shape : Shape s base home) (known : Known base s a)
    (named : (s.inodes a).filename ≠ dot ∧ (s.inodes a).filename ≠ dotDot)
    (kinds : ∀ b ≤ s.used, (t.inodes b).isDir = (s.inodes b).isDir)
    (others : ∀ b, Known base s b → (s.inodes b).isDir = true → (s.inodes b).firstNode ≠ (s.inodes d).firstNode →
      ∀ c, t.child b c = s.child b c) : DirectoryPath t a comps d := by
  induction path with
  | here isDir => exact .here ((kinds _ known.2).trans isDir)
  | step isDir component notDot notDotDot child behind ih =>
    have whole := (DirectoryPath.step isDir component notDot notDotDot child behind).facts shape known named
    obtain ⟨known', name, -⟩ := shape.child_cases known.1 isDir child
    refine .step ((kinds _ known.2).trans isDir) component notDot notDotDot ?_
      (ih known' (by rw [name]; exact ⟨notDot, notDotDot⟩) others)
    rw [others _ known isDir (Nat.ne_of_lt (whole.2.2 (List.cons_ne_nil _ _)))]
    exact child

end DirectoryPath

theorem find_of_child (found : s.child a c = some b) : tempfsFind a c s = .ok (b, s) ∧ b ≠ 0 := by
  unfold TempFs.child at found
  cases run : tempfsFind a c s with
  | error e =>
    rw [run] at found
    cases found
  | ok pair =>
    rw [run] at found
    dsimp only at found
    by_cases null : pair.1 = 0
    · rw [if_pos null] at found
      cases found
    · rw [if_neg null] at found
      obtain rfl := Option.some.inj found
      exact ⟨by rw [← (tempfsFind_ok run).1], null⟩

theorem openSteps_path {flags : OpenFlags} {rest : List Name} (path : DirectoryPath v.tempFs a comps d)
    (more : rest ≠ []) : openSteps .tempFs flags mode (comps ++ rest) a v = openSteps .tempFs flags mode rest d v := by
  induction path with
  | here => rfl
  | step _ _ _ _ child behind ih =>
    obtain ⟨find, nonnull⟩ := find_of_child child
    rw [List.cons_append, openSteps_enter find nonnull behind.isDir_start (by simp [more])]
    exact ih

/-! ### No alias creates like the directory -/

/-- Behind the entry that was counted to, names are no longer found. -/
theorem Spliced.missing (spliced : Spliced s t base home home' a x front last lost e) (nonnull : d ≠ 0)
    (first : (t.inodes d).firstNode = (s.inodes a).firstNode) (inside : i ∈ lost) (other : s.entryName i ≠ x) :
    t.child d (s.entryName i) = none := by
  have before := spliced.before
  have after := spliced.after
  rw [← first] at after
  apply after.child_none nonnull
  intro e' inside' name
  rcases List.mem_append.mp inside' with old | new
  · have within : e' ∈ front ++ last :: lost := by
      simp only [List.mem_append, List.mem_cons, List.not_mem_nil, or_false] at old ⊢
      tauto
    have also : i ∈ front ++ last :: lost := by simp [inside]
    rw [(spliced.kept e' within).1] at name
    obtain rfl := List.inj_on_of_nodup_map before.names within also name
    have distinct := before.linked.nodup
    rw [List.append_cons] at distinct
    exact (List.nodup_append.mp distinct).2.2 e' old e' inside rfl
  · obtain rfl := List.mem_singleton.mp new
    exact other (name.symm.trans spliced.new.1)

theorem exists_component (names : List Name) : ∃ y, Component y ∧ y ∉ names := by
  have different : Function.Injective fun n : Nat => (List.replicate (n + 1) 97 : Name) := by
    intro m n same
    have := congrArg List.length same
    simp only [List.length_replicate] at this
    omega
  obtain ⟨_, ⟨n, rfl⟩, new⟩ := (Set.infinite_range_of_injective different).exists_notMem_finset names.toFinset
  refine ⟨_, ⟨by simp, ?_, ?_⟩, fun inside => new (List.mem_toFinset.mpr inside)⟩
  · intro inside
    exact absurd (List.eq_of_mem_replicate inside) (by decide)
  · intro inside
    exact absurd (List.eq_of_mem_replicate inside) (by decide)

theorem child_congr (nonnull : a ≠ 0) (nonnull' : b ≠ 0) (same : (s.inodes a).firstNode = (s.inodes b).firstNode) :
    s.child a c = s.child b c := by
  unfold TempFs.child
  rw [tempfsFind_congr nonnull nonnull' same]

/-- Through another inode with the chain of `d`, a creation either loses an entry or is lost by the next one:
where both counters could be right at once, the direct creation would follow a null pointer. -/
theorem Shape.alias_false {r r' : Option (Nat × Name)} {w' : Vfs} (shape : Shape v.tempFs base home)
    (knownD : Known base v.tempFs d) (isDirD : (v.tempFs.inodes d).isDir = true) (known : Known base v.tempFs a)
    (isDir : (v.tempFs.inodes a).isDir = true) (shares : (v.tempFs.inodes a).firstNode = (v.tempFs.inodes d).firstNode)
    (other : d ≠ a) (filled : x ≠ []) (missing : v.tempFs.child d x = none)
    (run : openSteps .tempFs oCreatAll mode [x] a v = .ok (r, w))
    (direct : openSteps .tempFs oCreatAll mode [x] d v = .ok (r', w'))
    (keeps : ∀ c j, v.tempFs.child d c = some j → w.tempFs.child d c = some j) (found : w.tempFs.child d x = some i)
    (later : ∀ y, Component y → w.tempFs.child d y = none → ∃ r u,
      openSteps .tempFs oCreatAll mode [y] d w = .ok (r, u) ∧
        ∀ c j, w.tempFs.child d c = some j → u.tempFs.child d c = some j) : False := by
  have nonnull : d ≠ 0 := Nat.ne_of_gt (Nat.zero_lt_of_lt knownD.1)
  have nonnull' : a ≠ 0 := Nat.ne_of_gt (Nat.zero_lt_of_lt known.1)
  obtain ⟨-, home₁, front, last, lost, e, through⟩ :=
    shape.openLast known.1 isDir filled ((child_congr nonnull' nonnull shares).trans missing) run
  obtain ⟨-, home₂, front₂, last₂, lost₂, e₂, straight⟩ := shape.openLast knownD.1 isDirD filled missing direct
  have before := through.before
  rw [shares] at before
  have same : front ++ last :: lost = front₂ ++ last₂ :: lost₂ := before.linked.unique straight.before.linked
  obtain ⟨-, kindD, nodeD⟩ := through.inodes d knownD.2
  obtain ⟨firstD, countD⟩ := nodeD isDirD
  -- An entry behind the new one was found before and is not any more.
  have nothing : lost = [] := by
    cases lost with
    | nil => rfl
    | cons l lost =>
      have inside : l ∈ front ++ last :: l :: lost := by simp
      have was := (before.child_iff nonnull).mpr ⟨l, inside, rfl, rfl⟩
      have different : v.tempFs.entryName l ≠ x := by
        intro name
        rw [name, missing] at was
        cases was
      have gone := through.missing nonnull (firstD.trans shares.symm) (List.mem_cons_self ..) different
      rw [keeps _ _ was] at gone
      cases gone
  subst nothing
  have short : front₂.length ≤ front.length := by
    have := congrArg List.length same
    simp only [List.length_append, List.length_cons, List.length_nil] at this
    omega
  -- So the next direct creation counts to an entry before the new one.
  obtain ⟨y, component, fresh⟩ := exists_component ((front ++ [last] ++ [e]).map w.tempFs.entryName)
  have after := through.after
  rw [shares, ← firstD] at after
  have missingY : w.tempFs.child d y = none :=
    after.child_none nonnull fun e inside name => fresh (List.mem_map.mpr ⟨e, inside, name⟩)
  obtain ⟨r₃, u, next, keeps₃⟩ := later y component missingY
  obtain ⟨-, home₃, front₃, last₃, lost₃, e₃, third⟩ :=
    through.shape.openLast knownD.1 (kindD.trans isDirD) component.1 missingY next
  have same₃ : front ++ [last] ++ [e] = front₃ ++ last₃ :: lost₃ := after.linked.unique third.before.linked
  have count₃ : front₃.length = front₂.length := by
    rw [← third.count, countD other, straight.count]
  have some₃ : lost₃ ≠ [] := by
    rintro rfl
    have := congrArg List.length same₃
    simp only [List.length_append, List.length_cons, List.length_nil] at this
    omega
  have inside : e ∈ lost₃ := by
    have ends := congrArg List.getLast? same₃
    rw [List.getLast?_concat, List.getLast?_append, List.getLast?_cons_of_ne_nil some₃] at ends
    cases atEnd : lost₃.getLast? with
    | none => exact absurd (List.getLast?_eq_none_iff.mp atEnd) some₃
    | some z =>
      rw [atEnd] at ends
      obtain rfl := Option.some.inj ends
      exact List.mem_of_getLast? atEnd
  have name : w.tempFs.entryName e = x := through.new.1
  have different : w.tempFs.entryName e ≠ y := by
    rintro rfl
    rw [name, found] at missingY
    cases missingY
  obtain ⟨-, -, nodeD₃⟩ := third.inodes d (knownD.2.trans through.used)
  have gone := third.missing nonnull (nodeD₃ (kindD.trans isDirD)).1 inside different
  rw [name, keeps₃ x i found] at gone
  cases gone

theorem openLast_found {r : Option (Nat × Name)} (filled : x ≠ []) (found : v.tempFs.child a x = some i)
    (run : openSteps .tempFs oCreatAll mode [x] a v = .ok (r, w)) : SameTree v.tempFs w.tempFs := by
  obtain ⟨find, nonnull⟩ := find_of_child found
  have call : FileSystem.tempFs.call (tempfsFind a x) v = .ok (i, v) := FileSystem.call_run find
  rw [openSteps, if_neg filled] at run
  unfold findFile at run
  rw [bind_assoc, bind_eq call, if_neg nonnull, pure_bind] at run
  obtain ⟨_, _, opens, run⟩ := bind_ok run
  obtain ⟨t, opened, rfl⟩ := call_ok opens
  obtain ⟨-, rfl⟩ := pure_ok run
  exact (tempfsOpenFile_ok opened).sameTree

theorem Shape.openLast_other {r : Option (Nat × Name)} (shape : Shape v.tempFs base home)
    (knownD : Known base v.tempFs d) (isDirD : (v.tempFs.inodes d).isDir = true) (known : Known base v.tempFs b)
    (isDir : (v.tempFs.inodes b).isDir = true)
    (other : (v.tempFs.inodes b).firstNode ≠ (v.tempFs.inodes d).firstNode) (filled : x ≠ [])
    (run : openSteps .tempFs oCreatAll mode [x] b v = .ok (r, w)) : w.tempFs.child d c = v.tempFs.child d c := by
  cases found : v.tempFs.child b x with
  | none =>
    obtain ⟨-, home', front, last, lost, e, spliced⟩ := shape.openLast known.1 isDir filled found run
    exact spliced.others d knownD isDirD other.symm c
  | some i => exact shape.child_sameTree (openLast_found filled found run) knownD.1 isDirD c

theorem openSteps_make {r : Option (Nat × Name)} (missing : v.tempFs.child a c = none) (more : comps ≠ [])
    (run : openSteps .tempFs oCreatAll mode (c :: comps) a v = .ok (r, w)) : ∃ t b next,
      tempfsMkdir a c v.tempFs = .ok (⟨⟩, t) ∧ tempfsFind a c t = .ok (b, t) ∧
        (next = 0 ∨ next = b ∧ (t.inodes b).isDir = true) ∧
        openSteps .tempFs oCreatAll mode comps next { v with tempFs := t } = .ok (r, w) := by
  rw [openSteps_cons more] at run
  obtain ⟨found, v₁, finds, run⟩ := bind_ok run
  unfold findDir at finds
  obtain ⟨b, v₂, first, finds⟩ := bind_ok finds
  obtain ⟨rfl, find⟩ := find_ok first
  have null := find_missing missing find
  have creates : oCreatAll.creatAll = true := rfl
  rw [if_pos null, if_pos creates] at finds
  obtain ⟨_, v₃, made, finds⟩ := bind_ok finds
  obtain ⟨t, make, rfl⟩ := call_ok made
  obtain ⟨b', v₄, again, finds⟩ := bind_ok finds
  obtain ⟨rfl, find'⟩ := find_ok again
  obtain ⟨rfl, rfl⟩ := pure_ok finds
  dsimp only at run
  obtain ⟨next, v₅, opens, run⟩ := bind_ok run
  obtain ⟨t₅, opened, rfl⟩ := call_ok opens
  obtain ⟨rfl, reached⟩ := tempfsOpenDir_ok opened
  exact ⟨_, b', next, make, find', reached, run⟩

theorem openLast_null {r : Option (Nat × Name)} (filled : x ≠ [])
    (run : openSteps .tempFs oCreatAll mode [x] 0 v = .ok (r, w)) : False := by
  rw [openSteps, if_neg filled] at run
  obtain ⟨_, _, finds, -⟩ := bind_ok run
  obtain ⟨_, _, first, -⟩ := bind_ok finds
  exact (tempfsFind_ok (find_ok first).2).2 rfl

/-- What an `open` that returns did from the directory at the path's front. -/
theorem openSteps_of_open {letter : UInt8} {root : Nat} {rest : List Name} {f : Option File}
    (mounted : Mounted v letter root) (nonnull : root ≠ 0) (path : DirectoryPath v.tempFs root comps d)
    (more : rest ≠ []) (noSlash : ∀ c ∈ rest, slash ∉ c)
    (run : vfsOpen (drivePath letter (comps ++ rest)) oCreatAll mode v = .ok (f, w)) :
    ∃ r, openSteps .tempFs oCreatAll mode rest d v = .ok (r, w) := by
  have split : (joinPath (comps ++ rest)).splitOn slash = comps ++ rest := by
    apply splitOn_joinPath (by simp [more])
    intro c inside
    rcases List.mem_append.mp inside with front | back
    · exact (path.components c front).2.1
    · exact noSlash c back
  unfold drivePath at run
  rw [vfsOpen_eq mounted nonnull path.isDir_start, split] at run
  obtain ⟨r, w', steps, run⟩ := bind_ok run
  rw [openSteps_path path more] at steps
  refine ⟨r, ?_⟩
  cases r with
  | none =>
    obtain ⟨-, rfl⟩ := pure_ok run
    exact steps
  | some pair =>
    obtain ⟨-, rfl⟩ := pure_ok run
    exact steps

/-- Creating `D/via/x` does what creating `D/x` does, where `D` is the directory `d` at `path`: the same tree, but
perhaps for the inode of `x`; what `D` had is still found, as is `x`, and the next creation in `D` loses nothing. -/
def CreatesLike (letter : UInt8) (v : Vfs) (root : Nat) (path via : List Name) (d : Nat) (x : Name) (mode : UInt8) :
    Prop :=
  ∃ f w f' w' i i',
    vfsOpen (drivePath letter (path ++ via ++ [x])) oCreatAll mode v = .ok (some f, w) ∧
    vfsOpen (drivePath letter (path ++ [x])) oCreatAll mode v = .ok (some f', w') ∧
    w.tempFs.child d x = some i ∧ w'.tempFs.child d x = some i' ∧
    (∀ comps, (w.tempFs.resolve root comps).map (fun j => if j = i then i' else j) = w'.tempFs.resolve root comps) ∧
    (∀ c j, v.tempFs.child d c = some j → w.tempFs.child d c = some j) ∧
    ∀ y, Component y → w.tempFs.child d y = none →
      ∃ g u, vfsOpen (drivePath letter (path ++ [y])) oCreatAll mode w = .ok (some g, u) ∧
        ∀ c j, w.tempFs.child d c = some j → u.tempFs.child d c = some j

/-- In no reachable state does a creation through `.`, or through `..` of a subdirectory, do that. -/
theorem alias_never_creates_like (letter : UInt8) (isLetter : isDriveLetter letter = true) (start v : Vfs)
    (unused : ∀ a, start.tempFs.used < a → start.tempFs.inodes a = {}) (creations : List Creation)
    (run : (do let _ ← mountNew letter; runCreations letter creations) start = .ok (⟨⟩, v))
    (path : List Name) (d : Nat) (directory : DirectoryPath v.tempFs (v.drives (driveNum letter)).memOffset path d)
    (sub : Name) (j : Nat) (subdirectory : DirectoryPath v.tempFs d [sub] j) (x : Name) (component : Component x)
    (new : v.tempFs.child d x = none) (via : List Name) (isAlias : via = [dot] ∨ via = [sub, dotDot]) (mode : UInt8) :
    ¬ CreatesLike letter v (v.drives (driveNum letter)).memOffset path via d x mode := by
  obtain ⟨m, root, chain, mounts, mounted₀, models, fresh⟩ := mountNew_run isLetter unused
  have sound₀ := tempfsNew_sound unused fresh
  rw [bind_eq mounts] at run
  have nonnull : root ≠ 0 := Nat.ne_of_gt (Nat.zero_lt_of_lt sound₀.known.1)
  have stays := ((kept_sound start.tempFs.used root).creations_sat mounted₀ sound₀ sound₀.known nonnull sound₀.isDir
    creations (fun creation _ => by cases creation <;> trivial) fun _ _ _ _ => trivial).ok run
  have sound := stays.keeps.inv
  have mounted : Mounted v letter root := ⟨isLetter, by rw [stays.drives, mounted₀.drive]⟩
  rw [mounted.drive] at directory ⊢
  dsimp only at directory ⊢
  obtain ⟨home, shape⟩ := sound.shape
  have named : (v.tempFs.inodes root).filename ≠ dot ∧ (v.tempFs.inodes root).filename ≠ dotDot := by
    rw [sound.unnamed]
    exact ⟨(List.cons_ne_nil _ _).symm, (List.cons_ne_nil _ _).symm⟩
  obtain ⟨knownD, namedD, -⟩ := directory.facts shape sound.known named
  have isDirD := directory.isDir_end
  rintro ⟨f, w, f', w', i, i', through, direct, found, -, -, keeps, later⟩
  have some : ∀ y, [y] ≠ ([] : List Name) := fun y => List.cons_ne_nil _ _
  have single : ∀ {y : Name}, Component y → ∀ c ∈ [y], slash ∉ c := fun component c inside =>
    List.mem_singleton.mp inside ▸ component.2.1
  obtain ⟨r', straight⟩ := openSteps_of_open mounted nonnull directory (some x) (single component) direct
  have nonnullD : d ≠ 0 := Nat.ne_of_gt (Nat.zero_lt_of_lt knownD.1)
  have shared : ∀ a r, Known start.tempFs.used v.tempFs a → (v.tempFs.inodes a).isDir = true →
      (v.tempFs.inodes a).firstNode = (v.tempFs.inodes d).firstNode → d ≠ a →
      openSteps .tempFs oCreatAll mode [x] a v = .ok (r, w) → False := by
    intro a r known isDir shares other steps
    apply shape.alias_false knownD isDirD known isDir shares other component.1 new steps straight keeps found
    intro y component' missing
    obtain ⟨g, u, run, keeps'⟩ := later y component' missing
    have nonnullA : a ≠ 0 := Nat.ne_of_gt (Nat.zero_lt_of_lt known.1)
    obtain ⟨drives, _, _, _, _, _, spliced⟩ :=
      shape.openLast known.1 isDir component.1 ((child_congr nonnullA nonnullD shares).trans new) steps
    have directory' : DirectoryPath w.tempFs root path d :=
      directory.stable shape sound.known named (fun b below => (spliced.inodes b below).2.1)
        fun b known isDir other => spliced.others b known isDir (by rw [shares]; exact other)
    have mounted' : Mounted w letter root := ⟨isLetter, by rw [drives, mounted.drive]⟩
    obtain ⟨r, steps⟩ := openSteps_of_open mounted' nonnull directory' (some y) (single component') run
    exact ⟨r, u, steps, keeps'⟩
  have lostX : w.tempFs.child d x ≠ none := by
    rw [found]
    exact Option.some_ne_none _
  rw [List.append_assoc] at through
  obtain ⟨chain, entries⟩ := shape.chains d knownD.1 isDirD
  rcases isAlias with rfl | rfl
  · have noSlash : ∀ c ∈ [dot] ++ [x], slash ∉ c := by
      intro c inside
      simp only [List.cons_append, List.nil_append, List.mem_cons, List.not_mem_nil, or_false] at inside
      rcases inside with rfl | rfl
      · decide
      · exact component.2.1
    obtain ⟨r, steps⟩ := openSteps_of_open mounted nonnull directory (by simp) noSlash through
    obtain ⟨name, isDir, first⟩ := entries.self
    obtain ⟨find, nonnullA⟩ := find_of_child ((entries.child_iff nonnullD).mpr ⟨_, entries.head_mem, name, rfl⟩)
    rw [List.singleton_append, openSteps_enter find nonnullA isDir (some x)] at steps
    refine shared _ r (entries.leads _ entries.head_mem) isDir first (fun same => namedD.1 ?_) steps
    rw [same]
    exact name
  · cases subdirectory with
    | step _ component' notDot notDotDot child behind =>
    cases behind with
    | here isDirJ =>
    have noSlash : ∀ c ∈ [sub, dotDot] ++ [x], slash ∉ c := by
      intro c inside
      simp only [List.cons_append, List.nil_append, List.mem_cons, List.not_mem_nil, or_false] at inside
      rcases inside with rfl | rfl | rfl
      · exact component'.2.1
      · decide
      · exact component.2.1
    obtain ⟨r, steps⟩ := openSteps_of_open mounted nonnull directory (by simp) noSlash through
    obtain ⟨knownJ, -, deeper⟩ := shape.child_cases knownD.1 isDirD child
    have apart := deeper notDot notDotDot isDirJ
    obtain ⟨find, nonnullJ⟩ := find_of_child child
    rw [List.cons_append, List.singleton_append, openSteps_enter find nonnullJ isDirJ (List.cons_ne_nil _ _)] at steps
    cases up : v.tempFs.child j dotDot with
    | some b =>
      obtain ⟨known, name, -⟩ := shape.child_cases knownJ.1 isDirJ up
      obtain ⟨findUp, nonnullB⟩ := find_of_child up
      by_cases isDir : (v.tempFs.inodes b).isDir = true
      · rw [openSteps_enter findUp nonnullB isDir (some x)] at steps
        by_cases shares : (v.tempFs.inodes b).firstNode = (v.tempFs.inodes d).firstNode
        · refine shared b r known isDir shares (fun same => namedD.2 ?_) steps
          rw [same]
          exact name
        · exact lostX ((shape.openLast_other knownD isDirD known isDir shares component.1 steps).trans new)
      · rw [openSteps_leave findUp nonnullB isDir (some x)] at steps
        exact openLast_null component.1 steps
    | none =>
      -- `..` of the subdirectory was lost, and a directory of that name is made in it.
      obtain ⟨t, b, next, make, find', reached, steps⟩ := openSteps_make up (some x) steps
      have made : Maker.dir.call j dotDot v.tempFs = .ok (⟨⟩, t) := make
      obtain ⟨home', front, last, lost, e, spliced⟩ := shape.make knownJ.1 isDirJ up made
      rcases reached with rfl | ⟨rfl, isDir⟩
      · exact openLast_null component.1 steps
      by_cases null : next = 0
      · subst null
        exact openLast_null component.1 steps
      have foundUp : t.child j dotDot = Option.some next := by rw [child_of_find find', if_neg null]
      obtain ⟨-, kindJ, nodeJ⟩ := spliced.inodes j knownJ.2
      have after := spliced.after
      rw [← (nodeJ isDirJ).1] at after
      obtain ⟨e', inside, name, rfl⟩ := (after.child_iff nonnullJ).mp foundUp
      have eIn : e ∈ front ++ [last] ++ [e] := by simp
      obtain rfl : e' = e := List.inj_on_of_nodup_map after.names inside eIn (name.trans spliced.new.1.symm)
      have new' := spliced.new.2.2 isDir
      have headOld := (entries.old _ entries.head_mem).1
      obtain ⟨-, kindD, nodeD⟩ := spliced.inodes d knownD.2
      have otherChain : (t.inodes (t.entryInode e')).firstNode ≠ (t.inodes d).firstNode := by
        rw [(nodeD isDirD).1]
        omega
      have shapeT : Shape ({ v with tempFs := t } : Vfs).tempFs start.tempFs.used home' := spliced.shape
      have still := shapeT.openLast_other (c := x) ⟨knownD.1, knownD.2.trans spliced.used⟩ (kindD.trans isDirD)
        (after.leads _ eIn) isDir otherChain component.1 steps
      have sameD : t.child d x = v.tempFs.child d x := spliced.others d knownD isDirD (Nat.ne_of_lt apart) x
      exact lostX (still.trans (sameD.trans new))

/-- A new drive with the directory `R:/S`. -/
def oneSubdirectory : List Creation := [.mkdir [83] (fun _ _ => 0) (fun _ _ => 0) 5]

theorem oneSubdirectory_run : ∃ v j, (do let _ ← mountNew 82; runCreations 82 oneSubdirectory) {} = .ok (⟨⟩, v) ∧
    DirectoryPath v.tempFs (v.drives (driveNum 82)).memOffset [] (v.drives (driveNum 82)).memOffset ∧
    DirectoryPath v.tempFs (v.drives (driveNum 82)).memOffset [[83]] j ∧
    v.tempFs.child (v.drives (driveNum 82)).memOffset [120] = none ∧
    ∃ f w, vfsOpen (drivePath 82 [[83], dotDot, [120]]) oCreatAll 2 v = .ok (f, w) ∧
      w.tempFs.child (v.drives (driveNum 82)).memOffset [83] = none := by
  have checked : (match (do let _ ← mountNew 82; runCreations 82 oneSubdirectory : VfsM PUnit) {} with
      | .ok (_, v) =>
        let root := (v.drives (driveNum 82)).memOffset
        decide ((v.tempFs.inodes root).isDir = true ∧ (∃ j ∈ v.tempFs.child root [83], (v.tempFs.inodes j).isDir = true) ∧
          v.tempFs.child root [120] = none) &&
        match vfsOpen (drivePath 82 [[83], dotDot, [120]]) oCreatAll 2 v with
        | .ok (_, w) => decide (w.tempFs.child root [83] = none)
        | .error _ => false
      | .error _ => false) = true := by decide +kernel
  cases run : (do let _ ← mountNew 82; runCreations 82 oneSubdirectory : VfsM PUnit) {} with
  | error e =>
    rw [run] at checked
    cases checked
  | ok pair =>
    obtain ⟨_, v⟩ := pair
    rw [run] at checked
    dsimp only at checked
    obtain ⟨tree, lost⟩ := Bool.and_eq_true_iff.mp checked
    obtain ⟨rootDir, ⟨j, child, isDir⟩, new⟩ := of_decide_eq_true tree
    refine ⟨v, j, rfl, .here rootDir, .step rootDir (by decide) (by decide) (by decide) child (.here isDir), new, ?_⟩
    cases opens : vfsOpen (drivePath 82 [[83], dotDot, [120]]) oCreatAll 2 v with
    | error e =>
      rw [opens] at lost
      cases lost
    | ok pair =>
      rw [opens] at lost
      exact ⟨_, _, rfl, of_decide_eq_true lost⟩

/-- `R:/./x` in that drive. -/
theorem alias_never_creates_like_dot : ∃ v : Vfs, ¬ CreatesLike 82 v (v.drives (driveNum 82)).memOffset [] [dot]
    (v.drives (driveNum 82)).memOffset [120] 2 := by
  obtain ⟨v, j, run, directory, subdirectory, new, -⟩ := oneSubdirectory_run
  exact ⟨v, alias_never_creates_like 82 (by decide) {} v (fun _ _ => rfl) oneSubdirectory run [] _ directory [83] j
    subdirectory [120] (by decide) new [dot] (.inl rfl) 2⟩

/-- After `R:/S/../x` was created, `R:/S` is no longer found. -/
theorem dotDot_loses_subdirectory : ∃ (v : Vfs) (root j : Nat), root = (v.drives (driveNum 82)).memOffset ∧
    (do let _ ← mountNew 82; runCreations 82 oneSubdirectory) {} = .ok (⟨⟩, v) ∧
    DirectoryPath v.tempFs root [[83]] j ∧ v.tempFs.child root [120] = none ∧
    ¬ CreatesLike 82 v root [] [[83], dotDot] root [120] 2 := by
  obtain ⟨v, j, run, -, subdirectory, new, f, w, opens, lost⟩ := oneSubdirectory_run
  refine ⟨v, _, j, rfl, run, subdirectory, new, ?_⟩
  rintro ⟨f', w', -, -, -, -, through, -, -, -, -, keeps, -⟩
  obtain ⟨-, rfl⟩ := Prod.mk.inj (Except.ok.inj (opens.symm.trans through))
  cases subdirectory with
  | step _ _ _ _ child behind =>
    rw [keeps _ _ child] at lost
    cases lost

end PotatOS.Fs
