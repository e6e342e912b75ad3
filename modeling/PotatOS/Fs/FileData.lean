import PotatOS.Fs.TempFs
import PotatOS.Lib.Linked

/-!
# The contents of files

A file is a chain of nodes of 4088 bytes each. `Holds` says which bytes a chain
stores; `tempfsWrite` establishes it for the data it is given, whatever the
chain held before, and `tempfsRead` reads it back. The nodes of different files
are different, so a write changes one file only.
-/

namespace PotatOS.Fs

open Memory Prog

variable {s t : TempFs} {data b : Mem} {f g i len lenLeft rounds thisFnode : Nat} {nodes rest : List Nat}

def TempFs.nextFileNode (s : TempFs) (a : Nat) : Nat := (s.fileNodes a).nextNode

/-! ### One round of the write loop -/

/-- Give the node a successor when it has none. -/
def extendChain (s : TempFs) (thisFnode : Nat) : TempFs :=
  if s.nextFileNode thisFnode = 0 then
    let nodes := Function.update s.fileNodes (s.used + 1) {}
    { s with
      fileNodes := Function.update nodes thisFnode { nodes thisFnode with nextNode := s.used + 1 }
      used := s.used + 1 }
  else s

def putChunk (s : TempFs) (thisFnode : Nat) (source : Mem) (amount : Nat) : TempFs :=
  let node := s.fileNodes thisFnode
  let written : FileNode := { node with data := copyBytes node.data 0 source amount }
  { s with fileNodes := Function.update s.fileNodes thisFnode written }

theorem writeNodes_done (done : ¬ i < len) : writeNodes data len rounds i lenLeft thisFnode s = .ok (⟨⟩, s) := by
  cases rounds <;> simp only [writeNodes, if_neg done] <;> rfl

theorem writeNodes_round (more : i < len) (nonnull : thisFnode ≠ 0) :
    writeNodes data len (rounds + 1) i lenLeft thisFnode s =
      let t := putChunk (extendChain s thisFnode) thisFnode (fun x => data (i + x)) (amountToCopy lenLeft)
      writeNodes data len rounds (add64 i filenodeDataSize) (sub64 lenLeft filenodeDataSize)
        (t.nextFileNode thisFnode) t := by
  rw [writeNodes, if_pos more]
  dsimp only
  rw [bind_eq (fileNode_run nonnull)]
  unfold extendChain
  by_cases last : s.nextFileNode thisFnode = 0
  · have last' : (s.fileNodes thisFnode).nextNode = 0 := last
    simp only [if_pos last', if_pos last]
    rw [bind_eq mallocFileNode_run, bind_eq (setFileNode_run nonnull), bind_eq (setFileNode_run nonnull),
      bind_eq (fileNode_run nonnull)]
    simp only [putChunk, TempFs.nextFileNode]
  · have last' : ¬ (s.fileNodes thisFnode).nextNode = 0 := last
    simp only [if_neg last', if_neg last]
    rw [bind_eq (setFileNode_run nonnull), bind_eq (fileNode_run nonnull)]
    simp only [putChunk, TempFs.nextFileNode]

/-- What a walk over file nodes leaves alone: inodes, entries and the nodes outside `nodes`. -/
structure SameBut (s t : TempFs) (nodes : List Nat) : Prop where
  inodes : t.inodes = s.inodes
  dirEntries : t.dirEntries = s.dirEntries
  used : s.used ≤ t.used
  fileNodes : ∀ a ∉ nodes, a ≤ s.used → t.fileNodes a = s.fileNodes a

theorem SameBut.refl (s : TempFs) (nodes : List Nat) : SameBut s s nodes :=
  ⟨rfl, rfl, le_rfl, fun _ _ _ => rfl⟩

/-- The chain `nodes` stores the bytes `source i` for `i < n`. -/
def Stores (s : TempFs) (nodes : List Nat) (source : Mem) (n : Nat) : Prop :=
  ∀ k, k < n → ∃ node, nodes[k / filenodeDataSize]? = some node ∧
    (s.fileNodes node).data (k % filenodeDataSize) = source k

theorem copyBytes_inside {dest source : Mem} {start n x : Nat} (inside : InRange start n x) :
    copyBytes dest start source n x = source (x - start) := if_pos inside

theorem copyBytes_outside {dest source : Mem} {start n x : Nat} (outside : ¬ InRange start n x) :
    copyBytes dest start source n x = dest x := if_neg outside

theorem extendChain_nodes {a : Nat} (other : a ≠ thisFnode) (old : a ≤ s.used) :
    (extendChain s thisFnode).fileNodes a = s.fileNodes a := by
  unfold extendChain
  split
  · dsimp only
    rw [Function.update_of_ne other, Function.update_of_ne (by omega)]
  · rfl

theorem putChunk_nodes {a amount : Nat} {source : Mem} (other : a ≠ thisFnode) :
    (putChunk s thisFnode source amount).fileNodes a = s.fileNodes a :=
  Function.update_of_ne other ..

theorem putChunk_data {amount k : Nat} {source : Mem} (inside : k < amount) :
    ((putChunk s thisFnode source amount).fileNodes thisFnode).data k = source k := by
  unfold putChunk
  dsimp only
  rw [Function.update_self]
  exact copyBytes_inside ⟨Nat.zero_le k, by omega⟩

theorem putChunk_next {amount a : Nat} {source : Mem} :
    (putChunk s thisFnode source amount).nextFileNode a = s.nextFileNode a := by
  unfold putChunk TempFs.nextFileNode
  dsimp only
  by_cases eq : a = thisFnode
  · rw [eq, Function.update_self]
  · rw [Function.update_of_ne eq]

theorem extendChain_linked (linked : Linked s.nextFileNode thisFnode (thisFnode :: rest))
    (old : ∀ a ∈ thisFnode :: rest, a ≤ s.used) :
    ∃ rest', Linked (extendChain s thisFnode).nextFileNode thisFnode (thisFnode :: rest') ∧
      rest'.length = max rest.length 1 ∧ ∀ a ∈ rest', a ∈ rest ∨ s.used < a ∧ a ≤ (extendChain s thisFnode).used := by
  unfold extendChain
  obtain ⟨-, nonnull, tail⟩ := linked
  have thisOld : thisFnode ≤ s.used := old thisFnode (List.mem_cons_self ..)
  by_cases last : s.nextFileNode thisFnode = 0
  · rw [if_pos last]
    have none : rest = [] := by
      cases rest with
      | nil => rfl
      | cons x _ => exact absurd (tail.1.symm.trans last) tail.2.1
    refine ⟨[s.used + 1], ⟨rfl, nonnull, ?_⟩, by simp [none], ?_⟩
    · unfold TempFs.nextFileNode
      dsimp only
      rw [Function.update_self]
      refine ⟨rfl, Nat.succ_ne_zero _, ?_⟩
      dsimp only [Linked]
      rw [Function.update_of_ne (by omega), Function.update_self]
    · intro a inside
      obtain rfl := List.mem_singleton.mp inside
      exact .inr ⟨by omega, le_rfl⟩
  · rw [if_neg last]
    have some : 0 < rest.length := List.length_pos_of_ne_nil fun none => last (by rw [none] at tail; exact tail)
    exact ⟨rest, ⟨rfl, nonnull, tail⟩, by omega, fun a inside => .inl inside⟩

theorem extendChain_frame (s : TempFs) (thisFnode : Nat) : (extendChain s thisFnode).inodes = s.inodes ∧
    (extendChain s thisFnode).dirEntries = s.dirEntries ∧ s.used ≤ (extendChain s thisFnode).used := by
  unfold extendChain
  split
  · exact ⟨rfl, rfl, Nat.le_succ _⟩
  · exact ⟨rfl, rfl, le_rfl⟩

theorem amountToCopy_eq : amountToCopy lenLeft = min filenodeDataSize lenLeft := by
  unfold amountToCopy
  split <;> omega

/-- The first node holds the first bytes, the rest of the chain those after them. -/
theorem stores_cons {node : Nat} {source : Mem} {n : Nat} : Stores s (node :: nodes) source n ↔
    (∀ k, k < min filenodeDataSize n → (s.fileNodes node).data k = source k) ∧
      Stores s nodes (fun k => source (filenodeDataSize + k)) (n - filenodeDataSize) := by
  have positive : 0 < filenodeDataSize := by decide
  constructor
  · intro stores
    refine ⟨fun k near => ?_, fun k inside => ?_⟩
    · obtain ⟨other, found, holds⟩ := stores k (by omega)
      have inFirst : k < filenodeDataSize := by omega
      rw [Nat.div_eq_of_lt inFirst, List.getElem?_cons_zero, Option.some.injEq] at found
      rw [Nat.mod_eq_of_lt inFirst] at holds
      rw [found]
      exact holds
    · obtain ⟨other, found, holds⟩ := stores (filenodeDataSize + k) (by omega)
      rw [Nat.add_div_left k positive, List.getElem?_cons_succ] at found
      rw [Nat.add_mod_left] at holds
      exact ⟨other, found, holds⟩
  · rintro ⟨first, later⟩ k inside
    by_cases near : k < filenodeDataSize
    · refine ⟨node, ?_, ?_⟩
      · rw [Nat.div_eq_of_lt near]
        rfl
      · rw [Nat.mod_eq_of_lt near]
        exact first k (by omega)
    · obtain ⟨other, found, holds⟩ := later (k - filenodeDataSize) (by omega)
      refine ⟨other, ?_, ?_⟩
      · rw [Nat.div_eq_sub_div positive (by omega), List.getElem?_cons_succ]
        exact found
      · have back : filenodeDataSize + (k - filenodeDataSize) = k := by omega
        rw [Nat.mod_eq_sub_mod (by omega)]
        exact holds.trans (congrArg source back)

/-- The nodes a write of `n` bytes needs: the loop makes one ahead of the last it fills. -/
def nodesFor (n : Nat) : Nat := (n + (filenodeDataSize - 1)) / filenodeDataSize + 1

/-- The write loop from byte `i`: the chain from here on stores the rest of the
data, growing where it is too short. -/
theorem writeNodes_ok (data : Mem) (small : len ≤ 2 ^ 47) (enough : len ≤ i + filenodeDataSize * rounds)
    (left : i < len → lenLeft = len - i) (linked : Linked s.nextFileNode thisFnode nodes)
    (nonempty : nodes ≠ []) (old : ∀ a ∈ nodes, a ≤ s.used) :
    ∃ t nodes', writeNodes data len rounds i lenLeft thisFnode s = .ok (⟨⟩, t) ∧ SameBut s t nodes ∧
      Linked t.nextFileNode thisFnode nodes' ∧ (∀ a ∈ nodes', a ∈ nodes ∨ s.used < a ∧ a ≤ t.used) ∧
      Stores t nodes' (fun k => data (i + k)) (len - i) ∧ nodes'.length = max nodes.length (nodesFor (len - i)) := by
  induction rounds generalizing i lenLeft thisFnode nodes s with
  | zero =>
    refine ⟨s, nodes, writeNodes_done (by omega), .refl s nodes, linked, fun a inside => .inl inside, ?_, ?_⟩
    · intro k inside
      omega
    · rw [show len - i = 0 by omega]
      exact (max_eq_left (List.length_pos_of_ne_nil nonempty)).symm
  | succ rounds ih =>
    by_cases more : i < len
    case neg =>
      refine ⟨s, nodes, writeNodes_done more, .refl s nodes, linked, fun a inside => .inl inside, ?_, ?_⟩
      · intro k inside
        omega
      · rw [show len - i = 0 by omega]
        exact (max_eq_left (List.length_pos_of_ne_nil nonempty)).symm
    obtain ⟨first, rest, rfl⟩ := List.exists_cons_of_ne_nil nonempty
    obtain rfl : thisFnode = first := linked.1
    have nonnull : thisFnode ≠ 0 := linked.2.1
    have lenEq := left more
    rw [writeNodes_round more nonnull]
    obtain ⟨rest', extended, restLength, restFrom⟩ := extendChain_linked linked old
    have restNonempty : rest' ≠ [] := List.ne_nil_of_length_pos (by omega)
    obtain ⟨sameInodes, sameEntries, grown⟩ := extendChain_frame s thisFnode
    set e := extendChain s thisFnode
    set u := putChunk e thisFnode (fun x => data (i + x)) (amountToCopy lenLeft) with uDef
    have uLinked : Linked u.nextFileNode thisFnode (thisFnode :: rest') :=
      extended.congr fun a _ => putChunk_next
    have thisOld : thisFnode ≤ s.used := old thisFnode (List.mem_cons_self ..)
    have thisAway : thisFnode ∉ rest' := (List.nodup_cons.mp uLinked.nodup).1
    have uUsed : u.used = e.used := rfl
    have step : add64 i filenodeDataSize = i + filenodeDataSize := add64_of_lt (by unfold filenodeDataSize; omega)
    have left' : i + filenodeDataSize < len → sub64 lenLeft filenodeDataSize = len - (i + filenodeDataSize) := by
      intro again
      rw [sub64_of_le (by omega)]
      omega
    have restOld : ∀ a ∈ rest', a ≤ u.used := by
      intro a inside
      rcases restFrom a inside with inside | new
      · have := old a (List.mem_cons_of_mem thisFnode inside)
        omega
      · omega
    obtain ⟨t, nodes', run, same, linked', from', stores, count⟩ :=
      ih (i := i + filenodeDataSize) (by rw [Nat.mul_succ] at enough; omega) left' uLinked.2.2 restNonempty restOld
    have thisSame : t.fileNodes thisFnode = u.fileNodes thisFnode :=
      same.fileNodes thisFnode thisAway (by omega)
    dsimp only
    rw [step]
    refine ⟨t, thisFnode :: nodes', run, ⟨?_, ?_, ?_, ?_⟩, ⟨rfl, nonnull, ?_⟩, ?_, ?_, ?_⟩
    · exact same.inodes.trans sameInodes
    · exact same.dirEntries.trans sameEntries
    · exact grown.trans same.used
    · intro a away below
      have notThis : a ≠ thisFnode := fun eq => away (eq ▸ List.mem_cons_self ..)
      have notRest : a ∉ rest' := by
        intro inside
        rcases restFrom a inside with inside | new
        · exact away (List.mem_cons_of_mem thisFnode inside)
        · omega
      rw [same.fileNodes a notRest (by omega), putChunk_nodes notThis, extendChain_nodes notThis below]
    · have link : t.nextFileNode thisFnode = u.nextFileNode thisFnode := congrArg FileNode.nextNode thisSame
      rw [link]
      exact linked'
    · intro a inside
      rcases List.mem_cons.mp inside with rfl | inside
      · exact .inl (List.mem_cons_self ..)
      · rcases from' a inside with inside | new
        · rcases restFrom a inside with inside | new
          · exact .inl (List.mem_cons_of_mem thisFnode inside)
          · exact .inr ⟨new.1, new.2.trans same.used⟩
        · exact .inr ⟨by omega, new.2⟩
    · apply stores_cons.mpr
      constructor
      · intro k near
        rw [thisSame]
        exact putChunk_data (by rw [amountToCopy_eq, lenEq]; exact near)
      · rw [Nat.sub_sub]
        simpa only [Nat.add_assoc] using stores
    · rw [List.length_cons, List.length_cons, count, restLength]
      unfold nodesFor filenodeDataSize
      omega

/-! ### The read loop -/

theorem readNodes_done {maxLen : Nat} (done : ¬ (i < maxLen ∧ thisFnode ≠ 0)) :
    readNodes maxLen rounds i lenLeft thisFnode b s = .ok (b, s) := by
  cases rounds <;> simp only [readNodes, if_neg done] <;> rfl

theorem readNodes_round {maxLen : Nat} (more : i < maxLen) (nonnull : thisFnode ≠ 0) :
    readNodes maxLen (rounds + 1) i lenLeft thisFnode b s =
      readNodes maxLen rounds (add64 i filenodeDataSize) (sub64 lenLeft filenodeDataSize)
        (s.nextFileNode thisFnode)
        (copyBytes b i (s.fileNodes thisFnode).data (amountToCopy lenLeft)) s := by
  rw [readNodes, if_pos ⟨more, nonnull⟩]
  rw [bind_eq (fileNode_run nonnull)]
  rfl

/-- Byte `k` of the nodes. -/
def chainByte (s : TempFs) (nodes : List Nat) (k : Nat) : UInt8 :=
  (s.fileNodes (nodes.getD (k / filenodeDataSize) 0)).data (k % filenodeDataSize)

theorem chainByte_first {k : Nat} (near : k < filenodeDataSize) :
    chainByte s (thisFnode :: rest) k = (s.fileNodes thisFnode).data k := by
  rw [chainByte, Nat.div_eq_of_lt near, Nat.mod_eq_of_lt near, List.getD_cons_zero]

theorem chainByte_rest {k : Nat} (far : filenodeDataSize ≤ k) :
    chainByte s (thisFnode :: rest) k = chainByte s rest (k - filenodeDataSize) := by
  have positive : 0 < filenodeDataSize := by decide
  rw [chainByte, chainByte, Nat.div_eq_sub_div positive far, Nat.mod_eq_sub_mod far, List.getD_cons_succ]

theorem Stores.byte {source : Mem} {n k : Nat} (stores : Stores s nodes source n) (inside : k < n) :
    chainByte s nodes k = source k ∧ k < filenodeDataSize * nodes.length := by
  obtain ⟨node, found, byte⟩ := stores k inside
  obtain ⟨below, _⟩ := List.getElem?_eq_some_iff.mp found
  refine ⟨?_, ?_⟩
  · rw [chainByte, List.getD_eq_getElem?_getD, found]
    exact byte
  · exact (Nat.div_lt_iff_lt_mul (by decide)).mp below |>.trans_eq (Nat.mul_comm ..)

/-- The read loop from byte `i` fills the buffer up to `maxLen` or to the end of the
chain, whichever comes first. -/
theorem readNodes_ok {maxLen : Nat} (room : min maxLen (i + filenodeDataSize * nodes.length) < 2 ^ 63)
    (enough : maxLen ≤ i + filenodeDataSize * rounds) (left : i < maxLen → lenLeft = maxLen - i)
    (linked : Linked s.nextFileNode thisFnode nodes) :
    ∃ filled, readNodes maxLen rounds i lenLeft thisFnode b s = .ok (filled, s) ∧
      ∀ x, filled x = if i ≤ x ∧ x < min maxLen (i + filenodeDataSize * nodes.length) then chainByte s nodes (x - i)
        else b x := by
  induction rounds generalizing i lenLeft thisFnode nodes b with
  | zero =>
    refine ⟨b, readNodes_done (by omega), fun x => ?_⟩
    rw [if_neg (by omega)]
  | succ rounds ih =>
    by_cases more : i < maxLen
    case neg =>
      refine ⟨b, readNodes_done (by omega), fun x => ?_⟩
      rw [if_neg (by omega)]
    cases nodes with
    | nil =>
      refine ⟨b, readNodes_done fun both => both.2 linked, fun x => ?_⟩
      rw [if_neg (by simp; omega)]
    | cons first rest =>
      obtain rfl : thisFnode = first := linked.1
      have lenEq := left more
      rw [List.length_cons, Nat.mul_succ] at room ⊢
      have step : add64 i filenodeDataSize = i + filenodeDataSize := add64_of_lt (by unfold filenodeDataSize at *; omega)
      have left' : i + filenodeDataSize < maxLen →
          sub64 lenLeft filenodeDataSize = maxLen - (i + filenodeDataSize) := by
        intro again
        rw [sub64_of_le (by omega)]
        omega
      obtain ⟨filled, run, bytes⟩ := ih (by omega) (by rw [Nat.mul_succ] at enough; omega) left' linked.2.2
        (b := copyBytes b i (s.fileNodes thisFnode).data (amountToCopy lenLeft))
      rw [readNodes_round more linked.2.1, step]
      refine ⟨filled, run, fun x => ?_⟩
      rw [bytes x]
      by_cases far : i + filenodeDataSize ≤ x
      · have behind : copyBytes b i (s.fileNodes thisFnode).data (amountToCopy lenLeft) x = b x := by
          refine copyBytes_outside fun inside => ?_
          rw [amountToCopy_eq] at inside
          unfold InRange at inside
          omega
        rw [behind, chainByte_rest (by omega), Nat.sub_sub]
        by_cases inside : x < min maxLen (i + filenodeDataSize + filenodeDataSize * rest.length)
        · rw [if_pos ⟨far, inside⟩, if_pos (by omega)]
        · rw [if_neg (by omega), if_neg (by omega)]
      · rw [if_neg fun h => far h.1]
        by_cases inside : i ≤ x ∧ x < maxLen
        · rw [if_pos (by omega), chainByte_first (by omega), copyBytes_inside ⟨inside.1, by rw [amountToCopy_eq]; omega⟩]
        · rw [if_neg (by omega), copyBytes_outside]
          rw [amountToCopy_eq]
          unfold InRange
          omega

/-! ### One file -/

/-- The regular file `f` has the chain `nodes` and holds the first `len` bytes of `data`. -/
structure Holds (s : TempFs) (f : Nat) (nodes : List Nat) (data : Mem) (len : Nat) : Prop where
  nonnull : f ≠ 0
  regular : (s.inodes f).type ≠ filetypeDevice
  linked : Linked s.nextFileNode (s.inodes f).firstNode nodes
  old : ∀ a ∈ nodes, a ≤ s.used
  length : (s.inodes f).length = len
  stores : Stores s nodes data len

/-- What a write to the file `f` with the chain `nodes` changes. -/
structure Wrote (s t : TempFs) (f : Nat) (nodes : List Nat) : Prop where
  others : ∀ a, a ≠ f → t.inodes a = s.inodes a
  filename : (t.inodes f).filename = (s.inodes f).filename
  isDir : (t.inodes f).isDir = (s.inodes f).isDir
  dirEntries : t.dirEntries = s.dirEntries
  used : s.used ≤ t.used
  fileNodes : ∀ a ∉ nodes, a ≤ s.used → t.fileNodes a = s.fileNodes a

/-- `file->length = len` and the first node, made when there is none. -/
def startChain (s : TempFs) (f len : Nat) : TempFs :=
  let node := s.inodes f
  if node.firstNode = 0 then
    let started : Inode := { node with length := len, firstNode := s.used + 1 }
    { s with
      inodes := Function.update s.inodes f started
      fileNodes := Function.update s.fileNodes (s.used + 1) {}
      used := s.used + 1 }
  else
    let started : Inode := { node with length := len }
    { s with inodes := Function.update s.inodes f started }

theorem tempfsWrite_start (nonnull : f ≠ 0) (regular : (s.inodes f).type ≠ filetypeDevice) :
    tempfsWrite f data len s =
      (do
        writeNodes data len (len / filenodeDataSize + 1) 0 len ((startChain s f len).inodes f).firstNode
        return 0) (startChain s f len) := by
  unfold tempfsWrite startChain
  rw [bind_eq (inode_run nonnull)]
  dsimp only
  rw [if_neg regular, bind_eq (setInode_run nonnull)]
  by_cases new : (s.inodes f).firstNode = 0
  · rw [if_pos new, if_pos new]
    simp only
    rw [bind_eq mallocFileNode_run, bind_eq (setInode_run nonnull), bind_eq (inode_run nonnull)]
    simp only [Function.update_self, Function.update_idem]
  · rw [if_neg new, if_neg new]
    rw [bind_eq (inode_run nonnull)]

theorem startChain_wrote : Wrote s (startChain s f len) f nodes := by
  unfold startChain
  dsimp only
  split
  · exact {
      others := fun a other => Function.update_of_ne other ..
      filename := by simp only [Function.update_self]
      isDir := by simp only [Function.update_self]
      dirEntries := rfl
      used := Nat.le_succ _
      fileNodes := fun a _ old => Function.update_of_ne (by omega) .. }
  · exact {
      others := fun a other => Function.update_of_ne other ..
      filename := by simp only [Function.update_self]
      isDir := by simp only [Function.update_self]
      dirEntries := rfl
      used := le_rfl
      fileNodes := fun _ _ _ => rfl }

theorem startChain_linked (len : Nat) (linked : Linked s.nextFileNode (s.inodes f).firstNode nodes) :
    ∃ started, Linked (startChain s f len).nextFileNode ((startChain s f len).inodes f).firstNode started ∧
      started.length = max nodes.length 1 ∧ ∀ a ∈ started, a ∈ nodes ∨ s.used < a ∧ a ≤ (startChain s f len).used := by
  unfold startChain
  dsimp only
  by_cases new : (s.inodes f).firstNode = 0
  · rw [if_pos new]
    simp only [Function.update_self]
    have none : nodes = [] := by
      cases nodes with
      | nil => rfl
      | cons x _ => exact absurd (linked.1.symm.trans new) linked.2.1
    refine ⟨[s.used + 1], ⟨rfl, Nat.succ_ne_zero _, ?_⟩, by simp [none], ?_⟩
    · unfold TempFs.nextFileNode
      dsimp only [Linked]
      rw [Function.update_self]
    · intro a inside
      obtain rfl := List.mem_singleton.mp inside
      exact .inr ⟨by omega, le_rfl⟩
  · rw [if_neg new]
    simp only [Function.update_self]
    have some : 0 < nodes.length := List.length_pos_of_ne_nil fun none => new (by rw [none] at linked; exact linked)
    exact ⟨nodes, linked, by omega, fun a inside => .inl inside⟩

theorem startChain_inode (s : TempFs) (f len : Nat) : ((startChain s f len).inodes f).length = len ∧
    ((startChain s f len).inodes f).type = (s.inodes f).type := by
  unfold startChain
  dsimp only
  split <;> simp only [Function.update_self, and_self]

/-- A write returns 0 and the file holds exactly its data. -/
theorem tempfsWrite_ok (data : Mem) (nonnull : f ≠ 0) (regular : (s.inodes f).type ≠ filetypeDevice)
    (linked : Linked s.nextFileNode (s.inodes f).firstNode nodes) (old : ∀ a ∈ nodes, a ≤ s.used)
    (small : len ≤ 2 ^ 47) :
    ∃ t nodes', tempfsWrite f data len s = .ok (0, t) ∧ Holds t f nodes' data len ∧ Wrote s t f nodes ∧
      (∀ a ∈ nodes', a ∈ nodes ∨ s.used < a ∧ a ≤ t.used) ∧ nodes'.length = max nodes.length (nodesFor len) := by
  obtain ⟨started, begins, startedLength, startedFrom⟩ := startChain_linked len linked
  have nonempty : started ≠ [] := List.ne_nil_of_length_pos (by omega)
  have wrote : Wrote s (startChain s f len) f nodes := startChain_wrote
  obtain ⟨length, type⟩ := startChain_inode s f len
  rw [tempfsWrite_start nonnull regular]
  set u := startChain s f len
  have startedOld : ∀ a ∈ started, a ≤ u.used := by
    intro a inside
    rcases startedFrom a inside with inside | new
    · exact (old a inside).trans wrote.used
    · exact new.2
  have positive : 0 < filenodeDataSize := by decide
  have enough : len ≤ 0 + filenodeDataSize * (len / filenodeDataSize + 1) := by
    have := Nat.lt_mul_div_succ len positive
    omega
  have left : 0 < len → len = len - 0 := fun _ => rfl
  obtain ⟨t, nodes', run, same, linked', from', stores, count⟩ :=
    writeNodes_ok data small enough left begins nonempty startedOld
  have chainFrom : ∀ a ∈ nodes', a ∈ nodes ∨ s.used < a ∧ a ≤ t.used := by
    intro a inside
    rcases from' a inside with inside | new
    · rcases startedFrom a inside with inside | new
      · exact .inl inside
      · exact .inr ⟨new.1, new.2.trans same.used⟩
    · exact .inr ⟨wrote.used.trans_lt new.1, new.2⟩
  refine ⟨t, nodes', ?_, ⟨nonnull, ?_, ?_, ?_, ?_, ?_⟩, ⟨?_, ?_, ?_, ?_, ?_, ?_⟩, chainFrom, ?_⟩
  · rw [bind_eq run]
    rfl
  · rw [same.inodes, type]
    exact regular
  · rw [same.inodes]
    exact linked'
  · intro a inside
    rcases chainFrom a inside with inside | new
    · exact (old a inside).trans (wrote.used.trans same.used)
    · exact new.2
  · rw [same.inodes, length]
  · simpa only [Nat.zero_add, Nat.sub_zero] using stores
  · intro a other
    rw [same.inodes, wrote.others a other]
  · rw [same.inodes, wrote.filename]
  · rw [same.inodes, wrote.isDir]
  · rw [same.dirEntries, wrote.dirEntries]
  · exact wrote.used.trans same.used
  · intro a away below
    have notStarted : a ∉ started := by
      intro inside
      rcases startedFrom a inside with inside | new
      · exact away inside
      · omega
    rw [same.fileNodes a notStarted (below.trans wrote.used), wrote.fileNodes a away below]
  · have some : 1 ≤ nodesFor len := Nat.succ_le_succ (Nat.zero_le _)
    rw [count, startedLength, Nat.sub_zero]
    omega

theorem Holds.length_run {nodes : List Nat} (holds : Holds s f nodes data len) :
    tempfsLength f s = .ok (len, s) := by
  unfold tempfsLength
  rw [bind_eq (inode_run holds.nonnull), holds.length]
  rfl

/-- A read copies the bytes of the chain, whatever the file's length. -/
theorem tempfsRead_run {maxLen : Nat} (nonnull : f ≠ 0) (regular : (s.inodes f).type ≠ filetypeDevice)
    (linked : Linked s.nextFileNode (s.inodes f).firstNode nodes) (room : min maxLen (filenodeDataSize * nodes.length) < 2 ^ 63) :
    ∃ filled, tempfsRead f b maxLen s = .ok ((0, filled), s) ∧
      ∀ x, filled x = if x < min maxLen (filenodeDataSize * nodes.length) then chainByte s nodes x else b x := by
  have enough : maxLen ≤ 0 + filenodeDataSize * (maxLen / filenodeDataSize + 1) := by
    have := Nat.lt_mul_div_succ maxLen (show 0 < filenodeDataSize by decide)
    omega
  have left : 0 < maxLen → maxLen = maxLen - 0 := fun _ => rfl
  obtain ⟨filled, run, bytes⟩ := readNodes_ok (b := b) (by omega) enough left linked
  refine ⟨filled, ?_, fun x => by simpa using bytes x⟩
  unfold tempfsRead
  rw [bind_eq (inode_run nonnull), if_neg regular, bind_eq run]
  rfl

/-- Reading at most the file's length fills the buffer with its first bytes. -/
theorem Holds.read_run {nodes : List Nat} {m : Nat} (holds : Holds s f nodes data len) (small : len ≤ 2 ^ 47)
    (within : m ≤ len) :
    ∃ filled, tempfsRead f b m s = .ok ((0, filled), s) ∧ ∀ x, filled x = if x < m then data x else b x := by
  have room : min m (filenodeDataSize * nodes.length) < 2 ^ 63 := by omega
  obtain ⟨filled, run, bytes⟩ := tempfsRead_run (b := b) holds.nonnull holds.regular holds.linked room
  refine ⟨filled, run, fun x => ?_⟩
  rw [bytes x]
  by_cases inside : x < m
  · obtain ⟨byte, below⟩ := holds.stores.byte (show x < len by omega)
    rw [if_pos (by omega), if_pos inside, byte]
  · rw [if_neg (by omega), if_neg inside]

/-- The contents of a file survive whatever leaves its inode and its nodes alone. -/
theorem Holds.kept {nodes : List Nat} (holds : Holds s f nodes data len) (inode : t.inodes f = s.inodes f)
    (chain : ∀ a ∈ nodes, t.fileNodes a = s.fileNodes a) (grown : s.used ≤ t.used) :
    Holds t f nodes data len := by
  refine ⟨holds.nonnull, ?_, ?_, fun a inside => (holds.old a inside).trans grown, ?_, ?_⟩
  · rw [inode]
    exact holds.regular
  · rw [inode]
    exact holds.linked.congr fun a inside => congrArg FileNode.nextNode (chain a inside)
  · rw [inode]
    exact holds.length
  · intro k inside
    obtain ⟨node, found, byte⟩ := holds.stores k inside
    refine ⟨node, found, ?_⟩
    rw [chain node (List.mem_of_getElem? found)]
    exact byte

/-! ### Many files -/

/-- The bytes handed to a write, an object of the kernel's half of the address space. -/
structure Buffer where
  bytes : Mem
  len : Nat
  fits : len ≤ 2 ^ 47

/-- What a file that was never written holds. -/
def Buffer.empty : Buffer := ⟨fun _ => 0, 0, by decide⟩

/-- Each file of `files` holds its contents on a chain of its own. -/
structure Contents (s : TempFs) (files : Nat → Prop) (chains : Nat → List Nat) (contents : Nat → Buffer) :
    Prop where
  holds : ∀ f, files f → Holds s f (chains f) (contents f).bytes (contents f).len
  apart : ∀ f g, files f → files g → f ≠ g → ∀ a ∈ chains f, a ∉ chains g

/-- A write gives its file the new contents and changes no other file's. -/
theorem Contents.write {files : Nat → Prop} {chains : Nat → List Nat} {contents : Nat → Buffer}
    (stored : Contents s files chains contents) (file : files f) (buffer : Buffer) :
    ∃ t nodes', tempfsWrite f buffer.bytes buffer.len s = .ok (0, t) ∧
      Contents t files (Function.update chains f nodes') (Function.update contents f buffer) ∧ Wrote s t f (chains f) ∧
      nodes'.length = max (chains f).length (nodesFor buffer.len) := by
  have holds := stored.holds f file
  obtain ⟨t, nodes', run, after, wrote, chainFrom, count⟩ :=
    tempfsWrite_ok buffer.bytes holds.nonnull holds.regular holds.linked holds.old buffer.fits
  -- The new nodes of `f` are beyond every address in use, the old ones are in no other chain.
  have away : ∀ g, files g → g ≠ f → ∀ a ∈ chains g, a ∉ nodes' := by
    intro g file' other a inside inside'
    have old := (stored.holds g file').old a inside
    rcases chainFrom a inside' with inside' | new
    · exact stored.apart g f file' file other a inside inside'
    · omega
  refine ⟨t, nodes', run, ⟨?_, ?_⟩, wrote, count⟩
  · intro g file'
    by_cases same : g = f
    · rw [same, Function.update_self, Function.update_self]
      exact after
    · rw [Function.update_of_ne same, Function.update_of_ne same]
      have before := stored.holds g file'
      refine before.kept (wrote.others g same) (fun a inside => ?_) wrote.used
      exact wrote.fileNodes a (stored.apart g f file' file same a inside) (before.old a inside)
  · intro g h file' file'' other a inside inside'
    by_cases first : g = f
    · rw [first, Function.update_self] at inside
      rw [Function.update_of_ne (first ▸ other.symm)] at inside'
      exact away h file'' (first ▸ other.symm) a inside' inside
    · rw [Function.update_of_ne first] at inside
      by_cases second : h = f
      · rw [second, Function.update_self] at inside'
        exact away g file' first a inside inside'
      · rw [Function.update_of_ne second] at inside'
        exact stored.apart g h file' file'' other a inside inside'

/-- Only the bytes below the length matter. -/
theorem Contents.congr {files : Nat → Prop} {chains : Nat → List Nat} {contents contents' : Nat → Buffer}
    (stored : Contents s files chains contents) (len : ∀ f, files f → (contents' f).len = (contents f).len)
    (bytes : ∀ f, files f → ∀ k, k < (contents f).len → (contents' f).bytes k = (contents f).bytes k) :
    Contents s files chains contents' where
  holds f file := by
    have holds := stored.holds f file
    rw [len f file]
    refine { holds with stores := fun k inside => ?_ }
    obtain ⟨node, found, byte⟩ := holds.stores k inside
    exact ⟨node, found, byte.trans (bytes f file k inside).symm⟩
  apart := stored.apart

/-- `tempfs_write` for each pair of a file and its data, in order. -/
def runWrites : List (Nat × Buffer) → TempFsM Unit
  | [] => return
  | (f, buffer) :: rest => do
    let _ ← tempfsWrite f buffer.bytes buffer.len
    runWrites rest

/-- The data of the last write to `f`. -/
def lastWrite (writes : List (Nat × Buffer)) (contents : Nat → Buffer) : Nat → Buffer :=
  writes.foldl (fun contents write => Function.update contents write.1 write.2) contents

theorem Contents.runWrites {files : Nat → Prop} {chains : Nat → List Nat} {contents : Nat → Buffer}
    (stored : Contents s files chains contents) (writes : List (Nat × Buffer))
    (within : ∀ write ∈ writes, files write.1) :
    ∃ t chains', runWrites writes s = .ok (⟨⟩, t) ∧ Contents t files chains' (lastWrite writes contents) := by
  induction writes generalizing s chains contents with
  | nil => exact ⟨s, chains, rfl, stored⟩
  | cons write rest ih =>
    obtain ⟨f, buffer⟩ := write
    have file : files f := within (f, buffer) (List.mem_cons_self ..)
    obtain ⟨u, chains', run, next, -⟩ := stored.write file buffer
    obtain ⟨t, chains'', runs, last⟩ := ih next fun write inside => within write (List.mem_cons_of_mem _ inside)
    refine ⟨t, chains'', ?_, last⟩
    unfold Fs.runWrites
    rw [bind_eq run]
    exact runs

/-- A file as `tempfs_mkfile` leaves it. -/
structure NewFile (s : TempFs) (f : Nat) : Prop where
  nonnull : f ≠ 0
  regular : (s.inodes f).type ≠ filetypeDevice
  length : (s.inodes f).length = 0
  firstNode : (s.inodes f).firstNode = 0

theorem contents_new {files : Nat → Prop} (new : ∀ f, files f → NewFile s f) :
    Contents s files (fun _ => []) fun _ => .empty where
  holds f file := {
    nonnull := (new f file).nonnull
    regular := (new f file).regular
    linked := (new f file).firstNode
    old := by simp
    length := (new f file).length
    stores := fun k inside => absurd inside (Nat.not_lt_zero k) }
  apart := by simp

/-- The file `f` reads as the given data: its length, and its first `m` bytes for
every `m` up to that length, with nothing written behind them. -/
def ReadsAs (s : TempFs) (f : Nat) (contents : Buffer) : Prop :=
  tempfsLength f s = .ok (contents.len, s) ∧
    ∀ buf m, m ≤ contents.len → ∃ filled, tempfsRead f buf m s = .ok ((0, filled), s) ∧
      (∀ x, x < m → filled x = contents.bytes x) ∧ ∀ x, m ≤ x → filled x = buf x

theorem Contents.readsAs {files : Nat → Prop} {chains : Nat → List Nat} {contents : Nat → Buffer}
    (stored : Contents s files chains contents) (file : files f) : ReadsAs s f (contents f) := by
  have holds := stored.holds f file
  refine ⟨holds.length_run, fun buf m inside => ?_⟩
  obtain ⟨filled, reads, bytes⟩ := holds.read_run (b := buf) (Buffer.fits _) inside
  refine ⟨filled, reads, fun x low => ?_, fun x high => ?_⟩
  · rw [bytes x, if_pos low]
  · rw [bytes x, if_neg (by omega)]

/-- After any writes every file reads as the last data written to it, and one
more write changes what no other file reads as. -/
theorem files_hold_last_write (files : Nat → Prop) (s : TempFs) (new : ∀ f, files f → NewFile s f)
    (writes : List (Nat × Buffer)) (within : ∀ write ∈ writes, files write.1) :
    ∃ t, runWrites writes s = .ok (⟨⟩, t) ∧
      (∀ f, files f → ReadsAs t f (lastWrite writes (fun _ => .empty) f)) ∧
      ∀ f buffer, files f → ∃ u, tempfsWrite f buffer.bytes buffer.len t = .ok (0, u) ∧ ReadsAs u f buffer ∧
        ∀ g, files g → g ≠ f → ReadsAs u g (lastWrite writes (fun _ => .empty) g) := by
  obtain ⟨t, chains, run, stored⟩ := (contents_new new).runWrites writes within
  refine ⟨t, run, fun f file => stored.readsAs file, fun f buffer file => ?_⟩
  obtain ⟨u, chains', writes, after, -⟩ := stored.write file buffer
  refine ⟨u, writes, ?_, fun g file' other => ?_⟩
  · have reads := after.readsAs file
    rw [Function.update_self] at reads
    exact reads
  · have reads := after.readsAs file'
    rw [Function.update_of_ne other] at reads
    exact reads

/-- A file system with the files `a` (inode 6) and `b` (inode 8). -/
def twoFiles : TempFs :=
  match (do
    let root ← tempfsNew
    tempfsMkfile root [97]
    tempfsMkfile root [98] : TempFsM Unit) {} with
  | .ok (_, s) => s
  | .error _ => {}

/-- `n` bytes of the value `v`. -/
def constBuffer (v : UInt8) (n : Nat) (fits : n ≤ 2 ^ 47) : Buffer := ⟨fun _ => v, n, fits⟩

theorem files_hold_last_write_twoFiles :
    ∃ t, runWrites [(6, constBuffer 1 9000 (by decide)), (8, constBuffer 2 4088 (by decide)),
        (6, constBuffer 3 5 (by decide))] twoFiles = .ok (⟨⟩, t) ∧
      tempfsLength 6 t = .ok (5, t) ∧ tempfsLength 8 t = .ok (4088, t) := by
  have new : ∀ f, f = 6 ∨ f = 8 → NewFile twoFiles f := by
    rintro f (rfl | rfl) <;> exact ⟨by decide, by decide +kernel, by decide +kernel, by decide +kernel⟩
  obtain ⟨t, run, reads, -⟩ := files_hold_last_write (fun f => f = 6 ∨ f = 8) twoFiles new
    [(6, constBuffer 1 9000 (by decide)), (8, constBuffer 2 4088 (by decide)), (6, constBuffer 3 5 (by decide))]
    (by simp)
  exact ⟨t, run, (reads 6 (.inl rfl)).1, (reads 8 (.inr rfl)).1⟩

end PotatOS.Fs
