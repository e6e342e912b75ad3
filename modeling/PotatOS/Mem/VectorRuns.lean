import PotatOS.Mem.VectorNodes

/-!
# Vectors as lists

Runs of the operations of `vector.c` on one vector, between steps of the other
users of the heap. In every state of a run the chain holds a list.
-/

namespace PotatOS.Mem.VectorNodes

open Memory Prog

/-- `vec` holds the list: its chain ends at a null pointer, repeats no node and has
as many nodes as the record says. -/
def Holds (m : Mem) (vec : Nat) (l : List Nat) : Prop :=
  ∃ slots, VectorRep m vec slots ∧ (slots.map Slot.node).Nodup ∧ (∀ s ∈ slots, s.node ≠ 0) ∧ slots.map Slot.data = l

inductive VectorOp where
  | push (valAddr : Nat)
  | set (idx val : Nat)
  | pop (idx : Nat)
  deriving DecidableEq, Repr

namespace VectorOp

def run (kmalloc : Owner → Nat → KernelM Nat) (vec : Nat) : VectorOp → KernelM Unit
  | push valAddr => vectorPush kmalloc vec valAddr
  | set idx val => vectorSet vec idx val
  | pop idx => vectorPop vec idx

/-- The values are `uintptr_t`. -/
def Fits : VectorOp → Prop
  | push valAddr => valAddr < 2 ^ 64
  | set _ val => val < 2 ^ 64
  | pop _ => True

/-- What the operation is for: its effect on the list. -/
def apply : VectorOp → List Nat → List Nat
  | push valAddr, l => l ++ [valAddr]
  | set idx val, l => l.set idx val
  | pop idx, l => l.eraseIdx idx

/-- Removals are at the head. -/
def AtHead (op : VectorOp) : Prop := ∀ idx, op = pop idx → idx = 0

end VectorOp

/-- The list that the operations make of an empty one. -/
def listOf (ops : List VectorOp) : List Nat := ops.foldl (fun l op => op.apply l) []

@[simp] theorem listOf_nil : listOf [] = [] := rfl

@[simp] theorem listOf_snoc (ops : List VectorOp) (op : VectorOp) : listOf (ops ++ [op]) = op.apply (listOf ops) := by
  simp [listOf]

/-- The operations on a vector since `new_vector`, and what the other users of the heap do. -/
inductive VectorRun (A : PageAllocator) (boot : Kernel) (vec : Nat) : Kernel → List (Nat × Nat) → List VectorOp → Prop where
  | new {k k' : Kernel} {own : List (Nat × Nat)} {elementSize : Nat} (before : HeapRun A boot k own)
      (h : newVector A.kmalloc elementSize k = .ok (vec, k')) : VectorRun A boot vec k' own []
  | op {k k' : Kernel} {own : List (Nat × Nat)} {ops : List VectorOp} {op : VectorOp}
      (before : VectorRun A boot vec k own ops) (fits : op.Fits) (h : op.run A.kmalloc vec k = .ok ((), k')) :
      VectorRun A boot vec k' own (ops ++ [op])
  | other {k k' : Kernel} {own own' : List (Nat × Nat)} {ops : List VectorOp}
      (before : VectorRun A boot vec k own ops) (step : ClientStep A k own k' own') : VectorRun A boot vec k' own' ops

section runs

variable {A : PageAllocator} {k k' : Kernel} {vec : Nat} {slots : List Slot} {lost own : List (Nat × Nat)}

/-- A live vector with its nodes, beside the nodes it lost and the blocks of others. -/
structure VectorInv (A : PageAllocator) (k : Kernel) (vec : Nat) (slots : List Slot) (lost own : List (Nat × Nat)) :
    Prop where
  heap : Heap A k (vectorBlocks vec slots ++ (lost ++ own))
  rep : VectorRep k.mem vec slots

theorem VectorInv.holds (inv : VectorInv A k vec slots lost own) : Holds k.mem vec (slots.map Slot.data) := by
  have valid := valid_nodes inv.heap
  refine ⟨slots, inv.rep, ?_, fun s member => Nat.ne_of_gt (valid s member), rfl⟩
  rw [List.Nodup, List.pairwise_map]
  refine (vector_apart inv.heap).2.1.imp fun {s t} apart same => ?_
  rw [same] at apart
  unfold Apart at apart
  omega

/-- The list a vector holds is read off its memory. -/
theorem path_unique {m : Mem} {a : Nat} {slots slots' : List Slot} (path : Path m 0 a slots)
    (path' : Path m 0 a slots') (valid : ∀ s ∈ slots, s.node ≠ 0) (valid' : ∀ s ∈ slots', s.node ≠ 0) : slots = slots' := by
  induction slots generalizing a slots' with
  | nil =>
    cases slots' with
    | nil => rfl
    | cons t _ => exact absurd (path'.1.symm.trans path) (valid' t List.mem_cons_self)
  | cons s rest ih =>
    cases slots' with
    | nil => exact absurd (path.1.symm.trans path') (valid s List.mem_cons_self)
    | cons t rest' =>
      obtain ⟨first, data, tail⟩ := path
      obtain ⟨first', data', tail'⟩ := path'
      obtain ⟨sn, sd⟩ := s
      obtain ⟨tn, td⟩ := t
      obtain rfl : sn = tn := first.symm.trans first'
      obtain rfl : sd = td := data.symm.trans data'
      rw [ih tail tail' (fun u member => valid u (List.mem_cons_of_mem _ member))
        fun u member => valid' u (List.mem_cons_of_mem _ member)]

theorem Holds.unique {m : Mem} {l l' : List Nat} (holds : Holds m vec l) (holds' : Holds m vec l') : l = l' := by
  obtain ⟨slots, rep, _, valid, rfl⟩ := holds
  obtain ⟨slots', rep', _, valid', rfl⟩ := holds'
  rw [path_unique rep.path rep'.path valid valid']

theorem split_slots {idx : Nat} (small : idx < slots.length) :
    ∃ front s back, slots = front ++ s :: back ∧ front.length = idx := by
  refine ⟨slots.take idx, slots[idx], slots.drop (idx + 1), by simp, ?_⟩
  rw [List.length_take]
  omega

namespace VectorInv

theorem push {val : Nat} (inv : VectorInv A k vec slots lost own) (small : val < 2 ^ 64)
    (h : vectorPush A.kmalloc vec val k = .ok ((), k')) :
    ∃ slots', VectorInv A k' vec slots' lost own ∧ slots'.map Slot.data = slots.map Slot.data ++ [val] := by
  obtain ⟨node, heap, _, rep⟩ := vectorPush_ok inv.heap inv.rep small h
  exact ⟨_, ⟨heap, rep⟩, by simp⟩

theorem set {val : Nat} (inv : VectorInv A k vec slots lost own) (idx : Nat) (small : val < 2 ^ 64) :
    ∃ k' slots', vectorSet vec idx val k = .ok ((), k') ∧ VectorInv A k' vec slots' lost own ∧
      slots'.map Slot.data = (slots.map Slot.data).set idx val := by
  by_cases inRange : idx < slots.length
  · obtain ⟨front, s, back, rfl, rfl⟩ := split_slots inRange
    obtain ⟨k', run, heap, _, rep⟩ := vectorSet_ok small inv.heap inv.rep
    exact ⟨k', _, run, ⟨heap, rep⟩, by simp⟩
  · refine ⟨k, slots, vectorSet_beyond (by omega) inv.heap inv.rep, inv, ?_⟩
    rw [List.set_eq_of_length_le (by simp; omega)]

theorem pop_first (inv : VectorInv A k vec slots lost own) :
    ∃ k' slots' lost', vectorPop vec 0 k = .ok ((), k') ∧ VectorInv A k' vec slots' lost' own ∧
      slots'.map Slot.data = (slots.map Slot.data).eraseIdx 0 := by
  cases slots with
  | nil => exact ⟨k, [], lost, vectorPop_empty _ inv.heap inv.rep, inv, rfl⟩
  | cons s rest =>
    obtain ⟨k', run, heap, _, rep⟩ := vectorPop_first inv.heap inv.rep
    exact ⟨k', rest, (s.node, 24) :: lost, run, ⟨heap, rep⟩, by simp⟩

/-- Behind the first element, the one after the index is removed. -/
theorem pop_behind {idx : Nat} (inv : VectorInv A k vec slots lost own) (position : idx ≠ 0)
    (inside : idx + 1 < slots.length) :
    ∃ k' slots' lost', vectorPop vec idx k = .ok ((), k') ∧ VectorInv A k' vec slots' lost' own ∧
      slots'.map Slot.data = (slots.map Slot.data).eraseIdx (idx + 1) := by
  obtain ⟨before, t, back, rfl, len⟩ := split_slots inside
  obtain rfl | ⟨front, s, rfl⟩ := eq_nil_or_snoc before
  · simp at len
  obtain rfl : front.length = idx := by simpa using len
  have several : front ≠ [] := by simpa using position
  obtain ⟨k', run, heap, _, rep⟩ := vectorPop_behind several inv.heap inv.rep
  refine ⟨k', _, (t.node, 24) :: lost, run, ⟨heap, rep⟩, ?_⟩
  simp [List.eraseIdx_append_of_length_le]

theorem op {op : VectorOp} (inv : VectorInv A k vec slots lost own) (fits : op.Fits)
    (h : op.run A.kmalloc vec k = .ok ((), k')) :
    ∃ slots' lost', VectorInv A k' vec slots' lost' own ∧
      (op.AtHead → slots'.map Slot.data = op.apply (slots.map Slot.data)) := by
  cases op with
  | push val =>
    obtain ⟨slots', after, data⟩ := inv.push fits h
    exact ⟨slots', lost, after, fun _ => data⟩
  | set idx val =>
    obtain ⟨k'', slots', run, after, data⟩ := inv.set idx fits
    obtain ⟨_, rfl⟩ := Prod.mk.inj (Except.ok.inj (run.symm.trans h))
    exact ⟨slots', lost, after, fun _ => data⟩
  | pop idx =>
    by_cases first : idx = 0
    · subst first
      obtain ⟨k'', slots', lost', run, after, data⟩ := inv.pop_first
      obtain ⟨_, rfl⟩ := Prod.mk.inj (Except.ok.inj (run.symm.trans h))
      exact ⟨slots', lost', after, fun _ => data⟩
    by_cases none : slots = []
    · subst none
      have run := vectorPop_empty idx inv.heap inv.rep
      obtain ⟨_, rfl⟩ := Prod.mk.inj (Except.ok.inj (run.symm.trans h))
      exact ⟨[], lost, inv, fun _ => rfl⟩
    by_cases inside : idx + 1 < slots.length
    · obtain ⟨k'', slots', lost', run, after, _⟩ := inv.pop_behind first inside
      obtain ⟨_, rfl⟩ := Prod.mk.inj (Except.ok.inj (run.symm.trans h))
      exact ⟨slots', lost', after, fun head => absurd (head idx rfl) first⟩
    · have stopped := vectorPop_beyond first none (by omega) inv.heap inv.rep
      cases stopped.symm.trans h

theorem op_stops {op : VectorOp} {reason : Stop} (inv : VectorInv A k vec slots lost own) (fits : op.Fits)
    (head : op.AtHead) (h : op.run A.kmalloc vec k = .error reason) :
    (∃ val, op = .push val) ∧ ∃ n, A.kmalloc .heap n k = .error reason := by
  cases op with
  | push val => exact ⟨⟨val, rfl⟩, vectorPush_error inv.heap inv.rep h⟩
  | set idx val =>
    obtain ⟨_, _, run, _⟩ := inv.set idx fits
    cases run.symm.trans h
  | pop idx =>
    obtain rfl := head idx rfl
    obtain ⟨_, _, _, run, _⟩ := inv.pop_first
    cases run.symm.trans h

theorem at_index (inv : VectorInv A k vec slots lost own) (idx : Nat) :
    vectorAt vec idx k = .ok (((slots.map Slot.data)[idx]?).getD 0, k) := by
  by_cases inRange : idx < slots.length
  · obtain ⟨front, s, back, rfl, rfl⟩ := split_slots inRange
    rw [vectorAt_run inv.heap inv.rep]
    simp
  · rw [vectorAt_beyond (by omega) inv.heap inv.rep, List.getElem?_eq_none (by simp; omega)]
    rfl

theorem other {own' : List (Nat × Nat)} (inv : VectorInv A k vec slots lost own) (step : ClientStep A k own k' own') :
    VectorInv A k' vec slots lost own' := by
  have heap := inv.heap
  rw [← List.append_assoc] at heap
  obtain ⟨after, kept⟩ := step.ok heap
  rw [List.append_assoc] at after
  exact ⟨after, inv.rep.keeps (kept.mono fun b member => List.mem_append_left _ member)⟩

end VectorInv

theorem VectorRun.inv {boot : Kernel} {ops : List VectorOp} (ready : A.Ready boot)
    (none : ∀ g ∈ boot.granted, ¬ OfHeap g) (run : VectorRun A boot vec k own ops) :
    ∃ slots lost, VectorInv A k vec slots lost own ∧
      ((∀ op ∈ ops, op.AtHead) → slots.map Slot.data = listOf ops) := by
  induction run with
  | new before h =>
    obtain ⟨after, cells⟩ := before.inv ready none
    obtain ⟨heap, _, rep⟩ := newVector_ok ⟨after, cells⟩ h
    exact ⟨[], [], ⟨heap, rep⟩, fun _ => rfl⟩
  | op before fits h ih =>
    obtain ⟨slots, lost, inv, same⟩ := ih
    obtain ⟨slots', lost', after, data⟩ := inv.op fits h
    refine ⟨slots', lost', after, fun heads => ?_⟩
    rw [data (heads _ (by simp)), same fun o member => heads o (by simp [member]), listOf_snoc]
  | other before step ih =>
    obtain ⟨slots, lost, inv, same⟩ := ih
    exact ⟨slots, lost, inv.other step, same⟩

/-- With removals at the head only, a vector is the list its operations make. -/
theorem vector_runs_list {boot : Kernel} {ops : List VectorOp} (ready : A.Ready boot)
    (none : ∀ g ∈ boot.granted, ¬ OfHeap g) (run : VectorRun A boot vec k own ops) (heads : ∀ op ∈ ops, op.AtHead) :
    Holds k.mem vec (listOf ops) ∧ (∀ idx, vectorAt vec idx k = .ok (((listOf ops)[idx]?).getD 0, k)) ∧
      ∀ op : VectorOp, op.Fits → op.AtHead → (∃ k', op.run A.kmalloc vec k = .ok ((), k')) ∨
        ∃ reason n, op.run A.kmalloc vec k = .error reason ∧ A.kmalloc .heap n k = .error reason := by
  obtain ⟨slots, lost, inv, same⟩ := run.inv ready none
  refine ⟨same heads ▸ inv.holds, fun idx => same heads ▸ inv.at_index idx, fun op fits head => ?_⟩
  cases h : op.run A.kmalloc vec k with
  | ok pair => exact .inl ⟨pair.2, rfl⟩
  | error reason =>
    obtain ⟨_, n, stopped⟩ := inv.op_stops fits head h
    exact .inr ⟨reason, n, rfl, stopped⟩

/-- A new vector with these values, on a new heap. -/
def vectorOf (A : PageAllocator) (vals : List Nat) : KernelM Nat := do
  initKheap A.kmalloc
  let vec ← newVector A.kmalloc 8
  vals.forM (vectorPush A.kmalloc vec)
  return vec

theorem pushes_run {boot : Kernel} {vals : List Nat} {ops : List VectorOp} (fits : ∀ v ∈ vals, v < 2 ^ 64)
    (before : VectorRun A boot vec k own ops) (h : vals.forM (vectorPush A.kmalloc vec) k = .ok ((), k')) :
    VectorRun A boot vec k' own (ops ++ vals.map .push) := by
  induction vals generalizing k ops with
  | nil =>
    obtain ⟨_, rfl⟩ := pure_ok h
    simpa using before
  | cons v rest ih =>
    obtain ⟨_, k₁, pushed, h⟩ := bind_ok h
    have step : VectorRun A boot vec k₁ own (ops ++ [.push v]) := before.op (fits v List.mem_cons_self) pushed
    simpa using ih (fun w member => fits w (List.mem_cons_of_mem _ member)) step h

theorem vectorOf_run {boot : Kernel} {vals : List Nat} (fits : ∀ v ∈ vals, v < 2 ^ 64)
    (h : vectorOf A vals boot = .ok (vec, k)) : VectorRun A boot vec k [] (vals.map .push) := by
  obtain ⟨_, k₁, started, h⟩ := bind_ok h
  obtain ⟨_, k₂, created, h⟩ := bind_ok h
  obtain ⟨_, k₃, pushed, h⟩ := bind_ok h
  obtain ⟨rfl, rfl⟩ := pure_ok h
  simpa using pushes_run fits (.new (.init started) created) pushed

theorem vector_runs_list_smallMachine : ∃ k vec, VectorRun pmm smallMachineReady vec k [] [.push 7, .push 8, .push 9] ∧
    Holds k.mem vec [7, 8, 9] := by
  have check : returns (vectorOf pmm [7, 8, 9]) smallMachineReady (fun _ _ => true) = true := by decide +kernel
  obtain ⟨vec, k, h, _⟩ := returns_iff.mp check
  have run := vectorOf_run (by simp) h
  exact ⟨k, vec, run, (vector_runs_list smallMachineReady_ready (by simp [smallMachineReady, smallMachine]) run
    (by simp [VectorOp.AtHead])).1⟩

/-! ### Removal at any index -/

/-- `vector_pop` returns and the element is gone; past the end the list stays. -/
def PopRemoves (vec idx : Nat) (k : Kernel) (l : List Nat) : Prop :=
  ∃ k', vectorPop vec idx k = .ok ((), k') ∧ Holds k'.mem vec (l.eraseIdx idx)

/-- Removing one of two neighbours or the other is the same when they are equal. -/
theorem eraseIdx_next_iff {l : List Nat} {i : Nat} :
    l.eraseIdx i = l.eraseIdx (i + 1) ↔ l[i]? = l[i + 1]? := by
  constructor
  · intro same
    have entry := congrArg (fun r => r[i]?) same
    simpa [List.getElem?_eraseIdx] using entry.symm
  · intro same
    apply List.ext_getElem?
    intro j
    rw [List.getElem?_eraseIdx, List.getElem?_eraseIdx]
    rcases Nat.lt_trichotomy j i with below | rfl | above
    · simp [below, Nat.lt_succ_of_lt below]
    · simp [same]
    · simp [Nat.not_lt_of_gt above, show ¬ j < i + 1 by omega]

/-- `vector_pop` does what it is for at the head, on an empty vector, and where the
element after the one asked for is equal to it. -/
theorem vectorPop_removes_iff {boot : Kernel} {ops : List VectorOp} {l : List Nat} (ready : A.Ready boot)
    (none : ∀ g ∈ boot.granted, ¬ OfHeap g) (run : VectorRun A boot vec k own ops) (holds : Holds k.mem vec l) (idx : Nat) :
    PopRemoves vec idx k l ↔ idx = 0 ∨ l = [] ∨ idx + 1 < l.length ∧ l[idx]? = l[idx + 1]? := by
  obtain ⟨slots, lost, inv, _⟩ := run.inv ready none
  obtain rfl := inv.holds.unique holds
  have returned {k' : Kernel} {l' : List Nat} (h : vectorPop vec idx k = .ok ((), k')) (after : Holds k'.mem vec l') :
      PopRemoves vec idx k (slots.map Slot.data) ↔ (slots.map Slot.data).eraseIdx idx = l' := by
    constructor
    · rintro ⟨k'', h', removed⟩
      obtain ⟨_, rfl⟩ := Prod.mk.inj (Except.ok.inj (h.symm.trans h'))
      exact removed.unique after
    · rintro rfl
      exact ⟨k', h, after⟩
  by_cases first : idx = 0
  · subst first
    obtain ⟨k', slots', lost', h, after, data⟩ := inv.pop_first
    rw [returned h (data ▸ after.holds)]
    simp
  by_cases empty : slots = []
  · subst empty
    rw [returned (vectorPop_empty _ inv.heap inv.rep) inv.holds]
    simp
  by_cases inside : idx + 1 < slots.length
  · obtain ⟨k', slots', lost', h, after, data⟩ := inv.pop_behind first inside
    rw [returned h (data ▸ after.holds), eraseIdx_next_iff]
    simp [first, empty, inside]
  · have stopped := vectorPop_beyond first empty (by omega) inv.heap inv.rep
    have never : ¬ PopRemoves vec idx k (slots.map Slot.data) := by
      rintro ⟨k', h, _⟩
      cases stopped.symm.trans h
    simp [never, first, empty, inside]

theorem vectorPop_removes_smallMachine : ∃ k vec, VectorRun pmm smallMachineReady vec k [] [.push 7, .push 7, .push 8] ∧
    PopRemoves vec 0 k [7, 7, 8] := by
  have check : returns (vectorOf pmm [7, 7, 8]) smallMachineReady (fun _ _ => true) = true := by decide +kernel
  obtain ⟨vec, k, h, _⟩ := returns_iff.mp check
  have run := vectorOf_run (by simp) h
  have none : ∀ g ∈ smallMachineReady.granted, ¬ OfHeap g := by simp [smallMachineReady, smallMachine]
  obtain ⟨slots, lost, inv, same⟩ := run.inv smallMachineReady_ready none
  have data : slots.map Slot.data = [7, 7, 8] := same (by simp [VectorOp.AtHead])
  exact ⟨k, vec, run, (vectorPop_removes_iff smallMachineReady_ready none run (data ▸ inv.holds) 0).mpr (.inl rfl)⟩

/-- Removing the second of three elements takes out the third. -/
theorem vectorPop_takes_next : ∃ k vec, VectorRun pmm smallMachineReady vec k [] [.push 7, .push 8, .push 9] ∧
    Holds k.mem vec [7, 8, 9] ∧ ¬ PopRemoves vec 1 k [7, 8, 9] := by
  have check : returns (vectorOf pmm [7, 8, 9]) smallMachineReady (fun _ _ => true) = true := by decide +kernel
  obtain ⟨vec, k, h, _⟩ := returns_iff.mp check
  have run := vectorOf_run (by simp) h
  have none : ∀ g ∈ smallMachineReady.granted, ¬ OfHeap g := by simp [smallMachineReady, smallMachine]
  obtain ⟨slots, lost, inv, same⟩ := run.inv smallMachineReady_ready none
  have data : slots.map Slot.data = [7, 8, 9] := same (by simp [VectorOp.AtHead])
  have inside : 1 + 1 < slots.length := by
    rw [← List.length_map Slot.data, data]
    decide
  obtain ⟨k', slots', lost', h, after, left⟩ := inv.pop_behind (by decide : 1 ≠ 0) inside
  refine ⟨k, vec, run, data ▸ inv.holds, ?_⟩
  rintro ⟨k'', h', removed⟩
  obtain ⟨_, rfl⟩ := Prod.mk.inj (Except.ok.inj (h.symm.trans h'))
  have taken := removed.unique after.holds
  rw [left, data] at taken
  exact absurd taken (by decide)

end runs

end PotatOS.Mem.VectorNodes
