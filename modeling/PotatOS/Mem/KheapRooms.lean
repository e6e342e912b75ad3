import PotatOS.Mem.KheapFirst

/-!
# Rooms

What first fit looks at in a pool: its size, how much of it is required and
whether it is free. From the rooms of a heap follow those that a `malloc` leaves,
and whether a block, once it is given back, serves the next request.
-/

namespace PotatOS.Mem

open Memory Prog

structure Room where
  size : Nat
  required : Nat
  free : Bool
  deriving DecidableEq, Repr

def Cell.room (c : Cell) : Room := ⟨c.size, c.required, c.free⟩

def Room.Fits (r : Room) (size : Nat) : Prop := r.free = true ∧ size + 26 < r.size ∨ r.required + size + 26 < r.size

instance (r : Room) (size : Nat) : Decidable (r.Fits size) := inferInstanceAs (Decidable (_ ∨ _))

/-- The pool of whole pages that `malloc` appends. -/
def grownRoom (size : Nat) : Room := ⟨(size + 26 + 4095) / 4096 * 4096 - 1, size + 26, false⟩

/-- The rooms after `malloc(size)`. -/
def served (size : Nat) : List Room → List Room
  | [] => [grownRoom size]
  | r :: rest =>
    if r.free = true ∧ size + 26 < r.size then ⟨r.size, size + 26, false⟩ :: rest
    else if r.required + size + 26 < r.size then
      ⟨r.required, r.required, r.free⟩ :: ⟨r.size - r.required - 1, size + 26, false⟩ :: rest
    else r :: served size rest

/-- A block of `size` bytes from these rooms, given back at once, is the first to serve `next` bytes. -/
def TakenOver (size next : Nat) : List Room → Prop
  | [] => next + 26 < (grownRoom size).size
  | r :: rest =>
    if r.free = true ∧ size + 26 < r.size then next + 26 < r.size
    else if r.required + size + 26 < r.size then next + 26 < r.size - r.required - 1
    else ¬ r.Fits next ∧ TakenOver size next rest

instance decidableTakenOver (size next : Nat) : (rooms : List Room) → Decidable (TakenOver size next rooms)
  | [] => inferInstanceAs (Decidable (_ < _))
  | r :: rest =>
    have := decidableTakenOver size next rest
    inferInstanceAs (Decidable (if r.free = true ∧ size + 26 < r.size then next + 26 < r.size
      else if r.required + size + 26 < r.size then next + 26 < r.size - r.required - 1
      else ¬ r.Fits next ∧ TakenOver size next rest))

section rooms

variable {A : PageAllocator} {k k' : Kernel} {live : List (Nat × Nat)} {cells cells' front back : List Cell} {c : Cell}
  {size next q : Nat} {r : Room} {before rooms : List Room}

theorem served_cons (unfit : ¬ r.Fits size) : served size (r :: rooms) = r :: served size rooms := by
  have unfit := not_or.mp unfit
  rw [served, if_neg unfit.1, if_neg unfit.2]

theorem takenOver_cons (unfit : ¬ r.Fits size) :
    TakenOver size next (r :: rooms) ↔ ¬ r.Fits next ∧ TakenOver size next rooms := by
  have unfit := not_or.mp unfit
  rw [TakenOver, if_neg unfit.1, if_neg unfit.2]

theorem served_append (unfit : ∀ r ∈ before, ¬ r.Fits size) : served size (before ++ rooms) = before ++ served size rooms := by
  induction before with
  | nil => rfl
  | cons r before ih =>
    obtain ⟨head, tail⟩ := List.forall_mem_cons.mp unfit
    rw [List.cons_append, served_cons head, ih tail]
    rfl

theorem takenOver_append (unfit : ∀ r ∈ before, ¬ r.Fits size) :
    TakenOver size next (before ++ rooms) ↔ (∀ r ∈ before, ¬ r.Fits next) ∧ TakenOver size next rooms := by
  induction before with
  | nil => simp
  | cons r before ih =>
    obtain ⟨head, tail⟩ := List.forall_mem_cons.mp unfit
    rw [List.cons_append, takenOver_cons head, ih tail, List.forall_mem_cons, and_assoc]

theorem forall_room {P : Room → Prop} : (∀ r ∈ cells.map Cell.room, P r) ↔ ∀ c ∈ cells, P c.room := List.forall_mem_map

/-- The chain in memory is the only one. -/
theorem linked_unique {m : Mem} (positive : ∀ c ∈ cells, 0 < c.addr) (positive' : ∀ c ∈ cells', 0 < c.addr)
    (linked : Linked m 0 cells) (linked' : Linked m 0 cells') (same : headAddr 0 cells = headAddr 0 cells') : cells = cells' := by
  induction cells generalizing cells' with
  | nil =>
    cases cells' with
    | nil => rfl
    | cons d rest' =>
      have some := positive' d List.mem_cons_self
      simp only [headAddr] at same
      omega
  | cons c rest ih =>
    cases cells' with
    | nil =>
      have some := positive c List.mem_cons_self
      simp only [headAddr] at same
      omega
    | cons d rest' =>
      simp only [headAddr] at same
      obtain ⟨header, linked⟩ := linked
      obtain ⟨header', linked'⟩ := linked'
      rw [same, header'] at header
      unfold Cell.pool at header
      injection header with _ sizes requireds nexts frees
      rw [ih (fun e member => positive e (List.mem_cons_of_mem _ member))
        (fun e member => positive' e (List.mem_cons_of_mem _ member))
        linked linked' nexts.symm]
      cases c
      cases d
      simp_all

theorem HeapRep.unique (rep : HeapRep k live cells) (rep' : HeapRep k live cells') : cells = cells' :=
  linked_unique (fun _ member => (rep.bounds member).1) (fun _ member => (rep'.bounds member).1) rep.linked rep'.linked
    (rep.start.symm.trans rep'.start)

theorem HeapRep.takesOver_iff (rep : HeapRep k live (front ++ c :: back)) :
    TakesOver k live (c.addr + 26) next ↔ (∀ d ∈ front, ¬ d.Fits next) ∧ next + 26 < c.size := by
  constructor
  · intro takes
    obtain ⟨front', d, back', rep', start, fits, unfit⟩ := takes
    have same := rep.unique rep'
    obtain rfl : c = d := rep.cell_eq (by simp) (by simp [same]) (by omega)
    have once := rep.addr_nodup
    have once' := rep'.addr_nodup
    rw [List.map_append, List.map_cons, List.nodup_append] at once once'
    have absent : c ∉ front := fun listed => once.2.2 _ (List.mem_map_of_mem listed) _ List.mem_cons_self rfl
    have absent' : c ∉ back := fun listed => (List.nodup_cons.mp once.2.1).1 (List.mem_map_of_mem listed)
    obtain ⟨rfl, -, -⟩ := (List.append_cons_inj_of_notMem absent absent').mp same
    exact ⟨unfit, fits⟩
  · intro both
    exact ⟨front, c, back, rep, rfl, both.2, both.1⟩

theorem served_at (unfit : ∀ d ∈ front, ¬ d.Fits size) :
    served size ((front ++ c :: back).map Cell.room) = front.map Cell.room ++ served size (c.room :: back.map Cell.room) := by
  rw [List.map_append, List.map_cons]
  exact served_append (forall_room.mpr unfit)

theorem takenOver_at (unfit : ∀ d ∈ front, ¬ d.Fits size) : TakenOver size next ((front ++ c :: back).map Cell.room) ↔
    (∀ d ∈ front, ¬ d.Fits next) ∧ TakenOver size next (c.room :: back.map Cell.room) := by
  rw [List.map_append, List.map_cons, takenOver_append (forall_room.mpr unfit), forall_room]
  rfl

/-- The rooms after a returning `malloc`, and what becomes of the block if it is given back at once. -/
theorem HeapRep.malloc_rooms (rep : HeapRep k live cells) (ready : A.Ready k) (small : size < 2 ^ 63)
    (h : malloc A.kmalloc size k = .ok (q, k')) :
    ∃ front d back, HeapRep k' ((q, size) :: live) (front ++ d :: back) ∧ d.free = false ∧ d.addr + 26 = q ∧
      d.required = size + 26 ∧ ((size + 26) % 4096 ≠ 0 → d.required ≤ d.size) ∧
      (front ++ d :: back).map Cell.room = served size (cells.map Cell.room) ∧
      ∀ next, TakenOver size next (cells.map Cell.room) ↔ (∀ e ∈ front, ¬ e.Fits next) ∧ next + 26 < d.size := by
  have found := rep.first A.kmalloc small
  rw [h] at found
  generalize result : Except.ok (q, k') = r at found
  cases found with
  | take c first free fits =>
    obtain ⟨rfl, rfl⟩ := Prod.mk.inj (Except.ok.inj result)
    obtain ⟨-, front, back, rfl, unfit⟩ := firstFit_split first
    have whole : c.room.free = true ∧ size + 26 < c.room.size := ⟨free, fits⟩
    refine ⟨front, ⟨c.addr, c.size, size + 26, false⟩, back, rep.take free fits, rfl, rfl, rfl, fun _ => fits.le, ?_,
      fun next => ?_⟩
    · rw [served_at unfit, served, if_pos whole]
      simp [Cell.room]
    · rw [takenOver_at unfit, TakenOver, if_pos whole]
      rfl
  | cut c first whole =>
    obtain ⟨fits, front, back, rfl, unfit⟩ := firstFit_split first
    have fits := fits.resolve_left whole
    obtain ⟨m, run, -, after⟩ := rep.cut fits
    rw [bind_eq run, run_pure] at result
    obtain ⟨rfl, rfl⟩ := Prod.mk.inj (Except.ok.inj result)
    have taken : c.free = false := by
      by_contra free
      exact whole ⟨by simpa using free, by omega⟩
    have unwhole : ¬ (c.room.free = true ∧ size + 26 < c.room.size) := whole
    have part : c.room.required + size + 26 < c.room.size := fits
    refine ⟨front ++ [⟨c.addr, c.required, c.required, c.free⟩],
      ⟨c.addr + c.required + 1, c.size - c.required - 1, size + 26, false⟩,
      back, by simpa using after, rfl, rfl, rfl, fun _ => by dsimp only; omega, ?_, fun next => ?_⟩
    · rw [served_at unfit, served, if_neg unwhole, if_pos part]
      simp [Cell.room]
    · have full : ¬ Cell.Fits ⟨c.addr, c.required, c.required, c.free⟩ next := by
        simp only [Cell.Fits, taken, Bool.false_eq_true, false_and, false_or]
        omega
      rw [takenOver_at unfit, TakenOver, if_neg unwhole, if_pos part]
      simp only [List.mem_append, List.mem_singleton, or_imp, forall_and, forall_eq, full, not_false_eq_true, and_true]
      rfl
  | grow front c split none =>
    subst split
    obtain ⟨⟨d, after, taken, start, required, extent⟩, -, -⟩ := rep.grow ready small result.symm
    have unfit : ∀ e ∈ front ++ [c], ¬ e.Fits size := fun e member => by simpa using List.find?_eq_none.mp none e member
    have room : d.room = grownRoom size := by
      unfold Cell.room grownRoom
      rw [required, taken, show d.size = (size + 26 + 4095) / 4096 * 4096 - 1 by omega]
    refine ⟨front ++ [c], d, [], after, taken, start, required, fun odd => by omega, ?_, fun next => ?_⟩
    · rw [← List.append_nil ((front ++ [c]).map Cell.room), served_append (forall_room.mpr unfit), List.map_append,
        served, ← room]
      rfl
    · rw [← List.append_nil ((front ++ [c]).map Cell.room), takenOver_append (forall_room.mpr unfit), forall_room,
        TakenOver, ← room]
      rfl

end rooms

end PotatOS.Mem
