import PotatOS.Mem.Kheap
import Mathlib.Data.List.Pairwise

/-!
# Chains of pools

`Cell` is what one pool of the chain records. `Linked` reads the chain off the
memory, `Tiled` says that the cells cover a list of address ranges without gap
or overlap.
-/

namespace PotatOS.Mem

open Memory

/-! ### Pool headers in memory -/

theorem loadPool_congr {m m' : Mem} {a : Nat} (same : ∀ x, InRange a 26 x → m x = m' x) :
    loadPool m a = loadPool m' a := by
  have field : ∀ off n, off + n ≤ 26 → load m (a + off) n = load m' (a + off) n := by
    intro off n fits
    apply load_congr
    intro x inside
    exact same x ⟨by have := inside.1; omega, by have := inside.2; omega⟩
  have verify : load m a 1 = load m' a 1 := field 0 1 (by omega)
  unfold loadPool
  rw [verify, field 1 8 (by omega), field 9 8 (by omega), field 17 8 (by omega), field 25 1 (by omega)]

section fields

variable {m : Mem} {a v : Nat}

theorem loadPool_setSize (small : v < 2 ^ 64) :
    loadPool (setSize m a v) a = { loadPool m a with size := v } := by
  unfold loadPool setSize
  rw [load_store_same (by omega), load_store_apart (by unfold Apart; omega),
    load_store_apart (by unfold Apart; omega), load_store_apart (by unfold Apart; omega),
    load_store_apart (by unfold Apart; omega)]

theorem loadPool_setRequiredSize (small : v < 2 ^ 64) :
    loadPool (setRequiredSize m a v) a = { loadPool m a with requiredSize := v } := by
  unfold loadPool setRequiredSize
  rw [load_store_same (by omega), load_store_apart (by unfold Apart; omega),
    load_store_apart (by unfold Apart; omega), load_store_apart (by unfold Apart; omega),
    load_store_apart (by unfold Apart; omega)]

theorem loadPool_setNextPool (small : v < 2 ^ 64) :
    loadPool (setNextPool m a v) a = { loadPool m a with nextPool := v } := by
  unfold loadPool setNextPool
  rw [load_store_same (by omega), load_store_apart (by unfold Apart; omega),
    load_store_apart (by unfold Apart; omega), load_store_apart (by unfold Apart; omega),
    load_store_apart (by unfold Apart; omega)]

theorem loadPool_setFree (b : Bool) : loadPool (setFree m a b) a = { loadPool m a with free := b } := by
  have bit : load (store m (a + 25) 1 b.toNat) (a + 25) 1 = b.toNat :=
    load_store_same (by cases b <;> decide)
  unfold loadPool setFree
  rw [bit, load_store_apart (by unfold Apart; omega), load_store_apart (by unfold Apart; omega),
    load_store_apart (by unfold Apart; omega), load_store_apart (by unfold Apart; omega)]
  cases b <;> rfl

theorem loadPool_setVerify (small : v < 256) :
    loadPool (setVerify m a v) a = { loadPool m a with verify := v } := by
  unfold loadPool setVerify
  rw [load_store_same (by omega), load_store_apart (by unfold Apart; omega),
    load_store_apart (by unfold Apart; omega), load_store_apart (by unfold Apart; omega),
    load_store_apart (by unfold Apart; omega)]

theorem loadPool_storePool {pool : Pool} (verify : pool.verify < 256) (size : pool.size < 2 ^ 64)
    (required : pool.requiredSize < 2 ^ 64) (next : pool.nextPool < 2 ^ 64) :
    loadPool (storePool m a pool) a = pool := by
  unfold storePool
  rw [loadPool_setFree, loadPool_setNextPool next, loadPool_setRequiredSize required,
    loadPool_setSize size, loadPool_setVerify verify]

theorem setSize_outside {x : Nat} (outside : ¬ InRange a 26 x) : setSize m a v x = m x :=
  store_outside (by unfold InRange at *; omega)

theorem setRequiredSize_outside {x : Nat} (outside : ¬ InRange a 26 x) : setRequiredSize m a v x = m x :=
  store_outside (by unfold InRange at *; omega)

theorem setNextPool_outside {x : Nat} (outside : ¬ InRange a 26 x) : setNextPool m a v x = m x :=
  store_outside (by unfold InRange at *; omega)

theorem setFree_outside {x : Nat} {b : Bool} (outside : ¬ InRange a 26 x) : setFree m a b x = m x :=
  store_outside (by unfold InRange at *; omega)

theorem storePool_outside {x : Nat} {pool : Pool} (outside : ¬ InRange a 26 x) :
    storePool m a pool x = m x := by
  unfold storePool
  rw [setFree_outside outside, setNextPool_outside outside, setRequiredSize_outside outside,
    setSize_outside outside]
  exact store_outside (by unfold InRange at *; omega)

end fields

/-! ### Cells -/

/-- A pool at `addr` that covers the bytes from `addr` to `addr + size`. -/
structure Cell where
  addr : Nat
  size : Nat
  required : Nat
  free : Bool
  deriving DecidableEq, Repr

def Cell.pool (c : Cell) (next : Nat) : Pool :=
  { verify := 69, size := c.size, requiredSize := c.required, nextPool := next, free := c.free }

/-- The address of the first cell, or `last` when there is none. -/
def headAddr (last : Nat) : List Cell → Nat
  | [] => last
  | c :: _ => c.addr

/-- The headers of the cells are in memory, each pointing to the next one and
the last one to `last`. -/
def Linked (m : Mem) (last : Nat) : List Cell → Prop
  | [] => True
  | c :: rest => loadPool m c.addr = c.pool (headAddr last rest) ∧ Linked m last rest

theorem headAddr_append (last : Nat) (front back : List Cell) :
    headAddr last (front ++ back) = headAddr (headAddr last back) front := by
  cases front <;> rfl

theorem linked_append {m : Mem} {last : Nat} {front back : List Cell} :
    Linked m last (front ++ back) ↔ Linked m (headAddr last back) front ∧ Linked m last back := by
  induction front with
  | nil => simp [Linked]
  | cons c rest ih =>
    simp only [List.cons_append, Linked, headAddr_append, ih, and_assoc]

theorem linked_congr {m m' : Mem} {last : Nat} {cells : List Cell}
    (same : ∀ c ∈ cells, ∀ x, InRange c.addr 26 x → m' x = m x) (linked : Linked m last cells) :
    Linked m' last cells := by
  induction cells with
  | nil => trivial
  | cons c rest ih =>
    obtain ⟨header, tail⟩ := linked
    refine ⟨?_, ih (fun d member => same d (List.mem_cons_of_mem _ member)) tail⟩
    rw [← header]
    exact loadPool_congr (same c List.mem_cons_self)

/-- The cells tile the ranges from `r.1` up to `r.2`, in order. -/
def Tiled : List (Nat × Nat) → List Cell → Prop
  | [], [] => True
  | r :: runs, c :: cells => c.addr = r.1 ∧
      ((r.1 + c.size + 1 = r.2 ∧ Tiled runs cells) ∨
        (r.1 + c.size + 1 < r.2 ∧ Tiled ((r.1 + c.size + 1, r.2) :: runs) cells))
  | _, _ => False

/-- A cell cut in two behind its `required` bytes. -/
def Cell.Splits (c low high : Cell) : Prop :=
  low.addr = c.addr ∧ high.addr = c.addr + low.size + 1 ∧ high.addr + high.size = c.addr + c.size

theorem tiled_split {runs : List (Nat × Nat)} {front back : List Cell} {c low high : Cell}
    (cut : c.Splits low high) (tiled : Tiled runs (front ++ c :: back)) :
    Tiled runs (front ++ low :: high :: back) := by
  obtain ⟨same, start, finish⟩ := cut
  induction front generalizing runs with
  | nil =>
    cases runs with
    | nil => exact tiled.elim
    | cons r runs =>
      obtain ⟨here, whole | part⟩ := tiled
      · refine ⟨by omega, Or.inr ⟨by omega, by dsimp only; omega, Or.inl ⟨by dsimp only; omega, whole.2⟩⟩⟩
      · refine ⟨by omega, Or.inr ⟨by omega, by dsimp only; omega, Or.inr ⟨by dsimp only; omega, ?_⟩⟩⟩
        have next : r.1 + low.size + 1 + high.size + 1 = r.1 + c.size + 1 := by omega
        rw [next]
        exact part.2
  | cons d front ih =>
    cases runs with
    | nil => exact tiled.elim
    | cons r runs =>
      obtain ⟨here, ⟨full, rest⟩ | ⟨less, rest⟩⟩ := tiled
      · exact ⟨here, Or.inl ⟨full, ih rest⟩⟩
      · exact ⟨here, Or.inr ⟨less, ih rest⟩⟩

theorem tiled_append {runs : List (Nat × Nat)} {cells : List Cell} {c : Cell} (tiled : Tiled runs cells) :
    Tiled (runs ++ [(c.addr, c.addr + c.size + 1)]) (cells ++ [c]) := by
  induction cells generalizing runs with
  | nil =>
    cases runs with
    | nil => exact ⟨rfl, Or.inl ⟨rfl, trivial⟩⟩
    | cons r runs => exact tiled.elim
  | cons d cells ih =>
    cases runs with
    | nil => exact tiled.elim
    | cons r runs =>
      obtain ⟨here, ⟨full, rest⟩ | ⟨less, rest⟩⟩ := tiled
      · exact ⟨here, Or.inl ⟨full, ih rest⟩⟩
      · exact ⟨here, Or.inr ⟨less, ih rest⟩⟩

theorem tiled_update {runs : List (Nat × Nat)} {front back : List Cell} {c d : Cell}
    (addr : d.addr = c.addr) (size : d.size = c.size) (tiled : Tiled runs (front ++ c :: back)) :
    Tiled runs (front ++ d :: back) := by
  induction front generalizing runs with
  | nil =>
    cases runs with
    | nil => exact tiled.elim
    | cons r runs =>
      obtain ⟨here, rest⟩ := tiled
      rw [← size] at rest
      exact ⟨addr.trans here, rest⟩
  | cons e front ih =>
    cases runs with
    | nil => exact tiled.elim
    | cons r runs =>
      obtain ⟨here, ⟨full, rest⟩ | ⟨less, rest⟩⟩ := tiled
      · exact ⟨here, Or.inl ⟨full, ih rest⟩⟩
      · exact ⟨here, Or.inr ⟨less, ih rest⟩⟩

theorem tiled_inside {runs : List (Nat × Nat)} {cells : List Cell} (tiled : Tiled runs cells) :
    ∀ c ∈ cells, ∃ r ∈ runs, r.1 ≤ c.addr ∧ c.addr + c.size + 1 ≤ r.2 := by
  induction cells generalizing runs with
  | nil => simp
  | cons d cells ih =>
    cases runs with
    | nil => exact tiled.elim
    | cons r runs =>
      intro c member
      obtain ⟨here, ⟨full, rest⟩ | ⟨less, rest⟩⟩ := tiled
      · rcases List.mem_cons.mp member with rfl | there
        · exact ⟨r, List.mem_cons_self, by omega, by omega⟩
        · obtain ⟨s, inRuns, bounds⟩ := ih rest c there
          exact ⟨s, List.mem_cons_of_mem _ inRuns, bounds⟩
      · rcases List.mem_cons.mp member with rfl | there
        · exact ⟨r, List.mem_cons_self, by omega, by omega⟩
        · obtain ⟨s, inRuns, bounds⟩ := ih rest c there
          rcases List.mem_cons.mp inRuns with rfl | later
          · exact ⟨r, List.mem_cons_self, by dsimp only at bounds; omega, bounds.2⟩
          · exact ⟨s, List.mem_cons_of_mem _ later, bounds⟩

/-- The bytes of two cells do not meet. -/
def Cell.Apart (c d : Cell) : Prop := Memory.Apart c.addr (c.size + 1) d.addr (d.size + 1)

theorem tiled_apart {runs : List (Nat × Nat)} {cells : List Cell}
    (runsApart : runs.Pairwise fun r s => r.2 ≤ s.1 ∨ s.2 ≤ r.1) (tiled : Tiled runs cells) :
    cells.Pairwise Cell.Apart := by
  induction cells generalizing runs with
  | nil => exact .nil
  | cons d cells ih =>
    cases runs with
    | nil => exact tiled.elim
    | cons r runs =>
      obtain ⟨first, others⟩ := List.pairwise_cons.mp runsApart
      obtain ⟨here, ⟨full, rest⟩ | ⟨less, rest⟩⟩ := tiled
      · refine List.pairwise_cons.mpr ⟨?_, ih others rest⟩
        intro c member
        obtain ⟨s, inRuns, lower, upper⟩ := tiled_inside rest c member
        have separate := first s inRuns
        unfold Cell.Apart Memory.Apart
        omega
      · have shrunk : ((r.1 + d.size + 1, r.2) :: runs).Pairwise fun r s => r.2 ≤ s.1 ∨ s.2 ≤ r.1 := by
          refine List.pairwise_cons.mpr ⟨?_, others⟩
          intro s inRuns
          have separate := first s inRuns
          dsimp only
          omega
        refine List.pairwise_cons.mpr ⟨?_, ih shrunk rest⟩
        intro c member
        obtain ⟨s, inRuns, lower, upper⟩ := tiled_inside rest c member
        unfold Cell.Apart Memory.Apart
        rcases List.mem_cons.mp inRuns with rfl | later
        · dsimp only at lower
          omega
        · have separate := first s later
          omega

end PotatOS.Mem
