import Mathlib.Init

/-!
# Vectors (`vector.c`)

A vector is a chain of nodes with a counter. Every operation changes the chain
and the counter together, so the nodes alone are kept and `length` is theirs.
-/

namespace PotatOS.Mem

structure Vec (α : Type) where
  dataSize : Nat
  nodes : List α
  deriving DecidableEq, Repr

variable {α : Type}

def Vec.length (vec : Vec α) : Nat := vec.nodes.length

def newVector (elementSize : Nat) : Vec α := { dataSize := elementSize, nodes := [] }

def vectorPush (vec : Vec α) (val : α) : Vec α := { vec with nodes := vec.nodes ++ [val] }

/-- Indices past the end are ignored. -/
def vectorSet (vec : Vec α) (idx : Nat) (val : α) : Vec α := { vec with nodes := vec.nodes.set idx val }

/-- `none` is the null pointer. -/
def vectorAt (vec : Vec α) (idx : Nat) : Option α := vec.nodes[idx]?

@[simp] theorem length_vectorPush (vec : Vec α) (val : α) : (vectorPush vec val).length = vec.length + 1 := by
  simp [Vec.length, vectorPush]

@[simp] theorem length_vectorSet (vec : Vec α) (idx : Nat) (val : α) :
    (vectorSet vec idx val).length = vec.length := by
  simp [Vec.length, vectorSet]

theorem vectorAt_eq_none {vec : Vec α} {idx : Nat} : vectorAt vec idx = none ↔ vec.length ≤ idx := by
  simp [Vec.length, vectorAt]

theorem vectorAt_vectorSet_self {vec : Vec α} {idx : Nat} {val : α} (inside : idx < vec.length) :
    vectorAt (vectorSet vec idx val) idx = some val := by
  unfold Vec.length at inside
  simp [vectorAt, vectorSet, inside]

theorem vectorAt_vectorSet_other {vec : Vec α} {idx i : Nat} {val : α} (other : i ≠ idx) :
    vectorAt (vectorSet vec idx val) i = vectorAt vec i := by
  simp [vectorAt, vectorSet, Ne.symm other]

end PotatOS.Mem
