import Mathlib.Data.List.Nodup
import Mathlib.Logic.Function.Iterate

/-!
# Null-terminated chains

`Linked next a nodes` says that following `next` from `a` visits `nodes` and
then meets the null address. The chain is determined by its start, so it never
visits a node twice.
-/

namespace PotatOS

/-- The chain from `a` has the given nodes and ends in null. -/
def Linked (next : Nat → Nat) : Nat → List Nat → Prop
  | a, [] => a = 0
  | a, x :: rest => a = x ∧ x ≠ 0 ∧ Linked next (next x) rest

namespace Linked

variable {next next' : Nat → Nat} {a x : Nat} {nodes front back : List Nat}

theorem congr (linked : Linked next a nodes) (same : ∀ x ∈ nodes, next' x = next x) :
    Linked next' a nodes := by
  induction nodes generalizing a with
  | nil => exact linked
  | cons x rest ih =>
    obtain ⟨start, nonnull, tail⟩ := linked
    have link : next' x = next x := same x (List.mem_cons_self ..)
    refine ⟨start, nonnull, ?_⟩
    rw [link]
    exact ih tail fun y inside => same y (List.mem_cons_of_mem x inside)

theorem append_iff : Linked next a (front ++ back) ↔
    (∀ x ∈ front, x ≠ 0) ∧ Linked next (next^[front.length] a) back ∧
      ∀ i (h : i < front.length), next^[i] a = front[i] := by
  induction front generalizing a with
  | nil => simp
  | cons y front ih =>
    constructor
    · rintro ⟨rfl, nonnull, tail⟩
      obtain ⟨rest, last, path⟩ := ih.mp tail
      refine ⟨?_, last, ?_⟩
      · intro z inside
        rcases List.mem_cons.mp inside with rfl | inside
        · exact nonnull
        · exact rest z inside
      · intro i h
        cases i with
        | zero => rfl
        | succ i => exact path i (Nat.lt_of_succ_lt_succ h)
    · rintro ⟨nonnull, last, path⟩
      obtain rfl : a = y := path 0 (Nat.zero_lt_succ _)
      refine ⟨rfl, nonnull a (List.mem_cons_self ..), ih.mpr ⟨?_, last, ?_⟩⟩
      · exact fun z inside => nonnull z (List.mem_cons_of_mem a inside)
      · exact fun i h => path (i + 1) (Nat.succ_lt_succ h)

theorem suffix (linked : Linked next a (front ++ x :: back)) : Linked next x (x :: back) := by
  obtain ⟨-, last, -⟩ := append_iff.mp linked
  exact ⟨rfl, last.2.1, last.2.2⟩

theorem unique (linked : Linked next a front) (other : Linked next a back) : front = back := by
  induction front generalizing a back with
  | nil =>
    cases back with
    | nil => rfl
    | cons y back => exact absurd (other.1.symm.trans linked) other.2.1
  | cons x front ih =>
    cases back with
    | nil => exact absurd (linked.1.symm.trans other) linked.2.1
    | cons y back =>
      obtain rfl : x = y := linked.1.symm.trans other.1
      rw [ih linked.2.2 other.2.2]

theorem nonnull (linked : Linked next a nodes) : ∀ x ∈ nodes, x ≠ 0 := by
  rw [← List.append_nil nodes] at linked
  exact (append_iff.mp linked).1

theorem nodup (linked : Linked next a nodes) : nodes.Nodup := by
  induction nodes generalizing a with
  | nil => exact List.nodup_nil
  | cons x rest ih =>
    refine List.nodup_cons.mpr ⟨fun inside => ?_, ih linked.2.2⟩
    -- A second visit of `x` would make the chain a proper suffix of itself.
    obtain ⟨front, back, rfl⟩ := List.append_of_mem inside
    have again : Linked next x (x :: back) := suffix linked.2.2
    have whole : Linked next x (x :: (front ++ x :: back)) := ⟨rfl, linked.2.1, linked.2.2⟩
    have same := congrArg List.length (unique again whole)
    simp only [List.length_cons, List.length_append] at same
    omega

theorem splice {last new : Nat} {lost : List Nat} (linked : Linked next a (front ++ last :: lost)) (nonnull : new ≠ 0)
    (seam : next' last = new) (ends : next' new = 0) (same : ∀ x ∈ front, x ≠ last → next' x = next x) :
    Linked next' a (front ++ [last] ++ [new]) := by
  have distinct := linked.nodup
  induction front generalizing a with
  | nil =>
    obtain ⟨rfl, lastNonnull, -⟩ := linked
    exact ⟨rfl, lastNonnull, seam, nonnull, ends⟩
  | cons x front ih =>
    obtain ⟨rfl, xNonnull, tail⟩ := linked
    rw [List.cons_append, List.nodup_cons] at distinct
    have notLast : a ≠ last := fun eq => distinct.1 (eq ▸ List.mem_append_right front (List.mem_cons_self ..))
    have link : next' a = next a := same a (List.mem_cons_self ..) notLast
    refine ⟨rfl, xNonnull, ?_⟩
    rw [link]
    exact ih tail (fun y inside => same y (List.mem_cons_of_mem a inside)) distinct.2

theorem concat {last new : Nat} (linked : Linked next a (front ++ [last])) (nonnull : new ≠ 0)
    (seam : next' last = new) (ends : next' new = 0) (same : ∀ x ∈ front, x ≠ last → next' x = next x) :
    Linked next' a (front ++ [last] ++ [new]) :=
  linked.splice nonnull seam ends same

/-- The chain ends at its node `n`, when that leads to null. -/
theorem cut {n : Nat} (linked : Linked next a nodes) (inside : n < nodes.length) :
    Linked (Function.update next nodes[n] 0) a (nodes.take n ++ [nodes[n]]) := by
  induction nodes generalizing a n with
  | nil => cases inside
  | cons x rest ih =>
    have distinct := linked.nodup
    obtain ⟨rfl, nonnull, tail⟩ := linked
    cases n with
    | zero => exact ⟨rfl, nonnull, Function.update_self ..⟩
    | succ n =>
      have here : n < rest.length := Nat.lt_of_succ_lt_succ inside
      have other : a ≠ rest[n] := fun same => (List.nodup_cons.mp distinct).1 (same ▸ List.getElem_mem here)
      refine ⟨rfl, nonnull, ?_⟩
      rw [List.getElem_cons_succ, Function.update_of_ne other]
      exact ih tail here

end Linked
end PotatOS
