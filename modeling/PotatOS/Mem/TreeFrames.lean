import Mathlib.Algebra.Order.BigOperators.Group.Finset
import PotatOS.Mem.DirectMap

/-!
# The frames of page trees

Trees that share no frame lie side by side in usable memory. A tree with the
direct map has a table for every 512 pages of it, so its tables take at least
one frame in 512.
-/

namespace PotatOS.Mem

open Memory Prog

section packing

variable {ι α : Type} [DecidableEq α]

/-- Disjoint parts of at least `c` elements. -/
theorem card_mul_le_of_parts {parts : Finset ι} (part : ι → Finset α) {all : Finset α} {c : Nat}
    (disjoint : (parts : Set ι).PairwiseDisjoint part) (inside : ∀ i ∈ parts, part i ⊆ all)
    (large : ∀ i ∈ parts, c ≤ (part i).card) : parts.card * c ≤ all.card := by
  calc parts.card * c ≤ ∑ i ∈ parts, (part i).card := by simpa using Finset.card_nsmul_le_sum parts _ c large
    _ = (parts.biUnion part).card := (Finset.card_biUnion fun i hi j hj other => disjoint hi hj other).symm
    _ ≤ all.card := Finset.card_le_card (Finset.biUnion_subset.mpr inside)

/-- Numbers that are counted from `base` in blocks of `n`. -/
theorem card_le_mul_blocks (numbers : Finset Nat) (base : Nat) {n : Nat} (positive : 0 < n) :
    numbers.card ≤ n * (numbers.image fun x => (base + x) / n).card := by
  apply Finset.card_le_mul_card_image
  intro block _
  have inBlock : (numbers.filter fun x => (base + x) / n = block) ⊆ Finset.Ico (block * n - base) (block * n + n - base) := by
    intro x listed
    obtain ⟨_, place⟩ := Finset.mem_filter.mp listed
    have lower : block * n ≤ base + x := by
      rw [← place]
      exact Nat.div_mul_le_self _ _
    have upper : base + x < block * n + n := by
      rw [← place]
      exact Nat.lt_div_mul_add positive
    simp only [Finset.mem_Ico]
    omega
  have few := Finset.card_le_card inBlock
  rw [Nat.card_Ico] at few
  omega

end packing

/-! ### Usable frames -/

/-- The numbers of the page frames that `kmalloc` has to give out. -/
def usableFrames (memmap : List MemmapEntry) : Finset Nat :=
  ((usableEntries memmap).flatMap fun e => List.range' (e.base / 4096) (e.length / 4096)).toFinset

theorem mem_usableFrames {memmap : List MemmapEntry} {f : Nat} : f ∈ usableFrames memmap ↔
    ∃ e ∈ memmap, e.type = .usable ∧ e.base / 4096 ≤ f ∧ f < e.base / 4096 + e.length / 4096 := by
  simp [usableFrames, mem_usableEntries, and_assoc]

theorem granted_usable {k : Kernel} {g : Grant} {p : Nat} (inv : PmmInv k) (taken : g ∈ k.granted)
    (inside : InRange g.addr (g.pages * 4096) p) : p / 4096 ∈ usableFrames k.memmap := by
  obtain ⟨e, member, usable, lower, upper⟩ := (inv.marked g taken).fits inv.map
  have aligned := inv.map.aligned e member usable
  unfold InRange at inside
  exact mem_usableFrames.mpr ⟨e, member, usable, by omega, by omega⟩

/-! ### Tables -/

/-- The frame of the table at depth `place.1` for node `place.2`. -/
def tableFrame (k : Kernel) (root : Nat) (place : Nat × Nat) : Nat :=
  ((table k root place.1 place.2).getD 0 - k.hhdm) / 4096

/-- The places of the root and of the leaf tables that the direct map needs. -/
def directPlaces (k : Kernel) : Finset (Nat × Nat) :=
  insert (0, 0) (((usableFrames k.memmap).image fun f => (pageOf k.hhdm + f) / 512).image (Prod.mk 3))

/-- The tables for the direct map of usable memory are there. -/
def DirectTables (k : Kernel) (root : Nat) : Prop :=
  ∀ f ∈ usableFrames k.memmap, slot k root 2 ((pageOf k.hhdm + f) / 512) ≠ 0

theorem card_directPlaces (k : Kernel) :
    (directPlaces k).card = ((usableFrames k.memmap).image fun f => (pageOf k.hhdm + f) / 512).card + 1 := by
  rw [directPlaces, Finset.card_insert_of_notMem (by simp), Finset.card_image_of_injective _ (Prod.mk_right_injective 3)]

/-- A tree with the direct map takes more than one usable frame in 512. -/
theorem usableFrames_lt (k : Kernel) : (usableFrames k.memmap).card < 512 * (directPlaces k).card := by
  have blocks := card_le_mul_blocks (usableFrames k.memmap) (pageOf k.hhdm) (n := 512) (by decide)
  rw [card_directPlaces]
  omega

section trees

variable {own own' : Grant → Prop} {k : Kernel} {root root' : Nat}

/-- Usable memory lies in the direct map. -/
def DirectPages (k : Kernel) : Prop := ∀ f ∈ usableFrames k.memmap, pageOf k.hhdm + f < 512 ^ 4

theorem DirectTables.table (direct : DirectTables k root) (pages : DirectPages k) {d n : Nat}
    (place : (d, n) ∈ directPlaces k) : d ≤ 3 ∧ n < 512 ^ d ∧ ∃ t, table k root d n = some t := by
  rcases Finset.mem_insert.mp place with same | leaf
  · obtain ⟨rfl, rfl⟩ := Prod.mk.inj same
    exact ⟨by decide, by decide, root, rfl⟩
  · obtain ⟨m, listed, same⟩ := Finset.mem_image.mp leaf
    obtain ⟨rfl, rfl⟩ := Prod.mk.inj same
    obtain ⟨f, usable, rfl⟩ := Finset.mem_image.mp listed
    have bound := pages f usable
    refine ⟨by decide, by omega, tableOf k.hhdm (slot k root 2 ((pageOf k.hhdm + f) / 512)), ?_⟩
    rw [table_succ, if_neg (direct f usable)]

theorem TreeOk.tableFrame_owned (tree : TreeOk own k root) {d n t : Nat} (depth : d ≤ 3) (bound : n < 512 ^ d)
    (found : table k root d n = some t) : t = tableFrame k root (d, n) * 4096 + k.hhdm ∧
      ∃ g ∈ k.granted, own g ∧ InRange g.addr (g.pages * 4096) (tableFrame k root (d, n) * 4096) := by
  obtain ⟨g, taken, mine, lower, upper⟩ := tree.owned d depth n bound t found
  have place := tree.aligned depth bound found
  have number : tableFrame k root (d, n) = (t - k.hhdm) / 4096 := by
    rw [tableFrame, found, Option.getD_some]
  rw [number]
  refine ⟨by omega, g, taken, mine, ?_⟩
  unfold InRange
  omega

/-- The frames of the root and of the leaf tables of the direct map. -/
def directFrames (k : Kernel) (root : Nat) : Finset Nat := (directPlaces k).image (tableFrame k root)

theorem TreeOk.card_directFrames (tree : TreeOk own k root) (direct : DirectTables k root) (pages : DirectPages k) :
    (directFrames k root).card = (directPlaces k).card := by
  refine Finset.card_image_of_injOn ?_
  rintro ⟨d, n⟩ place ⟨d', n'⟩ place' same
  obtain ⟨depth, bound, t, found⟩ := direct.table pages place
  obtain ⟨depth', bound', t', found'⟩ := direct.table pages place'
  have here := (tree.tableFrame_owned depth bound found).1
  have there := (tree.tableFrame_owned depth' bound' found').1
  obtain rfl : t = t' := by rw [here, there, same]
  obtain ⟨rfl, rfl⟩ := tree.distinct d depth n bound d' depth' n' bound' t found found'
  rfl

theorem TreeOk.directFrames_usable (tree : TreeOk own k root) (direct : DirectTables k root) (pages : DirectPages k)
    (inv : PmmInv k) : directFrames k root ⊆ usableFrames k.memmap := by
  intro f listed
  obtain ⟨⟨d, n⟩, place, rfl⟩ := Finset.mem_image.mp listed
  obtain ⟨depth, bound, t, found⟩ := direct.table pages place
  obtain ⟨_, g, taken, _, inside⟩ := tree.tableFrame_owned depth bound found
  have usable := granted_usable inv taken inside
  rwa [Nat.mul_div_cancel _ (by decide)] at usable

theorem TreeOk.directFrames_disjoint (tree : TreeOk own k root) (tree' : TreeOk own' k root')
    (direct : DirectTables k root) (direct' : DirectTables k root') (pages : DirectPages k) (inv : PmmInv k)
    (other : ∀ g, own g → ¬ own' g) : Disjoint (directFrames k root) (directFrames k root') := by
  rw [Finset.disjoint_left]
  intro f listed listed'
  obtain ⟨⟨d, n⟩, place, rfl⟩ := Finset.mem_image.mp listed
  obtain ⟨⟨d', n'⟩, place', same⟩ := Finset.mem_image.mp listed'
  obtain ⟨depth, bound, t, found⟩ := direct.table pages place
  obtain ⟨depth', bound', t', found'⟩ := direct'.table pages place'
  obtain ⟨_, g, taken, mine, inside⟩ := tree.tableFrame_owned depth bound found
  obtain ⟨_, g', taken', mine', inside'⟩ := tree'.tableFrame_owned depth' bound' found'
  rw [same] at inside'
  have unlike : g ≠ g' := by
    rintro rfl
    exact other g mine mine'
  have symmetric : Std.Symm Grant.Apart := ⟨fun _ _ => apart_comm.mp⟩
  exact not_inRange_of_apart (inv.apart.forall taken taken' unlike) inside inside'

end trees

/-- Trees of their own, each with the direct map, are fewer than 512. -/
theorem few_direct_trees {ι : Type} {k : Kernel} {trees : Finset ι} (root : ι → Nat) (own : ι → Grant → Prop)
    (inv : PmmInv k) (pages : DirectPages k) (ok : ∀ i ∈ trees, TreeOk (own i) k (root i))
    (direct : ∀ i ∈ trees, DirectTables k (root i)) (other : ∀ i ∈ trees, ∀ j ∈ trees, i ≠ j → ∀ g, own i g → ¬ own j g) :
    trees.card < 512 := by
  have packed : trees.card * (directPlaces k).card ≤ (usableFrames k.memmap).card := by
    apply card_mul_le_of_parts fun i => directFrames k (root i)
    · intro i hi j hj unlike
      exact (ok i hi).directFrames_disjoint (ok j hj) (direct i hi) (direct j hj) pages inv (other i hi j hj unlike)
    · exact fun i hi => (ok i hi).directFrames_usable (direct i hi) pages inv
    · exact fun i hi => ((ok i hi).card_directFrames (direct i hi) pages).ge
  exact Nat.lt_of_mul_lt_mul_right (Nat.lt_of_le_of_lt packed (usableFrames_lt k))

end PotatOS.Mem
