import PotatOS.Lib.Memory
import Mathlib.Data.Finset.Card
import Mathlib.Order.Interval.Finset.Nat

/-!
# Bitmaps in memory

Bit `f` of the bitmap at `start` is bit `f % 8` of byte `start + f / 8`. The
file also bounds the total size of disjoint ranges, which is what keeps
counters over several bitmaps from overflowing.
-/

namespace PotatOS.Bitmap

open Memory

def bit (m : Mem) (start f : Nat) : Bool := (m (start + f / 8)).toNat.testBit (f % 8)

/-- Set bit `f`. -/
def mark (m : Mem) (start f : Nat) : Mem :=
  store m (start + f / 8) 1 ((m (start + f / 8)).toNat ||| 2 ^ (f % 8))

/-- Set bits `f` to `f + n - 1`, one at a time. -/
def markRun (m : Mem) (start f : Nat) : Nat → Mem
  | 0 => m
  | n + 1 => markRun (mark m start f) start (f + 1) n

/-- The number of set bits among the first `n`. -/
def count (m : Mem) (start n : Nat) : Nat :=
  ((Finset.range n).filter fun f => bit m start f = true).card

theorem bit_congr {m m' : Mem} {start f : Nat} (same : m (start + f / 8) = m' (start + f / 8)) :
    bit m start f = bit m' start f := by
  unfold bit; rw [same]

theorem mark_outside {m : Mem} {start f x : Nat} (other : x ≠ start + f / 8) : mark m start f x = m x :=
  store_outside (by unfold InRange; omega)

theorem bit_mark (m : Mem) (start f g : Nat) :
    bit (mark m start f) start g = (decide (g = f) || bit m start g) := by
  by_cases byte : g / 8 = f / 8
  · have small : (m (start + f / 8)).toNat ||| 2 ^ (f % 8) < 2 ^ 8 :=
      Nat.or_lt_two_pow (m (start + f / 8)).toNat_lt (Nat.pow_lt_pow_right (by decide) (by omega))
    have stored : (mark m start f (start + g / 8)).toNat = (m (start + f / 8)).toNat ||| 2 ^ (f % 8) := by
      rw [byte, mark, store_inside ⟨by omega, by omega⟩]
      simp only [Nat.sub_self, pow_zero, Nat.div_one, UInt8.toNat_ofNat']
      exact Nat.mod_eq_of_lt small
    have same : (f % 8 = g % 8) ↔ g = f := by omega
    rw [bit, stored, Nat.testBit_or, Nat.testBit_two_pow, bit, byte, Bool.or_comm]
    simp only [same]
  · rw [bit_congr (mark_outside (by omega))]
    have other : g ≠ f := fun same => byte (by rw [same])
    simp [other]

theorem bit_markRun (m : Mem) (start f n g : Nat) :
    bit (markRun m start f n) start g = (decide (f ≤ g ∧ g < f + n) || bit m start g) := by
  induction n generalizing m f with
  | zero => simp [markRun]
  | succ n ih =>
    rw [markRun, ih, bit_mark, ← Bool.or_assoc]
    congr 1
    by_cases here : g = f
    · simp [here]
    · have rest : (f + 1 ≤ g ∧ g < f + 1 + n) ↔ (f ≤ g ∧ g < f + (n + 1)) := by omega
      rw [decide_eq_false here, Bool.or_false]
      exact decide_eq_decide.mpr rest

theorem markRun_outside {m : Mem} {start f n size x : Nat} (fits : f + n ≤ 8 * size)
    (outside : ¬ InRange start size x) : markRun m start f n x = m x := by
  induction n generalizing m f with
  | zero => rfl
  | succ n ih =>
    unfold InRange at outside
    rw [markRun, ih (by omega), mark_outside (by omega)]

theorem bit_zero {m : Mem} {start f : Nat} (zero : m (start + f / 8) = 0) : bit m start f = false := by
  simp [bit, zero]

theorem count_congr {m m' : Mem} {start n : Nat} (same : ∀ f < n, bit m start f = bit m' start f) :
    count m start n = count m' start n := by
  unfold count
  congr 1
  apply Finset.filter_congr
  intro f member
  rw [same f (Finset.mem_range.mp member)]

theorem count_markRun {m : Mem} {start f n size : Nat} (fits : f + n ≤ size)
    (free : ∀ i < n, bit m start (f + i) = false) :
    count (markRun m start f n) start size = count m start size + n := by
  have split : ((Finset.range size).filter fun g => bit (markRun m start f n) start g = true) =
      ((Finset.range size).filter fun g => bit m start g = true) ∪ Finset.Ico f (f + n) := by
    ext g
    simp only [Finset.mem_filter, Finset.mem_range, Finset.mem_union, Finset.mem_Ico, bit_markRun,
      Bool.or_eq_true, decide_eq_true_eq]
    by_cases set : bit m start g = true
    · simp only [set, or_true, and_true]
      omega
    · simp only [set, Bool.false_eq_true, or_false, and_false, false_or]
      omega
  have apart : Disjoint ((Finset.range size).filter fun g => bit m start g = true)
      (Finset.Ico f (f + n)) := by
    rw [Finset.disjoint_left]
    intro g taken inside
    have bounds := Finset.mem_Ico.mp inside
    have clear := free (g - f) (by omega)
    rw [show f + (g - f) = g by omega] at clear
    simp [clear] at taken
  rw [count, split, Finset.card_union_of_disjoint apart, Nat.card_Ico, count]
  omega

theorem count_le {m : Mem} {start n bound : Nat} (tracked : ∀ f < n, bit m start f = true → f < bound) :
    count m start n ≤ bound := by
  have sub : ((Finset.range n).filter fun f => bit m start f = true) ⊆ Finset.range bound := by
    intro f member
    obtain ⟨inside, set⟩ := Finset.mem_filter.mp member
    exact Finset.mem_range.mpr (tracked f (Finset.mem_range.mp inside) set)
  calc count m start n ≤ (Finset.range bound).card := Finset.card_le_card sub
    _ = bound := Finset.card_range bound

/-! ### Disjoint ranges -/

/-- The addresses of a list of ranges. -/
def cover : List (Nat × Nat) → Finset Nat
  | [] => ∅
  | r :: rest => Finset.Ico r.1 (r.1 + r.2) ∪ cover rest

theorem mem_cover {ranges : List (Nat × Nat)} {x : Nat} :
    x ∈ cover ranges ↔ ∃ r ∈ ranges, InRange r.1 r.2 x := by
  induction ranges with
  | nil => simp [cover]
  | cons r rest ih =>
    simp only [cover, Finset.mem_union, ih, Finset.mem_Ico, List.mem_cons, exists_eq_or_imp]
    rfl

theorem sum_lengths_le {ranges : List (Nat × Nat)} {bound : Nat}
    (apart : ranges.Pairwise fun r s => Apart r.1 r.2 s.1 s.2)
    (fits : ∀ r ∈ ranges, r.1 + r.2 ≤ bound) : (ranges.map Prod.snd).sum ≤ bound := by
  have size : (cover ranges).card = (ranges.map Prod.snd).sum := by
    induction ranges with
    | nil => rfl
    | cons r rest ih =>
      obtain ⟨first, others⟩ := List.pairwise_cons.mp apart
      have separate : Disjoint (Finset.Ico r.1 (r.1 + r.2)) (cover rest) := by
        rw [Finset.disjoint_left]
        intro x inside covered
        obtain ⟨s, member, here⟩ := mem_cover.mp covered
        exact not_inRange_of_apart (first s member) (Finset.mem_Ico.mp inside) here
      rw [cover, Finset.card_union_of_disjoint separate, Nat.card_Ico,
        ih others fun s member => fits s (List.mem_cons_of_mem _ member)]
      simp
  have inside : cover ranges ⊆ Finset.range bound := by
    intro x covered
    obtain ⟨r, member, here⟩ := mem_cover.mp covered
    have limit := fits r member
    exact Finset.mem_range.mpr (by have := here.2; omega)
  rw [← size]
  simpa using Finset.card_le_card inside

end PotatOS.Bitmap
