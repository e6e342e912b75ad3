import PotatOS.Lib.Memory
import Mathlib.Data.Int.Order.Basic

/-!
# `memcmp` of the C library (`string.c`)

`Compares` is what the result is for: zero for equal buffers, otherwise the sign
of the first difference. The code takes the difference of the first bytes.
-/

namespace PotatOS.Libc

open Memory

/-- `for (size_t c = 0; c < size; c++)` -/
def memcmpFrom (m : Mem) (str1 str2 size c : Nat) : Int :=
  if c < size then
    -- The result is that of `*str1` and `*str2`, not that of position `c`.
    if m (str1 + c) ≠ m (str2 + c) then ((m str1).toNat : Int) - (m str2).toNat
    else memcmpFrom m str1 str2 size (c + 1)
  else 0
termination_by size - c

def memcmp (m : Mem) (str1 str2 size : Nat) : Int := memcmpFrom m str1 str2 size 0

/-- The first `size` bytes are the same. -/
def SameBytes (m : Mem) (str1 str2 size : Nat) : Prop := ∀ i < size, m (str1 + i) = m (str2 + i)

structure FirstDifference (m : Mem) (str1 str2 size c : Nat) : Prop where
  inside : c < size
  before : SameBytes m str1 str2 c
  differ : m (str1 + c) ≠ m (str2 + c)

/-- The buffers compare as the bytes at their first difference, and as in an order. -/
structure Compares (m : Mem) (str1 str2 size : Nat) : Prop where
  zero_iff : memcmp m str1 str2 size = 0 ↔ SameBytes m str1 str2 size
  sign : ∀ c, FirstDifference m str1 str2 size c →
    (memcmp m str1 str2 size).sign = ((m (str1 + c)).toNat - (m (str2 + c)).toNat : Int).sign
  antisymm : (memcmp m str2 str1 size).sign = -(memcmp m str1 str2 size).sign
  trans : ∀ str3, memcmp m str1 str2 size ≤ 0 → memcmp m str2 str3 size ≤ 0 → memcmp m str1 str3 size ≤ 0

variable {m : Mem} {str1 str2 str3 size c : Nat}

theorem memcmpFrom_same (same : ∀ i, c ≤ i → i < size → m (str1 + i) = m (str2 + i)) :
    memcmpFrom m str1 str2 size c = 0 := by
  induction c using memcmpFrom.induct m str1 str2 size with
  | case1 c inside differ => exact absurd (same c le_rfl inside) differ
  | case2 c inside equal ih =>
    rw [memcmpFrom, if_pos inside, if_neg equal]
    exact ih fun i above => same i (by omega)
  | case3 c past => rw [memcmpFrom, if_neg past]

/-- The loop ends with the first bytes, wherever it stops. -/
theorem memcmpFrom_eq (differ : ∃ i, c ≤ i ∧ i < size ∧ m (str1 + i) ≠ m (str2 + i)) :
    memcmpFrom m str1 str2 size c = ((m str1).toNat : Int) - (m str2).toNat := by
  induction c using memcmpFrom.induct m str1 str2 size with
  | case1 c inside here => rw [memcmpFrom, if_pos inside, if_pos here]
  | case2 c inside equal ih =>
    rw [memcmpFrom, if_pos inside, if_neg equal]
    obtain ⟨i, above, below, other⟩ := differ
    refine ih ⟨i, Nat.lt_of_le_of_ne above ?_, below, other⟩
    rintro rfl
    exact equal other
  | case3 c past =>
    obtain ⟨i, above, below, -⟩ := differ
    omega

theorem memcmp_eq : memcmp m str1 str2 size = if size = 0 then 0 else ((m str1).toNat : Int) - (m str2).toNat := by
  by_cases same : SameBytes m str1 str2 size
  · rw [memcmp, memcmpFrom_same fun i _ => same i]
    split
    · rfl
    · rw [show m str1 = m str2 from same 0 (by omega), Int.sub_self]
  · unfold SameBytes at same
    push Not at same
    obtain ⟨i, inside, differ⟩ := same
    rw [if_neg (by omega)]
    exact memcmpFrom_eq ⟨i, Nat.zero_le i, inside, differ⟩

theorem memcmp_antisymm : (memcmp m str2 str1 size).sign = -(memcmp m str1 str2 size).sign := by
  have swapped : memcmp m str2 str1 size = -memcmp m str1 str2 size := by
    simp only [memcmp_eq]
    split <;> omega
  rw [swapped, Int.sign_neg]

theorem memcmp_trans (first : memcmp m str1 str2 size ≤ 0) (second : memcmp m str2 str3 size ≤ 0) :
    memcmp m str1 str3 size ≤ 0 := by
  simp only [memcmp_eq] at *
  split at * <;> omega

/-- `memcmp` compares as it should exactly when the buffers are the same or differ in their first bytes. -/
theorem memcmp_compares_iff (m : Mem) (str1 str2 size : Nat) :
    Compares m str1 str2 size ↔ SameBytes m str1 str2 size ∨ m str1 ≠ m str2 := by
  constructor
  · intro compares
    by_contra neither
    obtain ⟨differ, equal⟩ := not_or.mp neither
    refine differ (compares.zero_iff.mp ?_)
    rw [memcmp_eq, not_not.mp equal, Int.sub_self, ite_self]
  · rintro (same | differ)
    · have zero : memcmp m str1 str2 size = 0 := memcmpFrom_same fun i _ => same i
      refine ⟨⟨fun _ => same, fun _ => zero⟩, ?_, memcmp_antisymm, fun _ => memcmp_trans⟩
      rintro c ⟨inside, -, other⟩
      exact absurd (same c inside) other
    · have bytes : ((m str1).toNat : Int) - (m str2).toNat ≠ 0 := fun zero => differ (UInt8.toNat_inj.mp (by omega))
      refine ⟨⟨fun zero => ?_, fun same => memcmpFrom_same fun i _ => same i⟩, ?_, memcmp_antisymm, fun _ => memcmp_trans⟩
      · rw [memcmp_eq] at zero
        split at zero
        · rename_i empty
          intro i inside
          omega
        · exact absurd zero bytes
      · rintro c ⟨inside, before, -⟩
        have first : c = 0 := by
          by_contra later
          exact differ (before 0 (by omega))
        subst first
        rw [memcmp_eq, if_neg (by omega)]
        rfl

/-- `"ab"` at 0 and `"ac"` at 2. -/
def twoWords : Mem := fun x => if x = 1 then 98 else if x = 3 then 99 else 97

/-- The first bytes are the same, so two different buffers pass for equal. -/
theorem memcmp_second_byte : memcmp twoWords 0 2 2 = 0 ∧ ¬ Compares twoWords 0 2 2 := by
  have zero : memcmp twoWords 0 2 2 = 0 := by
    rw [memcmp_eq]
    decide
  refine ⟨zero, fun compares => ?_⟩
  have same := compares.zero_iff.mp zero 1 (by decide)
  revert same
  decide

end PotatOS.Libc
