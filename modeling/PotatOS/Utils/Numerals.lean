import PotatOS.Utils.Convert

/-!
# Numbers read back

`IsNumeral` says what a text for a number is: its characters are digits of the
base, and reading them gives the number. The converters of `string.c` produce
such texts for all their arguments.
-/

namespace PotatOS.Utils

open Local

/-- The digit that a character stands for. -/
def charDigit (ch : UInt8) : Nat := if ch.toNat < 58 then ch.toNat - 48 else ch.toNat - 55

/-- The number that a text stands for. -/
def readNumeral (base : Nat) (l : List UInt8) : Nat := l.foldl (fun n ch => base * n + charDigit ch) 0

structure IsNumeral (base n : Nat) (l : List UInt8) : Prop where
  chars : ∀ ch ∈ l, ∃ d < base, ch = digitChar d
  value : readNumeral base l = n

/-- The first character is no `'0'`, unless it is the only one. -/
def NoLeadingZeros (l : List UInt8) : Prop := l = [48] ∨ ∃ ch rest, l = ch :: rest ∧ ch ≠ 48

/-- Whatever the array of the caller holds, it gets the text and its terminator, if it has room for them. -/
def Produces (convert : Local → Except Undefined Local) (l : List UInt8) : Prop :=
  ∀ str : Local, l.length < str.length → convert str = .ok (bytes l ++ some 0 :: str.drop (l.length + 1))

variable {base n : Nat}

theorem charDigit_digitChar {d : Nat} (digit : d < 16) : charDigit (digitChar d) = d := by
  interval_cases d <;> decide

theorem readNumeral_concat (l : List UInt8) (ch : UInt8) :
    readNumeral base (l ++ [ch]) = base * readNumeral base l + charDigit ch := by
  simp [readNumeral]

theorem numeral_chars (two : 2 ≤ base) : ∀ ch ∈ numeral base n, ∃ d < base, ch = digitChar d := by
  intro ch inside
  obtain ⟨d, member, rfl⟩ := List.mem_map.mp inside
  refine ⟨d, ?_, rfl⟩
  split at member
  · rw [List.mem_singleton] at member
    omega
  · exact Nat.digits_lt_base two (List.mem_reverse.mp member)

theorem readNumeral_numeral (two : 2 ≤ base) (small : base ≤ 16) (n : Nat) : readNumeral base (numeral base n) = n := by
  induction n using Nat.strongRecOn with
  | _ n ih =>
    have digit : n % base < 16 := (Nat.mod_lt n (by omega)).trans_le small
    rw [numeral_step two, readNumeral_concat, charDigit_digitChar digit]
    split
    · rename_i last
      have whole := Nat.div_add_mod n base
      rw [last] at whole
      exact whole
    · rename_i more
      rw [ih (n / base) (Nat.div_lt_self (Nat.pos_of_ne_zero fun zero => more (by simp [zero])) two)]
      exact Nat.div_add_mod n base

theorem isNumeral_numeral (two : 2 ≤ base) (small : base ≤ 16) (n : Nat) : IsNumeral base n (numeral base n) :=
  ⟨numeral_chars two, readNumeral_numeral two small n⟩

theorem noLeadingZeros_numeral (two : 2 ≤ base) (small : base ≤ 16) (n : Nat) : NoLeadingZeros (numeral base n) := by
  induction n using Nat.strongRecOn with
  | _ n ih =>
    by_cases zero : n = 0
    · subst zero
      exact .inl rfl
    · rw [numeral_step two]
      split
      · rename_i last
        refine .inr ⟨_, [], rfl, fun char => zero ?_⟩
        have digit : n % base < 16 := (Nat.mod_lt n (by omega)).trans_le small
        have value := charDigit_digitChar digit
        rw [char] at value
        have whole := Nat.div_add_mod n base
        rw [last, ← value] at whole
        exact whole.symm
      · rename_i more
        rcases ih (n / base) (Nat.div_lt_self (Nat.pos_of_ne_zero zero) two) with one | ⟨ch, rest, split, nonzero⟩
        · have value := readNumeral_numeral two small (n / base)
          rw [one] at value
          exact absurd value.symm more
        · exact .inr ⟨ch, rest ++ [digitChar (n % base)], by rw [split, List.cons_append], nonzero⟩

theorem readNumeral_zeros (k : Nat) (l : List UInt8) : readNumeral base (List.replicate k 48 ++ l) = readNumeral base l := by
  induction k with
  | zero => rfl
  | succ k ih => exact ih

theorem isNumeral_hex16 (n : Nat) : IsNumeral 16 n (hex16 n) := by
  refine ⟨fun ch inside => ?_, ?_⟩
  · rcases List.mem_append.mp inside with pad | digit
    · exact ⟨0, by decide, List.eq_of_mem_replicate pad⟩
    · exact numeral_chars (by decide) ch digit
  · exact (readNumeral_zeros _ _).trans (readNumeral_numeral (by decide) (by decide) n)

/-- The converters are exact: for every argument the text of the number in their base, without leading zeros or with
sixteen digits, and the length that `get_num_length` computes. -/
theorem converters_exact :
    (∀ num : UInt64, ∃ l, Produces (kuUint64ToString num) l ∧ IsNumeral 10 num.toNat l ∧ NoLeadingZeros l ∧
      getNumLength num.toNat = l.length) ∧
    (∀ num : UInt32, ∃ l, Produces (kuUint32ToString num) l ∧ IsNumeral 10 num.toNat l ∧ NoLeadingZeros l) ∧
    (∀ num : UInt16, ∃ l, Produces (kuUint16ToString num) l ∧ IsNumeral 10 num.toNat l ∧ NoLeadingZeros l) ∧
    (∀ num : UInt8, ∃ l, Produces (kuUint8ToStr num) l ∧ IsNumeral 10 num.toNat l ∧ NoLeadingZeros l) ∧
    (∀ num : UInt64, ∃ l, Produces (kuUint64ToHexString num) l ∧ IsNumeral 16 num.toNat l ∧ l.length = 16) ∧
    (∀ num : UInt32, ∃ l, Produces (kuUint32ToHexString num) l ∧ IsNumeral 16 num.toNat l ∧ NoLeadingZeros l) ∧
    ∀ num : UInt64, ∃ l, Produces (kuUint64ToBinaryString num) l ∧ IsNumeral 2 num.toNat l ∧ NoLeadingZeros l := by
  have decimal : ∀ n, IsNumeral 10 n (numeral 10 n) := isNumeral_numeral (by decide) (by decide)
  have plain : ∀ n, NoLeadingZeros (numeral 10 n) := noLeadingZeros_numeral (by decide) (by decide)
  refine ⟨fun num => ?_, fun num => ?_, fun num => ?_, fun num => ?_, fun num => ?_, fun num => ?_, fun num => ?_⟩
  · exact ⟨_, fun _ => kuUint64ToString_run, decimal _, plain _, getNumLength_eq _⟩
  · exact ⟨_, fun _ => kuUint32ToString_run, decimal _, plain _⟩
  · exact ⟨_, fun _ => kuUint16ToString_run, decimal _, plain _⟩
  · exact ⟨_, fun _ => kuUint8ToStr_run, decimal _, plain _⟩
  · refine ⟨_, fun str room => ?_, isNumeral_hex16 num.toNat, length_hex16 num⟩
    rw [length_hex16] at room ⊢
    exact kuUint64ToHexString_run room
  · exact ⟨_, fun _ => kuUint32ToHexString_run, isNumeral_numeral (by decide) (by decide) _,
      noLeadingZeros_numeral (by decide) (by decide) _⟩
  · exact ⟨_, fun _ => kuUint64ToBinaryString_run, isNumeral_numeral (by decide) (by decide) _,
      noLeadingZeros_numeral (by decide) (by decide) _⟩

end PotatOS.Utils
