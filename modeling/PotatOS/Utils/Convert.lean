import PotatOS.Lib.LocalArray
import Mathlib.Data.Nat.Digits.Lemmas
import Mathlib.Tactic.NormNum

/-!
# Numbers as text (`string.c`)

The converters write into an array of their caller, `ku_uint64_to_hex_string`
and `ku_uint64_to_binary_string` through an array of their own. `numeral` is the
text that they are for.
-/

namespace PotatOS.Utils

open Local

/-! ### Numerals -/

/-- `'0' + d`, or `'A' + (d - 10)` from ten on. -/
def digitChar (d : Nat) : UInt8 := UInt8.ofNat (if d < 10 then 48 + d else 65 + (d - 10))

/-- The digits of `n`, the first one first; zero has one digit. -/
def numeral (base n : Nat) : List UInt8 :=
  (if n = 0 then [0] else (Nat.digits base n).reverse).map digitChar

theorem numeral_step {base : Nat} (two : 2 ≤ base) (n : Nat) :
    numeral base n = (if n / base = 0 then [] else numeral base (n / base)) ++ [digitChar (n % base)] := by
  by_cases zero : n = 0
  · simp [numeral, zero]
  · have digits : Nat.digits base n = n % base :: Nat.digits base (n / base) :=
      Nat.digits_eq_cons_digits_div two zero
    split
    · rename_i last
      simp [numeral, zero, digits, last]
    · rename_i more
      rw [numeral, numeral, if_neg zero, if_neg more, digits]
      simp

theorem length_numeral_pos (base n : Nat) : 0 < (numeral base n).length := by
  unfold numeral
  split
  · simp
  · simpa [List.length_pos_iff] using Nat.digits_ne_nil_iff_ne_zero.mpr ‹_›

theorem length_numeral_le_iff {base k : Nat} (n : Nat) (two : 2 ≤ base) (some_ : 0 < k) :
    (numeral base n).length ≤ k ↔ n < base ^ k := by
  by_cases zero : n = 0
  · have power : 0 < base ^ k := Nat.pow_pos (by omega)
    simp [numeral, zero]
    omega
  · simpa [numeral, zero] using Nat.digits_length_le_iff two n

theorem digitChar_ne {d : Nat} {b : UInt8} (digit : d < 16) (low : b < 48) : digitChar d ≠ b := by
  rintro rfl
  revert low
  unfold digitChar
  interval_cases d <;> decide

theorem numeral_ne {base n : Nat} {b : UInt8} (two : 2 ≤ base) (small : base ≤ 16) (low : b < 48) :
    b ∉ numeral base n := by
  intro inside
  unfold numeral at inside
  obtain ⟨d, member, same⟩ := List.mem_map.mp inside
  refine digitChar_ne ?_ low same
  split at member
  · simp_all
  · exact (Nat.digits_lt_base two (List.mem_reverse.mp member)).trans_le small

/-! ### `ku_uint64_to_string` -/

def getNumLength (num : Nat) : Nat :=
  if num / 10 = 0 then 1 else 1 + getNumLength (num / 10)
termination_by num
decreasing_by omega

/-- `do { str[index--] = '0' + (num % 10); num /= 10; } while (num > 0);` -/
def writeDigits (num index : Nat) (str : Local) : Except Undefined Local := do
  let str ← put str index (UInt8.ofNat (48 + num % 10))
  if num / 10 = 0 then .ok str else writeDigits (num / 10) (index - 1) str
termination_by num
decreasing_by omega

def kuUint64ToString (num : UInt64) (str : Local) : Except Undefined Local := do
  let length := getNumLength num.toNat
  let str ← put str length 0
  writeDigits num.toNat (length - 1) str

theorem getNumLength_eq (num : Nat) : getNumLength num = (numeral 10 num).length := by
  induction num using getNumLength.induct with
  | case1 num last => rw [getNumLength, if_pos last, numeral_step (by decide), if_pos last]; rfl
  | case2 num more ih =>
    rw [getNumLength, if_neg more, ih, numeral_step (by decide) num, if_neg more, List.length_append, Nat.add_comm]
    rfl

/-- The digits fill the places up to `index`, from behind. -/
theorem writeDigits_run (num : Nat) {before after : Local} {index : Nat}
    (before_ : before.length = (numeral 10 num).length) (index_ : index + 1 = before.length) :
    writeDigits num index (before ++ after) = .ok (bytes (numeral 10 num) ++ after) := by
  induction num using Nat.strongRecOn generalizing before after index with
  | _ num ih =>
    have step := numeral_step (show 2 ≤ 10 by decide) num
    have char : UInt8.ofNat (48 + num % 10) = digitChar (num % 10) := by
      rw [digitChar, if_pos (Nat.mod_lt _ (by decide))]
    obtain ⟨front, x, rfl⟩ := List.eq_nil_or_concat before |>.resolve_left (by rintro rfl; simp at index_)
    simp only [List.concat_eq_append, List.length_append, List.length_singleton, Nat.add_right_cancel_iff] at index_ before_
    rw [writeDigits, List.concat_eq_append, List.append_assoc, List.singleton_append, put_append _ _ _ _ index_, ok_bind,
      char]
    split
    · rename_i last
      rw [step, if_pos last, List.nil_append] at before_ ⊢
      obtain rfl : front = [] := List.eq_nil_of_length_eq_zero (by simpa using before_)
      rfl
    · rename_i more
      rw [step, if_neg more] at before_ ⊢
      have front_ : front.length = (numeral 10 (num / 10)).length := by simpa using before_
      have some_ := length_numeral_pos 10 (num / 10)
      rw [ih (num / 10) (by omega) front_ (by omega)]
      simp

theorem kuUint64ToString_run {num : UInt64} {str : Local} (room : (numeral 10 num.toNat).length < str.length) :
    kuUint64ToString num str =
      .ok (bytes (numeral 10 num.toNat) ++ some 0 :: str.drop ((numeral 10 num.toNat).length + 1)) := by
  have some_ := length_numeral_pos 10 num.toNat
  rw [kuUint64ToString, getNumLength_eq, put_inside room, ok_bind, List.set_eq_take_append_cons_drop, if_pos room,
    writeDigits_run _ (by simp; omega) (by simp; omega)]

theorem kuUint64ToString_overrun {num : UInt64} {str : Local} (full : str.length ≤ (numeral 10 num.toNat).length) :
    kuUint64ToString num str = .error .outOfBounds := by
  rw [kuUint64ToString, getNumLength_eq, put_outside full]
  rfl

/-- The body is that of `ku_uint64_to_string`. -/
def kuUint32ToString (num : UInt32) (str : Local) : Except Undefined Local := kuUint64ToString num.toUInt64 str

/-! ### Digits from the lowest on -/

def kuReverse (str : Local) (length : Nat) : Except Undefined Local := swapFrom str 0 (length - 1)

/-- `while (num > 0)` the lowest `shift` bits become the next character. -/
def putDigits (shift : Nat) [NeZero shift] (num : Nat) (buffer : Local) (index : Nat) : Except Undefined (Local × Nat) :=
  if num = 0 then .ok (buffer, index)
  else do putDigits shift (num >>> shift) (← put buffer index (digitChar (num &&& 2 ^ shift - 1))) (index + 1)
termination_by num
decreasing_by
  rw [Nat.shiftRight_eq_div_pow]
  exact Nat.div_lt_self (by omega) (Nat.one_lt_two_pow (NeZero.ne shift))

/-- The digits of `num` from the lowest on; zero gives one digit. -/
def putNumber (shift : Nat) [NeZero shift] (num : Nat) (buffer : Local) : Except Undefined (Local × Nat) :=
  if num = 0 then do return (← put buffer 0 48, 1) else putDigits shift num buffer 0

/-- `while (index < 16) buffer[index++] = '0';` -/
def padZeros (buffer : Local) (index : Nat) : Except Undefined (Local × Nat) :=
  if index < 16 then do padZeros (← put buffer index 48) (index + 1) else .ok (buffer, index)
termination_by 16 - index

def kuUint64ToHexString (num : UInt64) (str : Local) : Except Undefined Local := do
  let (buffer, index) ← putNumber 4 num.toNat (new 17)
  let (buffer, index) ← padZeros buffer index
  let buffer ← put buffer index 0
  let buffer ← kuReverse buffer index
  copyFrom buffer 17 0 str

def kuUint64ToBinaryString (num : UInt64) (buf : Local) : Except Undefined Local := do
  let (buffer, idx) ← putNumber 1 num.toNat (new 65)
  let buffer ← put buffer idx 0
  let buffer ← kuReverse buffer idx
  copyFrom buffer (idx + 1) 0 buf

def kuUint32ToHexString (num : UInt32) (str : Local) : Except Undefined Local := do
  let (buffer, index) ← putNumber 4 num.toNat (new 9)
  let buffer ← put buffer index 0
  let buffer ← kuReverse buffer index
  copyFrom buffer (index + 1) 0 str

/-- `while (num > 0)` the last decimal digit becomes the next character. -/
def putDecimals (num : Nat) (buffer : Local) (index : Nat) : Except Undefined (Local × Nat) :=
  if num = 0 then .ok (buffer, index)
  else do putDecimals (num / 10) (← put buffer index (UInt8.ofNat (48 + num % 10))) (index + 1)
termination_by num
decreasing_by omega

/-- `putNumber` for decimal digits. -/
def putDecimal (num : Nat) (buffer : Local) : Except Undefined (Local × Nat) :=
  if num = 0 then do return (← put buffer 0 48, 1) else putDecimals num buffer 0

def kuUint16ToString (num : UInt16) (str : Local) : Except Undefined Local := do
  let (buffer, index) ← putDecimal num.toNat (new 6)
  let buffer ← put buffer index 0
  let buffer ← kuReverse buffer index
  copyFrom buffer (index + 1) 0 str

def kuUint8ToStr (num : UInt8) (buffer : Local) : Except Undefined Local :=
  if num = 0 then do
    let buffer ← put buffer 0 48
    put buffer 1 0
  else do
    let (buffer, i) ← putDecimals num.toNat buffer 0
    let buffer ← put buffer i 0
    kuReverse buffer i

/-- Sixteen digits. -/
def hex16 (n : Nat) : List UInt8 := (numeral 16 n).leftpad 16 48

/-- A loop that takes the digits of a number from the lowest on. -/
def TakesDigits (base : Nat) (loop : Nat → Local → Nat → Except Undefined (Local × Nat)) : Prop :=
  ∀ num buffer index, loop num buffer index =
    if num = 0 then .ok (buffer, index)
    else do loop (num / base) (← put buffer index (digitChar (num % base))) (index + 1)

section runs

variable {base : Nat} {loop : Nat → Local → Nat → Except Undefined (Local × Nat)}

theorem TakesDigits.run (takes : TakesDigits base loop) (two : 2 ≤ base) (num : Nat) (before : List UInt8) (after : Local)
    {index : Nat} (index_ : index = before.length) (room : (Nat.digits base num).length ≤ after.length) :
    loop num (bytes before ++ after) index =
      .ok (bytes (before ++ (Nat.digits base num).map digitChar) ++ after.drop (Nat.digits base num).length,
        index + (Nat.digits base num).length) := by
  induction num using Nat.strongRecOn generalizing before after index with
  | _ num ih =>
    by_cases zero : num = 0
    · subst zero
      simp [takes 0]
    · have digits : Nat.digits base num = num % base :: Nat.digits base (num / base) :=
        Nat.digits_eq_cons_digits_div two zero
      rw [digits, List.length_cons] at room
      cases after with
      | nil => exact absurd room (by simp)
      | cons x after =>
        have next := ih (num / base) (Nat.div_lt_self (by omega) two) (before ++ [digitChar (num % base)])
          after (show index + 1 = _ by simp [index_]) (by simpa using room)
        rw [takes, if_neg zero, put_append _ _ _ _ (by simpa using index_), ok_bind, digits]
        simpa [Nat.add_assoc, Nat.add_comm 1] using next

/-- With the special case for zero, the characters of the numeral. -/
theorem TakesDigits.number_run (takes : TakesDigits base loop) (two : 2 ≤ base) (num : Nat) (after : Local)
    (room : (numeral base num).length ≤ after.length) :
    (if num = 0 then do return (← put after 0 48, 1) else loop num after 0) =
      .ok (bytes (numeral base num).reverse ++ after.drop (numeral base num).length, (numeral base num).length) := by
  split
  · rename_i zero
    subst zero
    cases after with
    | nil => exact absurd room (by simp [numeral])
    | cons x after => rfl
  · rename_i nonzero
    have run := takes.run two num [] after rfl (by simpa [numeral, nonzero] using room)
    simpa [numeral, nonzero, ← List.map_reverse] using run

theorem two_le_base {shift : Nat} [NeZero shift] : 2 ≤ 2 ^ shift :=
  Nat.one_lt_two_pow (NeZero.ne shift)

theorem takesDigits_putDigits (shift : Nat) [NeZero shift] : TakesDigits (2 ^ shift) (putDigits shift) := by
  intro num buffer index
  rw [putDigits, Nat.shiftRight_eq_div_pow, Nat.and_two_pow_sub_one_eq_mod]

theorem takesDigits_putDecimals : TakesDigits 10 putDecimals := by
  intro num buffer index
  rw [putDecimals, digitChar, if_pos (Nat.mod_lt _ (by decide))]

end runs

theorem padZeros_run (before : List UInt8) (after : Local) (short : before.length ≤ 16)
    (room : 16 ≤ before.length + after.length) :
    padZeros (bytes before ++ after) before.length =
      .ok (bytes (before ++ List.replicate (16 - before.length) 48) ++ after.drop (16 - before.length), 16) := by
  induction missing : 16 - before.length generalizing before after with
  | zero =>
    obtain full : before.length = 16 := by omega
    rw [padZeros, if_neg (by omega)]
    simp [full]
  | succ n ih =>
    cases after with
    | nil => simp at room; omega
    | cons x after =>
      have next := ih (before ++ [48]) after (by simp; omega) (by simp at room ⊢; omega) (by simp; omega)
      rw [padZeros, if_pos (by omega), put_append _ _ _ _ (by simp), ok_bind]
      simpa [List.replicate_succ] using next

theorem kuReverse_run (l : List UInt8) (rest : Local) :
    kuReverse (bytes l ++ rest) l.length = .ok (bytes l.reverse ++ rest) := by
  have run := swapFrom_run l [] rest rfl rfl
  simpa [kuReverse] using run

/-- The characters are terminated, turned round and copied. -/
theorem reversed_run {l : List UInt8} {buffer str : Local} (inside : l.length < buffer.length)
    (room : l.length < str.length) :
    (do
      let buffer ← put (bytes l.reverse ++ buffer.drop l.length) l.length 0
      let buffer ← kuReverse buffer l.length
      copyFrom buffer (l.length + 1) 0 str) = .ok (bytes l ++ some 0 :: str.drop (l.length + 1)) := by
  obtain ⟨x, rest, last⟩ : ∃ x rest, buffer.drop l.length = x :: rest := ⟨_, _, List.drop_eq_getElem_cons inside⟩
  have turned := kuReverse_run l.reverse (some 0 :: rest)
  rw [List.length_reverse, List.reverse_reverse] at turned
  have copied := copyFrom_bytes (l ++ [0]) rest str (by simpa using room)
  rw [last, put_append _ _ _ _ (by simp), ok_bind, turned, ok_bind]
  simpa using copied

theorem length_hex16 (num : UInt64) : (hex16 num.toNat).length = 16 := by
  have bound := num.toNat_lt
  have short : (numeral 16 num.toNat).length ≤ 16 := (length_numeral_le_iff _ (by decide) (by decide)).mpr bound
  simp [hex16, List.leftpad]
  omega

theorem kuUint64ToHexString_run {num : UInt64} {str : Local} (room : 17 ≤ str.length) :
    kuUint64ToHexString num str = .ok (bytes (hex16 num.toNat) ++ some 0 :: str.drop 17) := by
  have bound := num.toNat_lt
  have short : (numeral 16 num.toNat).length ≤ 16 := (length_numeral_le_iff _ (by decide) (by decide)).mpr bound
  have number := (takesDigits_putDigits 4).number_run two_le_base num.toNat (new 17)
    (by simpa using short.trans (by decide))
  have length := length_hex16 num
  have padded := padZeros_run (numeral 16 num.toNat).reverse ((new 17).drop (numeral 16 num.toNat).length)
    (by simpa using short) (by simp; omega)
  have reversed : (numeral 16 num.toNat).reverse ++ List.replicate (16 - (numeral 16 num.toNat).length) 48 =
      (hex16 num.toNat).reverse := by
    simp [hex16, List.leftpad]
  have last : ((new 17).drop (numeral 16 num.toNat).length).drop (16 - (numeral 16 num.toNat).length) = [none] := by
    rw [List.drop_drop, Nat.add_sub_cancel' short]
    rfl
  rw [List.length_reverse, reversed, last] at padded
  have turned := kuReverse_run (hex16 num.toNat).reverse [some 0]
  rw [List.length_reverse, length, List.reverse_reverse] at turned
  have copied := copyFrom_bytes (hex16 num.toNat ++ [0]) [] str (by simpa [length] using room)
  rw [List.length_append, length] at copied
  rw [show 2 ^ 4 = 16 from rfl] at number
  rw [kuUint64ToHexString, putNumber, number, ok_bind]
  dsimp only
  rw [padded, ok_bind]
  dsimp only
  rw [put_append _ _ _ _ (by simp [length]), ok_bind, turned, ok_bind]
  simpa using copied

theorem kuUint64ToBinaryString_run {num : UInt64} {buf : Local} (room : (numeral 2 num.toNat).length < buf.length) :
    kuUint64ToBinaryString num buf =
      .ok (bytes (numeral 2 num.toNat) ++ some 0 :: buf.drop ((numeral 2 num.toNat).length + 1)) := by
  have short : (numeral 2 num.toNat).length ≤ 64 := (length_numeral_le_iff _ (by decide) (by decide)).mpr num.toNat_lt
  have number := (takesDigits_putDigits 1).number_run two_le_base num.toNat (new 65)
    (by simpa using short.trans (by decide))
  rw [show 2 ^ 1 = 2 from rfl] at number
  rw [kuUint64ToBinaryString, putNumber, number, ok_bind]
  exact reversed_run (by rw [length_new]; omega) room

theorem kuUint32ToHexString_run {num : UInt32} {str : Local} (room : (numeral 16 num.toNat).length < str.length) :
    kuUint32ToHexString num str =
      .ok (bytes (numeral 16 num.toNat) ++ some 0 :: str.drop ((numeral 16 num.toNat).length + 1)) := by
  have short : (numeral 16 num.toNat).length ≤ 8 := (length_numeral_le_iff _ (by decide) (by decide)).mpr num.toNat_lt
  have number := (takesDigits_putDigits 4).number_run two_le_base num.toNat (new 9)
    (by simpa using short.trans (by decide))
  rw [show 2 ^ 4 = 16 from rfl] at number
  rw [kuUint32ToHexString, putNumber, number, ok_bind]
  exact reversed_run (by rw [length_new]; omega) room

theorem kuUint32ToString_run {num : UInt32} {str : Local} (room : (numeral 10 num.toNat).length < str.length) :
    kuUint32ToString num str =
      .ok (bytes (numeral 10 num.toNat) ++ some 0 :: str.drop ((numeral 10 num.toNat).length + 1)) :=
  @kuUint64ToString_run num.toUInt64 str (by simpa using room)

theorem kuUint16ToString_run {num : UInt16} {str : Local} (room : (numeral 10 num.toNat).length < str.length) :
    kuUint16ToString num str =
      .ok (bytes (numeral 10 num.toNat) ++ some 0 :: str.drop ((numeral 10 num.toNat).length + 1)) := by
  have small : num.toNat < 10 ^ 5 := num.toNat_lt.trans (by decide)
  have short : (numeral 10 num.toNat).length ≤ 5 := (length_numeral_le_iff _ (by decide) (by decide)).mpr small
  have number := takesDigits_putDecimals.number_run (by decide) num.toNat (new 6)
    (by simpa using short.trans (by decide))
  rw [kuUint16ToString, putDecimal, number, ok_bind]
  exact reversed_run (by rw [length_new]; omega) room

theorem kuUint8ToStr_run {num : UInt8} {buffer : Local} (room : (numeral 10 num.toNat).length < buffer.length) :
    kuUint8ToStr num buffer =
      .ok (bytes (numeral 10 num.toNat) ++ some 0 :: buffer.drop ((numeral 10 num.toNat).length + 1)) := by
  by_cases null : num = 0
  · subst null
    rw [show numeral 10 (0 : UInt8).toNat = [48] from rfl] at room ⊢
    obtain ⟨x, rest, rfl⟩ := List.exists_cons_of_length_pos (Nat.zero_lt_of_lt room)
    obtain ⟨y, rest, rfl⟩ := List.exists_cons_of_length_pos (show 0 < rest.length by simpa using room)
    rfl
  · have nonzero : num.toNat ≠ 0 := fun zero => null (UInt8.toNat_inj.mp zero)
    have number := takesDigits_putDecimals.number_run (by decide) num.toNat buffer room.le
    obtain ⟨x, rest, last⟩ : ∃ x rest, buffer.drop (numeral 10 num.toNat).length = x :: rest :=
      ⟨_, _, List.drop_eq_getElem_cons room⟩
    have behind : buffer.drop ((numeral 10 num.toNat).length + 1) = rest := by
      rw [← List.drop_drop, last, List.drop_one, List.tail_cons]
    have turned := kuReverse_run (numeral 10 num.toNat).reverse (some 0 :: rest)
    rw [List.length_reverse, List.reverse_reverse] at turned
    rw [if_neg nonzero, last] at number
    rw [kuUint8ToStr, if_neg null, number, ok_bind, behind]
    dsimp only
    rw [put_append _ _ _ _ (by simp), ok_bind, turned]

end PotatOS.Utils
