import Mathlib.Data.Nat.Digits.Defs
import PotatOS.Fs.PathBuffers

/-!
# Fields of a ustar header

The size field holds eleven octal digits, more than an `int` can. The name field
need not be terminated, and the prefix field holds the directories that do not
fit into it; the code reads the header as one string.
-/

namespace PotatOS.Fs

open Memory Prog

/-! ### The size -/

/-- The `filesize` of the header at `a`. -/
def filesizeAt (m : Mem) (a : Nat) : Nat := toUint64 (oct2bin m (a + 0x7C) 11)

theorem unpackUstar_round {m : Mem} {env : Surroundings} {a : Nat} (driveChar : UInt8) (rounds : Nat)
    (magic : kuMemcmp m (a + 257) ustarMagic = true) : unpackUstar m env driveChar (rounds + 1) a = do
      if m (a + 156) ≠ directoryType then unpackMember m env driveChar a (filesizeAt m a)
      let visited ← unpackUstar m env driveChar rounds (nextHeader m a)
      return a :: visited := by
  rw [unpackUstar, if_pos magic]
  rfl

/-- The size field of the header at `a` holds these octal digits. -/
structure SizeField (m : Mem) (a : Nat) (digits : List Nat) : Prop where
  length : digits.length = 11
  octal : ∀ d ∈ digits, d < 8
  bytes : ∀ i (inside : i < digits.length), m (a + 0x7C + i) = UInt8.ofNat (48 + digits[i])

/-- The first digit is the most significant one. -/
def octalValue (digits : List Nat) : Nat := Nat.ofDigits 8 digits.reverse

/-- The size is decoded, and the cursor moves by the header and the blocks of the data. -/
structure DecodesSize (m : Mem) (a size : Nat) : Prop where
  filesize : filesizeAt m a = size
  advance : a + 512 * (1 + (size + 511) / 512) < 2 ^ 64 →
    nextHeader m a = a + 512 * (1 + (size + 511) / 512) ∧ a < nextHeader m a

section size

variable {m : Mem} {a : Nat} {digits : List Nat}

theorem octalValue_cons (d : Nat) (digits : List Nat) :
    octalValue (d :: digits) = d * 8 ^ digits.length + octalValue digits := by
  unfold octalValue
  rw [List.reverse_cons, Nat.ofDigits_append, List.length_reverse, Nat.ofDigits_singleton]
  ring

theorem octalValue_lt (octal : ∀ d ∈ digits, d < 8) : octalValue digits < 8 ^ digits.length := by
  rw [← List.length_reverse]
  exact Nat.ofDigits_lt_base_pow_length (by decide) fun d inside => octal d (List.mem_reverse.mp inside)

theorem signedChar_digit {d : Nat} (octal : d < 8) : signedChar (UInt8.ofNat (48 + d)) - 48 = d := by
  have toNat : (UInt8.ofNat (48 + d)).toNat = 48 + d := by
    rw [UInt8.toNat_ofNat', Nat.mod_eq_of_lt (by omega)]
  unfold signedChar
  rw [if_pos (by rw [UInt8.lt_iff_toNat_lt, toNat]; show _ < 128; omega), toNat]
  push_cast
  omega

theorem wrap32_step (n d : Int) : wrap32 (wrap32 (wrap32 n * 8) + d) = wrap32 (n * 8 + d) := by
  unfold wrap32
  rw [Int.bmod_mul_bmod, Int.bmod_add_bmod]

theorem oct2binFrom_wraps {n : Int} (octal : ∀ d ∈ digits, d < 8)
    (bytes : ∀ i (inside : i < digits.length), m (a + i) = UInt8.ofNat (48 + digits[i])) :
    oct2binFrom m (wrap32 n) a digits.length = wrap32 (n * 8 ^ digits.length + octalValue digits) := by
  induction digits generalizing n a with
  | nil => simp [oct2binFrom, octalValue]
  | cons d digits ih =>
    have first : m a = UInt8.ofNat (48 + d) := bytes 0 (Nat.zero_lt_succ _)
    have later : ∀ i (inside : i < digits.length), m (a + 1 + i) = UInt8.ofNat (48 + digits[i]) := by
      intro i inside
      rw [Nat.add_assoc, Nat.add_comm 1]
      exact bytes (i + 1) (Nat.succ_lt_succ inside)
    rw [List.length_cons, oct2binFrom, first, signedChar_digit (octal d (List.mem_cons_self ..)), wrap32_step,
      ih (fun d inside => octal d (List.mem_cons_of_mem _ inside)) later, octalValue_cons]
    congr 1
    push_cast
    ring

theorem SizeField.filesize (field : SizeField m a digits) :
    filesizeAt m a = toUint64 (wrap32 (octalValue digits)) := by
  have decoded := oct2binFrom_wraps (n := 0) field.octal field.bytes
  rw [field.length] at decoded
  unfold filesizeAt oct2bin
  have zero : wrap32 0 = 0 := by decide
  rw [zero, Int.zero_mul, Int.zero_add] at decoded
  rw [decoded]

/-- An `int` keeps a value below `2 ^ 31` and no other of the field's values. -/
theorem toUint64_wrap32_iff {n : Nat} (small : n < 2 ^ 33) : toUint64 (wrap32 n) = n ↔ n < 2 ^ 31 := by
  constructor
  · intro same
    by_contra large
    unfold toUint64 wrap32 at same
    rw [Int.bmod_def] at same
    split at same <;> omega
  · intro fits
    rw [wrap32_of_small (by omega) (by omega)]
    unfold toUint64
    omega

end size

/-- A size is decoded exactly when it is below 2 GiB. -/
theorem decodesSize_iff (m : Mem) (a : Nat) (digits : List Nat) (field : SizeField m a digits) :
    DecodesSize m a (octalValue digits) ↔ octalValue digits < 2 ^ 31 := by
  have bound := octalValue_lt field.octal
  rw [field.length] at bound
  have value := toUint64_wrap32_iff (n := octalValue digits) (by omega)
  rw [← field.filesize] at value
  constructor
  · intro decodes
    exact value.mp decodes.filesize
  · intro small
    have filesize := value.mpr small
    refine ⟨filesize, fun room => ?_⟩
    have next : nextHeader m a = a + 512 * (1 + (octalValue digits + 511) / 512) := by
      change add64 a (add64 (add64 (filesizeAt m a) 511 / 512) 1 * 512 % 2 ^ 64) = _
      rw [filesize, add64_of_lt (a := octalValue digits) (by omega),
        add64_of_lt (a := (octalValue digits + 511) / 512) (by omega), Nat.mod_eq_of_lt (by omega),
        add64_of_lt (by omega)]
      omega
    exact ⟨next, by omega⟩

/-- The size 8. -/
theorem decodesSize_iff_eight :
    DecodesSize (fun x => if x = 133 then 49 else 48) 0 (octalValue [0, 0, 0, 0, 0, 0, 0, 0, 0, 1, 0]) :=
  (decodesSize_iff _ 0 [0, 0, 0, 0, 0, 0, 0, 0, 0, 1, 0] ⟨rfl, by decide, by decide⟩).mpr (by decide)

/-- The size of 2 GiB is decoded as a negative number. -/
theorem two_gib_wraps : ¬ DecodesSize (fun x => if x = 124 then 50 else 48) 0 (octalValue [2, 0, 0, 0, 0, 0, 0, 0, 0, 0, 0]) := by
  intro decodes
  have size := decodes.filesize
  revert size
  decide +kernel

/-! ### The path -/

/-- The bytes of a field of `n` bytes before its first NUL. -/
def fieldString (m : Mem) (a : Nat) : Nat → Name
  | 0 => []
  | n + 1 => if m a = 0 then [] else m a :: fieldString m (a + 1) n

def nameField (m : Mem) (a : Nat) : Name := fieldString m a 100

def prefixField (m : Mem) (a : Nat) : Name := fieldString m (a + 345) 155

/-- The path that ustar gives the member. -/
def ustarPath (m : Mem) (a : Nat) : Name :=
  if prefixField m a = [] then nameField m a else prefixField m a ++ slash :: nameField m a

/-- `new_name` -/
def memberPath (m : Mem) (driveChar : UInt8) (a : Nat) : Option Name :=
  (cString m a (2 ^ 64)).map fun name => driveChar :: colon :: slash :: name

/-- Create the file, write the member's data and close it. -/
def storeMember (m : Mem) (env : Surroundings) (a filesize : Nat) (path : Name) : VfsM Unit := do
  match ← vfsOpen path oCreatAll modeWriteonly with
  | none => Prog.stop .halt
  | some f =>
    let f := { f with ftype := env.checked a f.ftype }
    let writeStatus ← vfsWrite m (env.args a) f (a + 512) filesize
    if writeStatus ≠ 0 then Prog.stop .halt
    vfsClose f

theorem unpackMember_path (m : Mem) (env : Surroundings) (driveChar : UInt8) (a filesize : Nat) :
    unpackMember m env driveChar a filesize = match memberPath m driveChar a with
      | none => Prog.stop .hang
      | some path => storeMember m env a filesize path := by
  unfold unpackMember memberPath
  cases cString m a (2 ^ 64) <;> rfl

/-- The bytes at `a` are the string and a NUL. -/
def StringAt (m : Mem) (a : Nat) (s : Name) : Prop := (∀ i (inside : i < s.length), m (a + i) = s[i]) ∧ m (a + s.length) = 0

/-- The header begins with the prefix and a slash and repeats this through its name field and as many bytes behind it,
up to a NUL. -/
structure Repeats (m : Mem) (a : Nat) (pre : Name) : Prop where
  begins : ∀ i (inside : i < pre.length), m (a + i) = pre[i]
  slash : m (a + pre.length) = slash
  again : ∀ i < 100, m (a + (pre.length + 1 + i)) = m (a + i)
  ends : m (a + (pre.length + 101)) = 0

section path

variable {m : Mem} {a n : Nat} {s s' : Name}

theorem fieldString_length (m : Mem) (a n : Nat) : (fieldString m a n).length ≤ n := by
  induction n generalizing a with
  | zero => exact le_rfl
  | succ n ih =>
    rw [fieldString]
    split
    · exact Nat.zero_le _
    · exact Nat.succ_le_succ (ih _)

theorem fieldString_bytes (m : Mem) (a n : Nat) :
    ∀ i (inside : i < (fieldString m a n).length), m (a + i) = (fieldString m a n)[i] := by
  induction n generalizing a with
  | zero => exact fun _ inside => absurd inside (Nat.not_lt_zero _)
  | succ n ih =>
    rw [fieldString]
    split
    · exact fun _ inside => absurd inside (Nat.not_lt_zero _)
    · intro i inside
      cases i with
      | zero => rfl
      | succ i =>
        rw [List.getElem_cons_succ, ← ih (a + 1) i (Nat.succ_lt_succ_iff.mp inside), Nat.add_assoc, Nat.add_comm 1]

theorem fieldString_noNul (m : Mem) (a n : Nat) : 0 ∉ fieldString m a n := by
  induction n generalizing a with
  | zero => exact List.not_mem_nil
  | succ n ih =>
    rw [fieldString]
    split
    · exact List.not_mem_nil
    next nonzero =>
      rw [List.mem_cons, not_or]
      exact ⟨Ne.symm nonzero, ih _⟩

theorem fieldString_ends (short : (fieldString m a n).length < n) : m (a + (fieldString m a n).length) = 0 := by
  induction n generalizing a with
  | zero => cases short
  | succ n ih =>
    rw [fieldString] at short ⊢
    split
    next zero => exact zero
    next nonzero =>
      rw [if_neg nonzero] at short
      have later := ih (Nat.succ_lt_succ_iff.mp short)
      rwa [Nat.add_assoc, Nat.add_comm 1] at later

theorem cString_some (found : cString m a n = some s) : StringAt m a s := by
  induction n generalizing a s with
  | zero => cases found
  | succ n ih =>
    rw [cString] at found
    split at found
    next zero =>
      obtain rfl := Option.some.inj found
      exact ⟨fun _ inside => absurd inside (Nat.not_lt_zero _), zero⟩
    next nonzero =>
      obtain ⟨rest, later, rfl⟩ := Option.map_eq_some_iff.mp found
      obtain ⟨bytes, ends⟩ := ih later
      refine ⟨fun i inside => ?_, ?_⟩
      · cases i with
        | zero => rfl
        | succ i =>
          rw [List.getElem_cons_succ, ← bytes i (Nat.succ_lt_succ_iff.mp inside), Nat.add_assoc, Nat.add_comm 1]
      · rw [List.length_cons, Nat.add_comm rest.length, ← Nat.add_assoc]
        exact ends

theorem cString_spells (spells : StringAt m a s) (noNul : 0 ∉ s) (short : s.length < 2 ^ 64) :
    cString m a (2 ^ 64) = some s := cString_run spells.1 spells.2 noNul short

theorem getElem_behind (pre rest : Name) (b : UInt8) (j : Nat) (inside : pre.length + 1 + j < (pre ++ b :: rest).length)
    (here : j < rest.length) : (pre ++ b :: rest)[pre.length + 1 + j] = rest[j] := by
  rw [List.getElem_append_right (by omega)]
  simp only [show pre.length + 1 + j - pre.length = j + 1 by omega, List.getElem_cons_succ]

/-- A full name field that continues to the path. -/
theorem repeats_iff (full : (nameField m a).length = 100) (pre : Name) :
    Repeats m a pre ↔ StringAt m a (pre ++ slash :: nameField m a) := by
  have length : (pre ++ slash :: nameField m a).length = pre.length + 101 := by simp [full]
  have name : ∀ j (inside : j < (nameField m a).length), m (a + j) = (nameField m a)[j] := fieldString_bytes m a 100
  constructor
  · rintro ⟨begins, mark, again, ends⟩
    refine ⟨fun i inside => ?_, by rw [length]; exact ends⟩
    have bound := inside
    rw [length] at bound
    rcases Nat.lt_trichotomy i pre.length with before | rfl | behind
    · rw [List.getElem_append_left before]
      exact begins i before
    · simpa using mark
    · obtain ⟨j, rfl⟩ := Nat.exists_eq_add_of_le (show pre.length + 1 ≤ i from behind)
      rw [getElem_behind pre _ slash j inside (by omega), ← name j (by omega)]
      exact again j (by omega)
  · rintro ⟨bytes, ends⟩
    rw [length] at ends
    refine ⟨fun i inside => ?_, ?_, fun j inside => ?_, ends⟩
    · rw [bytes i (by omega), List.getElem_append_left inside]
    · rw [bytes pre.length (by omega)]
      simp
    · rw [bytes _ (by omega), getElem_behind pre _ slash j (by omega) (by omega), name j (by omega)]

/-- A name that is not terminated in its field fills it. -/
theorem nameField_ends (short : (nameField m a).length ≠ 100) : m (a + (nameField m a).length) = 0 :=
  fieldString_ends (lt_of_le_of_ne (fieldString_length m a 100) short)

theorem slash_ne_nul : (0 : UInt8) ≠ slash := by decide

end path

/-- A member's file is created under its full path exactly when the prefix is empty and a NUL follows the name, or
when the header happens to repeat a prefix in front of a full name field. -/
theorem memberPath_iff (m : Mem) (driveChar : UInt8) (a : Nat) :
    memberPath m driveChar a = some (driveChar :: colon :: slash :: ustarPath m a) ↔
      prefixField m a = [] ∧ m (a + (nameField m a).length) = 0 ∨
        prefixField m a ≠ [] ∧ (nameField m a).length = 100 ∧ Repeats m a (prefixField m a) := by
  have bytes : ∀ i (inside : i < (nameField m a).length), m (a + i) = (nameField m a)[i] := fieldString_bytes m a 100
  have noNul : 0 ∉ nameField m a := fieldString_noNul m a 100
  have fits : (nameField m a).length ≤ 100 := fieldString_length m a 100
  have prefixFits : (prefixField m a).length ≤ 155 := fieldString_length m _ 155
  have string : memberPath m driveChar a = some (driveChar :: colon :: slash :: ustarPath m a) ↔
      cString m a (2 ^ 64) = some (ustarPath m a) := by
    simp [memberPath]
  rw [string, ustarPath]
  by_cases empty : prefixField m a = []
  · simp only [empty, if_true, ne_eq, not_true_eq_false, false_and, or_false, true_and]
    exact ⟨fun found => (cString_some found).2, fun ends => cString_spells ⟨bytes, ends⟩ noNul (by omega)⟩
  · simp only [empty, if_false, false_and, false_or, ne_eq, not_false_eq_true, true_and]
    constructor
    · intro found
      have full : (nameField m a).length = 100 := by
        by_contra short
        -- The header's string ends with the name, which is shorter than the path.
        have name := cString_spells ⟨bytes, nameField_ends short⟩ noNul (by omega)
        have lengths := congrArg List.length (Option.some.inj (name.symm.trans found))
        simp only [List.length_append, List.length_cons] at lengths
        omega
      exact ⟨full, (repeats_iff full _).mpr (cString_some found)⟩
    · rintro ⟨full, repeats⟩
      refine cString_spells ((repeats_iff full _).mp repeats) ?_ (by simp; omega)
      simp only [List.mem_append, List.mem_cons, not_or]
      exact ⟨fieldString_noNul m _ 155, slash_ne_nul, noNul⟩

/-- The prefix `b` and the name `a`. -/
theorem prefix_left_out : memberPath (fun x => if x = 0 then 97 else if x = 345 then 98 else 0) 82 0 ≠
    some (82 :: colon :: slash :: ustarPath (fun x => if x = 0 then 97 else if x = 345 then 98 else 0) 0) := by
  intro same
  have name : cString (fun x => if x = 0 then 97 else if x = 345 then 98 else 0) 0 (2 ^ 64) = some [97] :=
    cString_run (by simp) (by decide) (by decide) (by decide)
  rw [memberPath, name] at same
  revert same
  decide

end PotatOS.Fs
