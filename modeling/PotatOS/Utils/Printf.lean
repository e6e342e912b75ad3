import PotatOS.Fs.Strings
import PotatOS.Utils.Convert
import Mathlib.Algebra.Order.BigOperators.Group.List

/-!
# Kernel `printf` (`printf.c`)

The output is the list of bytes that went to the serial line; the screen shows
the same text (`Drivers.Renderfont`). The variable arguments are 64-bit slots,
read one after the other. `pieces` reads a format string and `expansion` is what
it stands for.
-/

namespace PotatOS.Utils

open Local Memory Fs

/-! ### `printf_template` -/

/-- `ku_strlen` -/
def kuStrlen (m : Mem) (str : Nat) : Except Undefined Nat :=
  match cString m str (2 ^ 64) with
  | none => .error .unterminated
  | some str => .ok str.length

/-- `write_serial`, whose length and counter are `int`s. -/
def writeSerial (str serial : List UInt8) : List UInt8 := serial ++ str.take (wrap32 str.length).toNat

def writeText (str serial : List UInt8) : List UInt8 := writeSerial str serial

def writeCharacter (ch : UInt8) (serial : List UInt8) : List UInt8 := serial ++ [ch]

/-- `'%'`, and the conversions `'d'`, `'i'`, `'c'`, `'x'`, `'b'` and `'s'`. -/
def percent : UInt8 := 37
def charD : UInt8 := 100
def charI : UInt8 := 105
def charC : UInt8 := 99
def charX : UInt8 := 120
def charB : UInt8 := 98
def charS : UInt8 := 115

/-- The chain of `if`s behind a `'%'`: the output and the number of arguments taken. -/
def conversion (m : Mem) (ch : UInt8) (arg : UInt64) (serial : List UInt8) : Except Undefined (List UInt8 × Nat) :=
  if ch = charD ∨ ch = charI then do
    let buffer ← kuUint64ToString arg (new 10)
    let buffer ← put buffer 9 0
    return (writeText (← text buffer) serial, 1)
  else if ch = charC then return (writeCharacter arg.toUInt8 serial, 1)
  else if ch = charX then do
    let bufferx ← kuUint64ToHexString arg (new 20)
    let bufferx ← put bufferx 19 0
    return (writeText (← text bufferx) serial, 1)
  else if ch = charB then do
    let bufferb ← kuUint64ToBinaryString arg (new 65)
    let bufferb ← put bufferb 64 0
    return (writeText (← text bufferb) serial, 1)
  else if ch = charS then
    match cString m arg.toNat (2 ^ 64) with
    | none => .error .unterminated
    | some str => return (writeText str serial, 1)
  else return (serial, 0)

/-- `while (i < len)`; `next` is the argument that `va_arg` reads next. -/
def printfFrom (m : Mem) (format len : Nat) (args : Nat → UInt64) (i next : Nat) (serial : List UInt8) :
    Except Undefined (List UInt8) :=
  if i < len then
    if m (format + i) = percent then do
      let (serial, taken) ← conversion m (m (format + (i + 1))) (args next) serial
      printfFrom m format len args (i + 2) (next + taken) serial
    else printfFrom m format len args (i + 1) next (writeCharacter (m (format + i)) serial)
  else .ok serial
termination_by len - i

def printfTemplate (m : Mem) (format : Nat) (args : Nat → UInt64) (serial : List UInt8) :
    Except Undefined (List UInt8) := do
  let len ← kuStrlen m format
  printfFrom m format len args 0 0 serial

/-! ### The reference expansion -/

/-- A part of a format string. A conversion has the number of its argument. -/
inductive Piece where
  | literal (ch : UInt8)
  | decimal (arg : Nat)
  | character (arg : Nat)
  | hex (arg : Nat)
  | binary (arg : Nat)
  | string (arg : Nat)
  /-- An unknown conversion, or a `'%'` at the end. -/
  | nothing
  deriving DecidableEq, Repr

namespace Piece

def ofConversion (ch : UInt8) (arg : Nat) : Piece :=
  if ch = charD ∨ ch = charI then decimal arg
  else if ch = charC then character arg
  else if ch = charX then hex arg
  else if ch = charB then binary arg
  else if ch = charS then string arg
  else nothing

def takes : Piece → Nat
  | literal _ | nothing => 0
  | _ => 1

variable (m : Mem) (args : Nat → UInt64)

def expansion : Piece → List UInt8
  | literal ch => [ch]
  | decimal arg => numeral 10 (args arg).toNat
  | character arg => [(args arg).toUInt8]
  | hex arg => hex16 (args arg).toNat
  | binary arg => numeral 2 (args arg).toNat
  | string arg => (cString m (args arg).toNat (2 ^ 64)).getD []
  | nothing => []

/-- The argument of a `%s` is a string. -/
def Matches : Piece → Prop
  | string arg => (cString m (args arg).toNat (2 ^ 64)).isSome
  | _ => True

/-- A number of at most nine digits, and a string whose length is an `int`. -/
def Fits : Piece → Prop
  | decimal arg => (args arg).toNat < 10 ^ 9
  | string arg => ((cString m (args arg).toNat (2 ^ 64)).getD []).length < 2 ^ 31
  | _ => True

instance : DecidablePred (Matches m args)
  | string _ => inferInstanceAs (Decidable (_ = true))
  | literal _ | decimal _ | character _ | hex _ | binary _ | nothing => isTrue trivial

instance : DecidablePred (Fits m args)
  | decimal _ => inferInstanceAs (Decidable (_ < _))
  | string _ => inferInstanceAs (Decidable (_ < _))
  | literal _ | character _ | hex _ | binary _ | nothing => isTrue trivial

end Piece

/-- The parts of a format, whose arguments are counted from `next` on. -/
def pieces : Name → Nat → List Piece
  | [], _ => []
  | [ch], _ => [if ch = percent then .nothing else .literal ch]
  | ch :: conv :: rest, next =>
    if ch = percent then .ofConversion conv next :: pieces rest (next + (Piece.ofConversion conv next).takes)
    else .literal ch :: pieces (conv :: rest) next

def expansion (m : Mem) (args : Nat → UInt64) (fmt : Name) : List UInt8 :=
  (pieces fmt 0).flatMap (Piece.expansion m args)

/-! ### One conversion -/

theorem writeSerial_append (str serial : List UInt8) : writeSerial str serial = serial ++ writeSerial str [] := by
  rw [writeSerial, writeSerial, List.nil_append]

theorem writeSerial_short {str serial : List UInt8} (short : str.length < 2 ^ 31) :
    writeSerial str serial = serial ++ str := by
  rw [writeSerial, wrap32_of_small (by omega) (by omega), Int.toNat_natCast, List.take_length]

/-- A length that is no `int` is cut off or taken for a negative number. -/
theorem writeSerial_long {str : List UInt8} (serial : List UInt8) (long : 2 ^ 31 ≤ str.length) :
    ∃ out, writeSerial str serial = serial ++ out ∧ out.length < str.length := by
  refine ⟨_, rfl, ?_⟩
  have below : wrap32 (str.length : Int) < 2 ^ 31 := by
    have bound := Int.bmod_lt (x := (str.length : Int)) (m := 2 ^ 32) (by decide)
    simpa [wrap32] using bound
  rw [List.length_take]
  omega

variable {m : Mem} {args : Nat → UInt64} {serial : List UInt8}

/-- A buffer that a converter filled with `l` and its terminator, terminated once more. -/
theorem writeText_buffer {l : List UInt8} {rest : Local} {i : Nat} (noNul : 0 ∉ l) (behind : l.length ≤ i)
    (inside : i < l.length + 1 + rest.length) (short : l.length < 2 ^ 31) :
    (do
      let buffer ← put (bytes l ++ some 0 :: rest) i 0
      return (writeText (← text buffer) serial, 1) : Except Undefined (List UInt8 × Nat)) = .ok (serial ++ l, 1) := by
  obtain ⟨str, run, read⟩ := text_put noNul behind inside
  rw [run, ok_bind, read, ok_bind, writeText, writeSerial_short short]
  rfl

theorem hex16_ne {n : Nat} : 0 ∉ hex16 n := by
  have digits : 0 ∉ numeral 16 n := numeral_ne (by decide) (by decide) (by decide)
  simp [hex16, List.leftpad, digits]

theorem conversion_decimal {ch : UInt8} {arg : UInt64} (conv : ch = charD ∨ ch = charI) (small : arg.toNat < 10 ^ 9) :
    conversion m ch arg serial = .ok (serial ++ numeral 10 arg.toNat, 1) := by
  have short : (numeral 10 arg.toNat).length ≤ 9 := (length_numeral_le_iff _ (by decide) (by decide)).mpr small
  rw [conversion, if_pos conv, kuUint64ToString_run (by rw [length_new]; omega), ok_bind]
  exact writeText_buffer (numeral_ne (by decide) (by decide) (by decide)) short (by simp; omega) (by omega)

theorem conversion_decimal_overrun {ch : UInt8} {arg : UInt64} (conv : ch = charD ∨ ch = charI)
    (large : ¬ arg.toNat < 10 ^ 9) : conversion m ch arg serial = .error .outOfBounds := by
  have long : ¬ (numeral 10 arg.toNat).length ≤ 9 := mt (length_numeral_le_iff _ (by decide) (by decide)).mp large
  rw [conversion, if_pos conv, kuUint64ToString_overrun (by rw [length_new]; omega)]
  rfl

/-! ### What goes out -/

namespace Piece

variable (m args)

/-- A number of ten digits or more. -/
def Overruns : Piece → Prop
  | decimal arg => 10 ^ 9 ≤ (args arg).toNat
  | _ => False

/-- A string goes out as far as its length is an `int`. -/
def emitted : Piece → List UInt8
  | string arg => writeSerial ((cString m (args arg).toNat (2 ^ 64)).getD []) []
  | p => p.expansion m args

instance : DecidablePred (Overruns args)
  | decimal _ => inferInstanceAs (Decidable (_ ≤ _))
  | literal _ | character _ | hex _ | binary _ | string _ | nothing => isFalse id

variable {m args} {p : Piece}

theorem emitted_of_fits (fits : p.Fits m args) : p.emitted m args = p.expansion m args := by
  cases p with
  | string arg => exact (writeSerial_short fits).trans (List.nil_append _)
  | _ => rfl

theorem fits_or_short (small : ¬ p.Overruns args) :
    p.Fits m args ∨ ¬ p.Fits m args ∧ (p.emitted m args).length < (p.expansion m args).length := by
  cases p with
  | decimal arg => exact .inl (Nat.lt_of_not_le small)
  | string arg =>
    by_cases fits : ((cString m (args arg).toNat (2 ^ 64)).getD []).length < 2 ^ 31
    · exact .inl fits
    · obtain ⟨out, same, shorter⟩ := writeSerial_long [] (Nat.le_of_not_lt fits)
      exact .inr ⟨fits, by rwa [emitted, same, List.nil_append]⟩
  | _ => exact .inl trivial

theorem not_fits_of_overruns (large : p.Overruns args) : ¬ p.Fits m args := by
  cases p with
  | decimal arg => exact Nat.not_lt_of_le large
  | _ => cases large

end Piece

theorem conversion_overruns {ch : UInt8} {next : Nat} (large : (Piece.ofConversion ch next).Overruns args) :
    conversion m ch (args next) serial = .error .outOfBounds := by
  by_cases decimal : ch = charD ∨ ch = charI
  · rw [Piece.ofConversion, if_pos decimal] at large
    exact conversion_decimal_overrun decimal (Nat.not_lt_of_le large)
  · unfold Piece.ofConversion at large
    rw [if_neg decimal] at large
    split_ifs at large <;> cases large

theorem conversion_unterminated {ch : UInt8} {next : Nat} {serial : List UInt8}
    (unknown : ¬ (Piece.ofConversion ch next).Matches m args) :
    conversion m ch (args next) serial = .error .unterminated := by
  unfold Piece.ofConversion at unknown
  split_ifs at unknown with decimal character hex binary string
  all_goals try exact absurd trivial unknown
  rw [Piece.Matches, Bool.not_eq_true, Option.isSome_eq_false_iff, Option.isNone_iff_eq_none] at unknown
  rw [conversion, if_neg decimal, if_neg character, if_neg hex, if_neg binary, if_pos string, unknown]

theorem conversion_run (ch : UInt8) (next : Nat) (serial : List UInt8)
    (known : (Piece.ofConversion ch next).Matches m args)
    (small : ¬ (Piece.ofConversion ch next).Overruns args) : conversion m ch (args next) serial =
      .ok (serial ++ (Piece.ofConversion ch next).emitted m args, (Piece.ofConversion ch next).takes) := by
  have bound := (args next).toNat_lt
  unfold Piece.ofConversion at known small ⊢
  split_ifs at known small ⊢ with decimal character hex binary string
  · exact conversion_decimal decimal (Nat.lt_of_not_le small)
  · rw [conversion, if_neg decimal, if_pos character]
    rfl
  · rw [conversion, if_neg decimal, if_neg character, if_pos hex, kuUint64ToHexString_run (by simp), ok_bind]
    exact writeText_buffer hex16_ne (by rw [length_hex16]; decide) (by simp [length_hex16]) (by rw [length_hex16]; decide)
  · have short : (numeral 2 (args next).toNat).length ≤ 64 := (length_numeral_le_iff _ (by decide) (by decide)).mpr bound
    rw [conversion, if_neg decimal, if_neg character, if_neg hex, if_pos binary,
      kuUint64ToBinaryString_run (by rw [length_new]; omega), ok_bind]
    exact writeText_buffer (numeral_ne (by decide) (by decide) (by decide)) short (by simp; omega) (by omega)
  · obtain ⟨str, read⟩ := Option.isSome_iff_exists.mp known
    rw [conversion, if_neg decimal, if_neg character, if_neg hex, if_neg binary, if_pos string, read, Piece.emitted, read,
      Option.getD_some]
    exact congrArg (fun out => Except.ok (out, 1)) (writeSerial_append str serial)
  · rw [conversion, if_neg decimal, if_neg character, if_neg hex, if_neg binary, if_neg string, Piece.emitted,
      Piece.expansion, List.append_nil]
    · rfl
    · rintro _ ⟨⟩

/-! ### A whole format -/

/-- The string `l` with its terminator is at `a`. -/
def Spells (m : Mem) (a : Nat) : Name → Prop
  | [] => m a = 0
  | b :: rest => m a = b ∧ Spells m (a + 1) rest

theorem spells_of_cString {a n : Nat} {l : Name} (read : cString m a n = some l) : Spells m a l ∧ 0 ∉ l := by
  induction n generalizing a l with
  | zero => cases read
  | succ n ih =>
    rw [cString] at read
    split at read
    · obtain rfl := Option.some.inj read
      exact ⟨‹_›, by simp⟩
    · rename_i nonzero
      obtain ⟨rest, later, rfl⟩ := Option.map_eq_some_iff.mp read
      obtain ⟨spelled, noNul⟩ := ih later
      exact ⟨⟨rfl, spelled⟩, by simp [noNul, Ne.symm nonzero]⟩

theorem length_lt_of_cString {a n : Nat} {l : Name} (read : cString m a n = some l) : l.length < n := by
  induction n generalizing a l with
  | zero => cases read
  | succ n ih =>
    rw [cString] at read
    split at read
    · obtain rfl := Option.some.inj read
      exact Nat.succ_pos n
    · obtain ⟨rest, later, rfl⟩ := Option.map_eq_some_iff.mp read
      exact Nat.succ_lt_succ (ih later)

theorem Spells.terminator {a : Nat} {l : Name} (spelled : Spells m a l) : m (a + l.length) = 0 := by
  induction l generalizing a with
  | nil => exact spelled
  | cons b rest ih =>
    have later := ih spelled.2
    rwa [Nat.add_assoc, Nat.add_comm 1] at later

/-- The texts of the parts go out, unless one of them overruns its array. -/
def runOver (args : Nat → UInt64) (text : Piece → List UInt8) (parts : List Piece) (out : List UInt8) :
    Except Undefined (List UInt8) :=
  if ∃ p ∈ parts, p.Overruns args then .error .outOfBounds else .ok (out ++ parts.flatMap text)

section runOver

variable {p : Piece} {parts : List Piece} {out : List UInt8} {texts : Piece → List UInt8}

theorem runOver_nil : runOver args texts [] out = .ok out := by
  simp [runOver]

theorem runOver_cons (small : ¬ p.Overruns args) :
    runOver args texts (p :: parts) out = runOver args texts parts (out ++ texts p) := by
  simp [runOver, small]

theorem runOver_overruns (large : ∃ p ∈ parts, p.Overruns args) : runOver args texts parts out = .error .outOfBounds :=
  if_pos large

theorem runOver_small (small : ¬ ∃ p ∈ parts, p.Overruns args) :
    runOver args texts parts out = .ok (out ++ parts.flatMap texts) :=
  if_neg small

end runOver

theorem printfFrom_end {format len i next : Nat} (past : len ≤ i) :
    printfFrom m format len args i next serial = .ok serial := by
  rw [printfFrom, if_neg (by omega)]

theorem printfFrom_literal {format len i next : Nat} {ch : UInt8} (inside : i < len) (byte : m (format + i) = ch)
    (plain : ch ≠ percent) : printfFrom m format len args i next serial =
      printfFrom m format len args (i + 1) next (serial ++ [ch]) := by
  subst byte
  rw [printfFrom, if_pos inside, if_neg plain]
  rfl

theorem printfFrom_conversion {format len i next : Nat} {ch : UInt8} (inside : i < len)
    (byte : m (format + i) = percent) (conv : m (format + i + 1) = ch) :
    printfFrom m format len args i next serial = conversion m ch (args next) serial >>= fun r =>
      printfFrom m format len args (i + 2) (next + r.2) r.1 := by
  subst conv
  rw [printfFrom, if_pos inside, if_pos byte]
  rfl

theorem printfFrom_run (format : Nat) {len i next : Nat} (rest : Name) (spelled : Spells m (format + i) rest)
    (len_ : len = i + rest.length) (known : ∀ p ∈ pieces rest next, p.Matches m args) :
    printfFrom m format len args i next serial = runOver args (Piece.emitted m args) (pieces rest next) serial := by
  induction rest, next using pieces.induct generalizing i serial with
  | case1 next => rw [printfFrom_end (by simp [len_]), pieces, runOver_nil]
  | case2 ch next =>
    have inside : i < len := by simp [len_]
    have past : len ≤ i + 1 := by simp [len_]
    rw [pieces]
    by_cases conv : ch = percent
    · -- The terminator is taken for an unknown conversion.
      have nothing : conversion m 0 (args next) serial = .ok (serial, 0) := rfl
      rw [if_pos conv, runOver_cons id, runOver_nil, printfFrom_conversion inside (spelled.1.trans conv) spelled.2,
        nothing, ok_bind, printfFrom_end (by omega)]
      simp [Piece.emitted, Piece.expansion]
    · rw [if_neg conv, runOver_cons id, runOver_nil, printfFrom_literal inside spelled.1 conv, printfFrom_end past]
      rfl
  | case3 conv rest next ih =>
    obtain ⟨byte, char, later⟩ := spelled
    simp only [List.length_cons] at len_
    rw [pieces, if_pos rfl] at known ⊢
    obtain ⟨first, others⟩ := List.forall_mem_cons.mp known
    rw [printfFrom_conversion (by omega) byte char]
    by_cases large : (Piece.ofConversion conv next).Overruns args
    · rw [conversion_overruns large, error_bind, runOver_overruns ⟨_, List.mem_cons_self, large⟩]
    · rw [conversion_run conv next serial first large, ok_bind, runOver_cons large]
      exact ih later (by omega) others
  | case4 ch conv rest next plain ih =>
    rw [pieces, if_neg plain] at known ⊢
    rw [printfFrom_literal (by simp [len_]) spelled.1 plain, runOver_cons id]
    exact ih spelled.2 (by simp [len_]; omega) (List.forall_mem_cons.mp known).2

theorem printfTemplate_run {format : Nat} {fmt : Name} (terminated : cString m format (2 ^ 64) = some fmt)
    (known : ∀ p ∈ pieces fmt 0, p.Matches m args) :
    printfTemplate m format args serial = runOver args (Piece.emitted m args) (pieces fmt 0) serial := by
  have run : printfTemplate m format args serial = printfFrom m format fmt.length args 0 0 serial := by
    rw [printfTemplate, kuStrlen, terminated]
    rfl
  rw [run]
  exact printfFrom_run format fmt (spells_of_cString terminated).1 (Nat.zero_add _).symm known

/-- The format and the arguments of `%s` are strings, and no number overruns its buffer. -/
def FormatDefined (m : Mem) (format : Nat) (args : Nat → UInt64) : Prop :=
  ∃ fmt, cString m format (2 ^ 64) = some fmt ∧ ∀ p ∈ pieces fmt 0, p.Matches m args ∧ ¬ p.Overruns args

theorem conversion_undefined {ch : UInt8} {next : Nat}
    (bad : ¬ ((Piece.ofConversion ch next).Matches m args ∧ ¬ (Piece.ofConversion ch next).Overruns args)) :
    ∃ e, ∀ serial, conversion m ch (args next) serial = .error e := by
  by_cases known : (Piece.ofConversion ch next).Matches m args
  · have large : (Piece.ofConversion ch next).Overruns args := by
      by_contra small
      exact bad ⟨known, small⟩
    exact ⟨_, fun _ => conversion_overruns large⟩
  · exact ⟨_, fun _ => conversion_unterminated known⟩

theorem printfFrom_undefined (format : Nat) {len i next : Nat} (rest : Name) (spelled : Spells m (format + i) rest)
    (len_ : len = i + rest.length) (bad : ∃ p ∈ pieces rest next, ¬ (p.Matches m args ∧ ¬ p.Overruns args)) :
    ∃ e, printfFrom m format len args i next serial = .error e := by
  obtain ⟨p, member, bad⟩ := bad
  induction rest, next using pieces.induct generalizing i serial with
  | case1 next => cases member
  | case2 ch next =>
    obtain rfl := List.mem_singleton.mp member
    split at bad
    · exact absurd ⟨trivial, id⟩ bad
    · exact absurd ⟨trivial, id⟩ bad
  | case3 conv rest next ih =>
    obtain ⟨byte, char, later⟩ := spelled
    simp only [List.length_cons] at len_
    rw [printfFrom_conversion (by omega) byte char]
    by_cases first : (Piece.ofConversion conv next).Matches m args ∧ ¬ (Piece.ofConversion conv next).Overruns args
    · rw [pieces, if_pos rfl] at member
      rcases List.mem_cons.mp member with rfl | behind
      · exact absurd first bad
      · rw [conversion_run conv next serial first.1 first.2, ok_bind]
        exact ih later (by omega) behind
    · obtain ⟨e, stops⟩ := conversion_undefined first
      rw [stops serial]
      exact ⟨e, rfl⟩
  | case4 ch conv rest next plain ih =>
    rw [pieces, if_neg plain] at member
    rw [printfFrom_literal (by simp [len_]) spelled.1 plain]
    rcases List.mem_cons.mp member with rfl | behind
    · exact absurd ⟨trivial, id⟩ bad
    · exact ih spelled.2 (by simp [len_]; omega) behind

/-- A format is printed exactly when nothing in it is undefined. -/
theorem printfTemplate_ok_iff {format : Nat} :
    (∃ out, printfTemplate m format args serial = .ok out) ↔ FormatDefined m format args := by
  cases terminated : cString m format (2 ^ 64) with
  | none =>
    apply iff_of_false
    · rintro ⟨out, run⟩
      rw [printfTemplate, kuStrlen, terminated] at run
      cases run
    · rintro ⟨fmt, read, -⟩
      rw [terminated] at read
      cases read
  | some fmt =>
    have start : printfTemplate m format args serial = printfFrom m format fmt.length args 0 0 serial := by
      rw [printfTemplate, kuStrlen, terminated]
      rfl
    constructor
    · rintro ⟨out, run⟩
      refine ⟨fmt, terminated, ?_⟩
      by_contra bad
      push Not at bad
      obtain ⟨p, member, bad⟩ := bad
      have undefined : ∃ p ∈ pieces fmt 0, ¬ (p.Matches m args ∧ ¬ p.Overruns args) :=
        ⟨p, member, fun good => good.2 (bad good.1)⟩
      obtain ⟨e, stops⟩ : ∃ e, printfFrom m format fmt.length args 0 0 serial = .error e :=
        printfFrom_undefined format fmt (spells_of_cString terminated).1 (Nat.zero_add _).symm undefined
      rw [start, stops] at run
      cases run
    · rintro ⟨fmt', read, defined⟩
      obtain rfl := Option.some.inj (terminated.symm.trans read)
      have small : ¬ ∃ p ∈ pieces fmt 0, p.Overruns args := by
        rintro ⟨p, member, large⟩
        exact (defined p member).2 large
      rw [printfTemplate_run terminated fun p member => (defined p member).1, runOver_small small]
      exact ⟨_, rfl⟩

/-- Shorter texts of parts, one of them really shorter. -/
theorem length_flatMap_lt {f g : Piece → List UInt8} {parts : List Piece} (le : ∀ p ∈ parts, (f p).length ≤ (g p).length)
    (lt : ∃ p ∈ parts, (f p).length < (g p).length) : (parts.flatMap f).length < (parts.flatMap g).length := by
  simp only [List.length_flatMap]
  exact List.sum_lt_sum _ _ le lt

/-- What a run over the rest of a format gives, when its pieces are `parts`. -/
def Expands (m : Mem) (args : Nat → UInt64) (parts : List Piece) (serial : List UInt8)
    (result : Except Undefined (List UInt8)) : Prop :=
  (∀ p ∈ parts, p.Fits m args) ∧ result = .ok (serial ++ parts.flatMap (Piece.expansion m args)) ∨
  ¬ (∀ p ∈ parts, p.Fits m args) ∧ (result = .error .outOfBounds ∨
    ∃ out, result = .ok (serial ++ out) ∧ out.length < (parts.flatMap (Piece.expansion m args)).length)

variable {parts : List Piece} {result : Except Undefined (List UInt8)}

theorem printfTemplate_expands {format : Nat} {fmt : Name} (terminated : cString m format (2 ^ 64) = some fmt)
    (known : ∀ p ∈ pieces fmt 0, p.Matches m args) :
    Expands m args (pieces fmt 0) serial (printfTemplate m format args serial) := by
  rw [printfTemplate_run terminated known]
  by_cases large : ∃ p ∈ pieces fmt 0, p.Overruns args
  · obtain ⟨p, member, overruns⟩ := large
    have unfit : ¬ ∀ p ∈ pieces fmt 0, p.Fits m args := fun all => Piece.not_fits_of_overruns overruns (all p member)
    exact .inr ⟨unfit, .inl (runOver_overruns ⟨p, member, overruns⟩)⟩
  · rw [runOver_small large]
    by_cases all : ∀ p ∈ pieces fmt 0, p.Fits m args
    · have same := List.flatMap_congr fun p member => Piece.emitted_of_fits (all p member)
      exact .inl ⟨all, by rw [same]⟩
    · have short : ∀ p ∈ pieces fmt 0, p.Fits m args ∨
          ¬ p.Fits m args ∧ (p.emitted m args).length < (p.expansion m args).length :=
        fun p member => Piece.fits_or_short fun overruns => large ⟨p, member, overruns⟩
      refine .inr ⟨all, .inr ⟨_, rfl, length_flatMap_lt (fun p member => ?_) ?_⟩⟩
      · rcases short p member with fits | ⟨-, less⟩
        · exact (congrArg List.length (Piece.emitted_of_fits fits)).le
        · exact less.le
      · push Not at all
        obtain ⟨p, member, long⟩ := all
        exact ⟨p, member, ((short p member).resolve_left long).2⟩

theorem Expands.iff_fits (expands : Expands m args parts serial result) :
    result = .ok (serial ++ parts.flatMap (Piece.expansion m args)) ↔ ∀ p ∈ parts, p.Fits m args := by
  rcases expands with ⟨all, same⟩ | ⟨large, same | ⟨out, same, short⟩⟩
  · exact ⟨fun _ => all, fun _ => same⟩
  · rw [same]
    exact ⟨fun h => absurd h (by simp), fun all => absurd all large⟩
  · rw [same]
    refine ⟨fun h => ?_, fun all => absurd all large⟩
    have equal := List.append_cancel_left (Except.ok.inj h)
    rw [equal] at short
    exact absurd short (Nat.lt_irrefl _)

/-- The output is the reference expansion exactly when every decimal number has at most nine digits and every
string argument is shorter than `2 ^ 31` bytes. -/
theorem printf_template_expands_iff (m : Mem) (format : Nat) (fmt : Name) (args : Nat → UInt64) (serial : List UInt8)
    (terminated : cString m format (2 ^ 64) = some fmt) (known : ∀ p ∈ pieces fmt 0, p.Matches m args) :
    printfTemplate m format args serial = .ok (serial ++ expansion m args fmt) ↔ ∀ p ∈ pieces fmt 0, p.Fits m args :=
  (printfTemplate_expands terminated known).iff_fits

/-- `"%d %s%x%"` -/
def someFormat : Name := [37, 100, 32, 37, 115, 37, 120, 37]

/-- The format at address 16, and `"ok"` at 32. -/
def formatMem : Mem := writeBytes (writeBytes (fun _ => 0) 16 someFormat) 32 [111, 107]

def formatArgs (number : UInt64) : Nat → UInt64
  | 0 => number
  | 1 => 32
  | _ => 0xBEEF

theorem printf_template_expands_iff_example :
    printfTemplate formatMem 16 (formatArgs 420) [] = .ok ([] ++ expansion formatMem (formatArgs 420) someFormat) :=
  (printf_template_expands_iff formatMem 16 someFormat (formatArgs 420) [] (by decide +kernel) (by decide +kernel)).mpr
    (by decide +kernel)

/-- Ten digits do not fit into `char buffer[10]`. -/
theorem printf_ten_digits : (∀ p ∈ pieces someFormat 0, p.Matches formatMem (formatArgs 1000000000)) ∧
    printfTemplate formatMem 16 (formatArgs 1000000000) [] = .error .outOfBounds := by
  decide +kernel

end PotatOS.Utils
