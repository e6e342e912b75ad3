import PotatOS.Utils.Printf

/-!
# `printf` of the C library (`printf.c`)

The output is the list of bytes that `fputs` hands to `write` for `stdout`. The
loop follows the format with a pointer, past its end when it ends in a `'%'`;
`printf` also returns the address where it stopped.
-/

namespace PotatOS.Libc

open Local Memory Fs Utils

/-- The bodies of these two are those of `ku_uint64_to_string` and `ku_uint64_to_hex_string`. -/
def intToString (num : UInt64) (str : Local) : Except Undefined Local := kuUint64ToString num str
def intToHexString (num : UInt64) (str : Local) : Except Undefined Local := kuUint64ToHexString num str

/-- `fputs(str, stdout)`: `strlen(str)` bytes. -/
def fputs (str stdout : List UInt8) : List UInt8 := stdout ++ str

/-- `buffer[0] = ch; buffer[1] = 0;` -/
def oneCharacter (size : Nat) (ch : UInt8) : Except Undefined Local := do put (← put (new size) 0 ch) 1 0

/-- The chain of `if`s behind a `'%'`: the output and the number of arguments taken. -/
def conversion (m : Mem) (ch : UInt8) (arg : UInt64) (stdout : List UInt8) : Except Undefined (List UInt8 × Nat) :=
  if ch = charD ∨ ch = charI then do
    let buffer ← intToString arg (new 10)
    let buffer ← put buffer 9 0
    return (fputs (← text buffer) stdout, 1)
  else if ch = charC then do
    let buffer ← oneCharacter 10 arg.toUInt8
    return (fputs (← text buffer) stdout, 1)
  else if ch = charX then do
    let bufferx ← intToHexString arg (new 20)
    let bufferx ← put bufferx 19 0
    return (fputs (← text bufferx) stdout, 1)
  else if ch = charS then
    match cString m arg.toNat (2 ^ 64) with
    | none => .error .unterminated
    | some str => return (fputs str stdout, 1)
  else return (stdout, 0)

/-- `while (*format)`, with a bound on its rounds. -/
def printfFrom (m : Mem) (args : Nat → UInt64) : Nat → Nat → Nat → List UInt8 → Except Undefined (List UInt8 × Nat)
  | 0, _, _, _ => .error .unterminated
  | rounds + 1, format, next, stdout =>
    if m format = 0 then .ok (stdout, format)
    else if m format = percent then do
      let (stdout, taken) ← conversion m (m (format + 1)) (args next) stdout
      printfFrom m args rounds (format + 2) (next + taken) stdout
    else do
      let buffer ← oneCharacter 2 (m format)
      printfFrom m args rounds (format + 1) next (fputs (← text buffer) stdout)

/-- The output, and the last address of the format that was read. -/
def printf (m : Mem) (format : Nat) (args : Nat → UInt64) (stdout : List UInt8) : Except Undefined (List UInt8 × Nat) :=
  printfFrom m args (2 ^ 64) format 0 stdout

/-- The library sends what the kernel emits, and stops at the terminator of the format. -/
def Agrees (m : Mem) (format : Nat) (fmt : Name) (args : Nat → UInt64) : Prop :=
  ∀ stdout, printf m format args stdout = (printfTemplate m format args stdout).map fun out => (out, format + fmt.length)

/-- The last byte is a `'%'` that no other one precedes as its own. -/
def endsInPercent : Name → Bool
  | [] => false
  | [ch] => ch = percent
  | ch :: conv :: rest => if ch = percent then endsInPercent rest else endsInPercent (conv :: rest)

end PotatOS.Libc

namespace PotatOS.Utils.Piece

open Fs Memory

variable (m : Mem) (args : Nat → UInt64)

def isBinary : Piece → Bool
  | binary _ => true
  | _ => false

/-- What the library sends: no byte for the character 0. -/
def sent : Piece → List UInt8
  | character arg => if (args arg).toUInt8 = 0 then [] else [(args arg).toUInt8]
  | p => p.expansion m args

/-- A character that is not 0, and a string whose length is an `int`. -/
def SentAlike : Piece → Prop
  | character arg => (args arg).toUInt8 ≠ 0
  | string arg => ((cString m (args arg).toNat (2 ^ 64)).getD []).length < 2 ^ 31
  | _ => True

instance : DecidablePred (SentAlike m args)
  | character _ => inferInstanceAs (Decidable (¬ _ = _))
  | string _ => inferInstanceAs (Decidable (_ < _))
  | literal _ | decimal _ | hex _ | binary _ | nothing => isTrue trivial

end PotatOS.Utils.Piece

namespace PotatOS.Libc

open Local Memory Fs Utils

variable {m : Mem} {args : Nat → UInt64} {stdout : List UInt8}

/-! ### One conversion -/

/-- A string that a converter left in its buffer, terminated once more. -/
theorem fputs_buffer {l : List UInt8} {rest : Local} {i : Nat} (noNul : 0 ∉ l) (behind : l.length ≤ i)
    (inside : i < l.length + 1 + rest.length) :
    (do
      let buffer ← put (bytes l ++ some 0 :: rest) i 0
      return (fputs (← text buffer) stdout, 1) : Except Undefined (List UInt8 × Nat)) = .ok (stdout ++ l, 1) := by
  obtain ⟨str, run, read⟩ := text_put noNul behind inside
  rw [run, ok_bind, read]
  rfl

theorem oneCharacter_run (n : Nat) (ch : UInt8) : oneCharacter (n + 2) ch = .ok (some ch :: some 0 :: new n) := rfl

theorem text_oneCharacter (ch : UInt8) (rest : Local) :
    text (some ch :: some 0 :: rest) = .ok (if ch = 0 then [] else [ch]) := by
  rw [text]
  split <;> rfl

theorem conversion_overruns {ch : UInt8} {next : Nat} (large : (Piece.ofConversion ch next).Overruns args) :
    conversion m ch (args next) stdout = .error .outOfBounds := by
  by_cases decimal : ch = charD ∨ ch = charI
  · rw [Piece.ofConversion, if_pos decimal] at large
    have long : ¬ (numeral 10 (args next).toNat).length ≤ 9 :=
      mt (length_numeral_le_iff _ (by decide) (by decide)).mp (Nat.not_lt_of_le large)
    rw [conversion, if_pos decimal, intToString, kuUint64ToString_overrun (by rw [length_new]; omega)]
    rfl
  · unfold Piece.ofConversion at large
    rw [if_neg decimal] at large
    split_ifs at large <;> cases large

theorem conversion_run (ch : UInt8) (next : Nat) (stdout : List UInt8)
    (known : (Piece.ofConversion ch next).Matches m args)
    (small : ¬ (Piece.ofConversion ch next).Overruns args) (notBinary : (Piece.ofConversion ch next).isBinary = false) :
    conversion m ch (args next) stdout =
      .ok (stdout ++ (Piece.ofConversion ch next).sent m args, (Piece.ofConversion ch next).takes) := by
  unfold Piece.ofConversion at known small notBinary ⊢
  split_ifs at known small notBinary ⊢ with decimal character hex binary string
  · have short : (numeral 10 (args next).toNat).length ≤ 9 :=
      (length_numeral_le_iff _ (by decide) (by decide)).mpr (Nat.lt_of_not_le small)
    rw [conversion, if_pos decimal, intToString, kuUint64ToString_run (by rw [length_new]; omega), ok_bind]
    exact fputs_buffer (numeral_ne (by decide) (by decide) (by decide)) short (by simp; omega)
  · rw [conversion, if_neg decimal, if_pos character, oneCharacter_run 8, ok_bind, text_oneCharacter]
    rfl
  · rw [conversion, if_neg decimal, if_neg character, if_pos hex, intToHexString,
      kuUint64ToHexString_run (by simp), ok_bind]
    exact fputs_buffer hex16_ne (by rw [length_hex16]; decide) (by simp [length_hex16])
  · cases notBinary
  · obtain ⟨str, read⟩ := Option.isSome_iff_exists.mp known
    rw [conversion, if_neg decimal, if_neg character, if_neg hex, if_pos string, read, Piece.sent, Piece.expansion, read]
    · rfl
    · rintro _ ⟨⟩
  · rw [conversion, if_neg decimal, if_neg character, if_neg hex, if_neg string, Piece.sent, Piece.expansion,
      List.append_nil]
    · rfl
    · rintro _ ⟨⟩

/-! ### A whole format -/

section run

variable {a next rounds : Nat} {ch : UInt8}

theorem printfFrom_end (zero : m a = 0) : printfFrom m args (rounds + 1) a next stdout = .ok (stdout, a) := if_pos zero

theorem printfFrom_conversion (byte : m a = percent) : printfFrom m args (rounds + 1) a next stdout =
    conversion m (m (a + 1)) (args next) stdout >>= fun r => printfFrom m args rounds (a + 2) (next + r.2) r.1 := by
  have nonzero : m a ≠ 0 := by rw [byte]; decide
  rw [printfFrom, if_neg nonzero, if_pos byte]

theorem printfFrom_literal (byte : m a = ch) (nonzero : ch ≠ 0) (plain : ch ≠ percent) :
    printfFrom m args (rounds + 1) a next stdout = printfFrom m args rounds (a + 1) next (stdout ++ [ch]) := by
  subst byte
  rw [printfFrom, if_neg nonzero, if_neg plain, oneCharacter_run 0, ok_bind, text_oneCharacter, if_neg nonzero]
  rfl

/-- The pointer only moves on. -/
theorem printfFrom_stop {r : List UInt8 × Nat} (run : printfFrom m args rounds a next stdout = .ok r) : a ≤ r.2 := by
  induction rounds generalizing a next stdout with
  | zero => cases run
  | succ rounds ih =>
    by_cases zero : m a = 0
    · rw [printfFrom_end zero] at run
      obtain rfl := Except.ok.inj run
      exact le_rfl
    · by_cases byte : m a = percent
      · rw [printfFrom_conversion byte] at run
        cases converted : conversion m (m (a + 1)) (args next) stdout with
        | error e =>
          rw [converted] at run
          cases run
        | ok taken =>
          rw [converted, ok_bind] at run
          have later := ih run
          omega
      · rw [printfFrom_literal rfl zero byte] at run
        have later := ih run
        omega

/-- Behind a `'%'` at the end, the loop goes on behind the terminator. -/
theorem printfFrom_past {rest : Name} {r : List UInt8 × Nat} (spelled : Spells m a rest) (noNul : 0 ∉ rest)
    (ends : endsInPercent rest = true) (run : printfFrom m args rounds a next stdout = .ok r) :
    a + rest.length < r.2 := by
  induction rest using endsInPercent.induct generalizing a next rounds stdout with
  | case1 => cases ends
  | case2 ch =>
    obtain ⟨byte, terminator⟩ := spelled
    rw [endsInPercent, decide_eq_true_eq] at ends
    have nothing : conversion m 0 (args next) stdout = .ok (stdout, 0) := rfl
    cases rounds with
    | zero => cases run
    | succ rounds =>
      rw [printfFrom_conversion (byte.trans ends), show m (a + 1) = 0 from terminator, nothing, ok_bind] at run
      exact printfFrom_stop run
  | case3 conv rest ih =>
    obtain ⟨byte, -, later⟩ := spelled
    cases rounds with
    | zero => cases run
    | succ rounds =>
      rw [printfFrom_conversion byte] at run
      cases converted : conversion m (m (a + 1)) (args next) stdout with
      | error e =>
        rw [converted] at run
        cases run
      | ok taken =>
        rw [converted, ok_bind] at run
        rw [endsInPercent, if_pos rfl] at ends
        have past := ih later (fun inside => noNul (by simp [inside])) ends run
        rw [List.length_cons, List.length_cons]
        omega
  | case4 ch conv rest plain ih =>
    obtain ⟨byte, later⟩ := spelled
    cases rounds with
    | zero => cases run
    | succ rounds =>
      rw [printfFrom_literal byte (fun zero => noNul (by simp [zero])) plain] at run
      rw [endsInPercent, if_neg plain] at ends
      have past := ih later (fun inside => noNul (List.mem_cons_of_mem _ inside)) ends run
      rw [List.length_cons]
      omega

theorem printfFrom_run (rest : Name) (spelled : Spells m a rest) (noNul : 0 ∉ rest)
    (known : ∀ p ∈ pieces rest next, p.Matches m args) (noBinary : ∀ p ∈ pieces rest next, p.isBinary = false)
    (stops : endsInPercent rest = false ∨ ∃ p ∈ pieces rest next, p.Overruns args) (enough : rest.length < rounds) :
    printfFrom m args rounds a next stdout =
      (runOver args (Piece.sent m args) (pieces rest next) stdout).map fun out => (out, a + rest.length) := by
  obtain ⟨rounds, rfl⟩ := Nat.exists_eq_succ_of_ne_zero (show rounds ≠ 0 by omega)
  induction rest, next using pieces.induct generalizing a rounds stdout with
  | case1 next =>
    rw [printfFrom_end spelled, pieces, runOver_nil]
    rfl
  | case2 ch next =>
    obtain ⟨byte, terminator⟩ := spelled
    rw [pieces] at stops ⊢
    have plain : ch ≠ percent := by
      rintro rfl
      rw [if_pos rfl] at stops
      rcases stops with none | ⟨p, member, large⟩
      · cases none
      · rw [List.mem_singleton.mp member] at large
        cases large
    obtain ⟨rounds, rfl⟩ := Nat.exists_eq_succ_of_ne_zero (show rounds ≠ 0 by simp at enough; omega)
    rw [if_neg plain, runOver_cons id, runOver_nil, printfFrom_literal byte (fun zero => noNul (by simp [zero])) plain,
      printfFrom_end terminator]
    rfl
  | case3 conv rest next ih =>
    obtain ⟨byte, char, later⟩ := spelled
    simp only [List.length_cons] at enough
    rw [pieces, if_pos rfl] at known noBinary stops ⊢
    obtain ⟨first, others⟩ := List.forall_mem_cons.mp known
    rw [printfFrom_conversion byte, show m (a + 1) = conv from char]
    by_cases large : (Piece.ofConversion conv next).Overruns args
    · rw [conversion_overruns large, error_bind, runOver_overruns ⟨_, List.mem_cons_self, large⟩]
      rfl
    · obtain ⟨rounds, rfl⟩ := Nat.exists_eq_succ_of_ne_zero (show rounds ≠ 0 by omega)
      have stopsLater : endsInPercent rest = false ∨
          ∃ p ∈ pieces rest (next + (Piece.ofConversion conv next).takes), p.Overruns args := by
        rw [endsInPercent, if_pos rfl] at stops
        refine stops.imp_right fun some => ?_
        obtain ⟨p, member, overruns⟩ := some
        rcases List.mem_cons.mp member with rfl | behind
        · exact absurd overruns large
        · exact ⟨p, behind, overruns⟩
      have stop : a + (percent :: conv :: rest).length = a + 1 + 1 + rest.length := by
        simp only [List.length_cons]
        omega
      rw [conversion_run conv next stdout first large (noBinary _ List.mem_cons_self), ok_bind, runOver_cons large, stop]
      exact ih later (fun inside => noNul (by simp [inside])) others
        (List.forall_mem_cons.mp noBinary).2 stopsLater rounds (by omega)
  | case4 ch conv rest next plain ih =>
    obtain ⟨byte, later⟩ := spelled
    rw [List.length_cons] at enough
    rw [pieces, if_neg plain] at known noBinary stops ⊢
    obtain ⟨rounds, rfl⟩ := Nat.exists_eq_succ_of_ne_zero (show rounds ≠ 0 by omega)
    have stopsLater : endsInPercent (conv :: rest) = false ∨ ∃ p ∈ pieces (conv :: rest) next, p.Overruns args := by
      rw [endsInPercent, if_neg plain] at stops
      refine stops.imp_right fun some => ?_
      obtain ⟨p, member, overruns⟩ := some
      rcases List.mem_cons.mp member with rfl | behind
      · cases overruns
      · exact ⟨p, behind, overruns⟩
    have stop : a + (ch :: conv :: rest).length = a + 1 + (conv :: rest).length := by
      simp only [List.length_cons]
      omega
    rw [printfFrom_literal byte (fun zero => noNul (by simp [zero])) plain, runOver_cons id, stop]
    exact ih later (fun inside => noNul (List.mem_cons_of_mem _ inside)) (List.forall_mem_cons.mp known).2
      (List.forall_mem_cons.mp noBinary).2 stopsLater rounds (by omega)

end run

/-! ### The two outputs -/

theorem literal_mem {fmt : Name} {next : Nat} {ch : UInt8} (member : .literal ch ∈ pieces fmt next) : ch ∈ fmt := by
  induction fmt, next using pieces.induct with
  | case1 next => cases member
  | case2 b next =>
    rw [pieces, List.mem_singleton] at member
    split at member
    · cases member
    · rw [Piece.literal.inj member]
      exact List.mem_cons_self
  | case3 conv rest next ih =>
    rw [pieces, if_pos rfl] at member
    rcases List.mem_cons.mp member with here | later
    · unfold Piece.ofConversion at here
      split_ifs at here
    · exact List.mem_cons_of_mem _ (List.mem_cons_of_mem _ (ih later))
  | case4 b conv rest next plain ih =>
    rw [pieces, if_neg plain] at member
    rcases List.mem_cons.mp member with here | later
    · rw [Piece.literal.inj here]
      exact List.mem_cons_self
    · exact List.mem_cons_of_mem _ (ih later)

/-- No piece of a string makes the library send a zero. -/
theorem sent_noNul {p : Piece} (known : p.Matches m args) (some : p ≠ .literal 0) : 0 ∉ p.sent m args := by
  cases p with
  | literal ch => simpa [Piece.sent, Piece.expansion, eq_comm] using some
  | decimal arg => exact numeral_ne (by decide) (by decide) (by decide)
  | character arg =>
    rw [Piece.sent]
    split
    · simp
    · simpa [eq_comm] using ‹(args arg).toUInt8 ≠ 0›
  | hex arg => exact hex16_ne
  | binary arg => exact numeral_ne (by decide) (by decide) (by decide)
  | string arg =>
    obtain ⟨str, read⟩ := Option.isSome_iff_exists.mp known
    rw [Piece.sent, Piece.expansion, read]
    · exact (spells_of_cString read).2
    · rintro _ ⟨⟩
  | nothing => simp [Piece.sent, Piece.expansion]

theorem emitted_eq_sent {p : Piece} (alike : p.SentAlike m args) : p.emitted m args = p.sent m args := by
  cases p with
  | character arg => exact (if_neg alike).symm
  | string arg => exact Piece.emitted_of_fits alike
  | _ => rfl

/-- A piece that the kernel does not emit as the library sends it emits a zero or too little. -/
theorem zero_or_short {p : Piece} (other : ¬ p.SentAlike m args) :
    0 ∈ p.emitted m args ∨ (p.emitted m args).length < (p.sent m args).length := by
  cases p with
  | character arg =>
    have zero : (args arg).toUInt8 = 0 := not_not.mp other
    left
    show 0 ∈ [(args arg).toUInt8]
    rw [zero]
    exact List.mem_singleton_self 0
  | string arg =>
    obtain ⟨out, same, shorter⟩ := writeSerial_long [] (Nat.le_of_not_lt other)
    rw [Piece.emitted, same, List.nil_append]
    exact .inr shorter
  | _ => exact absurd trivial other

theorem flatMap_sent_iff {parts : List Piece} (known : ∀ p ∈ parts, p.Matches m args) (noNul : .literal 0 ∉ parts) :
    parts.flatMap (Piece.sent m args) = parts.flatMap (Piece.emitted m args) ↔ ∀ p ∈ parts, p.SentAlike m args := by
  constructor
  · intro same
    by_contra some
    push Not at some
    have noZero : 0 ∉ parts.flatMap (Piece.emitted m args) := by
      rw [← same]
      intro inside
      obtain ⟨p, member, zero⟩ := List.mem_flatMap.mp inside
      exact sent_noNul (known p member) (fun literal => noNul (literal ▸ member)) zero
    have short : ∀ p ∈ parts, ¬ p.SentAlike m args → (p.emitted m args).length < (p.sent m args).length := by
      intro p member other
      exact (zero_or_short other).resolve_left fun zero => noZero (List.mem_flatMap.mpr ⟨p, member, zero⟩)
    have le : ∀ p ∈ parts, (p.emitted m args).length ≤ (p.sent m args).length := by
      intro p member
      by_cases alike : p.SentAlike m args
      · exact (congrArg List.length (emitted_eq_sent alike)).le
      · exact (short p member alike).le
    obtain ⟨p, member, other⟩ := some
    have less := length_flatMap_lt le ⟨p, member, short p member other⟩
    rw [same] at less
    exact absurd less (Nat.lt_irrefl _)
  · intro all
    exact List.flatMap_congr fun p member => (emitted_eq_sent (all p member)).symm

/-- The library's `printf` agrees with the kernel's exactly when the format does not end in a `'%'` of its own, no `%c`
has the character 0 and no `%s` a string of `2 ^ 31` bytes, or when a `%d` overruns the ten bytes that both have for it. -/
theorem printf_agrees_iff (m : Mem) (format : Nat) (fmt : Name) (args : Nat → UInt64)
    (terminated : cString m format (2 ^ 64) = some fmt) (known : ∀ p ∈ pieces fmt 0, p.Matches m args)
    (noBinary : ∀ p ∈ pieces fmt 0, p.isBinary = false) :
    Agrees m format fmt args ↔ (∃ p ∈ pieces fmt 0, p.Overruns args) ∨
      endsInPercent fmt = false ∧ ∀ p ∈ pieces fmt 0, p.SentAlike m args := by
  obtain ⟨spelled, noNul⟩ := spells_of_cString terminated
  have room := length_lt_of_cString terminated
  have kernel : ∀ stdout, printfTemplate m format args stdout =
      runOver args (Piece.emitted m args) (pieces fmt 0) stdout := fun stdout => printfTemplate_run terminated known
  by_cases large : ∃ p ∈ pieces fmt 0, p.Overruns args
  · refine ⟨fun _ => .inl large, fun _ stdout => ?_⟩
    rw [kernel, printf, printfFrom_run fmt spelled noNul known noBinary (.inr large) room, runOver_overruns large,
      runOver_overruns large]
  · rw [or_iff_right large]
    cases ends : endsInPercent fmt with
    | true =>
      refine ⟨fun agrees => ?_, fun never => by cases never.1⟩
      have run := agrees []
      rw [kernel, runOver_small large] at run
      exact absurd (printfFrom_past spelled noNul ends run) (Nat.lt_irrefl _)
    | false =>
      rw [and_iff_right rfl, ← flatMap_sent_iff known fun zero => noNul (literal_mem zero)]
      have library : ∀ stdout, printf m format args stdout =
          .ok (stdout ++ (pieces fmt 0).flatMap (Piece.sent m args), format + fmt.length) := by
        intro stdout
        rw [printf, printfFrom_run fmt spelled noNul known noBinary (.inl ends) room, runOver_small large]
        rfl
      constructor
      · intro agrees
        have run := agrees []
        rw [library, kernel, runOver_small large] at run
        exact (Prod.mk.inj (Except.ok.inj run)).1
      · intro same stdout
        rw [library, kernel, runOver_small large, same]
        rfl

/-- `"%d %s%c"` at 16, `"ok"` at 32. -/
def agreeingMem : Mem := writeBytes (writeBytes (fun _ => 0) 16 [37, 100, 32, 37, 115, 37, 99]) 32 [111, 107]

def agreeingArgs : Nat → UInt64
  | 0 => 420
  | 1 => 32
  | _ => 33

theorem printf_agrees_iff_example : Agrees agreeingMem 16 [37, 100, 32, 37, 115, 37, 99] agreeingArgs :=
  (printf_agrees_iff agreeingMem 16 _ agreeingArgs (by decide +kernel) (by decide +kernel) (by decide)).mpr
    (.inr (by decide +kernel))

/-- `"%"` at 16, and `"a"` behind it. -/
def lonePercent : Mem := writeBytes (fun _ => 0) 16 [37, 0, 97]

/-- The kernel prints nothing; the library prints what is behind the format. -/
theorem printf_lone_percent : cString lonePercent 16 (2 ^ 64) = some [37] ∧
    printfTemplate lonePercent 16 (fun _ => 0) [] = .ok [] ∧ printf lonePercent 16 (fun _ => 0) [] = .ok ([97], 19) ∧
    ¬ Agrees lonePercent 16 [37] fun _ => 0 := by
  have kernel : printfTemplate lonePercent 16 (fun _ => 0) [] = .ok [] := by decide +kernel
  have library : printf lonePercent 16 (fun _ => 0) [] = .ok ([97], 19) := by decide +kernel
  refine ⟨by decide +kernel, kernel, library, fun agrees => ?_⟩
  have same := agrees []
  rw [kernel, library] at same
  cases Except.ok.inj same

end PotatOS.Libc
