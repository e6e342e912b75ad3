import PotatOS.Fs.Vfs

/-!
# Output to `stdout` (`vfs.c`, `fputs.c`)

`write` hands the buffer of a file called `stdout` to `printf` as the format.
No arguments follow it: `va_arg` finds whatever the registers and the stack hold.
-/

namespace PotatOS.Fs

open Memory Utils

/-- What `write` sends to the console. The message of a refused write is left out. -/
def writeConsole (m : Mem) (args : Nat → UInt64) (f : File) (buffer _size : Nat) (serial : List UInt8) :
    Except Undefined (List UInt8) :=
  if f.mode = modeReadonly then .ok serial
  else if f.ftype = ftypeStdout then printfTemplate m buffer args serial
  else .ok serial

/-- `fputs(str, stream)` and `syscall_write`, where `f` is the `File` at the descriptor. -/
def fputsConsole (m : Mem) (args : Nat → UInt64) (f : File) (str : Nat) (serial : List UInt8) :
    Except Undefined (List UInt8) := do
  let len ← kuStrlen m str
  writeConsole m args f str len serial

/-- `buffer[0..size)` -/
def bufferBytes (m : Mem) (buffer size : Nat) : List UInt8 := (List.range size).map fun i => m (buffer + i)

/-- The console gets the buffer's bytes, whatever the rest of the memory and the arguments are. -/
def WritesVerbatim (m : Mem) (f : File) (buffer size : Nat) : Prop :=
  ∀ (m' : Mem) (args : Nat → UInt64) (serial : List UInt8), (∀ i, i < size → m' (buffer + i) = m (buffer + i)) →
    writeConsole m' args f buffer size serial = .ok (serial ++ bufferBytes m buffer size)

/-! ### Formats without and with a `%` -/

variable {m : Mem}

theorem pieces_plain {fmt : Name} (next : Nat) (plain : percent ∉ fmt) : pieces fmt next = fmt.map .literal := by
  induction fmt, next using pieces.induct with
  | case1 next => rfl
  | case2 ch next => simp_all [pieces, eq_comm]
  | case3 conv rest next ih => simp at plain
  | case4 ch conv rest next other ih =>
    rw [pieces, if_neg other, ih (fun inside => plain (List.mem_cons_of_mem _ inside))]
    rfl

theorem printfTemplate_plain {format : Nat} {fmt : Name} {args : Nat → UInt64} {serial : List UInt8}
    (terminated : cString m format (2 ^ 64) = some fmt) (plain : percent ∉ fmt) :
    printfTemplate m format args serial = .ok (serial ++ fmt) := by
  have literals : ∀ p ∈ pieces fmt 0, p.Matches m args ∧ p.Fits m args := by
    rw [pieces_plain 0 plain]
    simp [Piece.Matches, Piece.Fits]
  have expanded : expansion m args fmt = fmt := by
    rw [expansion, pieces_plain 0 plain, List.flatMap_map]
    simp [Piece.expansion]
  have expands : Expands m args (pieces fmt 0) serial (printfTemplate m format args serial) :=
    printfTemplate_expands terminated fun p member => (literals p member).1
  rw [expands.iff_fits.mpr fun p member => (literals p member).2]
  exact congrArg (fun out => Except.ok (serial ++ out)) expanded

/-- A piece that goes out in full and sends no `%`. -/
structure Hides (m : Mem) (args : Nat → UInt64) (p : Piece) : Prop where
  known : p.Matches m args
  fits : p.Fits m args
  hidden : percent ∉ p.expansion m args

/-- An argument behind which no conversion sends a `%`: zero, or the empty string. -/
theorem ofConversion_hides {conv : UInt8} {empty : UInt64} (next : Nat) (emptyString : cString m empty.toNat (2 ^ 64) = some [])
    {args : Nat → UInt64} (arg : args next = if conv = charS then empty else 0) :
    Hides m args (Piece.ofConversion conv next) := by
  have numbers : ∀ base, 2 ≤ base → base ≤ 16 → percent ∉ numeral base 0 := fun base two small =>
    numeral_ne two small (by decide)
  unfold Piece.ofConversion
  split_ifs with decimal character hex binary string
  · have zero : args next = 0 := arg.trans (if_neg (by rcases decimal with rfl | rfl <;> decide))
    exact ⟨trivial, by rw [Piece.Fits, zero]; decide, by rw [Piece.expansion, zero]; exact numbers 10 (by decide) (by decide)⟩
  · have zero : args next = 0 := arg.trans (if_neg (by subst character; decide))
    exact ⟨trivial, trivial, by rw [Piece.expansion, zero]; decide⟩
  · have zero : args next = 0 := arg.trans (if_neg (by subst hex; decide))
    exact ⟨trivial, trivial, by rw [Piece.expansion, zero]; decide⟩
  · have zero : args next = 0 := arg.trans (if_neg (by subst binary; decide))
    exact ⟨trivial, trivial, by rw [Piece.expansion, zero]; exact numbers 2 (by decide) (by decide)⟩
  · rw [if_pos string] at arg
    exact ⟨by rw [Piece.Matches, arg, emptyString]; rfl, by rw [Piece.Fits, arg, emptyString]; decide,
      by rw [Piece.expansion, arg, emptyString]; simp⟩
  · exact ⟨trivial, trivial, by simp [Piece.expansion]⟩

theorem takes_cases (conv : UInt8) (next : Nat) :
    Piece.ofConversion conv next = .nothing ∨ (Piece.ofConversion conv next).takes = 1 := by
  unfold Piece.ofConversion
  split_ifs
  all_goals first | exact .inl rfl | exact .inr rfl

/-- Some arguments hide every `%` of a format. -/
theorem exists_hiding {empty : UInt64} (emptyString : cString m empty.toNat (2 ^ 64) = some []) (fmt : Name) (next : Nat) :
    ∃ args : Nat → UInt64, ∀ args', (∀ k, next ≤ k → args' k = args k) → ∀ p ∈ pieces fmt next, Hides m args' p := by
  have literal : ∀ args ch, ch ≠ percent → Hides m args (.literal ch) := fun args ch plain =>
    ⟨trivial, trivial, by simp [Piece.expansion, Ne.symm plain]⟩
  induction fmt, next using pieces.induct with
  | case1 next => exact ⟨fun _ => 0, by simp [pieces]⟩
  | case2 ch next =>
    refine ⟨fun _ => 0, fun args' _ p member => ?_⟩
    rw [pieces, List.mem_singleton] at member
    subst member
    split
    · exact ⟨trivial, trivial, by simp [Piece.expansion]⟩
    · exact literal _ _ ‹_›
  | case3 conv rest next ih =>
    obtain ⟨args, hides⟩ := ih
    rw [pieces, if_pos rfl]
    rcases takes_cases conv next with nothing | one
    · rw [nothing] at hides ⊢
      refine ⟨args, fun args' same p member => ?_⟩
      rcases List.mem_cons.mp member with rfl | member
      · exact ⟨trivial, trivial, by simp [Piece.expansion]⟩
      · exact hides args' same p member
    · rw [one] at hides ⊢
      -- The rest reads the arguments behind this one only.
      refine ⟨Function.update args next (if conv = charS then empty else 0), fun args' same p member => ?_⟩
      rcases List.mem_cons.mp member with rfl | member
      · exact ofConversion_hides next emptyString (by rw [same next (Nat.le_refl _), Function.update_self])
      · refine hides args' (fun k later => ?_) p member
        rw [same k (by omega), Function.update_of_ne (by omega)]
  | case4 ch conv rest next plain ih =>
    obtain ⟨args, hides⟩ := ih
    refine ⟨args, fun args' same p member => ?_⟩
    rw [pieces, if_neg plain, List.mem_cons] at member
    rcases member with rfl | member
    · exact literal _ _ plain
    · exact hides args' same p member

theorem cString_none {a : Nat} (n : Nat) (nonzero : ∀ x, a ≤ x → m x ≠ 0) : cString m a n = none := by
  induction n generalizing a with
  | zero => rfl
  | succ n ih =>
    rw [cString, if_neg (nonzero a (Nat.le_refl a)), ih fun x later => nonzero x (by omega)]
    rfl

/-- The string that ends at the first zero. -/
theorem cString_bufferBytes {a len n : Nat} (bytes : ∀ i, i < len → m (a + i) ≠ 0) (zero : m (a + len) = 0) (room : len < n) :
    cString m a n = some (bufferBytes m a len) := by
  apply cString_run
  · intro i h
    simp [bufferBytes]
  · simpa [bufferBytes] using zero
  · intro inside
    obtain ⟨i, small, same⟩ := List.mem_map.mp inside
    exact bytes i (List.mem_range.mp small) same
  · simpa [bufferBytes] using room

/-- Under some arguments the output of a format with a `%` has none. -/
theorem printfTemplate_hidden {format : Nat} {fmt : Name} (terminated : cString m format (2 ^ 64) = some fmt)
    (fits : format + fmt.length < 2 ^ 64) (serial : List UInt8) :
    ∃ args out, percent ∉ out ∧ printfTemplate m format args serial = .ok (serial ++ out) := by
  have zero := (spells_of_cString terminated).1.terminator
  have emptyString : cString m (UInt64.ofNat (format + fmt.length)).toNat (2 ^ 64) = some [] := by
    rw [UInt64.toNat_ofNat_of_lt' fits, show 2 ^ 64 = (2 ^ 64 - 1) + 1 from rfl, cString, if_pos zero]
  obtain ⟨args, hides⟩ := exists_hiding emptyString fmt 0
  have hidden := hides args fun _ _ => rfl
  refine ⟨args, expansion m args fmt, ?_,
    (printfTemplate_expands terminated fun p member => (hidden p member).known).iff_fits.mpr
      fun p member => (hidden p member).fits⟩
  intro inside
  obtain ⟨p, member, sent⟩ := List.mem_flatMap.mp inside
  exact (hidden p member).hidden sent

/-- `write` never sends just the buffer: it reads on to the next zero, and up to it every `%` is a conversion.
`fputs` prints the strings that have no `%`. -/
theorem stdout_never_verbatim (m : Mem) (f : File) (buffer size : Nat) (writable : f.mode ≠ modeReadonly)
    (stdout : f.ftype = ftypeStdout) (mapped : buffer + size ≤ 2 ^ 64) :
    ¬ WritesVerbatim m f buffer size ∧ ∀ s, cString m buffer (2 ^ 64) = some s → buffer + s.length < 2 ^ 64 →
      ((∀ args serial, fputsConsole m args f buffer serial = .ok (serial ++ s)) ↔ percent ∉ s) := by
  have run : ∀ (m' : Mem) args n serial, writeConsole m' args f buffer n serial = printfTemplate m' buffer args serial := by
    intro m' args n serial
    rw [writeConsole, if_neg writable, if_pos stdout]
  constructor
  · intro verbatim
    by_cases ends : ∃ i, i < size ∧ m (buffer + i) = 0
    · -- The output stops at the first zero, or a `%` before it is missing.
      obtain ⟨within, zero⟩ := Nat.find_spec ends
      have before : ∀ i, i < Nat.find ends → m (buffer + i) ≠ 0 := fun i early same =>
        Nat.find_min ends early ⟨early.trans within, same⟩
      have read : cString m buffer (2 ^ 64) = some (bufferBytes m buffer (Nat.find ends)) :=
        cString_bufferBytes before zero (by omega)
      have length : (bufferBytes m buffer (Nat.find ends)).length = Nat.find ends := by simp [bufferBytes]
      obtain ⟨args, out, hidden, printed⟩ := printfTemplate_hidden read (by omega) []
      have sent := verbatim m args [] fun _ _ => rfl
      rw [run, printed] at sent
      obtain rfl : out = bufferBytes m buffer size := by simpa using sent
      by_cases plain : percent ∈ bufferBytes m buffer (Nat.find ends)
      · refine hidden ?_
        obtain ⟨i, small, same⟩ := List.mem_map.mp plain
        exact List.mem_map.mpr ⟨i, List.mem_range.mpr ((List.mem_range.mp small).trans within), same⟩
      · have sent := verbatim m args [] fun _ _ => rfl
        rw [run, printfTemplate_plain read plain] at sent
        have lengths := congrArg List.length (Except.ok.inj sent)
        simp only [bufferBytes, List.nil_append, List.length_map, List.length_range] at lengths
        omega
    · -- Without a zero in the buffer the string runs on as long as the memory behind it has none.
      have sent := verbatim (fun x => if buffer ≤ x ∧ x < buffer + size then m x else 1) (fun _ => 0) [] fun i small =>
        if_pos ⟨by omega, by omega⟩
      rw [run, printfTemplate, kuStrlen, cString_none _ fun x later => ?_] at sent
      · exact absurd sent (by simp)
      · split
        · rename_i inside
          exact fun same => ends ⟨x - buffer, by omega, by rwa [Nat.add_sub_cancel' later]⟩
        · decide
  · intro s terminated fits
    have puts : ∀ args serial, fputsConsole m args f buffer serial = printfTemplate m buffer args serial := by
      intro args serial
      rw [fputsConsole, kuStrlen, terminated]
      exact run m args s.length serial
    constructor
    · intro exact_ inside
      obtain ⟨args, out, hidden, printed⟩ := printfTemplate_hidden terminated fits []
      have same := exact_ args []
      rw [puts, printed] at same
      obtain rfl : out = s := by simpa using same
      exact hidden inside
    · intro plain args serial
      rw [puts]
      exact printfTemplate_plain terminated plain

def stdoutFile : File := ⟨3, 68, 6, ftypeStdout⟩

/-- `"hi"` at address 16 and `"%d"` at 32. -/
def textMem : Mem := writeBytes (writeBytes (fun _ => 0) 16 [104, 105]) 32 [37, 100]

theorem stdout_never_verbatim_hi : ¬ WritesVerbatim textMem stdoutFile 16 2 ∧
    ∀ args serial, fputsConsole textMem args stdoutFile 16 serial = .ok (serial ++ [104, 105]) := by
  obtain ⟨never, puts⟩ := stdout_never_verbatim textMem stdoutFile 16 2 (by decide) (by decide) (by decide)
  exact ⟨never, (puts [104, 105] (by decide +kernel) (by decide)).mpr (by decide)⟩

/-- The text `"%d"` comes out as a number. -/
theorem stdout_percent : writeConsole textMem (fun _ => 7) stdoutFile 32 2 [] = .ok [55] ∧
    ¬ WritesVerbatim textMem stdoutFile 32 2 := by
  have printed : writeConsole textMem (fun _ => 7) stdoutFile 32 2 [] = .ok [55] := by decide +kernel
  refine ⟨printed, fun verbatim => ?_⟩
  have sent := verbatim textMem (fun _ => 7) [] fun _ _ => rfl
  rw [printed] at sent
  exact absurd sent (by decide +kernel)

end PotatOS.Fs
