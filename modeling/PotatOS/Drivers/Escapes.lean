import PotatOS.Drivers.Renderfont

/-!
# Colour sequences (`write_string`)

The macros of `printf.h` write a colour as `ESC [ d ; 3 d m`. `write_string`
takes the colour from the sixth byte behind any escape character and skips seven,
whatever these bytes are.
-/

namespace PotatOS.Drivers

open Memory

def ansiColours : List UInt32 :=
  [0x808080, 0xFF0000, 0x00FF00, 0xFFBF00, 0x0000FF, 0xBF40BF, 0x00FFFF, 0xFFFFFF]

/-- `fg_colour`, the characters written, each with its colour, and ghost: the addresses read and the indexes
into the colour table. -/
structure Pen where
  fgColour : UInt32
  written : List (UInt8 × UInt32) := []
  reads : List Nat := []
  codes : List Nat := []
  deriving DecidableEq, Repr

def Pen.read (a : Nat) (p : Pen) : Pen := { p with reads := p.reads ++ [a] }

def Pen.write (ch : UInt8) (p : Pen) : Pen := { p with written := p.written ++ [(ch, p.fgColour)] }

section write

variable (m : Mem) (beyond : Nat → UInt32)

/-- `beyond` is what lies behind the table on the stack. -/
def ansiSwitchColour (colourCode : UInt8) (p : Pen) : Pen :=
  { p with
    fgColour := ansiColours.getD colourCode.toNat (beyond colourCode.toNat)
    codes := p.codes ++ [colourCode.toNat] }

/-- `write_string` with the colours, and with a bound on its rounds. -/
def writeColours : Nat → Nat → Pen → Option Pen
  | 0, _, _ => none
  | rounds + 1, str, p =>
    let p := p.read str
    if m str = 0 then some p
    else if m str = escape then
      writeColours rounds (str + 7) (ansiSwitchColour beyond (m (str + 5) - 48) (p.read (str + 5)))
    else writeColours rounds (str + 1) (p.write (m str))

end write

/-- A string and its terminator. -/
def StringAt (m : Mem) : Nat → List UInt8 → Prop
  | a, [] => m a = 0
  | a, ch :: rest => m a = ch ∧ ch ≠ 0 ∧ StringAt m (a + 1) rest

/-- The colour of a complete sequence at the front, and what follows it. -/
def colourSequence : List UInt8 → Option (UInt8 × List UInt8)
  | 27 :: 91 :: d :: 59 :: 51 :: c :: 109 :: rest =>
    if (48 ≤ d ∧ d ≤ 57) ∧ 48 ≤ c ∧ c ≤ 55 then some (c - 48, rest) else none
  | _ => none

/-- What a string shows: the characters outside complete sequences, each in the colour that the sequences before
it have set. -/
inductive Shows : List UInt8 → UInt32 → List (UInt8 × UInt32) → UInt32 → Prop where
  | done {fg : UInt32} : Shows [] fg [] fg
  | colour {text rest : List UInt8} {code : UInt8} {fg last : UInt32} {out : List (UInt8 × UInt32)}
      (sequence : colourSequence text = some (code, rest)) (later : Shows rest (ansiColours.getD code.toNat 0) out last) :
      Shows text fg out last
  | char {ch : UInt8} {rest : List UInt8} {fg last : UInt32} {out : List (UInt8 × UInt32)}
      (plain : colourSequence (ch :: rest) = none) (later : Shows rest fg out last) :
      Shows (ch :: rest) fg ((ch, fg) :: out) last

/-- `write_string` shows the string, reads nothing behind its terminator and stays in the colour table. -/
def WritesText (m : Mem) (beyond : Nat → UInt32) (str : Nat) (text : List UInt8) (fg : UInt32) : Prop :=
  ∃ rounds p, writeColours m beyond rounds str { fgColour := fg } = some p ∧ Shows text fg p.written p.fgColour ∧
    (∀ a ∈ p.reads, a ≤ str + text.length) ∧ ∀ code ∈ p.codes, code < 8

/-- Every escape character begins a complete sequence. -/
def Complete (text : List UInt8) : Prop :=
  ∀ before after, text = before ++ escape :: after → colourSequence (escape :: after) ≠ none

section strings

variable {m : Mem} {beyond : Nat → UInt32} {rounds str : Nat} {p p' : Pen} {text rest : List UInt8} {ch code : UInt8}

theorem complete_nil : Complete [] := by
  intro before after eq
  simp at eq

theorem complete_cons : Complete (ch :: rest) ↔ (ch = escape → colourSequence (ch :: rest) ≠ none) ∧ Complete rest := by
  constructor
  · intro complete
    refine ⟨?_, fun before after eq => complete (ch :: before) after (by rw [eq]; rfl)⟩
    rintro rfl
    exact complete [] rest rfl
  · rintro ⟨first, later⟩ before after eq
    cases before with
    | nil =>
      obtain ⟨rfl, rfl⟩ := List.cons.inj eq
      exact first rfl
    | cons b before => exact later before after (List.cons.inj eq).2

theorem complete_cons_plain (plain : ch ≠ escape) : Complete (ch :: rest) ↔ Complete rest := by
  rw [complete_cons]
  exact and_iff_right fun same => absurd same plain

theorem colourSequence_some (sequence : colourSequence text = some (code, rest)) :
    ∃ d c, text = escape :: 91 :: d :: 59 :: 51 :: c :: 109 :: rest ∧ d ≠ escape ∧ c ≠ escape ∧ c ≠ 0 ∧ d ≠ 0 ∧
      c - 48 = code ∧ code.toNat < 8 := by
  unfold colourSequence at sequence
  split at sequence
  next d c after =>
    obtain ⟨⟨digit, low, high⟩, eq⟩ := Option.ite_none_right_eq_some.mp sequence
    obtain ⟨rfl, rfl⟩ := Prod.mk.inj (Option.some.inj eq)
    refine ⟨d, c, rfl, ?_⟩
    have value : (c - 48).toNat = c.toNat - 48 := UInt8.toNat_sub_of_le _ _ low
    have high : c.toNat ≤ 55 := high
    refine ⟨?_, ?_, ?_, ?_, rfl, by omega⟩
    · rintro rfl
      exact absurd digit.1 (by decide)
    · rintro rfl
      exact absurd low (by decide)
    · rintro rfl
      exact absurd low (by decide)
    · rintro rfl
      exact absurd digit.1 (by decide)
  next => cases sequence

theorem Complete.behind (complete : Complete text) (sequence : colourSequence text = some (code, rest)) : Complete rest := by
  obtain ⟨d, c, rfl, digit, colour, -⟩ := colourSequence_some sequence
  have later := (complete_cons.mp complete).2
  rwa [complete_cons_plain (by decide), complete_cons_plain digit, complete_cons_plain (by decide),
    complete_cons_plain (by decide), complete_cons_plain colour, complete_cons_plain (by decide)] at later

theorem complete_of_behind (sequence : colourSequence text = some (code, rest)) (complete : Complete rest) : Complete text := by
  have whole := sequence
  obtain ⟨d, c, rfl, digit, colour, -⟩ := colourSequence_some sequence
  refine complete_cons.mpr ⟨fun _ => by simp [whole], ?_⟩
  rwa [complete_cons_plain (by decide), complete_cons_plain digit, complete_cons_plain (by decide),
    complete_cons_plain (by decide), complete_cons_plain colour, complete_cons_plain (by decide)]

/-- In memory, the sixth byte of a sequence gives the colour and the rest follows the seventh. -/
theorem StringAt.behind (at_ : StringAt m str text) (sequence : colourSequence text = some (code, rest)) :
    m str = escape ∧ m (str + 5) - 48 = code ∧ StringAt m (str + 7) rest ∧ text.length = rest.length + 7 := by
  obtain ⟨d, c, rfl, -, -, -, -, value, -⟩ := colourSequence_some sequence
  obtain ⟨first, -, -, -, -, -, -, -, -, -, sixth, -, -, -, later⟩ := at_
  exact ⟨first, by rw [← value, ← sixth], later, by simp⟩

/-! ### A string whose sequences are complete -/

/-- The reads and the colour codes that a call adds. -/
structure Adds (p p' : Pen) (out : List (UInt8 × UInt32)) (last : Nat) : Prop where
  written : p'.written = p.written ++ out
  reads : ∀ a ∈ p'.reads, a ∈ p.reads ∨ a ≤ last
  codes : ∀ code ∈ p'.codes, code ∈ p.codes ∨ code < 8

theorem writeColours_complete (beyond : Nat → UInt32) (complete : Complete text) (at_ : StringAt m str text) (p : Pen) :
    ∃ rounds p' out, writeColours m beyond rounds str p = some p' ∧ Shows text p.fgColour out p'.fgColour ∧
      Adds p p' out (str + text.length) := by
  induction size : text.length using Nat.strong_induction_on generalizing text str p with
  | _ size' ih =>
    cases sequence : colourSequence text with
    | some found =>
      obtain ⟨code, rest⟩ := found
      obtain ⟨first, sixth, later, length⟩ := at_.behind sequence
      obtain ⟨-, -, -, -, -, -, -, -, small⟩ := colourSequence_some sequence
      let q := ansiSwitchColour beyond code ((p.read str).read (str + 5))
      obtain ⟨rounds, p', out, run, shows, adds⟩ := ih rest.length (by omega) (complete.behind sequence) later q rfl
      have colour : q.fgColour = ansiColours.getD code.toNat 0 := by
        show ansiColours.getD code.toNat _ = _
        rw [List.getD_eq_getElem _ _ small, List.getD_eq_getElem _ _ small]
      refine ⟨rounds + 1, p', out, ?_, .colour sequence (colour ▸ shows), adds.written, ?_, ?_⟩
      · rw [writeColours, first, if_neg (by decide), if_pos rfl, sixth]
        exact run
      · intro a read
        rcases adds.reads a read with before | here
        · simp only [q, ansiSwitchColour, Pen.read, List.mem_append, List.mem_singleton] at before
          rcases before with (old | rfl) | rfl
          · exact .inl old
          · exact .inr (by omega)
          · exact .inr (by omega)
        · exact .inr (by omega)
      · intro other indexed
        rcases adds.codes other indexed with before | here
        · simp only [q, ansiSwitchColour, Pen.read, List.mem_append, List.mem_singleton] at before
          rcases before with old | rfl
          · exact .inl old
          · exact .inr small
        · exact .inr here
    | none =>
      cases text with
      | nil =>
        refine ⟨1, p.read str, [], ?_, .done, (List.append_nil _).symm, ?_, fun _ old => .inl old⟩
        · rw [writeColours]
          exact if_pos at_
        · intro a read
          rcases List.mem_append.mp read with old | here
          · exact .inl old
          · rw [List.mem_singleton.mp here]
            exact .inr (Nat.le_add_right ..)
      | cons ch rest =>
        obtain ⟨first, nonzero, later⟩ := at_
        have plain : ch ≠ escape := fun same => (complete_cons.mp complete).1 same sequence
        let q := (p.read str).write ch
        rw [List.length_cons] at size
        obtain ⟨rounds, p', out, run, shows, adds⟩ :=
          ih rest.length (by omega) ((complete_cons_plain plain).mp complete) later q rfl
        refine ⟨rounds + 1, p', (ch, p.fgColour) :: out, ?_, .char sequence shows, ?_, ?_, adds.codes⟩
        · rw [writeColours, first, if_neg nonzero, if_neg plain]
          exact run
        · rw [adds.written]
          exact List.append_assoc ..
        · intro a read
          rcases adds.reads a read with before | here
          · rcases List.mem_append.mp before with old | here
            · exact .inl old
            · rw [List.mem_singleton.mp here]
              exact .inr (Nat.le_add_right ..)
          · exact .inr (by omega)

/-! ### A string with another escape character -/

theorem written_ne_escape (old : ∀ w ∈ p.written, w.1 ≠ escape) (run : writeColours m beyond rounds str p = some p') :
    ∀ w ∈ p'.written, w.1 ≠ escape := by
  induction rounds generalizing str p with
  | zero => cases run
  | succ rounds ih =>
    rw [writeColours] at run
    split_ifs at run with zero esc
    · obtain rfl := Option.some.inj run
      exact old
    · have same : ∀ w ∈ (ansiSwitchColour beyond (m (str + 5) - 48) ((p.read str).read (str + 5))).written,
          w.1 ≠ escape := old
      exact ih same run
    · refine ih (fun w inside => ?_) run
      rcases List.mem_append.mp inside with before | here
      · exact old w before
      · rw [List.mem_singleton.mp here]
        exact esc

theorem Shows.complete {fg last : UInt32} {out : List (UInt8 × UInt32)} (shows : Shows text fg out last)
    (plain : ∀ w ∈ out, w.1 ≠ escape) : Complete text := by
  induction shows with
  | done => exact complete_nil
  | colour sequence later ih => exact complete_of_behind sequence (ih plain)
  | char _ later ih =>
    rw [complete_cons_plain (plain _ (List.mem_cons_self ..))]
    exact ih fun w inside => plain w (List.mem_cons_of_mem _ inside)

end strings

/-- A string is shown as written exactly when each of its escape characters begins a complete sequence. -/
theorem writesText_iff (m : Mem) (beyond : Nat → UInt32) (str : Nat) (text : List UInt8) (fg : UInt32)
    (at_ : StringAt m str text) : WritesText m beyond str text fg ↔ Complete text := by
  constructor
  · rintro ⟨rounds, p, run, shows, -⟩
    exact shows.complete (written_ne_escape (by simp) run)
  · intro complete
    obtain ⟨rounds, p, out, run, shows, adds⟩ := writeColours_complete beyond complete at_ { fgColour := fg }
    have written : p.written = out := adds.written
    refine ⟨rounds, p, run, written ▸ shows, fun a read => ?_, fun code indexed => ?_⟩
    · exact (adds.reads a read).resolve_left nofun
    · exact (adds.codes code indexed).resolve_left nofun

/-- `GRN "A"`. -/
def greenText : Mem := fun x => [27, 91, 48, 59, 51, 50, 109, 65].getD x 0

theorem writesText_iff_green : WritesText greenText (fun _ => 0) 0 [27, 91, 48, 59, 51, 50, 109, 65] 0xFFFFFF := by
  have sequence : colourSequence [27, 91, 48, 59, 51, 50, 109, 65] = some (2, [65]) := by decide
  have complete := complete_of_behind sequence ((complete_cons_plain (by decide)).mpr complete_nil)
  exact (writesText_iff greenText (fun _ => 0) 0 _ 0xFFFFFF (by simp only [StringAt]; decide)).mpr complete

/-- A string that is one escape character: the byte four behind its terminator is taken for a colour. -/
theorem escape_reads_behind : ¬ WritesText (fun x => if x = 0 then 27 else 0) (fun _ => 0) 0 [27] 0xFFFFFF := by
  rintro ⟨rounds, p, run, -, reads, -⟩
  rcases rounds with _ | _ | rounds
  · cases run
  · cases run
  · obtain rfl := Option.some.inj run
    exact absurd (reads 5 (by decide)) (by decide)

end PotatOS.Drivers
