import PotatOS.Fs.Walks

/-!
# The names that `mkdir` reads

The loop of `mkdir` stops by one string and cuts its names out of another: the
path, which ends in a zero, and a copy of it, which does not. `Reads` says which
names it takes; with a `/` behind the last one nothing outside the strings
matters.
-/

namespace PotatOS.Fs

open Prog

/-- The loop, from byte `i` in round `k`, takes these names and ends. -/
inductive Reads (path newPath : Nat → Nat → UInt8) : Nat → Nat → List Name → Prop
  | done {k i : Nat} (ends : path k i = 0) : Reads path newPath k i []
  | empty {k i : Nat} (more : path k i ≠ 0) (stops : newPath k i = slash ∨ newPath k i = 0) : Reads path newPath k i []
  | name {k i bound : Nat} {c : Name} {rest : List Name} (more : path k i ≠ 0)
    (here : nameFrom (newPath k) bound i = some c) (filled : c ≠ [])
    (behind : Reads path newPath (k + 1) (i + c.length + 1) rest) : Reads path newPath k i (c :: rest)

/-- The walk of `mkdir` over given names. -/
def mkdirSteps (fs : FileSystem) : List Name → Nat → VfsM Unit
  | [], _ => return
  | name :: rest, currentObj => do
    let thisDir ← fs.call (tempfsFind currentObj name)
    let thisDir ←
      if thisDir = 0 then do
        fs.call (tempfsMkdir currentObj name)
        fs.call (tempfsFind currentObj name)
      else pure thisDir
    mkdirSteps fs rest (← fs.call (tempfsOpenDir thisDir))

variable {c c' : Name} {comps names rest : List Name}

section name

variable {newPath : Nat → UInt8} {i bound more : Nat}

theorem nameFrom_mono (found : nameFrom newPath bound i = some c) (le : bound ≤ more) :
    nameFrom newPath more i = some c := by
  induction bound generalizing i c more with
  | zero => cases found
  | succ bound ih =>
    obtain ⟨more, rfl⟩ := Nat.exists_eq_succ_of_ne_zero (show more ≠ 0 by omega)
    rw [nameFrom] at found ⊢
    by_cases stops : newPath i = slash ∨ newPath i = 0
    · rw [if_pos stops] at found ⊢
      exact found
    · rw [if_neg stops] at found ⊢
      obtain ⟨tail, later, rfl⟩ := Option.map_eq_some_iff.mp found
      rw [ih later (by omega)]
      rfl

theorem nameFrom_unique (found : nameFrom newPath bound i = some c) (found' : nameFrom newPath more i = some c') : c = c' := by
  rcases Nat.le_total bound more with le | le
  · exact Option.some.inj ((nameFrom_mono found le).symm.trans found')
  · exact Option.some.inj (found.symm.trans (nameFrom_mono found' le))

theorem nameFrom_ends (found : nameFrom newPath bound i = some c) :
    newPath (i + c.length) = slash ∨ newPath (i + c.length) = 0 := by
  induction bound generalizing i c with
  | zero => cases found
  | succ bound ih =>
    rw [nameFrom] at found
    by_cases stops : newPath i = slash ∨ newPath i = 0
    · rw [if_pos stops] at found
      obtain rfl := Option.some.inj found
      exact stops
    · rw [if_neg stops] at found
      obtain ⟨tail, later, rfl⟩ := Option.map_eq_some_iff.mp found
      rw [List.length_cons, show i + (tail.length + 1) = i + 1 + tail.length by omega]
      exact ih later

theorem nameFrom_empty : nameFrom newPath (bound + 1) i = some [] ↔ newPath i = slash ∨ newPath i = 0 := by
  rw [nameFrom]
  by_cases stops : newPath i = slash ∨ newPath i = 0
  · simp [stops]
  · simp [stops]

theorem nameFrom_stops (stops : newPath i = slash ∨ newPath i = 0) : nameFrom newPath 1 i = some [] :=
  nameFrom_empty.mpr stops

end name

variable {fs : FileSystem} {path newPath : Nat → Nat → UInt8} {k i bound rounds d : Nat}

theorem Reads.unique (reads : Reads path newPath k i names) (reads' : Reads path newPath k i rest) : names = rest := by
  induction reads generalizing rest with
  | done ends =>
    cases reads' with
    | done => rfl
    | empty more => exact absurd ends more
    | name more => exact absurd ends more
  | empty more stops =>
    cases reads' with
    | done ends => exact absurd ends more
    | empty => rfl
    | name _ here filled => exact absurd (nameFrom_unique here (nameFrom_stops stops)) filled
  | name more here filled behind ih =>
    cases reads' with
    | done ends => exact absurd ends more
    | empty _ stops => exact absurd (nameFrom_unique here (nameFrom_stops stops)) filled
    | name _ here' _ behind' =>
      obtain rfl := nameFrom_unique here here'
      rw [ih behind']

/-- With enough rounds the loop is the walk over the names. -/
theorem Reads.walk (reads : Reads path newPath k i names) : ∃ enough, ∀ bound ≥ enough, ∀ rounds ≥ enough, ∀ d,
    mkdirWalk fs path newPath bound rounds k i d = mkdirSteps fs names d := by
  induction reads with
  | done ends =>
    refine ⟨0, fun bound _ rounds _ d => ?_⟩
    cases rounds <;> rw [mkdirWalk, if_pos ends] <;> rfl
  | empty more stops =>
    refine ⟨1, fun bound enough rounds enough' d => ?_⟩
    obtain ⟨rounds, rfl⟩ := Nat.exists_eq_succ_of_ne_zero (show rounds ≠ 0 by omega)
    obtain ⟨bound, rfl⟩ := Nat.exists_eq_succ_of_ne_zero (show bound ≠ 0 by omega)
    rw [mkdirWalk, if_neg more, nameFrom_empty.mpr stops]
    rfl
  | @name k i bound c rest more here filled behind ih =>
    obtain ⟨enough, ih⟩ := ih
    refine ⟨max bound enough + 1, fun bound' le rounds le' d => ?_⟩
    obtain ⟨rounds, rfl⟩ := Nat.exists_eq_succ_of_ne_zero (show rounds ≠ 0 by omega)
    rw [mkdirWalk, if_neg more, nameFrom_mono here (by omega), mkdirSteps]
    simp only [if_neg filled, ih bound' (by omega) rounds (by omega)]

/-- A loop that returns has read names to their end. -/
theorem reads_of_ok {v w : Vfs} (run : mkdirWalk fs path newPath bound rounds k i d v = .ok (⟨⟩, w)) :
    ∃ names, Reads path newPath k i names ∧ mkdirSteps fs names d v = .ok (⟨⟩, w) := by
  induction rounds generalizing k i d v with
  | zero =>
    rw [mkdirWalk] at run
    by_cases ends : path k i = 0
    · rw [if_pos ends] at run
      exact ⟨[], .done ends, run⟩
    · rw [if_neg ends] at run
      exact (stop_ok run).elim
  | succ rounds ih =>
    rw [mkdirWalk] at run
    by_cases ends : path k i = 0
    · rw [if_pos ends] at run
      exact ⟨[], .done ends, run⟩
    rw [if_neg ends] at run
    cases here : nameFrom (newPath k) bound i with
    | none =>
      rw [here] at run
      exact (stop_ok run).elim
    | some name =>
      rw [here] at run
      dsimp only at run
      by_cases empty : name = []
      · subst empty
        rw [if_pos rfl] at run
        obtain ⟨bound, rfl⟩ : ∃ n, bound = n + 1 := by
          cases bound with
          | zero => cases here
          | succ bound => exact ⟨bound, rfl⟩
        exact ⟨[], .empty ends (nameFrom_empty.mp here), run⟩
      · rw [if_neg empty] at run
        obtain ⟨thisDir, v₁, find, run⟩ := bind_ok run
        by_cases null : thisDir = 0
        · rw [if_pos null] at run
          obtain ⟨_, v₂, made, run⟩ := bind_ok run
          obtain ⟨again, v₃, found, run⟩ := bind_ok run
          obtain ⟨next, v₄, opened, run⟩ := bind_ok run
          obtain ⟨rest, reads, steps⟩ := ih run
          refine ⟨name :: rest, .name ends here empty reads, ?_⟩
          rw [mkdirSteps, bind_eq find, if_pos null, bind_eq made, bind_eq found]
          exact (bind_eq opened).trans steps
        · rw [if_neg null, pure_bind] at run
          obtain ⟨next, v₂, opened, run⟩ := bind_ok run
          obtain ⟨rest, reads, steps⟩ := ih run
          refine ⟨name :: rest, .name ends here empty reads, ?_⟩
          rw [mkdirSteps, bind_eq find, if_neg null, pure_bind]
          exact (bind_eq opened).trans steps

/-! ### Paths of ordinary components -/

/-- `X:/c1/…/cn`, with a `/` behind it or not. -/
def mkdirPath (letter : UInt8) (comps : List Name) (trailing : Bool) : Name :=
  letter :: colon :: slash :: (joinPath comps ++ if trailing then [slash] else [])

/-- The bytes from `i` on are those of `c1/…/cn`. -/
def BytesOf (bytes : Nat → UInt8) (i : Nat) (comps : List Name) : Prop :=
  ∀ k < (joinPath comps).length, bytes (i + k) = (joinPath comps).getD k 0

theorem joinPath_cons (more : rest ≠ []) : joinPath (c :: rest) = c ++ slash :: joinPath rest := by
  obtain ⟨next, rest, rfl⟩ := List.exists_cons_of_ne_nil more
  rfl

namespace BytesOf

variable {bytes : Nat → UInt8}

theorem head (holds : BytesOf bytes i (c :: rest)) : ∀ k < c.length, bytes (i + k) = c.getD k 0 := by
  intro k inside
  by_cases last : rest = []
  · subst last
    exact holds k inside
  · unfold BytesOf at holds
    rw [joinPath_cons last] at holds
    rw [holds k (by simp; omega), List.getD_append _ _ _ _ inside]

theorem tail (holds : BytesOf bytes i (c :: rest)) (more : rest ≠ []) :
    bytes (i + c.length) = slash ∧ BytesOf bytes (i + c.length + 1) rest := by
  unfold BytesOf at holds
  rw [joinPath_cons more] at holds
  constructor
  · rw [holds c.length (by simp), List.getD_append_right _ _ _ _ le_rfl, Nat.sub_self]
    rfl
  · intro k inside
    rw [show i + c.length + 1 + k = i + (c.length + 1 + k) by omega, holds _ (by simp; omega),
      List.getD_append_right _ _ _ _ (by omega), show c.length + 1 + k - c.length = k + 1 by omega]
    rfl

theorem nonzero (holds : BytesOf bytes i (c :: rest)) (ordinary : Ordinary c) : bytes i ≠ 0 := by
  obtain ⟨b, c, rfl⟩ := List.exists_cons_of_ne_nil ordinary.1
  have here : bytes i = b := holds.head 0 (by simp)
  rw [here]
  rintro rfl
  exact ordinary.2.2.2.2.2 (List.mem_cons_self ..)

end BytesOf

theorem length_joinPath_cons (more : rest ≠ []) : (joinPath (c :: rest)).length = c.length + 1 + (joinPath rest).length := by
  rw [joinPath_cons more]
  simp
  omega

/-- Where the copy has a `/` or a zero behind the last component and the loop ends there, it reads the components. -/
theorem Reads.join {last : Nat} (nonempty : comps ≠ []) (ordinary : ∀ c ∈ comps, Ordinary c)
    (original : ∀ k, BytesOf (path k) i comps) (copied : ∀ k, BytesOf (newPath k) i comps) (rounds : last + 1 = k + comps.length)
    (ends : newPath last (i + (joinPath comps).length) = slash ∨ newPath last (i + (joinPath comps).length) = 0)
    (behind : Reads path newPath (last + 1) (i + (joinPath comps).length + 1) []) : Reads path newPath k i comps := by
  induction comps generalizing k i with
  | nil => exact absurd rfl nonempty
  | cons c rest ih =>
    have here := ordinary c (List.mem_cons_self ..)
    have ⟨filled, _, _, _, noSlash, noZero⟩ := here
    rw [List.length_cons] at rounds
    by_cases final : rest = []
    · subst final
      obtain rfl : last = k := by simpa using rounds
      exact .name ((original last).nonzero here)
        (nameFrom_bytes (copied last).head noSlash noZero ends (Nat.lt_succ_self _)) filled behind
    · have separator := ((copied k).tail final).1
      have name := nameFrom_bytes (copied k).head noSlash noZero (.inl separator) (Nat.lt_succ_self _)
      refine .name ((original k).nonzero here) name filled (ih final
        (fun c inside => ordinary c (List.mem_cons_of_mem _ inside)) (fun k => ((original k).tail final).2)
        (fun k => ((copied k).tail final).2) (by omega) ?_ ?_)
      · rw [show i + c.length + 1 + (joinPath rest).length = i + (joinPath (c :: rest)).length by
          rw [length_joinPath_cons final]; omega]
        exact ends
      · rw [show i + c.length + 1 + (joinPath rest).length + 1 = i + (joinPath (c :: rest)).length + 1 by
          rw [length_joinPath_cons final]; omega]
        exact behind

/-- Where nothing behind the copy ends its last name, the loop does not end. -/
theorem not_reads (nonempty : comps ≠ []) (ordinary : ∀ c ∈ comps, Ordinary c) (original : ∀ k, BytesOf (path k) i comps)
    (copied : ∀ k, BytesOf (newPath k) i comps)
    (endless : ∀ round, ∀ k ≥ (joinPath comps).length, newPath round (i + k) ≠ slash ∧ newPath round (i + k) ≠ 0) :
    ¬ Reads path newPath k i names := by
  induction comps generalizing k i names with
  | nil => exact absurd rfl nonempty
  | cons c rest ih =>
    have here := ordinary c (List.mem_cons_self ..)
    have ⟨filled, _, _, _, noSlash, noZero⟩ := here
    have first : newPath k i ≠ slash ∧ newPath k i ≠ 0 := by
      obtain ⟨b, c, rfl⟩ := List.exists_cons_of_ne_nil filled
      have byte : newPath k i = b := (copied k).head 0 (by simp)
      rw [byte]
      constructor
      · rintro rfl
        exact noSlash (List.mem_cons_self ..)
      · rintro rfl
        exact noZero (List.mem_cons_self ..)
    intro reads
    cases reads with
    | done ends => exact (original k).nonzero here ends
    | empty _ stops => exact stops.elim first.1 first.2
    | @name _ _ bound c' rest' more found filled' behind =>
      by_cases last : rest = []
      · subst last
        -- The name would end at one of its own bytes or behind them.
        have stops := nameFrom_ends found
        by_cases inside : c'.length < c.length
        · rw [(copied k).head _ inside, List.getD_eq_getElem _ _ inside] at stops
          rcases stops with isSlash | isZero
          · exact noSlash (isSlash ▸ List.getElem_mem _)
          · exact noZero (isZero ▸ List.getElem_mem _)
        · obtain ⟨notSlash, notZero⟩ := endless k c'.length (by simpa [joinPath] using inside)
          exact stops.elim notSlash notZero
      · have separator := ((copied k).tail last).1
        have name := nameFrom_bytes (copied k).head noSlash noZero (.inl separator) (Nat.lt_succ_self _)
        obtain rfl := nameFrom_unique found name
        refine ih last (fun c inside => ordinary c (List.mem_cons_of_mem _ inside)) (fun k => ((original k).tail last).2)
          (fun k => ((copied k).tail last).2) (fun round k far => ?_) behind
        rw [show i + c'.length + 1 + k = i + (c'.length + 1 + k) by omega]
        exact endless round _ (by rw [length_joinPath_cons last]; omega)

/-- The bytes behind the strings end the loop where the last name ends; with a `/` behind it none of them is read. The last
name is read in round `comps.length - 1`, and the loop looks at what follows in the next. -/
def Benign (comps : List Name) (trailing : Bool) (beyond stale : Nat → Nat → UInt8) : Prop :=
  let n := 3 + (joinPath comps).length
  let rounds := comps.length
  trailing = true ∨ (stale (rounds - 1) n = slash ∨ stale (rounds - 1) n = 0) ∧
    (beyond rounds (n + 1) = 0 ∨ stale rounds (n + 1) = slash ∨ stale rounds (n + 1) = 0)

variable {letter : UInt8} {trailing : Bool} {beyond stale : Nat → Nat → UInt8}

theorem mkdirPath_getD {k : Nat} (inside : k < (joinPath comps).length) (other : UInt8) :
    (mkdirPath letter comps trailing).getD (3 + k) other = (joinPath comps).getD k 0 := by
  rw [show 3 + k = k + 1 + 1 + 1 by omega]
  unfold mkdirPath
  simp only [List.getD_cons_succ]
  rw [List.getD_append _ _ _ _ inside, List.getD_eq_getElem _ _ inside, List.getD_eq_getElem _ _ inside]

theorem mkdirPath_length : (mkdirPath letter comps trailing).length =
    3 + (joinPath comps).length + if trailing then 1 else 0 := by
  unfold mkdirPath
  cases trailing <;> simp <;> omega

theorem pathByte_bytesOf (round : Nat) : BytesOf (pathByte (mkdirPath letter comps trailing) (beyond round)) 3 comps := by
  intro k inside
  unfold pathByte
  rw [if_neg (by rw [mkdirPath_length]; omega), mkdirPath_getD inside]

theorem copyByte_bytesOf (round : Nat) : BytesOf (copyByte (mkdirPath letter comps trailing) (stale round)) 3 comps :=
  fun _ inside => mkdirPath_getD inside _

theorem Benign.reads (benign : Benign comps trailing beyond stale) (nonempty : comps ≠ []) (ordinary : ∀ c ∈ comps, Ordinary c) :
    Reads (fun k => pathByte (mkdirPath letter comps trailing) (beyond k))
      (fun k => copyByte (mkdirPath letter comps trailing) (stale k)) 0 3 comps := by
  have some : 0 < comps.length := List.length_pos_of_ne_nil nonempty
  have rounds : comps.length - 1 + 1 = 0 + comps.length := by omega
  refine .join nonempty ordinary pathByte_bytesOf copyByte_bytesOf rounds ?_ ?_
  · cases trailing with
    | true =>
      left
      unfold copyByte
      rw [show 3 + (joinPath comps).length = (joinPath comps).length + 1 + 1 + 1 by omega]
      simp [mkdirPath]
    | false =>
      have behind := (benign.resolve_left (by simp)).1
      unfold copyByte
      rw [List.getD_eq_default _ _ (by rw [mkdirPath_length]; simp)]
      exact behind
  · rw [Nat.sub_add_cancel some]
    cases trailing with
    | true =>
      refine .done ?_
      unfold pathByte
      rw [if_pos (by rw [mkdirPath_length]; simp)]
    | false =>
      have behind := (benign.resolve_left (by simp)).2
      have byte : pathByte (mkdirPath letter comps false) (beyond comps.length) (3 + (joinPath comps).length + 1) =
          beyond comps.length (3 + (joinPath comps).length + 1) := by
        unfold pathByte
        rw [if_neg (by rw [mkdirPath_length]; simp), List.getD_eq_default _ _ (by rw [mkdirPath_length]; simp)]
      by_cases ends : beyond comps.length (3 + (joinPath comps).length + 1) = 0
      · exact .done (byte.trans ends)
      · refine .empty (by rw [byte]; exact ends) ?_
        unfold copyByte
        rw [List.getD_eq_default _ _ (by rw [mkdirPath_length]; simp)]
        exact behind.resolve_left ends

end PotatOS.Fs
