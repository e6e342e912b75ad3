import Mathlib.Data.List.Induction

/-!
# Local arrays

A `char` array on the stack: a byte that was never written is `none`. An access
outside the array and a read of an unwritten byte have no defined result.
-/

namespace PotatOS

/-- Why a computation on strings has no defined result. -/
inductive Undefined where
  | outOfBounds
  | uninitialised
  /-- A string without a terminator. -/
  | unterminated
  deriving DecidableEq, Repr

abbrev Local := List (Option UInt8)

namespace Local

@[simp] theorem ok_bind {α β : Type} (a : α) (f : α → Except Undefined β) : (Except.ok a >>= f) = f a := rfl

@[simp] theorem error_bind {α β : Type} (e : Undefined) (f : α → Except Undefined β) :
    (Except.error e >>= f) = .error e := rfl

/-- `char str[n];` -/
def new (n : Nat) : Local := List.replicate n none

/-- The array that holds `bytes`. -/
def bytes (l : List UInt8) : Local := l.map some

@[simp] theorem length_new (n : Nat) : (new n).length = n := List.length_replicate

@[simp] theorem length_bytes (l : List UInt8) : (bytes l).length = l.length := List.length_map _

@[simp] theorem bytes_nil : bytes [] = [] := rfl

@[simp] theorem bytes_cons (b : UInt8) (l : List UInt8) : bytes (b :: l) = some b :: bytes l := rfl

@[simp] theorem bytes_append (l l' : List UInt8) : bytes (l ++ l') = bytes l ++ bytes l' := List.map_append

@[simp] theorem bytes_reverse (l : List UInt8) : bytes l.reverse = (bytes l).reverse := List.map_reverse

/-- `str[i] = v` -/
def put (str : Local) (i : Nat) (v : UInt8) : Except Undefined Local :=
  if i < str.length then .ok (str.set i (some v)) else .error .outOfBounds

/-- `str[i]` -/
def peek (str : Local) (i : Nat) : Except Undefined UInt8 :=
  match str[i]? with
  | none => .error .outOfBounds
  | some none => .error .uninitialised
  | some (some b) => .ok b

theorem put_inside {str : Local} {i : Nat} {v : UInt8} (inside : i < str.length) :
    put str i v = .ok (str.set i (some v)) := if_pos inside

theorem put_outside {str : Local} {i : Nat} {v : UInt8} (outside : str.length ≤ i) :
    put str i v = .error .outOfBounds := if_neg (by omega)

theorem put_append (pre : Local) (x : Option UInt8) (post : Local) {i : Nat} (v : UInt8) (at_ : i = pre.length) :
    put (pre ++ x :: post) i v = .ok (pre ++ some v :: post) := by
  subst at_
  rw [put_inside (by simp), List.set_append_right _ _ (Nat.le_refl _), Nat.sub_self, List.set_cons_zero]

theorem peek_append (pre : Local) (b : UInt8) (post : Local) {i : Nat} (at_ : i = pre.length) :
    peek (pre ++ some b :: post) i = .ok b := by
  subst at_
  simp [peek]

/-! ### Strings -/

/-- The bytes before the terminator. -/
def text : Local → Except Undefined (List UInt8)
  | [] => .error .outOfBounds
  | none :: _ => .error .uninitialised
  | some b :: rest => if b = 0 then .ok [] else do return b :: (← text rest)

theorem text_bytes {l : List UInt8} (rest : Local) (noNul : 0 ∉ l) : text (bytes l ++ some 0 :: rest) = .ok l := by
  induction l with
  | nil => rfl
  | cons b l ih =>
    obtain ⟨nonzero, noNul⟩ := not_or.mp (mt List.mem_cons.mpr noNul)
    rw [bytes_cons, List.cons_append, text, if_neg (Ne.symm nonzero), ih noNul]
    rfl

/-- A terminator that is written behind the string leaves the string. -/
theorem text_put {l : List UInt8} {rest : Local} {i : Nat} (noNul : 0 ∉ l) (behind : l.length ≤ i)
    (inside : i < l.length + 1 + rest.length) :
    ∃ str, put (bytes l ++ some 0 :: rest) i 0 = .ok str ∧ text str = .ok l := by
  refine ⟨_, put_inside (by simp; omega), ?_⟩
  rw [List.set_append_right _ _ (by simpa using behind)]
  cases later : i - (bytes l).length with
  | zero => exact text_bytes rest noNul
  | succ j => exact text_bytes _ noNul

/-! ### Copying and reversing -/

/-- `memcpy(str + i, l, …)` -/
def write (str : Local) (i : Nat) : List UInt8 → Except Undefined Local
  | [] => .ok str
  | b :: rest => do write (← put str i b) (i + 1) rest

theorem write_inside {str : Local} {i : Nat} {l : List UInt8} (room : i + l.length ≤ str.length) :
    write str i l = .ok (str.take i ++ bytes l ++ str.drop (i + l.length)) := by
  induction l generalizing str i with
  | nil => simp [write]
  | cons b rest ih =>
    rw [List.length_cons] at room
    have next : write (str.set i (some b)) (i + 1) rest = _ := ih (by simp; omega)
    have first : (str.set i (some b)).take (i + 1) = str.take i ++ [some b] := by
      rw [List.take_add_one, List.take_set_of_le (Nat.le_refl _), List.getElem?_set_self (by omega)]
      rfl
    rw [write, put_inside (by omega), ok_bind, next, first, List.drop_set_of_lt (by omega)]
    simp [show i + 1 + rest.length = i + (rest.length + 1) by omega]

/-- `for (; …; i++) dest[i] = source[i];`, `n` rounds. -/
def copyFrom (source : Local) : Nat → Nat → Local → Except Undefined Local
  | 0, _, dest => .ok dest
  | n + 1, i, dest => do copyFrom source n (i + 1) (← put dest i (← peek source i))

theorem copyFrom_run (before l : List UInt8) (rest dest : Local) {i : Nat} (at_ : i = before.length)
    (room : l.length ≤ dest.length) :
    copyFrom (bytes (before ++ l) ++ rest) l.length i (bytes before ++ dest) =
      .ok (bytes (before ++ l) ++ dest.drop l.length) := by
  induction l generalizing before dest i with
  | nil => simp [copyFrom]
  | cons b l ih =>
    cases dest with
    | nil => exact absurd room (by simp)
    | cons x dest =>
      have source : bytes (before ++ b :: l) ++ rest = bytes before ++ some b :: (bytes l ++ rest) := by simp
      have next := ih (before ++ [b]) dest (i := i + 1) (by simp [at_]) (by simpa using room)
      rw [List.length_cons, copyFrom, source, peek_append _ _ _ (by simpa using at_), ok_bind,
        put_append _ _ _ _ (by simpa using at_), ok_bind]
      simpa using next

/-- `strcpy` of `l`, its terminator and what follows it. -/
theorem copyFrom_bytes (l : List UInt8) (rest dest : Local) (room : l.length ≤ dest.length) :
    copyFrom (bytes l ++ rest) l.length 0 dest = .ok (bytes l ++ dest.drop l.length) := by
  simpa using copyFrom_run [] l rest dest rfl room

/-- `while (start < end)` the bytes at both ends change places. -/
def swapFrom (str : Local) (start stop : Nat) : Except Undefined Local :=
  if start < stop then do
    let temp ← peek str start
    let str ← put str start (← peek str stop)
    let str ← put str stop temp
    swapFrom str (start + 1) (stop - 1)
  else .ok str
termination_by stop - start

theorem swapFrom_run (l : List UInt8) (before rest : Local) {start stop : Nat} (start_ : start = before.length)
    (stop_ : stop = before.length + l.length - 1) :
    swapFrom (before ++ bytes l ++ rest) start stop = .ok (before ++ bytes l.reverse ++ rest) := by
  induction l using List.bidirectionalRec generalizing before rest start stop with
  | nil => rw [swapFrom, if_neg (by simp at stop_; omega)]; simp
  | singleton a => rw [swapFrom, if_neg (by simp at stop_; omega)]; simp
  | cons_append a l b ih =>
    simp only [List.length_cons, List.length_append, List.length_nil] at stop_
    have apart : before ++ bytes (a :: (l ++ [b])) ++ rest = before ++ some a :: (bytes l ++ some b :: rest) := by simp
    have swapped : ∀ x : Option UInt8, before ++ x :: (bytes l ++ some b :: rest) =
        (before ++ x :: bytes l) ++ some b :: rest := fun x => by simp
    rw [swapFrom, if_pos (by omega), apart, peek_append _ _ _ start_, ok_bind, swapped,
      peek_append _ _ _ (by simp; omega), ok_bind, ← swapped, put_append _ _ _ _ start_, ok_bind, swapped,
      put_append _ _ _ _ (by simp; omega), ok_bind]
    have next : swapFrom ((before ++ [some b]) ++ bytes l ++ (some a :: rest)) (start + 1) (stop - 1) =
        .ok ((before ++ [some b]) ++ bytes l.reverse ++ (some a :: rest)) :=
      ih _ _ (by simp [start_]) (by simp; omega)
    simpa using next

end Local
end PotatOS
