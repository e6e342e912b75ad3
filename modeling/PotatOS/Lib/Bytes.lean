import PotatOS.Lib.Memory

/-!
# Stretches of memory as lists of bytes

`splice` is a write into a list. `encodeFields` and `parseFields` are a format of
labels, each with a little-endian word behind it.
-/

namespace PotatOS.Memory

instance (a n b k : Nat) : Decidable (Apart a n b k) :=
  inferInstanceAs (Decidable (_ ∨ _))

/-- The `n` bytes from `a`. -/
def bytesAt (m : Mem) (a n : Nat) : List UInt8 := (List.range n).map fun i => m (a + i)

section bytesAt

variable {m m' : Mem} {a b n k o : Nat}

@[simp] theorem length_bytesAt (m : Mem) (a n : Nat) : (bytesAt m a n).length = n := by simp [bytesAt]

theorem getElem?_bytesAt (m : Mem) (a n i : Nat) : (bytesAt m a n)[i]? = if i < n then some (m (a + i)) else none := by
  unfold bytesAt
  rw [List.getElem?_map]
  split
  next inside => simp [inside]
  next outside => simp [outside]

theorem bytesAt_congr (same : ∀ i < n, m (a + i) = m' (b + i)) : bytesAt m a n = bytesAt m' b n := by
  unfold bytesAt
  exact List.map_congr_left fun i member => same i (List.mem_range.mp member)

theorem take_bytesAt (fits : k ≤ n) : (bytesAt m a n).take k = bytesAt m a k := by
  unfold bytesAt
  rw [← List.map_take, List.take_range, Nat.min_eq_left fits]

theorem bytesAt_copy {source : Nat} (apart : Apart a n source n) : bytesAt (copy m a source n) a n = bytesAt m source n :=
  bytesAt_congr fun _ inside => copy_inside apart inside

theorem bytesAt_apart (same : ∀ x, ¬ InRange b k x → m' x = m x) (apart : Apart a n b k) :
    bytesAt m' a n = bytesAt m a n := by
  refine bytesAt_congr fun i inside => same _ (not_inRange_of_apart apart ?_)
  unfold InRange
  omega

theorem bytesAt_writeBytes (m : Mem) (a : Nat) (bytes : List UInt8) : bytesAt (writeBytes m a bytes) a bytes.length = bytes := by
  apply List.ext_getElem?
  intro i
  rw [getElem?_bytesAt]
  split
  next inside =>
    rw [writeBytes_inside (by unfold InRange; omega), Nat.add_sub_cancel_left, List.getElem?_eq_getElem inside,
      List.getD_eq_getElem _ _ inside]
  next outside => rw [List.getElem?_eq_none (by omega)]

theorem writeBytes_bytesAt (m m' : Mem) (a n x : Nat) :
    writeBytes m a (bytesAt m' a n) x = if InRange a n x then m' x else m x := by
  split
  next inside =>
    obtain ⟨i, less, rfl⟩ : ∃ i < n, x = a + i :=
      ⟨x - a, by unfold InRange at inside; omega, by unfold InRange at inside; omega⟩
    rw [writeBytes_inside (by rwa [length_bytesAt]), Nat.add_sub_cancel_left, List.getD_eq_getElem?_getD, getElem?_bytesAt,
      if_pos less]
    rfl
  next outside => rw [writeBytes_outside (by rwa [length_bytesAt])]

theorem bytesAt_append (m : Mem) (a n k : Nat) : bytesAt m a (n + k) = bytesAt m a n ++ bytesAt m (a + n) k := by
  unfold bytesAt
  rw [List.range_add, List.map_append, List.map_map]
  simp [Function.comp_def, Nat.add_assoc]

end bytesAt

/-! ### Writes into a list -/

section splice

variable {α : Type} {l new : List α} {o : Nat}

/-- The list with `new` from `o` on. -/
def splice (l : List α) (o : Nat) (new : List α) : List α := l.take o ++ new ++ l.drop (o + new.length)

theorem getElem?_splice (fits : o + new.length ≤ l.length) (i : Nat) :
    (splice l o new)[i]? = if o ≤ i ∧ i < o + new.length then new[i - o]? else l[i]? := by
  have front : (l.take o).length = o := by simp; omega
  unfold splice
  rcases Nat.lt_or_ge i o with before | from_
  · rw [if_neg (by omega), List.append_assoc, List.getElem?_append_left (by omega), List.getElem?_take, if_pos before]
  · rcases Nat.lt_or_ge i (o + new.length) with inside | behind
    · rw [if_pos ⟨from_, inside⟩, List.getElem?_append_left (by simp; omega), List.getElem?_append_right (by omega), front]
    · rw [if_neg (by omega), List.getElem?_append_right (by simp; omega), List.getElem?_drop]
      congr 1
      simp
      omega

/-- A memory that differs within a part of the stretch. -/
theorem bytesAt_splice {m m' : Mem} {a n k : Nat} (same : ∀ x, ¬ InRange (a + o) k x → m' x = m x) (fits : o + k ≤ n) :
    bytesAt m' a n = splice (bytesAt m a n) o (bytesAt m' (a + o) k) := by
  apply List.ext_getElem?
  intro i
  rw [getElem?_splice (by simpa using fits)]
  simp only [getElem?_bytesAt, length_bytesAt]
  split_ifs with inside within within' within''
  · rw [show a + o + (i - o) = a + i by omega]
  · omega
  · rw [same _ (by unfold InRange; omega)]
  · omega
  · rfl
  · rfl

end splice

/-! ### Words and fields -/

/-- The `n` bytes of `v`, the lowest one first. -/
def word (n v : Nat) : List UInt8 := (List.range n).map fun i => UInt8.ofNat (v / 256 ^ i)

def readWord (bytes : List UInt8) : Nat := bytes.foldr (fun b rest => b.toNat + 256 * rest) 0

section fields

variable {n v : Nat}

@[simp] theorem length_word (n v : Nat) : (word n v).length = n := by simp [word]

theorem readWord_bytesAt (m : Mem) (a n : Nat) : readWord (bytesAt m a n) = load m a n := by
  induction n generalizing a with
  | zero => rfl
  | succ n ih =>
    rw [Nat.add_comm n 1, bytesAt_append, Nat.add_comm 1 n, load, ← ih]
    rfl

theorem bytesAt_store (m : Mem) (a n v : Nat) : bytesAt (store m a n v) a n = word n v := by
  unfold bytesAt word
  refine List.map_congr_left fun i member => ?_
  have inside := List.mem_range.mp member
  rw [store_inside (by unfold InRange; omega), Nat.add_sub_cancel_left]

theorem readWord_word (small : v < 256 ^ n) : readWord (word n v) = v := by
  rw [← bytesAt_store (fun _ => 0) 0, readWord_bytesAt, load_store_same small]

def encodeFields (n : Nat) (fields : List (List UInt8 × Nat)) : List UInt8 := fields.flatMap fun f => f.1 ++ word n f.2

/-- The words behind the labels, if they are all there. -/
def parseFields (n : Nat) : List (List UInt8) → List UInt8 → Option (List Nat)
  | [], _ => some []
  | label :: labels, bytes =>
    if label <+: bytes ∧ label.length + n ≤ bytes.length then
      (parseFields n labels (bytes.drop (label.length + n))).map (readWord ((bytes.drop label.length).take n) :: ·)
    else none

/-- A parse needs all the bytes of the fields. -/
theorem parseFields_short {labels : List (List UInt8)} {bytes : List UInt8}
    (short : bytes.length < (labels.map fun label => label.length + n).sum) : parseFields n labels bytes = none := by
  induction labels generalizing bytes with
  | nil => simp at short
  | cons label labels ih =>
    rw [List.map_cons, List.sum_cons] at short
    unfold parseFields
    split
    next front =>
      rw [ih (by rw [List.length_drop]; omega)]
      rfl
    next => rfl

theorem parseFields_encode {fields : List (List UInt8 × Nat)} (small : ∀ f ∈ fields, f.2 < 256 ^ n) (rest : List UInt8) :
    parseFields n (fields.map Prod.fst) (encodeFields n fields ++ rest) = some (fields.map Prod.snd) := by
  induction fields with
  | nil => rfl
  | cons f fields ih =>
    have bytes : encodeFields n (f :: fields) ++ rest = f.1 ++ (word n f.2 ++ (encodeFields n fields ++ rest)) := by
      simp [encodeFields, List.append_assoc]
    have behind : (f.1 ++ (word n f.2 ++ (encodeFields n fields ++ rest))).drop (f.1.length + n) =
        encodeFields n fields ++ rest := by
      rw [← List.append_assoc]
      exact List.drop_left' (by simp)
    rw [bytes, List.map_cons, List.map_cons]
    unfold parseFields
    rw [if_pos ⟨List.prefix_append _ _, by simp⟩, behind, ih fun f' member => small f' (List.mem_cons_of_mem _ member),
      List.drop_left, List.take_left' (length_word n f.2), readWord_word (small f List.mem_cons_self)]
    rfl

end fields

end PotatOS.Memory
