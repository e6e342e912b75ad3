import Mathlib.Algebra.BigOperators.Group.List.Basic
import Mathlib.Data.Nat.Bitwise
import Mathlib.Order.Interval.Finset.Nat
import Mathlib.Tactic.Linarith
import Mathlib.Tactic.Ring

/-!
# Byte memories

A memory is a total function from addresses to bytes. Words are little endian,
`n` bytes at a time. Every write is described by the bytes it changes, so the
frame lemmas only compare address ranges.
-/

namespace PotatOS.Memory

abbrev Mem := Nat → UInt8

/-- `a` lies in the `n` bytes from `base`. -/
def InRange (base n a : Nat) : Prop := base ≤ a ∧ a < base + n

instance (base n a : Nat) : Decidable (InRange base n a) :=
  inferInstanceAs (Decidable (_ ∧ _))

/-- The two byte ranges share no address. -/
def Apart (a n b k : Nat) : Prop := a + n ≤ b ∨ b + k ≤ a ∨ n = 0 ∨ k = 0

theorem apart_comm {a n b k : Nat} : Apart a n b k ↔ Apart b k a n := by
  unfold Apart; omega

theorem not_inRange_of_apart {a n b k x : Nat} (apart : Apart a n b k)
    (inside : InRange a n x) : ¬ InRange b k x := by
  unfold Apart InRange at *; omega

theorem apart_of_forall {a n b k : Nat} (apart : ∀ x, InRange a n x → ¬ InRange b k x) :
    Apart a n b k := by
  have left := apart a
  have right := apart b
  unfold InRange at left right
  unfold Apart
  omega

/-- Ranges that lie apart take no more bytes than the room they lie in. -/
theorem sum_le_of_apart {α : Type} {l : List α} {start size : α → Nat} {room : Nat}
    (apart : l.Pairwise fun a b => Apart (start a) (size a) (start b) (size b))
    (fits : ∀ a ∈ l, start a + size a ≤ room) : (l.map size).sum ≤ room := by
  have covered : ∃ bytes : Finset Nat, bytes.card = (l.map size).sum ∧
      ∀ x, x ∈ bytes ↔ ∃ a ∈ l, InRange (start a) (size a) x := by
    clear fits
    induction l with
    | nil => exact ⟨∅, by simp⟩
    | cons a rest ih =>
      obtain ⟨first, others⟩ := List.pairwise_cons.mp apart
      obtain ⟨bytes, card, member⟩ := ih others
      refine ⟨Finset.Ico (start a) (start a + size a) ∪ bytes, ?_, fun x => ?_⟩
      · rw [Finset.card_union_of_disjoint, Nat.card_Ico, card, List.map_cons, List.sum_cons, Nat.add_sub_cancel_left]
        refine Finset.disjoint_left.mpr fun x here there => ?_
        obtain ⟨b, listed, inside⟩ := (member x).mp there
        exact not_inRange_of_apart (first b listed) (Finset.mem_Ico.mp here) inside
      · simp [member, InRange]
  obtain ⟨bytes, card, member⟩ := covered
  have below : bytes ⊆ Finset.range room := by
    intro x inside
    obtain ⟨a, listed, _, upper⟩ := (member x).mp inside
    exact Finset.mem_range.mpr (Nat.lt_of_lt_of_le upper (fits a listed))
  rw [← card, ← Finset.card_range room]
  exact Finset.card_le_card below

/-! ### Words -/

/-- The little-endian word of the `n` bytes from `a`. -/
def load (m : Mem) (a : Nat) : Nat → Nat
  | 0 => 0
  | n + 1 => (m a).toNat + 256 * load m (a + 1) n

/-- Write the low `n` bytes of `v` from `a`. -/
def store (m : Mem) (a n v : Nat) : Mem := fun x =>
  if InRange a n x then UInt8.ofNat (v / 256 ^ (x - a)) else m x

theorem load_congr {m m' : Mem} {a n : Nat} (same : ∀ x, InRange a n x → m x = m' x) :
    load m a n = load m' a n := by
  induction n generalizing a with
  | zero => rfl
  | succ n ih =>
    have head : m a = m' a := same a ⟨by omega, by omega⟩
    have tail : load m (a + 1) n = load m' (a + 1) n :=
      ih fun x inside => same x ⟨by have := inside.1; omega, by have := inside.2; omega⟩
    rw [load, load, head, tail]

theorem load_lt (m : Mem) (a n : Nat) : load m a n < 256 ^ n := by
  induction n generalizing a with
  | zero => simp [load]
  | succ n ih =>
    have head := (m a).toNat_lt
    have tail := ih (a + 1)
    rw [load, pow_succ]
    omega

/-- The last byte is the most significant one. -/
theorem load_succ_div (m : Mem) (a n : Nat) : load m a (n + 1) / 256 ^ n = (m (a + n)).toNat := by
  induction n generalizing a with
  | zero => simp [load]
  | succ n ih =>
    have head := (m a).toNat_lt
    have shifted : ((m a).toNat + 256 * load m (a + 1) (n + 1)) / 256 = load m (a + 1) (n + 1) := by omega
    rw [load, pow_succ', ← Nat.div_div_eq_div_mul, shifted, ih, Nat.add_assoc, Nat.add_comm 1]

theorem load_zero {m : Mem} {a n : Nat} (zero : ∀ x, InRange a n x → m x = 0) : load m a n = 0 := by
  induction n generalizing a with
  | zero => rfl
  | succ n ih =>
    have head : m a = 0 := zero a ⟨by omega, by omega⟩
    have tail : load m (a + 1) n = 0 :=
      ih fun x inside => zero x ⟨by have := inside.1; omega, by have := inside.2; omega⟩
    rw [load, head, tail]
    rfl

theorem store_inside {m : Mem} {a n v x : Nat} (inside : InRange a n x) :
    store m a n v x = UInt8.ofNat (v / 256 ^ (x - a)) := if_pos inside

theorem store_outside {m : Mem} {a n v x : Nat} (outside : ¬ InRange a n x) :
    store m a n v x = m x := if_neg outside

theorem load_store_self (m : Mem) (a n v : Nat) : load (store m a n v) a n = v % 256 ^ n := by
  induction n generalizing a v m with
  | zero => simp [load, Nat.mod_one]
  | succ n ih =>
    have head : store m a (n + 1) v a = UInt8.ofNat v := by
      rw [store_inside ⟨by omega, by omega⟩]; simp
    have tail : load (store m a (n + 1) v) (a + 1) n = load (store m (a + 1) n (v / 256)) (a + 1) n := by
      apply load_congr
      intro x inside
      have lower := inside.1
      have upper := inside.2
      rw [store_inside ⟨by omega, by omega⟩, store_inside inside]
      rw [show x - a = (x - (a + 1)) + 1 by omega, pow_succ, Nat.mul_comm, Nat.div_div_eq_div_mul]
    rw [load, head, tail, ih, UInt8.toNat_ofNat', pow_succ 256, Nat.mul_comm (256 ^ n), Nat.mod_mul]

theorem load_store_same {m : Mem} {a n v : Nat} (small : v < 256 ^ n) :
    load (store m a n v) a n = v := by
  rw [load_store_self, Nat.mod_eq_of_lt small]

theorem load_store_apart {m : Mem} {a n b k v : Nat} (apart : Apart a n b k) :
    load (store m b k v) a n = load m a n :=
  load_congr fun _ inside => store_outside (not_inRange_of_apart apart inside)

/-! ### Blocks -/

/-- `memset`. -/
def fill (m : Mem) (a n : Nat) (v : UInt8) : Mem := fun x => if InRange a n x then v else m x

theorem fill_inside {m : Mem} {a n x : Nat} {v : UInt8} (inside : InRange a n x) :
    fill m a n v x = v := if_pos inside

theorem fill_outside {m : Mem} {a n x : Nat} {v : UInt8} (outside : ¬ InRange a n x) :
    fill m a n v x = m x := if_neg outside

theorem load_fill_apart {m : Mem} {a n b k : Nat} {v : UInt8} (apart : Apart a n b k) :
    load (fill m b k v) a n = load m a n :=
  load_congr fun _ inside => fill_outside (not_inRange_of_apart apart inside)

/-- `rep movsb`: copy `n` bytes upwards, one at a time. -/
def copy (m : Mem) (dest source : Nat) : Nat → Mem
  | 0 => m
  | n + 1 => copy (store m dest 1 (m source).toNat) (dest + 1) (source + 1) n

theorem copy_outside {m : Mem} {dest source n x : Nat} (outside : ¬ InRange dest n x) :
    copy m dest source n x = m x := by
  induction n generalizing m dest source with
  | zero => rfl
  | succ n ih =>
    unfold InRange at outside
    rw [copy, ih (by unfold InRange; omega), store_outside (by unfold InRange; omega)]

/-- Between separate ranges the bytes arrive as they were. -/
theorem copy_inside {m : Mem} {dest source n i : Nat} (apart : Apart dest n source n) (inside : i < n) :
    copy m dest source n (dest + i) = m (source + i) := by
  induction n generalizing m dest source i with
  | zero => exact absurd inside (Nat.not_lt_zero i)
  | succ n ih =>
    unfold Apart at apart
    rw [copy]
    cases i with
    | zero =>
      rw [Nat.add_zero, copy_outside (by unfold InRange; omega), store_inside ⟨by omega, by omega⟩]
      simp
    | succ i =>
      have later : copy (store m dest 1 (m source).toNat) (dest + 1) (source + 1) n (dest + 1 + i) =
          store m dest 1 (m source).toNat (source + 1 + i) := ih (by unfold Apart; omega) (by omega)
      rw [show dest + (i + 1) = dest + 1 + i by omega, later, store_outside (by unfold InRange; omega),
        show source + (i + 1) = source + 1 + i by omega]

/-- A word within the copied bytes. -/
theorem load_copy_inside {m : Mem} {dest source n o k : Nat} (apart : Apart dest n source n) (inside : o + k ≤ n) :
    load (copy m dest source n) (dest + o) k = load m (source + o) k := by
  induction k generalizing o with
  | zero => rfl
  | succ k ih =>
    rw [load, load, copy_inside apart (by omega), Nat.add_assoc, Nat.add_assoc, ih (by omega)]

theorem load_copy_apart {m : Mem} {dest source n a k : Nat} (apart : Apart a k dest n) :
    load (copy m dest source n) a k = load m a k :=
  load_congr fun _ inside => copy_outside (not_inRange_of_apart apart inside)

theorem inRange_subset_iff {a n b k : Nat} :
    (∀ x, InRange a n x → InRange b k x) ↔ n = 0 ∨ b ≤ a ∧ a + n ≤ b + k := by
  constructor
  · intro sub
    rcases Nat.eq_zero_or_pos n with zero | some
    · exact .inl zero
    · have first := sub a ⟨by omega, by omega⟩
      have last := sub (a + n - 1) ⟨by omega, by omega⟩
      unfold InRange at *
      exact .inr (by omega)
  · intro bounds x inside
    unfold InRange at *
    omega

/-- Write a list of bytes from `a`. -/
def writeBytes (m : Mem) (a : Nat) (bytes : List UInt8) : Mem := fun x =>
  if InRange a bytes.length x then bytes.getD (x - a) 0 else m x

theorem writeBytes_outside {m : Mem} {a x : Nat} {bytes : List UInt8}
    (outside : ¬ InRange a bytes.length x) : writeBytes m a bytes x = m x := if_neg outside

theorem writeBytes_inside {m : Mem} {a x : Nat} {bytes : List UInt8}
    (inside : InRange a bytes.length x) : writeBytes m a bytes x = bytes.getD (x - a) 0 := if_pos inside

theorem writeBytes_byte (m : Mem) (a : Nat) (bytes : List UInt8) (x : Nat) :
    writeBytes m a bytes x = m x ∨ writeBytes m a bytes x ∈ bytes := by
  by_cases inside : InRange a bytes.length x
  · have bound : x - a < bytes.length := by
      unfold InRange at inside
      omega
    rw [writeBytes_inside inside, List.getD_eq_getElem _ _ bound]
    exact .inr (List.getElem_mem _)
  · exact .inl (writeBytes_outside inside)

end PotatOS.Memory
