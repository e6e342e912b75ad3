import PotatOS.Fs.TempFs

/-!
# C strings

A string ends at the first zero from its address on. Some of the lengths are
kept in an `int`.
-/

namespace PotatOS.Fs

open Memory

/-- The value of an `int`, which has 32 bits. -/
def wrap32 (n : Int) : Int := n.bmod (2 ^ 32)

theorem wrap32_of_small {n : Int} (low : -2 ^ 31 ≤ n) (high : n < 2 ^ 31) : wrap32 n = n :=
  Int.bmod_eq_of_le_mul_two (by omega) (by omega)

/-- The string at `a`, when its terminator is among the next bytes. -/
def cString (m : Mem) (a : Nat) : Nat → Option Name
  | 0 => none
  | n + 1 => if m a = 0 then some [] else (cString m (a + 1) n).map (m a :: ·)

theorem cString_run {m : Mem} {a n : Nat} {name : Name} (bytes : ∀ i (h : i < name.length), m (a + i) = name[i])
    (terminator : m (a + name.length) = 0) (noNul : 0 ∉ name) (room : name.length < n) :
    cString m a n = some name := by
  induction name generalizing a n with
  | nil =>
    obtain ⟨n, rfl⟩ := Nat.exists_eq_succ_of_ne_zero (show n ≠ 0 by omega)
    exact if_pos terminator
  | cons b rest ih =>
    obtain ⟨n, rfl⟩ := Nat.exists_eq_succ_of_ne_zero (show n ≠ 0 by omega)
    have first : m a = b := bytes 0 (Nat.zero_lt_succ _)
    have nonzero : b ≠ 0 := fun zero => noNul (zero ▸ List.mem_cons_self ..)
    have later : cString m (a + 1) n = some rest := by
      apply ih
      · intro i h
        have byte := bytes (i + 1) (Nat.succ_lt_succ h)
        rw [show a + 1 + i = a + (i + 1) by omega]
        exact byte
      · rw [show a + 1 + rest.length = a + (rest.length + 1) by omega]
        exact terminator
      · exact fun inside => noNul (List.mem_cons_of_mem b inside)
      · simp only [List.length_cons] at room
        omega
    rw [cString, first, if_neg nonzero, later]
    rfl

end PotatOS.Fs
