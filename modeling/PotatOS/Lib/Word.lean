import Mathlib.Data.Nat.Bitwise
import Mathlib.Tactic.Ring

/-!
# 64-bit arithmetic on natural numbers

Values of `uint64_t` are natural numbers below `2 ^ 64`. These are the
operations that wrap; where a result cannot wrap, the code's `+` and `-` are
those of `Nat`.
-/

namespace PotatOS

def add64 (a b : Nat) : Nat := (a + b) % 2 ^ 64

def sub64 (a b : Nat) : Nat := if b ≤ a then a - b else 2 ^ 64 - (b - a)

theorem add64_of_lt {a b : Nat} (small : a + b < 2 ^ 64) : add64 a b = a + b :=
  Nat.mod_eq_of_lt small

theorem sub64_of_le {a b : Nat} (le : b ≤ a) : sub64 a b = a - b := if_pos le

theorem add64_lt (a b : Nat) : add64 a b < 2 ^ 64 := Nat.mod_lt _ (by decide)

end PotatOS
