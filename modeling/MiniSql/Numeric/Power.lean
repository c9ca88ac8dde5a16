/-!
# Powers of two, five and ten

Binary magnitudes are counted in powers of two and decimal digits in powers of ten; a power of five
turns one into the other.
-/

namespace MiniSql

/-- A power of two. -/
def twoTo (n : Nat) : Nat := Nat.pow 2 n

/-- A power of five. -/
def fiveTo (n : Nat) : Nat := Nat.pow 5 n

/-- A power of ten. -/
def tenTo (n : Nat) : Nat := Nat.pow 10 n

theorem twoTo_zero : twoTo 0 = 1 := rfl

theorem twoTo_succ (n : Nat) : twoTo (n + 1) = twoTo n * 2 := rfl

theorem tenTo_zero : tenTo 0 = 1 := rfl

theorem twoTo_add (m n : Nat) : twoTo (m + n) = twoTo m * twoTo n := Nat.pow_add 2 m n

theorem fiveTo_mul_twoTo (n : Nat) : fiveTo n * twoTo n = tenTo n := (Nat.mul_pow 5 2 n).symm

theorem twoTo_pos (n : Nat) : 0 < twoTo n := Nat.pow_pos (by decide)

theorem tenTo_pos (n : Nat) : 0 < tenTo n := Nat.pow_pos (by decide)

end MiniSql
