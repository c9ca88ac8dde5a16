import MiniSql.Numeric.Power

/-!
# Binary64 numbers

A number of the binary64 format is `nan` or a sign with a *rank*. The rank counts the magnitudes of
the format from zero upwards: rank 0 is zero, rank 1 the least positive magnitude, and the last rank
is infinity. It is also the bit pattern of the magnitude, which is why `toBits` and `ofBits` are
little more than an addition.

Because ranks increase with magnitude, comparing two numbers is comparing two integers (`key`); a
negative zero and a positive zero share the key 0, and `nan` has no place in the order.
-/

namespace MiniSql

/-- The weight of the sign bit. -/
def Binary64.signBit : Nat := twoTo 63

/-- The rank of infinity: above it lie only the bit patterns that are no number. -/
def Binary64.infiniteRank : Nat := 2047 * twoTo 52

/-- A binary64 number. All patterns that are no number are the one value `nan`. -/
inductive Binary64
  /-- No number: unequal to everything and unordered. -/
  | nan
  /-- The magnitude of the given rank, with a sign. -/
  | number (negative : Bool) (rank : Nat) (rank_le : rank ≤ Binary64.infiniteRank)
  deriving DecidableEq

namespace Binary64

instance : Inhabited Binary64 := ⟨.nan⟩

/-- A sign and a rank; ranks beyond infinity are infinity. -/
def ofRank (negative : Bool) (rank : Nat) : Binary64 :=
  .number negative (min rank infiniteRank) (Nat.min_le_right ..)

/-- Reads the 64 bits: the sign bit, then 63 bits of magnitude. -/
def ofBits (bits : Nat) : Binary64 :=
  if h : bits % signBit ≤ infiniteRank then .number (bits / signBit % 2 == 1) (bits % signBit) h
  else .nan

/-- Writes the 64 bits; `nan` has one canonical pattern. -/
def toBits : Binary64 → Nat
  | .nan => 0x7ff8000000000000
  | .number negative rank _ => (if negative then signBit else 0) + rank

/-- A magnitude leaves the sign bit free. -/
theorem lt_signBit_of_le {rank : Nat} (h : rank ≤ infiniteRank) : rank < signBit :=
  Nat.lt_of_le_of_lt h (by decide)

theorem ofBits_toBits (x : Binary64) : ofBits x.toBits = x := by
  cases x with
  | nan => decide
  | number negative rank h =>
    have small := lt_signBit_of_le h
    have hmod : toBits (.number negative rank h) % signBit = rank := by
      cases negative
      · exact (congrArg (· % signBit) (Nat.zero_add rank)).trans (Nat.mod_eq_of_lt small)
      · exact (Nat.add_mod_left signBit rank).trans (Nat.mod_eq_of_lt small)
    have hdiv : (toBits (.number negative rank h) / signBit % 2 == 1) = negative := by
      cases negative
      · rw [toBits, if_neg Bool.false_ne_true, Nat.zero_add, Nat.div_eq_of_lt small]
        decide
      · rw [toBits, if_pos rfl, Nat.add_div_left _ (by decide), Nat.div_eq_of_lt small]
        decide
    rw [ofBits, dif_pos (hmod.symm ▸ h)]
    congr 1

/-! ## Order -/

/-- The place of a number on the line; `nan` has none. -/
def key? : Binary64 → Option Int
  | .nan => none
  | .number negative rank _ => some (if negative then -(rank : Int) else rank)

/-- Numeric equality: the two zeros are equal, and `nan` is not equal to itself. -/
def equals (a b : Binary64) : Bool :=
  match a.key?, b.key? with
  | some x, some y => x == y
  | _, _ => false

/-- Numeric order, absent when either side is `nan`. -/
def compare? (a b : Binary64) : Option Ordering :=
  match a.key?, b.key? with
  | some x, some y => some (compare x y)
  | _, _ => none

/-- Numbers are equal exactly if both have a key and it is the same; NaN has none. -/
theorem equals_iff {a b : Binary64} :
    a.equals b = true ↔ ∃ k, a.key? = some k ∧ b.key? = some k := by
  unfold equals
  split
  · next x y hx hy =>
    rw [hx, hy, beq_iff_eq]
    constructor
    · rintro rfl
      exact ⟨x, rfl, rfl⟩
    · rintro ⟨k, h1, h2⟩
      exact (Option.some.inj h1).trans (Option.some.inj h2).symm
  · next h =>
    constructor
    · nofun
    · rintro ⟨k, h1, h2⟩
      exact absurd h2 (h k k h1)

theorem compare?_eq_some_iff {a b : Binary64} {o : Ordering} :
    a.compare? b = some o ↔ ∃ x y, a.key? = some x ∧ b.key? = some y ∧ compare x y = o := by
  unfold compare?
  split
  · next x y hx hy =>
    rw [hx, hy, Option.some.injEq]
    constructor
    · intro h
      exact ⟨x, y, rfl, rfl, h⟩
    · rintro ⟨x', y', h1, h2, h⟩
      rw [Option.some.inj h1, Option.some.inj h2, h]
  · next hnone =>
    constructor
    · nofun
    · rintro ⟨x, y, h1, h2, -⟩
      exact absurd h2 (hnone x y h1)

end Binary64

end MiniSql
