import MiniSql.Numeric.Binary64

/-!
# Rounding to the nearest magnitude

Every magnitude of the format is a whole number of *units* of 2⁻¹⁰⁷⁴, the least positive one.
`units` gives that number for a rank, `floorRank` the last rank that does not exceed a number of
units, and `roundUnits` the rank nearest to a quotient: of the two ranks around it the nearer one
wins, and the exact middle goes to the even rank. The magnitude above the greatest finite one is
infinity, at the place where the next power of two would stand.

All of it is exact arithmetic on natural numbers.
-/

namespace MiniSql.Binary64

/-- How often the unit has been doubled at a rank: once per power of two from 2⁻¹⁰²¹ on. -/
def scale (rank : Nat) : Nat := rank / twoTo 52 - 1

/-- The magnitude of a rank in units of 2⁻¹⁰⁷⁴. -/
def units (rank : Nat) : Nat := (rank - scale rank * twoTo 52) * twoTo (scale rank)

/-- The last rank whose magnitude is at most the given number of units. -/
def floorRank (amount : Nat) : Nat :=
  let scale := amount.log2 - 52
  scale * twoTo 52 + amount / twoTo scale

/-- The rank nearest to `amount / den` units, a middle going to the even rank. -/
def roundUnits (amount den : Nat) : Nat :=
  let below := floorRank (amount / den)
  let middle := (units below + units (below + 1)) * den
  if 2 * amount < middle ∨ 2 * amount = middle ∧ below % 2 = 0 then below else below + 1

/-- The rank nearest to `num / den`. -/
def nearestRank (num den : Nat) : Nat := roundUnits (num * twoTo 1074) den

/-- The number nearest to `± num / den`. -/
def ofRatio (negative : Bool) (num den : Nat) : Binary64 :=
  ofRank negative (nearestRank num den)

/-- The number nearest to `± digits · 10 ^ exponent`. -/
def ofDecimal (negative : Bool) (digits : Nat) (exponent : Int) : Binary64 :=
  if exponent < 0 then ofRatio negative digits (tenTo exponent.natAbs)
  else ofRatio negative (digits * tenTo exponent.natAbs) 1

/-- The number nearest to an integer. -/
def ofInt (n : Int) : Binary64 := ofRatio (decide (n < 0)) n.natAbs 1

/-- The integer that a number is, if it is one. Both zeros are 0. -/
def integer? : Binary64 → Option Int
  | .nan => none
  | .number negative rank _ =>
    if units rank % twoTo 1074 = 0 then
      let size := units rank / twoTo 1074
      some (if negative then -(size : Int) else size)
    else none

theorem units_zero : units 0 = 0 := by decide

end MiniSql.Binary64
