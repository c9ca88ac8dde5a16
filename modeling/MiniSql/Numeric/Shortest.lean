import MiniSql.Numeric.Nearest

/-!
# Shortest decimal text

A finite number is written with the fewest decimal digits that read back to it. For each count of
digits only two decimals come into question, the neighbours of the number on the grid of that many
leading digits; the first grid that holds one that reads back decides, of two the nearer one is
taken, and an exact middle goes up. The digits are laid out positionally, never with an exponent.

The search is exact arithmetic on natural numbers, and `Binary64.ofDecimal` is the reader that it
asks.
-/

namespace MiniSql

/-- A nonnegative decimal number `digits · 10 ^ exponent`. -/
structure Decimal where
  digits : Nat
  exponent : Int

namespace Decimal

/-- The character of a decimal digit. -/
def digitChar (d : Nat) : Char := Char.ofNat ('0'.toNat + d)

/-- The decimal digits of a natural number, most significant first; zero has the one digit `0`. -/
def digitsOf (n : Nat) : List Char :=
  if n < 10 then [digitChar n] else digitsOf (n / 10) ++ [digitChar (n % 10)]
termination_by n

/-- Writes a decimal number positionally: a point only where there are fraction digits, and then at
least one digit before it. -/
def layout (x : Decimal) : List Char :=
  if x.exponent < 0 then
    let places := x.exponent.natAbs
    let ds := digitsOf x.digits
    let padded := List.replicate (places + 1 - ds.length) '0' ++ ds
    padded.take (padded.length - places) ++ '.' :: padded.drop (padded.length - places)
  else digitsOf (x.digits * tenTo x.exponent.natAbs)

/-- Writes an integer. -/
def ofInt (n : Int) : List Char :=
  if n < 0 then '-' :: digitsOf n.natAbs else digitsOf n.natAbs

end Decimal

namespace Binary64

/-- The scale of the search grid: every positive magnitude has at least 17 whole digits once
multiplied by this power of ten. -/
def gridExponent : Nat := 350

/-- The decimal after `digits` on a grid of `count` digits. A carry into the next power of ten is
written with one digit less, so that no decimal ends in a needless zero. -/
def nextDecimal (count digits : Nat) (exponent : Int) : Decimal :=
  if digits + 1 = tenTo count then ⟨tenTo (count - 1), exponent + 1⟩ else ⟨digits + 1, exponent⟩

/-- A decimal reads back to a magnitude. -/
def readsBack (rank : Nat) (x : Decimal) : Bool :=
  ofDecimal false x.digits x.exponent == ofRank false rank

/-- Of the two decimals with `count` significant digits around a magnitude, the one that reads back
to it, if any; of two the nearer, and the upper one in the exact middle. -/
def candidate? (rank count : Nat) : Option Decimal :=
  let scaled := units rank * tenTo gridExponent
  let whole := scaled / twoTo 1074
  let dropped := (Decimal.digitsOf whole).length - count
  let exponent : Int := (dropped : Int) - gridExponent
  let lower : Decimal := ⟨whole / tenTo dropped, exponent⟩
  let upper := nextDecimal count lower.digits exponent
  let lowerNearer := 2 * scaled < (2 * lower.digits + 1) * tenTo dropped * twoTo 1074
  if readsBack rank lower ∧ (lowerNearer ∨ ¬ readsBack rank upper) then some lower
  else if readsBack rank upper then some upper
  else none

/-- The exact decimal value of a magnitude. -/
def exactDecimal (rank : Nat) : Decimal := ⟨units rank * fiveTo 1074, -1074⟩

/-- The shortest decimal that reads back to a magnitude: seventeen digits always suffice. -/
def shortest (rank : Nat) : Decimal :=
  if rank = 0 then ⟨0, 0⟩
  else ((List.range 17).findSome? fun i => candidate? rank (i + 1)).getD (exactDecimal rank)

/-- The text of a number. A negative zero is written `-0`. -/
def render : Binary64 → String
  | .nan => "NaN"
  | .number negative rank _ =>
    let magnitude := if rank = infiniteRank then "inf".toList else (shortest rank).layout
    String.ofList (if negative then '-' :: magnitude else magnitude)

end Binary64

end MiniSql
