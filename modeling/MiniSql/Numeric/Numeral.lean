import MiniSql.Numeric.Nearest

/-!
# Numerals

The written forms of a number: an optional sign, then either one of the words `inf`, `infinity` and
`nan` in any ASCII letter case, or decimal digits with an optional point and an optional exponent.
At least one digit stands on one side of the point, and at least one in an exponent. No blank and no
separator is allowed anywhere.

`Numeral.read?` answers the nearest binary64 number. An exponent's digits stop counting once its
size has reached 65536, far beyond the range of the format.
-/

namespace MiniSql.Numeral

/-- The value of one decimal digit. -/
def digitValue (c : Char) : Nat := c.toNat - '0'.toNat

/-- The number that a run of decimal digits writes. -/
def digitsValue (ds : List Char) : Nat := ds.foldl (fun n d => 10 * n + digitValue d) 0

/-- The size of an exponent: like `digitsValue`, except that it stays once it has reached 65536. -/
def exponentSize (ds : List Char) : Nat :=
  ds.foldl (fun n d => if n < 65536 then 10 * n + digitValue d else n) 0

/-- An optional sign: whether it is a minus, and what follows it. -/
def sign : List Char → Bool × List Char
  | '-' :: cs => (true, cs)
  | '+' :: cs => (false, cs)
  | cs => (false, cs)

/-- The fraction digits after a point, and what follows them; none where there is no point. -/
def fraction : List Char → List Char × List Char
  | '.' :: cs => (cs.takeWhile Char.isDigit, cs.dropWhile Char.isDigit)
  | cs => ([], cs)

/-- Reads an exponent that ends the numeral; the empty text is the exponent 0. -/
def exponent? : List Char → Option Int
  | [] => some 0
  | c :: cs =>
    if c = 'e' ∨ c = 'E' then
      let (negative, ds) := sign cs
      if ds ≠ [] ∧ ds.all Char.isDigit then
        some (if negative then -(exponentSize ds : Int) else exponentSize ds)
      else none
    else none

/-- Reads a numeral made of digits, its sign already taken. -/
def decimal? (negative : Bool) (cs : List Char) : Option Binary64 :=
  let whole := cs.takeWhile Char.isDigit
  let (part, rest) := fraction (cs.dropWhile Char.isDigit)
  if whole ++ part = [] then none
  else (exponent? rest).map fun exponent =>
    .ofDecimal negative (digitsValue (whole ++ part)) (exponent - part.length)

/-- The numbers that are written as words. -/
def word? (negative : Bool) (cs : List Char) : Option Binary64 :=
  let folded := cs.map Char.toLower
  if folded = "inf".toList ∨ folded = "infinity".toList then
    some (.ofRank negative Binary64.infiniteRank)
  else if folded = "nan".toList then some .nan
  else none

/-- Reads a numeral. -/
def read? (text : String) : Option Binary64 :=
  let (negative, cs) := sign text.toList
  (word? negative cs).or (decimal? negative cs)

end MiniSql.Numeral
