import MiniSql.Numeric.Shortest
import MiniSql.Text.Quoted

/-!
# Scalars

A scalar is a number, a text or a Boolean: what a row holds and a condition compares. Comparing is
strict. Scalars of different types are never equal and never ordered, and `nan` is neither equal to
nor ordered with anything. Numbers compare by value, texts by code points, and `false` is below
`true`.
-/

namespace MiniSql

/-- A literal value. -/
inductive Scalar
  | number (value : Binary64)
  | text (value : String)
  | boolean (value : Bool)
  deriving DecidableEq

namespace Scalar

/-- The name of a scalar's type. -/
def typeName : Scalar → String
  | number _ => "number"
  | text _ => "string"
  | boolean _ => "boolean"

/-- Equality of values. It is not identity: the two zeros are equal, and `nan` is unequal to
itself. -/
def equals : Scalar → Scalar → Bool
  | number a, number b => a.equals b
  | text a, text b => a == b
  | boolean a, boolean b => a == b
  | _, _ => false

/-- Order within one type. -/
def compare? : Scalar → Scalar → Option Ordering
  | number a, number b => a.compare? b
  | text a, text b => some (compare a b)
  | boolean a, boolean b => some (compare a b)
  | _, _ => none

/-- A number as it is written in a program. Integers below 10¹⁵ have a format of their own, in which
both zeros are `0`. -/
def renderNumber (x : Binary64) : String :=
  match x.integer? with
  | some n => if n.natAbs < tenTo 15 then String.ofList (Decimal.ofInt n) else x.render
  | none => x.render

/-- A scalar as it is written in a program: texts stand in single quotes. -/
def render : Scalar → String
  | number x => renderNumber x
  | text s => String.ofList (Text.quote '\'' s.toList)
  | boolean true => "TRUE"
  | boolean false => "FALSE"

end Scalar

/-! ## Comparisons -/

/-- The six comparisons. -/
inductive Comparison
  | equal | unequal | less | lessEqual | greater | greaterEqual
  deriving DecidableEq

namespace Comparison

/-- The comparison that an operator text names. -/
def ofText? : String → Option Comparison
  | "=" => some .equal
  | "!=" => some .unequal
  | "<" => some .less
  | "<=" => some .lessEqual
  | ">" => some .greater
  | ">=" => some .greaterEqual
  | _ => none

/-- A comparison of two scalars. -/
def holds (c : Comparison) (a b : Scalar) : Bool :=
  match c with
  | equal => a.equals b
  | unequal => !a.equals b
  | less => (a.compare? b).any (·.isLT)
  | lessEqual => (a.compare? b).any (·.isLE)
  | greater => (a.compare? b).any (·.isGT)
  | greaterEqual => (a.compare? b).any (·.isGE)

/-- A comparison with a side that may be absent. What is absent is unequal to everything. -/
def holds? (c : Comparison) : Option Scalar → Option Scalar → Bool
  | some a, some b => c.holds a b
  | _, _ => c == unequal

end Comparison

end MiniSql
