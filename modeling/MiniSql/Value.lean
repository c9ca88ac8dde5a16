import MiniSql.Row

/-!
# Values

What a part of a program evaluates to. A statement that selects gives rows, one that inserts gives
`null`; an expression gives a scalar, a name, an array, or a condition that is still to be tested
against rows.

A condition is `left op right`, its operator kept as text: extensions may build conditions with any
operator, also one that means nothing.
-/

namespace MiniSql

/-- What a part of a program evaluates to. -/
inductive Value
  /-- Nothing: an absent part, or the result of an insertion. -/
  | null
  | scalar (s : Scalar)
  /-- A bare name. -/
  | name (n : String)
  /-- Column names. -/
  | names (items : List String)
  | array (items : List Value)
  /-- A condition on rows. -/
  | condition (left : Value) (op : String) (right : Value)
  /-- The rows of a selection. -/
  | rows (items : List Row)

/-- A condition on rows: two values and an operator between them. -/
structure Condition where
  left : Value
  op : String
  right : Value

namespace Value

instance : Inhabited Value := ⟨.null⟩

/-- A condition as a value. -/
def ofCondition (c : Condition) : Value := .condition c.left c.op c.right

/-- The name of a value's kind; a scalar's is the name of its type. -/
def kind : Value → String
  | null => "null"
  | scalar s => s.typeName
  | name _ => "name"
  | names _ => "list"
  | array _ => "array"
  | condition .. => "condition"
  | rows _ => "rows"

/-- The value as something a row can hold. A bare name stands for its own text. -/
def toScalar? : Value → Option Scalar
  | scalar s => some s
  | name n => some (.text n)
  | _ => none

/-- The number of rows, if the value is rows. -/
def rowCount? : Value → Option Nat
  | rows items => some items.length
  | _ => none

mutual

/-- Equality of values, all the way down: scalars inside compare as `Scalar.equals` says. -/
def equals : Value → Value → Bool
  | null, null => true
  | scalar a, scalar b => a.equals b
  | name a, name b => a == b
  | names a, names b => a == b
  | array a, array b => equalsAll a b
  | condition l o r, condition l' o' r' => l.equals l' && o == o' && r.equals r'
  | rows a, rows b => a.isEqv b Row.equals
  | _, _ => false

/-- Equality of lists of values, place by place. -/
def equalsAll : List Value → List Value → Bool
  | [], [] => true
  | a :: as, b :: bs => a.equals b && equalsAll as bs
  | _, _ => false

end

mutual

/-- A value as it is shown. -/
def render : Value → String
  | null => "null"
  | scalar s => s.render
  | name n => n
  | names items => "[" ++ ", ".intercalate items ++ "]"
  | array items => "(" ++ ", ".intercalate (renderAll items) ++ ")"
  | condition l op r => "(" ++ l.render ++ " " ++ op ++ " " ++ r.render ++ ")"
  | rows items => "[" ++ ", ".intercalate (items.map Row.render) ++ "]"

/-- Each of a list of values as it is shown. -/
def renderAll : List Value → List String
  | [] => []
  | v :: vs => v.render :: renderAll vs

end

end Value

/-- A condition as it is shown. -/
def Condition.render (c : Condition) : String := (Value.ofCondition c).render

end MiniSql
