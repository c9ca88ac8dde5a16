import MiniSql.Condition

/-!
# Backends

The evaluator holds no data. Every selection and every insertion is one request to a backend, which
answers from a state of its own and may change that state. A backend may also remark on what it did;
remarks are only for the log.

`DryRun` is a backend without data.
-/

namespace MiniSql

/-- Why a backend refuses a request. -/
inductive BackendError
  | tableNotFound (name : String)
  /-- A column listed by an insertion is not in the table. -/
  | columnNotFound (table column : String)
  /-- A column listed twice by an insertion. -/
  | duplicateColumn (column : String)
  /-- The number of target columns and the number of values differ. -/
  | arityMismatch (expected actual : Nat)
  /-- Any other failure, in the backend's words. -/
  | other (message : String)
  deriving DecidableEq

/-- An error as messages show it. -/
def BackendError.render : BackendError → String
  | tableNotFound name => s!"table \"{name}\" does not exist"
  | columnNotFound table column => s!"column \"{column}\" of table \"{table}\" does not exist"
  | duplicateColumn column => s!"column \"{column}\" specified more than once"
  | arityMismatch expected actual =>
    s!"value count does not match column count: expected {expected}, got {actual}"
  | other message => message

/-- A request for rows. No columns means every column; the condition restricts the rows, and of each
group only the first row is wanted. -/
structure Query where
  table : String
  columns : List String
  condition? : Option Condition
  groupBy? : Option (List String)

/-- A request to add one row. No columns means the table's own, in their order. -/
structure Insertion where
  table : String
  columns : List String
  values : List Scalar

/-- A request to a backend. -/
inductive Request
  | select (q : Query)
  | insert (i : Insertion)

namespace Request

/-- The table that a request is about. -/
def table : Request → String
  | select q => q.table
  | insert i => i.table

/-- A request as it is shown. -/
def render : Request → String
  | select q =>
    let columns := ", ".intercalate q.columns
    let condition := q.condition?.elim "-" Condition.render
    let groups := q.groupBy?.elim "-" fun keys => "[" ++ ", ".intercalate keys ++ "]"
    s!"select {q.table} [{columns}] where {condition} group {groups}"
  | insert i =>
    let columns := ", ".intercalate i.columns
    let values := ", ".intercalate (i.values.map Scalar.render)
    s!"insert {i.table} [{columns}] ({values})"

end Request

/-- What a backend in a state of type `σ` makes of a request. -/
structure Reply (σ α : Type) where
  answer : Except BackendError α
  state : σ
  remarks : List String

/-- A backend with states of type `σ`. -/
structure Backend (σ : Type) where
  select : Query → σ → Reply σ (List Row)
  insert : Insertion → σ → Reply σ Unit

/-! ## A backend without data -/

/-- Tables that refuse every request, each with its message. -/
structure DryRun where
  refusals : Entries String

/-- Selections answer no rows and insertions do nothing, but a refusing table fails with its
message. -/
def DryRun.backend : Backend DryRun where
  select q state := ⟨answer state q.table [], state, []⟩
  insert i state := ⟨answer state i.table (), state, []⟩
where
  /-- The given answer, unless the table refuses. -/
  answer {α : Type} (state : DryRun) (table : String) (a : α) : Except BackendError α :=
    match state.refusals.get? table with
    | some message => .error (.other message)
    | none => .ok a

end MiniSql
