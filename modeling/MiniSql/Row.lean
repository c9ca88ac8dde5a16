import MiniSql.Entries
import MiniSql.Scalar

/-!
# Rows

A row maps column names to scalars and keeps the columns in order. Setting a column keeps its place
if the row has it, and puts it last if not, so a row built by `set` names no column twice
(`nodup_names_ofList`). Only a projection that asks for a column twice makes a row that holds it
twice; reading finds the first.
-/

namespace MiniSql

/-- A row: columns in order, each with its value. -/
structure Row where
  entries : Entries Scalar
  deriving DecidableEq

namespace Row

/-- The row without columns. -/
def empty : Row := ⟨[]⟩

/-- The column names, in order. -/
def names (row : Row) : List String := row.entries.names

/-- The value of a column, if the row has it. -/
def get? (row : Row) (column : String) : Option Scalar := row.entries.get? column

/-- Gives a column a value. -/
def set (row : Row) (column : String) (value : Scalar) : Row := ⟨row.entries.set column value⟩

/-- The row that setting the given columns one after another makes. -/
def ofList (entries : List (String × Scalar)) : Row :=
  entries.foldl (fun row entry => row.set entry.1 entry.2) empty

/-- The requested columns that the row has, in the order of the request. -/
def project (row : Row) (columns : List String) : Row :=
  ⟨columns.filterMap fun column => (row.get? column).map (column, ·)⟩

/-- Rows are equal if they hold equal values for the same columns in the same order. -/
def equals (a b : Row) : Bool :=
  a.entries.isEqv b.entries fun x y => x.1 == y.1 && x.2.equals y.2

/-- A row as it is shown: columns with their values, in braces. -/
def render (row : Row) : String :=
  "\x7b" ++ ", ".intercalate (row.entries.map fun entry => entry.1 ++ ": " ++ entry.2.render)
    ++ "\x7d"

@[simp] theorem get?_empty (column : String) : empty.get? column = none := rfl

/-- A column set anew has its new value. -/
theorem get?_set (row : Row) (column other : String) (value : Scalar) :
    (row.set column value).get? other = if column = other then some value else row.get? other :=
  Entries.get?_set column other value row.entries

/-- A projected row has the values of the row in the columns that are kept. -/
theorem get?_project (row : Row) (columns : List String) (column : String) :
    (row.project columns).get? column = if column ∈ columns then row.get? column else none := by
  unfold project get?
  induction columns with
  | nil => rfl
  | cons first columns ih =>
    rw [List.filterMap_cons]
    by_cases hfirst : first = column
    · subst hfirst
      rw [if_pos List.mem_cons_self]
      cases hget : row.entries.get? first with
      | some value =>
        show (if first = first then some value else _) = _
        rw [if_pos rfl]
      | none =>
        -- a column that the row does not have is skipped, as often as it is asked for
        rw [hget] at ih
        simpa using ih
    · simp only [List.mem_cons, Ne.symm hfirst, false_or, ← ih]
      cases row.entries.get? first with
      | some value =>
        show (if first = column then some value else _) = _
        rw [if_neg hfirst]
      | none => rfl

theorem nodup_names_set {row : Row} (h : row.names.Nodup) (column : String) (value : Scalar) :
    (row.set column value).names.Nodup :=
  Entries.nodup_names_set h column value

/-- A row built by setting columns names none twice. -/
theorem nodup_names_ofList (entries : List (String × Scalar)) : (ofList entries).names.Nodup := by
  have step (row : Row) (h : row.names.Nodup) :
      (entries.foldl (fun row entry => row.set entry.1 entry.2) row).names.Nodup := by
    induction entries generalizing row with
    | nil => exact h
    | cons entry rest ih => exact ih _ (nodup_names_set h ..)
  exact step empty (by simp [names, empty])

end Row

end MiniSql
