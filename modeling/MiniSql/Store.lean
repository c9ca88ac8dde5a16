import MiniSql.Backend

/-!
# The in-memory store

A store holds tables by name. A table is a list of column names and the rows inserted so far, oldest
first; rows are only ever added, at the end.

A selection filters the rows, keeps the first row of each group, and projects what is left. An
insertion builds a row from its target columns and its values, and changes nothing if it fails. Of
several faults it reports the first of: no such table, an unknown column, a column listed twice, a
wrong number of values.
-/

namespace MiniSql

/-- A table: its columns, and its rows in the order of insertion. -/
structure Table where
  columns : List String
  rows : List Row

/-- The table with one more row. -/
def Table.push (table : Table) (row : Row) : Table := { table with rows := table.rows ++ [row] }

/-- Tables by name. -/
structure Store where
  tables : Entries Table

namespace Store

/-- The store without tables. -/
def empty : Store := ⟨[]⟩

/-- The table of a name. -/
def table? (store : Store) (name : String) : Option Table := store.tables.get? name

/-- The rows of a table. -/
def rows? (store : Store) (name : String) : Option (List Row) := (store.table? name).map Table.rows

/-- Puts a table into the store, in place of any other of that name. -/
def put (store : Store) (name : String) (table : Table) : Store := ⟨store.tables.set name table⟩

/-- Makes an empty table, in place of any other of that name. -/
def create (store : Store) (name : String) (columns : List String) : Store :=
  store.put name ⟨columns, []⟩

theorem table?_put (store : Store) (name other : String) (table : Table) :
    (store.put name table).table? other = if name = other then some table else store.table? other :=
  Entries.get?_set name other table store.tables

/-- Putting a table that is there changes no names. -/
theorem names_put {store : Store} {name : String} {old : Table} (h : store.table? name = some old)
    (table : Table) : (store.put name table).tables.names = store.tables.names := by
  have hmem : name ∈ store.tables.names :=
    (Entries.get?_isSome_iff _ _).mp (Option.isSome_of_eq_some h)
  exact (Entries.names_set _ _ _).trans (if_pos hmem)

end Store

/-! ## Selecting -/

/-- The values of the grouping columns; a column that the row lacks has none. -/
def Row.key (row : Row) (columns : List String) : List (Option Scalar) := columns.map row.get?

/-- A column's value in two rows: both lack it, or both have it with equal values. -/
def sameField : Option Scalar → Option Scalar → Bool
  | none, none => true
  | some a, some b => a.equals b
  | _, _ => false

/-- Two keys agree in every place. -/
def sameKey (a b : List (Option Scalar)) : Bool := a.isEqv b sameField

/-- The rows whose key agrees with none of the keys seen before, those of earlier rows included. -/
def firstOfGroups (columns : List String) (seen : List (List (Option Scalar))) :
    List Row → List Row
  | [] => []
  | row :: rest =>
    let key := row.key columns
    if seen.any (sameKey · key) then firstOfGroups columns seen rest
    else row :: firstOfGroups columns (seen ++ [key]) rest

/-- The first row of each group. Without grouping columns every row is kept. -/
def groupRows (groupBy? : Option (List String)) (rows : List Row) : List Row :=
  match groupBy? with
  | none | some [] => rows
  | some columns => firstOfGroups columns [] rows

/-- The rows cut down to the given columns; no columns means all. -/
def projectRows (columns : List String) (rows : List Row) : List Row :=
  if columns = [] then rows else rows.map (·.project columns)

/-- The answer to a query from a list of rows. -/
def Query.answer (q : Query) (rows : List Row) : List Row :=
  projectRows q.columns (groupRows q.groupBy? (rows.filter (Condition.admits? q.condition?)))

namespace Store

/-- The rows that a query asks for. -/
def select (store : Store) (q : Query) : Except BackendError (List Row) :=
  match store.table? q.table with
  | none => .error (.tableNotFound q.table)
  | some table => .ok (q.answer table.rows)

theorem select_of_table? {store : Store} {q : Query} {table : Table}
    (h : store.table? q.table = some table) : store.select q = .ok (q.answer table.rows) := by
  unfold select
  rw [h]

/-! ## Inserting -/

/-- The first name that repeats an earlier one. -/
def firstRepeated? (seen : List String) : List String → Option String
  | [] => none
  | name :: rest => if name ∈ seen then some name else firstRepeated? (seen ++ [name]) rest

/-- The columns that an insertion fills: those it lists, or else the table's. -/
def targets (i : Insertion) (table : Table) : Except BackendError (List String) :=
  if i.columns = [] then .ok table.columns
  else match i.columns.find? (· ∉ table.columns) with
  | some column => .error (.columnNotFound i.table column)
  | none =>
    match firstRepeated? [] i.columns with
    | some column => .error (.duplicateColumn column)
    | none => .ok i.columns

/-- The row that an insertion adds to a table. -/
def newRow (i : Insertion) (table : Table) : Except BackendError Row :=
  match targets i table with
  | .error e => .error e
  | .ok columns =>
    if columns.length = i.values.length then .ok (Row.ofList (columns.zip i.values))
    else .error (.arityMismatch columns.length i.values.length)

/-- Adds the row that an insertion describes. -/
def insert (store : Store) (i : Insertion) : Except BackendError Store :=
  match store.table? i.table with
  | none => .error (.tableNotFound i.table)
  | some table => (newRow i table).map fun row => store.put i.table (table.push row)

/-! ## As a backend -/

/-- The remark on rows of a table. -/
def remark (doing table : String) (count : Nat) (what : String) : String :=
  s!"{doing} {table}: {count} {what}"

/-- The store as a backend. Only a request that succeeds is remarked on, with the number of rows
answered, or the number of rows in the table afterwards. -/
def backend : Backend Store where
  select q store :=
    match store.select q with
    | .ok rows => ⟨.ok rows, store, [remark "select from" q.table rows.length "row(s)"]⟩
    | .error e => ⟨.error e, store, []⟩
  insert i store :=
    match store.insert i with
    | .ok after =>
      let count := ((after.rows? i.table).getD []).length
      ⟨.ok (), after, [remark "insert into" i.table count "row(s) total"]⟩
    | .error e => ⟨.error e, store, []⟩

theorem backend_select (q : Query) (store : Store) :
    (backend.select q store).answer = store.select q ∧ (backend.select q store).state = store := by
  dsimp only [backend]
  cases store.select q with
  | ok rows => exact ⟨rfl, rfl⟩
  | error e => exact ⟨rfl, rfl⟩

/-- A refused insertion leaves the store as it is. -/
theorem backend_insert (i : Insertion) (store : Store) :
    (backend.insert i store).answer = (store.insert i).map (fun _ => ()) ∧
      (backend.insert i store).state = (store.insert i).toOption.getD store := by
  dsimp only [backend]
  cases store.insert i with
  | ok after => exact ⟨rfl, rfl⟩
  | error e => exact ⟨rfl, rfl⟩

end Store

end MiniSql
