import Mathlib.Data.List.Forall2
import MiniSql.Store

/-!
# Rows seen through a projection

A projection shows a row in the columns that it asks for: reading one of them gives what reading the
row itself gives, and reading any other column gives nothing (`Row.get?_project`). So a second
projection finds of its columns only those that the first one asked for, and the two are one
projection (`Row.project_project`).

A condition reads a row in few places, too: in the columns that its comparisons name on their left
(`Condition.reads`). On rows that agree there it has one answer (`Value.admits_congr`, by induction
on the condition), and a row agrees with its projection in all the columns asked for
(`Condition.admits_project`).
-/

namespace MiniSql

/-! ## A projection of a projection -/

namespace Row

/-- Projecting twice keeps the columns that both lists name, in the order of the second one. -/
theorem project_project (row : Row) (columns more : List String) :
    (row.project columns).project more = row.project (more.filter (· ∈ columns)) := by
  apply congrArg Row.mk
  rw [List.filterMap_filter]
  apply List.filterMap_congr
  intro column _
  rw [get?_project]
  by_cases hmem : column ∈ columns
  · rw [if_pos hmem, if_pos (decide_eq_true hmem)]
  · rw [if_neg hmem, if_neg (mt of_decide_eq_true hmem), Option.map_none]

theorem project_project_of_subset (row : Row) {columns more : List String} (h : more ⊆ columns) :
    (row.project columns).project more = row.project more := by
  have hall : more.filter (· ∈ columns) = more :=
    List.filter_eq_self.mpr fun _ hcolumn => decide_eq_true (h hcolumn)
  rw [project_project, hall]

end Row

/-! ## The columns that a condition reads -/

/-- The column that a comparison reads: the one that its left side names. An operator that is no
comparison reads none. -/
def Condition.compared (left : Value) (op : String) : List String :=
  match Comparison.ofText? op, left with
  | some _, .name column => [column]
  | _, _ => []

/-- The columns that a value reads where it restricts rows. -/
def Value.reads : Value → List String
  | .condition left op right =>
    if op = "and" ∨ op = "or" then left.reads ++ right.reads else Condition.compared left op
  | _ => []

/-- The columns that a condition reads. -/
def Condition.reads (c : Condition) : List String := (Value.ofCondition c).reads

section Agreement

variable {a b : Row}

/-- A comparison reads no columns besides those it names. -/
theorem Condition.compares_congr {left : Value} {op : String}
    (h : ∀ column ∈ compared left op, a.get? column = b.get? column) (right : Value) :
    compares a left op right = compares b left op right := by
  unfold compared at h
  unfold compares
  cases hop : Comparison.ofText? op with
  | none => rfl
  | some c =>
    rw [hop] at h
    cases left with
    | name column =>
      show c.holds? (a.get? column) right.toScalar? = c.holds? (b.get? column) right.toScalar?
      rw [h column List.mem_cons_self]
    -- no other left side names a column
    | _ => rfl

/-- A condition cannot tell apart rows that agree in the columns it reads. -/
theorem Value.admits_congr : ∀ v : Value, (∀ column ∈ v.reads, a.get? column = b.get? column) →
    v.admits a = v.admits b
  | .condition left op right, h => by
    rw [reads] at h
    rw [admits, admits]
    by_cases hboth : op = "and" ∨ op = "or"
    · rw [if_pos hboth, List.forall_mem_append] at h
      rw [admits_congr left h.1, admits_congr right h.2]
      rcases hboth with rfl | rfl <;> simp
    · rw [if_neg hboth] at h
      obtain ⟨hand, hor⟩ := not_or.mp hboth
      rw [if_neg hand, if_neg hor, if_neg hand, if_neg hor]
      exact Condition.compares_congr h right
  | .null, _ | .scalar _, _ | .name _, _ | .names _, _ | .array _, _ | .rows _, _ => rfl

end Agreement

/-- A condition that reads projected columns only holds of the projected row as it does of
the row. -/
theorem Condition.admits_project (c : Condition) (row : Row) {columns : List String}
    (h : c.reads ⊆ columns) : c.admits (row.project columns) = c.admits row := by
  apply Value.admits_congr
  intro column hcolumn
  rw [Row.get?_project, if_pos (h hcolumn)]

/-- A condition on a column that the projection leaves out is another condition. -/
example :
    let c : Condition := ⟨.name "a", "!=", .scalar (.boolean true)⟩
    let row := Row.ofList [("a", .boolean true), ("b", .text "x")]
    c.admits row = false ∧ c.admits (row.project ["b"]) = true := by decide

/-! ## Selections that project -/

theorem firstOfGroups_sublist (columns : List String) (seen : List (List (Option Scalar)))
    (rows : List Row) : (firstOfGroups columns seen rows).Sublist rows := by
  induction rows generalizing seen with
  | nil => exact .slnil
  | cons row rows ih =>
    rw [firstOfGroups]
    split
    · exact .cons row (ih seen)
    · exact .cons_cons row (ih _)

theorem groupRows_sublist (groupBy? : Option (List String)) (rows : List Row) :
    (groupRows groupBy? rows).Sublist rows := by
  match groupBy? with
  | none | some [] => exact .refl rows
  | some (key :: keys) => exact firstOfGroups_sublist (key :: keys) [] rows

/-- A condition that reads only the columns asked for cannot tell the rows shown in these columns
from the rows themselves. -/
theorem admits_projectRows (columns : List String) (rows : List Row) :
    List.Forall₂ (fun shown row => ∀ c : Condition, c.reads ⊆ columns →
      c.admits shown = c.admits row) (projectRows columns rows) rows := by
  unfold projectRows
  by_cases hall : columns = []
  · rw [if_pos hall]
    exact List.forall₂_same.mpr fun _ _ _ _ => rfl
  · rw [if_neg hall, List.forall₂_map_left_iff]
    exact List.forall₂_same.mpr fun row _ c hreads => c.admits_project row hreads

/-- A query for whole rows answers with stored rows, in their order. -/
theorem Query.answer_sublist (q : Query) (hq : q.columns = []) (rows : List Row) :
    (q.answer rows).Sublist rows := by
  rw [answer, projectRows, if_pos hq]
  exact (groupRows_sublist q.groupBy? _).trans List.filter_sublist

/-- One projection after another is a single projection: to the columns that the later one asks for,
in its order and as often, except those that the earlier one does not ask for. So a projection done
again changes nothing, and one that asks for nothing new is not changed by the one before it.

A selection answers with rows of its table, shown in the columns that it asks for. Every condition
that reads these columns only has the same answer on a row shown as on the row stored. -/
theorem projections_compose :
    (∀ (row : Row) (columns more : List String),
      (row.project columns).project more = row.project (more.filter (· ∈ columns)) ∧
      (row.project columns).project columns = row.project columns ∧
      (more ⊆ columns → (row.project columns).project more = row.project more)) ∧
    ∀ (store : Store) (q : Query) (table : Table), store.table? q.table = some table →
      ∃ rows stored, store.select q = .ok rows ∧
        store.select { q with columns := [] } = .ok stored ∧ stored.Sublist table.rows ∧
        List.Forall₂ (fun shown row => ∀ c : Condition, c.reads ⊆ q.columns →
          c.admits shown = c.admits row) rows stored := by
  constructor
  · intro row columns more
    exact ⟨row.project_project columns more, row.project_project_of_subset (List.Subset.refl _),
      row.project_project_of_subset⟩
  · intro store q table htable
    let whole : Query := { q with columns := [] }
    have hrows : store.select q = .ok (projectRows q.columns (whole.answer table.rows)) :=
      Store.select_of_table? htable
    have hstored : store.select whole = .ok (whole.answer table.rows) :=
      Store.select_of_table? htable
    exact ⟨_, _, hrows, hstored, whole.answer_sublist rfl table.rows,
      admits_projectRows q.columns _⟩

/-- The second copy of a column is never shown, however often the column is asked for, and a
condition on what is shown finds what it finds in the table. -/
theorem projections_compose_repeated :
    let row : Row := ⟨[("a", .boolean true), ("a", .boolean false), ("b", .text "x")]⟩
    let table : Table := ⟨["a", "b"], [Row.ofList [("b", .text "y")], row]⟩
    let store := Store.empty.put "t" table
    let q : Query := ⟨"t", ["b", "a", "b"], none, some ["a"]⟩
    let c : Condition :=
      ⟨.condition (.name "a") "=" (.scalar (.boolean true)), "and",
        .condition (.name "b") "=" (.name "x")⟩
    let shown : List Row := [⟨[("b", .text "y"), ("b", .text "y")]⟩,
      ⟨[("b", .text "x"), ("a", .boolean true), ("b", .text "x")]⟩]
    ["a", "a"] ⊆ ["b", "a"] ∧
    (row.project ["b", "a"]).project ["a", "a"] = row.project ["a", "a"] ∧
    store.table? q.table = some table ∧ store.select q = .ok shown ∧ c.reads ⊆ q.columns ∧
    List.Forall₂ (fun shown row => c.admits shown = c.admits row) shown table.rows := by
  intro row table store q c shown
  obtain ⟨hproject, hselect⟩ := projections_compose
  have hsubset : ["a", "a"] ⊆ ["b", "a"] := by decide
  have hreads : c.reads ⊆ q.columns := by decide
  obtain ⟨rows, stored, hrows, hstored, -, hall⟩ := hselect store q table rfl
  obtain rfl : shown = rows := Except.ok.inj hrows
  obtain rfl : table.rows = stored := Except.ok.inj hstored
  exact ⟨hsubset, (hproject row ["b", "a"] ["a", "a"]).2.2 hsubset, rfl, hrows, hreads,
    hall.imp fun _ _ h => h c hreads⟩

end MiniSql
