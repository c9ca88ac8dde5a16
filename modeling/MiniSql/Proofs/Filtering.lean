import MiniSql.Proofs.Execution

/-!
# Filtering by a condition

A `WHERE` expression goes through two forms before it meets a row: the evaluator turns it into a
condition, which carries its operators as text, and the store reads that condition for each row.
`filtering_meaning` says that nothing is lost on the way: only an operation becomes a condition, the
condition admits the rows that the expression is true of, and a selection keeps these.
-/

namespace MiniSql

/-- The expression applies an operator. -/
def Expr.IsOperation (e : Expr) : Prop := ∃ left op right, e = .binary left op right

theorem Expr.value_eq_condition_iff (e : Expr) :
    (∃ c, e.value = Value.ofCondition c) ↔ e.IsOperation := by
  constructor
  · rintro ⟨c, h⟩
    cases e with
    | binary left op right => exact ⟨left, op, right, rfl⟩
    | _ => nomatch h
  · rintro ⟨left, op, right, rfl⟩
    exact ⟨⟨left.value, op.text, right.value⟩, rfl⟩

/-- The answer of a selection with a condition, step by step: first the rows that the condition is
true of, then the first of each group, then the columns asked for. -/
theorem Select.answer_where (e : Expr) (table : String) (columns : List String)
    (groupBy? : Option (List String)) (rows : List Row) :
    Select.answer { table, columns, condition? := some e, groupBy? } rows =
      projectRows columns (groupRows groupBy? (rows.filter (e.holds ·))) := by
  rw [answer, ← groupRows_eq]
  rfl

namespace Evaluator

section Selections

variable {ω : Type} {ev : Evaluator Store ω} (hev : ev.extensions = [])
  (hbackend : ev.backend = Store.backend) (s : Select) (w : World Store ω)

include hev hbackend

/-- Visiting a selection without extensions is performing it. -/
theorem visit_select_eq : ev.visit (.select s) w = match perform Store.backend (.select s) w with
    | .ok () w' => .ok .null w'
    | .error e w' => .error e w' := by
  have hvisit := visit_statement_eq hev w (.select s)
  rw [hbackend] at hvisit
  refine hvisit.trans ?_
  cases perform Store.backend (.select s) w <;> rfl

/-- A selection at fault is refused and changes nothing. -/
theorem visit_select_of_fault {error : EvalError} (h : s.fault? w.state.schema? = some error) :
    ∃ w', ev.visit (.select s) w = .error error w' ∧ w'.state = w.state ∧
      w'.context = w.context := by
  have hvisit := visit_select_eq hev hbackend s w
  obtain ⟨w', hperform, hstate, hcontext, -⟩ :=
    perform_of_fault (show (Statement.select s).fault? w.state.schema? = some error from h)
  rw [hperform] at hvisit
  exact ⟨w', hvisit, hstate, hcontext⟩

/-- A selection without fault puts the rows that it describes on the stack. -/
theorem visit_select_of_faultless (h : s.fault? w.state.schema? = none) :
    ∃ rows w', w.state.rows? s.table = some rows ∧ ev.visit (.select s) w = .ok .null w' ∧
      w'.state = w.state ∧ w'.context = w.context.push (.rows (s.answer rows)) := by
  have hvisit := visit_select_eq hev hbackend s w
  obtain ⟨table, htable, hanswered⟩ := isAnswered_select h
  obtain ⟨w', hperform, hstate, hcontext, -⟩ := perform_of_isAnswered hanswered
  rw [hperform] at hvisit
  have hrows : w.state.rows? s.table = some table.rows := by
    rw [Store.rows?, htable]
    rfl
  exact ⟨table.rows, w', hrows, hvisit, hstate, hcontext⟩

/-- A selection with a condition answers with the rows that the condition is true of. One whose
condition is no operation is refused before the store is asked. -/
theorem visit_select_where (e : Expr) (table : String) (columns : List String)
    (groupBy? : Option (List String)) :
    ∃ w', ev.visit (.select { table, columns, condition? := some e, groupBy? }) w =
        (match e, w.state.rows? table with
          | .binary .., some _ => .ok .null w'
          | .binary .., none => .error (.backend (.tableNotFound table)) w'
          | e, _ => .error (.invalidCondition e.valueKind) w') ∧
      w'.state = w.state ∧
      w'.context = match e, w.state.rows? table with
        | .binary .., some rows => w.context.push
            (.rows (projectRows columns (groupRows groupBy? (rows.filter (e.holds ·)))))
        | _, _ => w.context := by
  let s : Select := { table, columns, condition? := some e, groupBy? }
  cases e with
  | binary left op right =>
    cases htable : w.state.table? table with
    | none =>
      have hfault : s.fault? w.state.schema? = some (.backend (.tableNotFound table)) := by
        rw [Select.fault?, Store.schema?, htable]
        rfl
      rw [Store.rows?, htable]
      exact visit_select_of_fault hev hbackend s w hfault
    | some found =>
      have hfault : s.fault? w.state.schema? = none := by
        rw [Select.fault?, Store.schema?, htable]
        rfl
      obtain ⟨rows, w', hrows, hvisit, hstate, hcontext⟩ :=
        visit_select_of_faultless hev hbackend s w hfault
      rw [Select.answer_where] at hcontext
      rw [show w.state.rows? table = some rows from hrows]
      exact ⟨w', hvisit, hstate, hcontext⟩
  -- whatever else is written as a condition is at fault, with or without its table
  | identifier _ => exact visit_select_of_fault hev hbackend s w rfl
  | number _ => exact visit_select_of_fault hev hbackend s w rfl
  | string _ => exact visit_select_of_fault hev hbackend s w rfl
  | boolean _ => exact visit_select_of_fault hev hbackend s w rfl
  | array _ => exact visit_select_of_fault hev hbackend s w rfl

end Selections

/-- A condition means to the store what its expression means, and a selection keeps exactly the rows
that the expression is true of. An expression that is no operation is refused. -/
theorem filtering_meaning {σ ω : Type} (b : Backend σ) (policy : ClaimPolicy) (e : Expr)
    (w : World σ ω) (table : String) (columns : List String) (groupBy? : Option (List String))
    (w₀ : World Store ω) :
    (∃ v w', (⟨b, [], policy⟩ : Evaluator σ ω).visit (.expr e) w = .ok v w' ∧
      ((∃ c, v = Value.ofCondition c) ↔ e.IsOperation) ∧
      ∀ c, v = Value.ofCondition c → ∀ row, Condition.admits? (some c) row = e.holds row) ∧
    ∃ w', (⟨Store.backend, [], policy⟩ : Evaluator Store ω).visit
          (.select { table, columns, condition? := some e, groupBy? }) w₀ =
        (match e, w₀.state.rows? table with
          | .binary .., some _ => .ok .null w'
          | .binary .., none => .error (.backend (.tableNotFound table)) w'
          | e, _ => .error (.invalidCondition e.valueKind) w') ∧
      w'.state = w₀.state ∧
      w'.context = match e, w₀.state.rows? table with
        | .binary .., some rows => w₀.context.push
            (.rows (projectRows columns (groupRows groupBy? (rows.filter (e.holds ·)))))
        | _, _ => w₀.context := by
  refine ⟨⟨e.value, _, visitExpr_eq rfl e w, e.value_eq_condition_iff, fun c hc row => ?_⟩,
    visit_select_where rfl rfl w₀ e table columns groupBy?⟩
  show (Value.ofCondition c).admits row = e.holds row
  rw [← hc, Expr.admits_value]

end Evaluator

end MiniSql
