import MiniSql.Proofs.Meaning
import MiniSql.Proofs.Plain

/-!
# Requests mean what statements mean

The evaluator turns a statement into a request, and the store answers the request. Both steps agree
with the meaning of the statement: a condition admits the rows that it is true of
(`admits_value`), a query has the answer of its selection (`answer_query`), and an insertion is
refused for its first fault or adds its row (`newRow_insertion`).
-/

namespace MiniSql

/-! ## Conditions -/

namespace Expr

/-- What an expression evaluates to is a scalar where the expression is one. -/
theorem toScalar?_value (e : Expr) : e.value.toScalar? = e.scalar? := by
  cases e <;> rfl

/-- What an expression evaluates to names a cell where the expression does. -/
theorem column?_value (row : Row) (e : Expr) : e.value.column? row = e.columnIn? row := by
  cases e <;> rfl

theorem kind_value (e : Expr) : e.value.kind = e.valueKind := by
  cases e <;> rfl

section Comparisons

variable (row : Row) (left right : Expr)

/-- Equality as the evaluator tests it is equality of cell and scalar. -/
theorem holds?_equal :
    Comparison.equal.holds? (left.columnIn? row) right.scalar? = equalIn row left right := by
  rw [equalIn]
  cases left.columnIn? row <;> cases right.scalar? <;> rfl

theorem holds?_unequal :
    Comparison.unequal.holds? (left.columnIn? row) right.scalar? = !equalIn row left right := by
  rw [equalIn]
  cases left.columnIn? row <;> cases right.scalar? <;> rfl

theorem holds?_order {c : Comparison} {test : Ordering → Bool} (hne : c ≠ .unequal)
    (hc : ∀ a b, c.holds a b = (a.compare? b).any test) :
    c.holds? (left.columnIn? row) right.scalar? = (orderIn? row left right).any test := by
  have hmissing : (c == .unequal) = false := beq_eq_false_iff_ne.mpr hne
  rw [orderIn?]
  cases left.columnIn? row with
  | none => exact hmissing
  | some a =>
    cases right.scalar? with
    | none => exact hmissing
    | some b => exact hc a b

end Comparisons

/-- An expression's value admits a row exactly if the expression holds in it. -/
theorem admits_value (row : Row) (e : Expr) : e.value.admits row = e.holds row := by
  cases e with
  | identifier _ => rfl
  | number _ => rfl
  | string _ => rfl
  | boolean _ => rfl
  | array _ => rfl
  | binary left op right =>
    have hcompares {c : Comparison} (hand : op.text ≠ "and") (hor : op.text ≠ "or")
        (hop : Comparison.ofText? op.text = some c) :
        (Expr.binary left op right).value.admits row =
          c.holds? (left.columnIn? row) right.scalar? := by
      rw [value, Value.admits, if_neg hand, if_neg hor, Condition.compares, hop, column?_value,
        toScalar?_value]
      rfl
    have horder {c : Comparison} {test : Ordering → Bool} (hand : op.text ≠ "and")
        (hor : op.text ≠ "or") (hop : Comparison.ofText? op.text = some c) (hne : c ≠ .unequal)
        (hc : ∀ a b, c.holds a b = (a.compare? b).any test) :
        (Expr.binary left op right).value.admits row = (orderIn? row left right).any test :=
      (hcompares hand hor hop).trans (holds?_order row left right hne hc)
    -- a side of `and` or `or` that is no operation admits nothing, as it is true of nothing
    cases op with
    | and =>
      show (left.value.admits row && right.value.admits row) = _
      rw [admits_value row left, admits_value row right]
      rfl
    | or =>
      show (left.value.admits row || right.value.admits row) = _
      rw [admits_value row left, admits_value row right]
      rfl
    | equal => exact (hcompares (by decide) (by decide) rfl).trans (holds?_equal row left right)
    | unequal =>
      exact (hcompares (by decide) (by decide) rfl).trans (holds?_unequal row left right)
    | less => exact horder (by decide) (by decide) rfl (by decide) fun _ _ => rfl
    | lessEqual => exact horder (by decide) (by decide) rfl (by decide) fun _ _ => rfl
    | greater => exact horder (by decide) (by decide) rfl (by decide) fun _ _ => rfl
    | greaterEqual => exact horder (by decide) (by decide) rfl (by decide) fun _ _ => rfl

end Expr

namespace Evaluator

/-- A condition comes out as it is meant, or is no operation and the fault of its statement. -/
theorem conditionOf_cases (s : Select) :
    (∃ c?, conditionOf s.conditionValue = .ok c? ∧
        (∀ row, Condition.admits? c? row = s.condition?.all (·.holds row)) ∧
        ∀ schema?, s.fault? schema? = if (schema? s.table).isSome then none
          else some (.backend (.tableNotFound s.table))) ∨
      ∃ error, conditionOf s.conditionValue = .error error ∧
        ∀ schema?, s.fault? schema? = some error := by
  have hfault : s.condition? = none ∨ (∃ l op r, s.condition? = some (.binary l op r)) →
      ∀ schema?, s.fault? schema? = if (schema? s.table).isSome then none
        else some (.backend (.tableNotFound s.table)) := by
    intro hcondition schema?
    rw [Select.fault?]
    rcases hcondition with hnone | ⟨l, op, r, hsome⟩
    · rw [hnone]
      cases schema? s.table <;> rfl
    · rw [hsome]
      cases schema? s.table <;> rfl
  rw [Select.conditionValue]
  -- a condition that is there is an operation, or else the fault of the statement
  cases hcondition : s.condition? with
  | none => exact .inl ⟨none, rfl, fun _ => rfl, hfault (.inl hcondition)⟩
  | some e =>
    cases e with
    | binary l op r =>
      refine .inl ⟨some ⟨l.value, op.text, r.value⟩, rfl, fun row => ?_,
        hfault (.inr ⟨l, op, r, hcondition⟩)⟩
      exact Expr.admits_value row (.binary l op r)
    | identifier _ => exact .inr ⟨_, rfl, fun _ => by rw [Select.fault?, hcondition]; rfl⟩
    | number _ => exact .inr ⟨_, rfl, fun _ => by rw [Select.fault?, hcondition]; rfl⟩
    | string _ => exact .inr ⟨_, rfl, fun _ => by rw [Select.fault?, hcondition]; rfl⟩
    | boolean _ => exact .inr ⟨_, rfl, fun _ => by rw [Select.fault?, hcondition]; rfl⟩
    | array _ => exact .inr ⟨_, rfl, fun _ => by rw [Select.fault?, hcondition]; rfl⟩

end Evaluator

/-! ## Groups -/

theorem Binary64.equals_trans {a b c : Binary64} (hab : a.equals b = true)
    (hbc : b.equals c = true) : a.equals c = true := by
  obtain ⟨k, ha, hb⟩ := Binary64.equals_iff.mp hab
  obtain ⟨k', hb', hc⟩ := Binary64.equals_iff.mp hbc
  rw [hb] at hb'
  obtain rfl := Option.some.inj hb'
  exact Binary64.equals_iff.mpr ⟨k, ha, hc⟩

/-- Equality of scalars is transitive, although NaN is not equal to itself. -/
theorem Scalar.equals_trans {a b c : Scalar} (hab : a.equals b = true) (hbc : b.equals c = true) :
    a.equals c = true := by
  -- scalars of two types are never equal
  cases a with
  | number x =>
    cases b with
    | number y =>
      cases c with
      | number z => exact Binary64.equals_trans hab hbc
      | text _ => nomatch hbc
      | boolean _ => nomatch hbc
    | text _ => nomatch hab
    | boolean _ => nomatch hab
  | text x =>
    cases b with
    | text y =>
      obtain rfl : x = y := beq_iff_eq.mp hab
      exact hbc
    | number _ => nomatch hab
    | boolean _ => nomatch hab
  | boolean x =>
    cases b with
    | boolean y =>
      obtain rfl : x = y := beq_iff_eq.mp hab
      exact hbc
    | number _ => nomatch hab
    | text _ => nomatch hab

theorem Row.agreesOn_trans {column : String} {a b c : Row} (hab : a.agreesOn column b = true)
    (hbc : b.agreesOn column c = true) : a.agreesOn column c = true := by
  rw [agreesOn] at hab hbc ⊢
  cases ha : a.get? column with
  | none =>
    cases hb : b.get? column with
    | none => rwa [hb] at hbc
    | some y =>
      rw [ha, hb] at hab
      nomatch hab
  | some x =>
    cases hb : b.get? column with
    | none =>
      rw [ha, hb] at hab
      nomatch hab
    | some y =>
      rw [ha, hb] at hab
      rw [hb] at hbc
      cases hc : c.get? column with
      | none =>
        rw [hc] at hbc
        nomatch hbc
      | some z =>
        rw [hc] at hbc
        exact Scalar.equals_trans hab hbc

/-- To be in one group is transitive. -/
theorem Row.sameGroup_trans {keys : List String} {a b c : Row}
    (hab : a.sameGroup keys b = true) (hbc : b.sameGroup keys c = true) :
    a.sameGroup keys c = true := by
  rw [sameGroup, List.all_eq_true] at hab hbc ⊢
  exact fun key hkey => agreesOn_trans (hab key hkey) (hbc key hkey)

theorem sameKey_key (keys : List String) (a b : Row) :
    sameKey (a.key keys) (b.key keys) = a.sameGroup keys b := by
  have hfield (key : String) : sameField (a.get? key) (b.get? key) = a.agreesOn key b := by
    unfold sameField Row.agreesOn
    cases a.get? key <;> cases b.get? key <;> rfl
  induction keys with
  | nil => rfl
  | cons key keys ih =>
    show (sameField (a.get? key) (b.get? key) && sameKey (a.key keys) (b.key keys)) = _
    rw [hfield, ih]
    rfl

/-- The recursion of `firstOfGroups`, started behind the rows `earlier`. Its keys are those of the
rows kept so far; every earlier row shares its group with one of them. -/
theorem firstOfGroups_eq (keys : List String) (earlier rest : List Row)
    (seen : List (List (Option Scalar)))
    (hseen : ∀ row : Row,
      seen.any (sameKey · (row.key keys)) = earlier.any (·.sameGroup keys row)) :
    firstOfGroups keys seen rest =
      ((rest.zipIdx earlier.length).filter fun (row, place) =>
        ((earlier ++ rest).take place).all fun before =>
          !before.sameGroup keys row).map Prod.fst := by
  induction rest generalizing earlier seen with
  | nil => rfl
  | cons row rest ih =>
    have hlater : (earlier ++ [row]) ++ rest = earlier ++ row :: rest := by
      rw [List.append_assoc, List.singleton_append]
    have hlength : (earlier ++ [row]).length = earlier.length + 1 := by
      rw [List.length_append, List.length_singleton]
    have hbefore : ((earlier ++ row :: rest).take earlier.length).all
        (fun before => !before.sameGroup keys row) = !seen.any (sameKey · (row.key keys)) := by
      rw [List.take_left, hseen, List.not_any_eq_all_not]
    rw [firstOfGroups, List.zipIdx_cons, List.filter_cons]
    simp only [hbefore]
    by_cases hany : seen.any (sameKey · (row.key keys)) = true
    · -- the row is dropped, and its group is known already
      have hstep : ∀ row' : Row, seen.any (sameKey · (row'.key keys)) =
          (earlier ++ [row]).any (·.sameGroup keys row') := by
        intro row'
        rw [hseen, List.any_append, List.any_cons, List.any_nil, Bool.or_false]
        cases hrow : row.sameGroup keys row' with
        | false => rw [Bool.or_false]
        | true =>
          rw [hseen] at hany
          obtain ⟨before, hmem, hbefore'⟩ := List.any_eq_true.mp hany
          rw [Bool.or_true]
          exact List.any_eq_true.mpr ⟨before, hmem, Row.sameGroup_trans hbefore' hrow⟩
      have hrest := ih (earlier ++ [row]) seen hstep
      rw [hlater, hlength] at hrest
      rw [hany, if_pos rfl, hrest]
      rfl
    · -- the row is kept, and opens a group
      have hstep : ∀ row' : Row, (seen ++ [row.key keys]).any (sameKey · (row'.key keys)) =
          (earlier ++ [row]).any (·.sameGroup keys row') := by
        intro row'
        rw [List.any_append, List.any_append, hseen, List.any_cons, List.any_nil, List.any_cons,
          List.any_nil, sameKey_key]
      have hrest := ih (earlier ++ [row]) (seen ++ [row.key keys]) hstep
      rw [hlater, hlength] at hrest
      rw [Bool.not_eq_true] at hany
      rw [hany, if_neg Bool.false_ne_true, hrest]
      rfl

/-- The rows kept by grouping are the first ones of their groups. -/
theorem groupRows_eq (s : Select) (rows : List Row) :
    groupRows s.groupBy? rows = s.grouped rows := by
  rw [Select.grouped]
  cases s.groupBy? with
  | none => rfl
  | some keys =>
    cases keys with
    | nil => rfl
    | cons key keys => exact firstOfGroups_eq (key :: keys) [] rows [] fun _ => rfl

/-- The store answers the query of a selection with the rows that the selection describes. -/
theorem answer_query {s : Select} {c? : Option Condition}
    (hc : ∀ row, Condition.admits? c? row = s.condition?.all (·.holds row)) (rows : List Row) :
    (s.query c?).answer rows = s.answer rows := by
  have hmatching : rows.filter (Condition.admits? c?) = s.matching rows :=
    List.filter_congr fun row _ => hc row
  rw [Query.answer, Select.answer, ← hmatching, ← groupRows_eq]
  rfl

/-! ## Insertions -/

/-- Inserted values are accepted if all are scalars, and else the first that is none is refused. -/
theorem scalarsOf_values (es : List Expr) :
    Evaluator.scalarsOf (Expr.values es) = match es.find? (·.scalar?.isNone) with
      | some e => .error (.invalidValue e.valueKind)
      | none => .ok (es.filterMap Expr.scalar?) := by
  -- by induction on the elements, which are refused from left to right
  induction es with
  | nil => rfl
  | cons e es ih =>
    rw [Expr.values, Evaluator.scalarsOf, Expr.toScalar?_value]
    cases hscalar : e.scalar? with
    | none =>
      rw [List.find?_cons_of_pos (by rw [hscalar]; rfl), Expr.kind_value]
    | some a =>
      have hfind : (e :: es).find? (·.scalar?.isNone) = es.find? (·.scalar?.isNone) :=
        List.find?_cons_of_neg (by rw [hscalar]; exact Bool.false_ne_true)
      rw [hfind, List.filterMap_cons_some hscalar, ih]
      cases es.find? (·.scalar?.isNone) <;> rfl

/-- The values of an insertion are refused exactly if its expression is unfit. -/
theorem rowValues_value (i : Insert) :
    Evaluator.rowValues i.values.value = match i.unfit? with
      | some e => .error (.invalidValue e.valueKind)
      | none => .ok i.scalars := by
  rw [Insert.unfit?, Insert.scalars]
  cases i.values with
  | array es => exact scalarsOf_values es
  | identifier _ => rfl
  | number _ => rfl
  | string _ => rfl
  | boolean _ => rfl
  | binary _ _ _ => rfl

/-- The recursion of `firstRepeated?`, started behind the names `earlier`. -/
theorem firstRepeated?_eq (earlier rest : List String) :
    Store.firstRepeated? earlier rest = ((rest.zipIdx earlier.length).find? fun (name, place) =>
      name ∈ (earlier ++ rest).take place).map Prod.fst := by
  induction rest generalizing earlier with
  | nil => rfl
  | cons name rest ih =>
    have hrest := ih (earlier ++ [name])
    rw [List.append_assoc, List.singleton_append, List.length_append,
      List.length_singleton] at hrest
    rw [Store.firstRepeated?, List.zipIdx_cons]
    by_cases hmem : name ∈ earlier
    · rw [if_pos hmem, List.find?_cons_of_pos (by simpa using hmem)]
      rfl
    · rw [if_neg hmem, List.find?_cons_of_neg (by simpa using hmem), hrest]

/-- The columns that an insertion lists are refused for the first one that the table does not have,
or else for the first one listed twice. -/
theorem targets_insertion (i : Insert) (values : List Scalar) (table : Table) :
    Store.targets (i.insertion values) table =
      match i.listed.find? (· ∉ table.columns), firstRepeat? i.listed with
      | some column, _ => .error (.columnNotFound i.table column)
      | none, some column => .error (.duplicateColumn column)
      | none, none => .ok (i.targetsIn table.columns) := by
  have hrepeat : Store.firstRepeated? [] i.listed = firstRepeat? i.listed :=
    firstRepeated?_eq [] i.listed
  have hcolumns : (i.insertion values).columns = i.listed := rfl
  have htable : (i.insertion values).table = i.table := rfl
  rw [Store.targets, hcolumns, htable, hrepeat, Insert.targetsIn]
  by_cases hlisted : i.listed = []
  · rw [if_pos hlisted, if_pos hlisted, hlisted]
    rfl
  · rw [if_neg hlisted, if_neg hlisted]
    cases i.listed.find? (· ∉ table.columns) with
    | some column => rfl
    | none => cases firstRepeat? i.listed <;> rfl

theorem newRow_insertion (i : Insert) (table : Table) :
    Store.newRow (i.insertion i.scalars) table = match i.targetFault? table.columns with
      | some e => .error e
      | none => .ok (i.rowIn table.columns) := by
  rw [Store.newRow, targets_insertion, Insert.targetFault?]
  cases i.listed.find? (· ∉ table.columns) with
  | some column => rfl
  | none =>
    cases firstRepeat? i.listed with
    | some column => rfl
    | none =>
      by_cases hlength : (i.targetsIn table.columns).length = i.scalars.length
      · simp only [if_pos hlength]
        exact if_pos hlength
      · simp only [if_neg hlength]
        exact if_neg hlength

/-- The store carries out an insertion, or refuses it, as its table and columns say. -/
theorem insert_insertion (i : Insert) (store : Store) :
    store.insert (i.insertion i.scalars) = match store.table? i.table with
      | none => .error (.tableNotFound i.table)
      | some table => match i.targetFault? table.columns with
        | some e => .error e
        | none => .ok (store.put i.table (table.push (i.rowIn table.columns))) := by
  rw [Store.insert, show (i.insertion i.scalars).table = i.table from rfl]
  cases store.table? i.table with
  | none => rfl
  | some table =>
    simp only [newRow_insertion]
    cases i.targetFault? table.columns <;> rfl

end MiniSql
