import MiniSql.Evaluator.Visit

/-!
# The evaluator

The evaluator walks over a program and visits its parts. Statements run one after another; within an
expression the left operand comes before the right one. A selection makes one request to the backend
and puts the rows on the stack; an insertion makes one request and puts `null` there. A statement
that an extension claims puts the claimed value on the stack in place of its own result, so that
every statement done leaves one.

The first failure ends the run.
-/

namespace MiniSql.Evaluator

variable {σ ω : Type}

/-! ## Expressions -/

mutual

/-- Visits an expression. Names and literals are their own values; an operator makes a condition of
its operands' values, which is tested only by the backend. -/
def visitExpr (ev : Evaluator σ ω) : Expr → Action EvalError σ ω Value
  | .identifier name => ev.valueOf (.expr (.identifier name)) (pure (.name name))
  | .number x => ev.valueOf (.expr (.number x)) (pure (.scalar (.number x)))
  | .string s => ev.valueOf (.expr (.string s)) (pure (.scalar (.text s)))
  | .boolean b => ev.valueOf (.expr (.boolean b)) (pure (.scalar (.boolean b)))
  | .array elements => ev.valueOf (.expr (.array elements)) do
      return .array (← visitAll ev elements)
  | .binary left op right => ev.valueOf (.expr (.binary left op right)) do
      let l ← visitExpr ev left
      let r ← visitExpr ev right
      return .condition l op.text r

/-- Visits expressions from left to right. -/
def visitAll (ev : Evaluator σ ω) : List Expr → Action EvalError σ ω (List Value)
  | [] => pure []
  | e :: rest => do
    let v ← visitExpr ev e
    let vs ← visitAll ev rest
    return v :: vs

end

/-! ## Statements -/

/-- The condition that the value of a `WHERE` expression is; `null` is no condition. -/
def conditionOf : Value → Except EvalError (Option Condition)
  | .null => .ok none
  | .condition left op right => .ok (some ⟨left, op, right⟩)
  | other => .error (.invalidCondition other.kind)

/-- The scalars that inserted values are; the first that is none is refused. -/
def scalarsOf : List Value → Except EvalError (List Scalar)
  | [] => .ok []
  | v :: vs =>
    match v.toScalar? with
    | none => .error (.invalidValue v.kind)
    | some s => (scalarsOf vs).map (s :: ·)

/-- The scalars of an array of inserted values. -/
def rowValues : Value → Except EvalError (List Scalar)
  | .array items => scalarsOf items
  | other => .error (.invalidValue other.kind)

/-- Visits a `WHERE` expression; an absent one is `null`. -/
def visitCondition (ev : Evaluator σ ω) : Option Expr → Action EvalError σ ω Value
  | some e => ev.visitExpr e
  | none => pure .null

/-- Handles a selection. -/
def handleSelect (ev : Evaluator σ ω) (s : Select) : Action EvalError σ ω Value := do
  let value ← ev.visitCondition s.condition?
  let condition? ← MonadExcept.ofExcept (conditionOf value)
  let q : Query := ⟨s.table, s.columns, condition?, s.groupBy?⟩
  record (.requesting (.select q))
  let rows ← (ev.select q).adaptExcept .backend
  push (.rows rows)
  return .null

/-- Handles an insertion. -/
def handleInsert (ev : Evaluator σ ω) (i : Insert) : Action EvalError σ ω Value := do
  let value ← ev.visitExpr i.values
  let values ← MonadExcept.ofExcept (rowValues value)
  let insertion : Insertion := ⟨i.table, i.columns?.getD [], values⟩
  record (.requesting (.insert insertion))
  (ev.insert insertion).adaptExcept .backend
  push .null
  return .null

/-- Handles a statement. -/
def handleStatement (ev : Evaluator σ ω) : Statement → Action EvalError σ ω Value
  | .select s => ev.handleSelect s
  | .insert i => ev.handleInsert i

/-! ## Programs -/

/-- Puts the value of a claimed statement on the stack. A handled one has put its result there
itself. -/
def pushClaimed (visit : Visit) : Action EvalError σ ω Unit :=
  if visit.claimed then push visit.value else pure ()

/-- Handles a program: visits its statements in order, so that each leaves one result. -/
def handleProgram (ev : Evaluator σ ω) : Program → Action EvalError σ ω Value
  | [] => return .null
  | s :: rest => do
    let visit ← ev.around s.node (ev.handleStatement s)
    pushClaimed visit
    handleProgram ev rest

/-- Visits any part of a program. -/
def visit (ev : Evaluator σ ω) : Node → Action EvalError σ ω Value
  | .program p => ev.valueOf (.program p) (ev.handleProgram p)
  | .select s => ev.valueOf (.select s) (ev.handleSelect s)
  | .insert i => ev.valueOf (.insert i) (ev.handleInsert i)
  | .names items => ev.valueOf (.names items) (pure (.names items))
  | .expr e => ev.visitExpr e

/-- Visits a part that may be absent; an absent one is `null`. -/
def visit? (ev : Evaluator σ ω) : Option Node → Action EvalError σ ω Value
  | some node => ev.visit node
  | none => pure .null

/-- Runs a program in the present context and answers its stack. -/
def run (ev : Evaluator σ ω) (p : Program) : Action EvalError σ ω (List Value) := do
  let _ ← ev.visit (.program p)
  return (← get).context.stack

/-- Runs a program in a context of its own and answers that context's stack. -/
def execute (ev : Evaluator σ ω) (p : Program) : Action EvalError σ ω (List Value) := fun w =>
  match ev.run p { w with context := .fresh ev.policy } with
  | .ok results w' => .ok results { w' with context := w.context }
  | .error e w' => .error e { w' with context := w.context }

end MiniSql.Evaluator
