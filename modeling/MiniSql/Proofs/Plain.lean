import MiniSql.Proofs.Effects

/-!
# Evaluation without extensions

Without extensions the visit of a node is its handling, and expressions only build values:
`visitExpr_eq` computes the value and the nodes entered. A statement then amounts to the request
that it makes, `Statement.request`, or to the error that keeps it from making one, and `perform`
computes its visit from the backend's reply to that request. `handleProgram_cons` is the step of a
run, and `run_eq` reduces a run to its steps.
-/

namespace MiniSql

/-! ## The value of an expression -/

mutual

def Expr.value : Expr → Value
  | .identifier name => .name name
  | .number x => .scalar (.number x)
  | .string s => .scalar (.text s)
  | .boolean b => .scalar (.boolean b)
  | .array elements => .array (Expr.values elements)
  | .binary left op right => .condition left.value op.text right.value

def Expr.values : List Expr → List Value
  | [] => []
  | e :: es => e.value :: Expr.values es

end

mutual

/-- The nodes that visiting an expression enters, in order. -/
def Expr.entries : Expr → List Event
  | .array elements => .entered (.expr (.array elements)) :: Expr.entriesOfEach elements
  | .binary left op right =>
    .entered (.expr (.binary left op right)) :: (left.entries ++ right.entries)
  | e => [.entered (.expr e)]

def Expr.entriesOfEach : List Expr → List Event
  | [] => []
  | e :: es => e.entries ++ Expr.entriesOfEach es

end

/-! ## The request of a statement -/

namespace Select

/-- What the evaluator makes of the `WHERE` clause. -/
def conditionValue (s : Select) : Value := s.condition?.elim .null Expr.value

def query (s : Select) (condition? : Option Condition) : Query :=
  ⟨s.table, s.columns, condition?, s.groupBy?⟩

def entries (s : Select) : List Event :=
  .entered (.select s) :: s.condition?.elim [] Expr.entries

end Select

namespace Insert

def insertion (i : Insert) (values : List Scalar) : Insertion :=
  ⟨i.table, i.columns?.getD [], values⟩

def entries (i : Insert) : List Event := .entered (.insert i) :: i.values.entries

end Insert

def Statement.entries : Statement → List Event
  | select s => s.entries
  | insert i => i.entries

def Statement.request : Statement → Except EvalError Request
  | select s => (Evaluator.conditionOf s.conditionValue).map fun c? => .select (s.query c?)
  | insert i => (Evaluator.rowValues i.values.value).map fun vs => .insert (i.insertion vs)

/-- The backend's reply to a request, as the result that the statement leaves. -/
def Backend.reply {σ : Type} (b : Backend σ) (r : Request) (state : σ) : Reply σ Value :=
  match r with
  | .select q =>
    let reply := b.select q state
    ⟨reply.answer.map .rows, reply.state, reply.remarks⟩
  | .insert i =>
    let reply := b.insert i state
    ⟨reply.answer.map fun _ => .null, reply.state, reply.remarks⟩

/-- Without claims both policies leave a node to the evaluator. -/
theorem ClaimPolicy.resolve_nil (policy : ClaimPolicy) : policy.resolve [] = ⟨[], none⟩ := by
  cases policy with
  | race => simp [resolve, order, settle]
  | ordered => rfl

namespace Evaluator

/-- What a statement does: it makes its request, unless it is at fault, and leaves the reply on the
stack. -/
def perform {σ ω : Type} (b : Backend σ) (s : Statement) : Action EvalError σ ω Unit := fun w =>
  match s.request with
  | .error e => .error e (w.log s.entries)
  | .ok r =>
    let reply := b.reply r w.state
    let answered := (w.log (s.entries ++ [.requesting r])).answered r reply
    match reply.answer with
    | .ok v => .ok () { answered with context := w.context.push v }
    | .error e => .error (.backend e) answered

section Perform

variable {σ ω : Type} {b : Backend σ} {s : Statement} {w : World σ ω}

theorem perform_of_error {e : EvalError} (h : s.request = .error e) :
    perform b s w = .error e (w.log s.entries) := by
  rw [perform, h]

theorem perform_of_ok {r : Request} (h : s.request = .ok r) :
    perform b s w = match (b.reply r w.state).answer with
      | .ok v => .ok () { (w.log (s.entries ++ [.requesting r])).answered r (b.reply r w.state) with
          context := w.context.push v }
      | .error e => .error (.backend e)
          ((w.log (s.entries ++ [.requesting r])).answered r (b.reply r w.state)) := by
  rw [perform, h]

end Perform

variable {σ ω : Type} {ev : Evaluator σ ω}

/-! ## Visits -/

section Visits

variable (hev : ev.extensions = []) (w : World σ ω)

include hev

/-- Without extensions nobody claims a node. -/
theorem claim?_eq_none (node : Node) : ev.claim? node w = .ok none w := by
  rw [claim?, hev]
  show (do
      let resolution := w.context.policy.resolve []
      recordAll (resolution.settled.flatMap (settledEvents node))
      return resolution.value? : Action EvalError σ ω (Option Value)) w = _
  rw [ClaimPolicy.resolve_nil]
  rfl

/-- Without extensions every node is left to its handling. -/
theorem claimOrHandle_eq (node : Node) (handle : Action EvalError σ ω Value) :
    ev.claimOrHandle node handle w = match handle w with
      | .ok v w' => .ok ⟨v, false⟩ w'
      | .error e w' => .error e w' := by
  rw [claimOrHandle, bind_of_ok (claim?_eq_none hev w node)]
  show (handle >>= fun v => pure ⟨v, false⟩ : Action EvalError σ ω Visit) w = _
  rw [bind_eq]
  cases handle w <;> rfl

/-- Without extensions a node is entered and handled, and nothing else. -/
theorem around_eq (node : Node) (handle : Action EvalError σ ω Value) :
    ev.around node handle w = match handle (w.log [.entered node]) with
      | .ok v w' => .ok ⟨v, false⟩ w'
      | .error e w' => .error e w' := by
  have hhooks {hook : Extension ω → Hook ω} {event : Nat → Nat → Event} (w : World σ ω) :
      runHooks hook event ev.extensions.zipIdx w = .ok () w := by
    rw [hev]
    rfl
  rw [around, bind_of_ok (record_eq w _), bind_of_ok (hhooks _), bind_eq, claimOrHandle_eq hev]
  cases handle (w.log [.entered node]) with
  | ok v w' =>
    dsimp only
    rw [bind_of_ok (hhooks w')]
    rfl
  | error e w' => rfl

theorem valueOf_eq (node : Node) (handle : Action EvalError σ ω Value) :
    ev.valueOf node handle w = handle (w.log [.entered node]) := by
  rw [valueOf, bind_eq, around_eq hev]
  cases handle (w.log [.entered node]) <;> rfl

end Visits

/-! ## Expressions -/

mutual

/-- Without extensions an expression has its own value, and each of its nodes is entered. -/
theorem visitExpr_eq (hev : ev.extensions = []) (e : Expr) (w : World σ ω) :
    ev.visitExpr e w = .ok e.value (w.log e.entries) := by
  -- by recursion on the expression, as it is visited
  cases e with
  | identifier name =>
    rw [visitExpr, valueOf_eq hev]
    rfl
  | number x =>
    rw [visitExpr, valueOf_eq hev]
    rfl
  | string s =>
    rw [visitExpr, valueOf_eq hev]
    rfl
  | boolean b =>
    rw [visitExpr, valueOf_eq hev]
    rfl
  | array elements =>
    rw [visitExpr, valueOf_eq hev, map_of_ok (visitAll_eq hev elements _), World.log_log]
    rfl
  | binary left op right =>
    rw [visitExpr, valueOf_eq hev, bind_of_ok (visitExpr_eq hev left _),
      map_of_ok (visitExpr_eq hev right _), World.log_log, World.log_log]
    rfl

theorem visitAll_eq (hev : ev.extensions = []) (es : List Expr) (w : World σ ω) :
    ev.visitAll es w = .ok (Expr.values es) (w.log (Expr.entriesOfEach es)) := by
  cases es with
  | nil =>
    rw [visitAll, Expr.entriesOfEach, World.log_nil]
    rfl
  | cons e es =>
    rw [visitAll, bind_of_ok (visitExpr_eq hev e w), map_of_ok (visitAll_eq hev es _),
      World.log_log]
    rfl

end

/-! ## Statements -/

section Statements

variable (hev : ev.extensions = []) (w : World σ ω)

include hev

theorem visitCondition_eq (condition? : Option Expr) :
    ev.visitCondition condition? w =
      .ok (condition?.elim .null Expr.value) (w.log (condition?.elim [] Expr.entries)) := by
  cases condition? with
  | none =>
    show EStateM.Result.ok Value.null w = .ok .null (w.log [])
    rw [World.log_nil]
  | some e => exact visitExpr_eq hev e w

omit hev in
/-- How a handler ends that has made up its request. -/
theorem ask_eq {α : Type} (r : Request) (ask : σ → Reply σ α) (result : α → Value) :
    (do
      record (.requesting r)
      let a ← (request r ask).adaptExcept .backend
      push (result a)
      return .null : Action EvalError σ ω Value) w =
    match (ask w.state).answer with
    | .ok a => .ok .null { (w.log [.requesting r]).answered r (ask w.state) with
        context := w.context.push (result a) }
    | .error e => .error (.backend e) ((w.log [.requesting r]).answered r (ask w.state)) := by
  -- entering that a request is made changes nothing that the backend sees
  have hrequest := request_eq (w.log [.requesting r]) r ask
  rw [World.log_state] at hrequest
  rw [bind_of_ok (record_eq w _)]
  cases hanswer : (ask w.state).answer with
  | ok a =>
    rw [hanswer] at hrequest
    rw [bind_of_ok (adaptExcept_of_ok hrequest)]
    rfl
  | error e =>
    rw [hanswer] at hrequest
    rw [bind_of_error (adaptExcept_of_error hrequest)]

/-- Without extensions a `SELECT` is performed when its condition has been evaluated. -/
theorem handleSelect_eq (s : Select) :
    ev.handleSelect s (w.log [.entered (.select s)]) =
      match perform ev.backend (.select s) w with
      | .ok () w' => .ok .null w'
      | .error e w' => .error e w' := by
  have hvalue := visitCondition_eq hev (w.log [.entered (.select s)]) s.condition?
  rw [World.log_log] at hvalue
  rw [handleSelect, bind_of_ok hvalue]
  cases hcondition : conditionOf s.conditionValue with
  | error e =>
    have hrequest : (Statement.select s).request = .error e := by
      rw [Statement.request, hcondition]
      rfl
    rw [show conditionOf (s.condition?.elim .null Expr.value) = .error e from hcondition,
      perform_of_error hrequest]
    rfl
  | ok c? =>
    have hrequest : (Statement.select s).request = .ok (.select (s.query c?)) := by
      rw [Statement.request, hcondition]
      rfl
    rw [show conditionOf (s.condition?.elim .null Expr.value) = .ok c? from hcondition,
      perform_of_ok hrequest, bind_of_ok (ofExcept_ok _ _)]
    have hask := ask_eq (w.log s.entries) (.select (s.query c?)) (ev.backend.select (s.query c?))
      Value.rows
    refine hask.trans ?_
    rw [World.log_log, World.log_state, World.log_context, Backend.reply]
    cases hanswer : (ev.backend.select (s.query c?) w.state).answer <;> rfl

/-- Without extensions an `INSERT` is performed when its values have been evaluated. -/
theorem handleInsert_eq (i : Insert) :
    ev.handleInsert i (w.log [.entered (.insert i)]) =
      match perform ev.backend (.insert i) w with
      | .ok () w' => .ok .null w'
      | .error e w' => .error e w' := by
  have hvalue := visitExpr_eq hev i.values (w.log [.entered (.insert i)])
  rw [World.log_log] at hvalue
  rw [handleInsert, bind_of_ok hvalue]
  cases hvalues : rowValues i.values.value with
  | error e =>
    have hrequest : (Statement.insert i).request = .error e := by
      rw [Statement.request, hvalues]
      rfl
    rw [perform_of_error hrequest]
    rfl
  | ok vs =>
    have hrequest : (Statement.insert i).request = .ok (.insert (i.insertion vs)) := by
      rw [Statement.request, hvalues]
      rfl
    rw [perform_of_ok hrequest, bind_of_ok (ofExcept_ok _ _)]
    have hask := ask_eq (w.log i.entries) (.insert (i.insertion vs))
      (ev.backend.insert (i.insertion vs)) fun _ => Value.null
    refine hask.trans ?_
    rw [World.log_log, World.log_state, World.log_context, Backend.reply]
    cases hanswer : (ev.backend.insert (i.insertion vs) w.state).answer <;> rfl

/-- Without extensions a statement is performed as the request that is made of it. -/
theorem handleStatement_eq (s : Statement) :
    ev.handleStatement s (w.log [.entered s.node]) =
      match perform ev.backend s w with
      | .ok () w' => .ok .null w'
      | .error e w' => .error e w' := by
  cases s with
  | select s => exact handleSelect_eq hev w s
  | insert i => exact handleInsert_eq hev w i

theorem visit_statement_eq (s : Statement) :
    ev.visit s.node w = match perform ev.backend s w with
      | .ok () w' => .ok .null w'
      | .error e w' => .error e w' := by
  cases s with
  | select s =>
    rw [Statement.node, visit, valueOf_eq hev]
    exact handleSelect_eq hev w s
  | insert i =>
    rw [Statement.node, visit, valueOf_eq hev]
    exact handleInsert_eq hev w i

/-! ## Programs -/

/-- Without extensions a program performs its statements one after another, up to the
first failure. -/
theorem handleProgram_cons (s : Statement) (p : Program) :
    ev.handleProgram (s :: p) w = match perform ev.backend s w with
      | .ok () w' => ev.handleProgram p w'
      | .error e w' => .error e w' := by
  rw [handleProgram, bind_eq, around_eq hev, handleStatement_eq hev]
  cases perform ev.backend s w <;> rfl

/-- Without extensions a run answers with the stack that its statements leave. -/
theorem run_eq (p : Program) :
    ev.run p w = match ev.handleProgram p (w.log [.entered (.program p)]) with
      | .ok _ w' => .ok w'.context.stack w'
      | .error e w' => .error e w' := by
  have hvisit : ev.visit (.program p) w = ev.handleProgram p (w.log [.entered (.program p)]) := by
    rw [visit, valueOf_eq hev]
  rw [run, bind_eq, hvisit]
  cases ev.handleProgram p (w.log [.entered (.program p)]) <;> rfl

end Statements

end Evaluator

end MiniSql
