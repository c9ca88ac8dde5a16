import MiniSql.Proofs.Frame

/-!
# The stages of a statement

The visit of a statement has two stages. First its result is found: the hooks before it run, and an
extension claims the statement or else the evaluator handles it (`resultOf`). Then the visit is
finished: the hooks after it run, and the result is put on the stack, behind the hooks if the
statement was claimed and before them if not (`finish`). `visitStatement_eq` splits the visit into
these stages. If the hooks keep the context, the first stage keeps it too, and `finish_ok` and
`finish_error` tell what the second one makes of it.
-/

namespace MiniSql.Evaluator

variable {σ ω : Type}

/-! ## The two stages -/

/-- The evaluator's own result of a selection, not yet on the stack. -/
def findRows (ev : Evaluator σ ω) (s : Select) : Action EvalError σ ω Value := do
  let value ← ev.visitCondition s.condition?
  let condition? ← MonadExcept.ofExcept (conditionOf value)
  let q : Query := ⟨s.table, s.columns, condition?, s.groupBy?⟩
  record (.requesting (.select q))
  let rows ← (ev.select q).adaptExcept .backend
  return .rows rows

/-- The evaluator's own result of an insertion, not yet on the stack. -/
def addRow (ev : Evaluator σ ω) (i : Insert) : Action EvalError σ ω Value := do
  let value ← ev.visitExpr i.values
  let values ← MonadExcept.ofExcept (rowValues value)
  let insertion : Insertion := ⟨i.table, i.columns?.getD [], values⟩
  record (.requesting (.insert insertion))
  (ev.insert insertion).adaptExcept .backend
  return .null

def ownResult (ev : Evaluator σ ω) : Statement → Action EvalError σ ω Value
  | .select s => ev.findRows s
  | .insert i => ev.addRow i

def beforeHooks (ev : Evaluator σ ω) (node : Node) : Action EvalError σ ω Unit :=
  runHooks (·.before node) (.before · node ·) ev.extensions.zipIdx

def afterHooks (ev : Evaluator σ ω) (node : Node) : Action EvalError σ ω Unit :=
  runHooks (·.after node) (.after · node ·) ev.extensions.zipIdx

/-- Finds the result of a statement, claimed or not. -/
def resultOf (ev : Evaluator σ ω) (s : Statement) : Action EvalError σ ω Visit := do
  record (.entered s.node)
  ev.beforeHooks s.node
  ev.claimOrHandle s.node (ev.ownResult s)

/-- Finishes the visit of a statement whose result is found. -/
def finish (ev : Evaluator σ ω) (s : Statement) (found : Visit) : Action EvalError σ ω Unit := do
  if found.claimed then pure () else push found.value
  ev.afterHooks s.node
  if found.claimed then push found.value else pure ()

/-- Visits a statement of a program and leaves its result on the stack. -/
def visitStatement (ev : Evaluator σ ω) (s : Statement) : Action EvalError σ ω Unit := do
  let visit ← ev.around s.node (ev.handleStatement s)
  pushClaimed visit

variable (ev : Evaluator σ ω)

/-- A program is its first statement followed by the others. -/
theorem handleProgram_cons_eq (s : Statement) (p : Program) :
    ev.handleProgram (s :: p) = ev.visitStatement s >>= fun _ => ev.handleProgram p := by
  rw [handleProgram, visitStatement, bind_assoc]

/-- A statement that nobody claims pushes its own result. -/
theorem handleStatement_eq_ownResult (s : Statement) :
    ev.handleStatement s = ev.ownResult s >>= fun v => push v >>= fun _ => pure .null := by
  cases s with
  | select s =>
    rw [handleStatement, handleSelect, ownResult, findRows]
    simp only [bind_assoc, pure_bind]
  | insert i =>
    rw [handleStatement, handleInsert, ownResult, addRow]
    simp only [bind_assoc, pure_bind]

/-- A statement first comes to a result and then finishes with it. -/
theorem visitStatement_eq (s : Statement) :
    ev.visitStatement s = ev.resultOf s >>= ev.finish s := by
  rw [visitStatement, around, resultOf, claimOrHandle, claimOrHandle, handleStatement_eq_ownResult]
  simp only [bind_assoc]
  -- the stages are the same up to the claim; behind it only the place of `push` differs
  refine bind_congr fun _ => bind_congr fun _ => bind_congr fun claimed? => ?_
  cases claimed? with
  | some value =>
    simp only [bind_assoc, pure_bind]
    rfl
  | none =>
    simp only [bind_assoc, pure_bind]
    rfl

/-! ## The first stage keeps the context -/

section Keeps

variable {ev} (hkeeps : ∀ x ∈ ev.extensions, x.KeepsContext)

include hkeeps

theorem keeps_beforeHooks (node : Node) : KeepsContext (ev.beforeHooks node) :=
  .runHooks fun _ hx => (hkeeps _ (List.fst_mem_of_mem_zipIdx hx)).before node

theorem keeps_afterHooks (node : Node) : KeepsContext (ev.afterHooks node) :=
  .runHooks fun _ hx => (hkeeps _ (List.fst_mem_of_mem_zipIdx hx)).after node

omit hkeeps in
theorem keeps_claimOrHandle (node : Node) {handle : Action EvalError σ ω Value}
    (hhandle : KeepsContext handle) : KeepsContext (ev.claimOrHandle node handle) := by
  rw [claimOrHandle]
  refine (KeepsContext.claim? ev node).bind fun claimed? => ?_
  cases claimed? with
  | some value => exact (KeepsContext.record _).bind fun _ => .pure _
  | none => exact hhandle.bind fun _ => .pure _

theorem keeps_valueOf (node : Node) {handle : Action EvalError σ ω Value}
    (hhandle : KeepsContext handle) : KeepsContext (ev.valueOf node handle) := by
  rw [valueOf, around]
  refine KeepsContext.bind ?_ fun _ => .pure _
  exact (KeepsContext.record _).bind fun _ => (keeps_beforeHooks hkeeps node).bind fun _ =>
    (keeps_claimOrHandle node hhandle).bind fun _ => (keeps_afterHooks hkeeps node).bind fun _ =>
      .pure _

end Keeps

mutual

/-- Expressions leave the context alone if the hooks do. -/
theorem keeps_visitExpr {ev : Evaluator σ ω} (hkeeps : ∀ x ∈ ev.extensions, x.KeepsContext)
    (e : Expr) : KeepsContext (ev.visitExpr e) := by
  -- by recursion on the expression, as it is visited
  cases e with
  | identifier name =>
    rw [visitExpr]
    exact keeps_valueOf hkeeps _ (.pure _)
  | number x =>
    rw [visitExpr]
    exact keeps_valueOf hkeeps _ (.pure _)
  | string s =>
    rw [visitExpr]
    exact keeps_valueOf hkeeps _ (.pure _)
  | boolean b =>
    rw [visitExpr]
    exact keeps_valueOf hkeeps _ (.pure _)
  | array elements =>
    rw [visitExpr]
    exact keeps_valueOf hkeeps _ ((keeps_visitAll hkeeps elements).bind fun _ => .pure _)
  | binary left op right =>
    rw [visitExpr]
    exact keeps_valueOf hkeeps _ ((keeps_visitExpr hkeeps left).bind fun _ =>
      (keeps_visitExpr hkeeps right).bind fun _ => .pure _)

theorem keeps_visitAll {ev : Evaluator σ ω} (hkeeps : ∀ x ∈ ev.extensions, x.KeepsContext)
    (es : List Expr) : KeepsContext (ev.visitAll es) := by
  cases es with
  | nil =>
    rw [visitAll]
    exact .pure _
  | cons e es =>
    rw [visitAll]
    exact (keeps_visitExpr hkeeps e).bind fun _ => (keeps_visitAll hkeeps es).bind fun _ => .pure _

end

section Statements

variable {ev} (hkeeps : ∀ x ∈ ev.extensions, x.KeepsContext) {s : Statement} {found : Visit}
  {w w' : World σ ω}

include hkeeps

/-- Coming to a result leaves the context alone: only finishing pushes. -/
theorem keeps_ownResult (s : Statement) : KeepsContext (ev.ownResult s) := by
  cases s with
  | select s =>
    have hcondition : KeepsContext (ev.visitCondition s.condition?) := by
      cases s.condition? with
      | none => exact .pure _
      | some e => exact keeps_visitExpr hkeeps e
    exact hcondition.bind fun _ => (KeepsContext.ofExcept _).bind fun _ =>
      (KeepsContext.record _).bind fun _ => (KeepsContext.request _ _).adaptExcept.bind fun _ =>
        .pure _
  | insert i =>
    exact (keeps_visitExpr hkeeps i.values).bind fun _ => (KeepsContext.ofExcept _).bind fun _ =>
      (KeepsContext.record _).bind fun _ => (KeepsContext.request _ _).adaptExcept.bind fun _ =>
        .pure _

theorem keeps_resultOf (s : Statement) : KeepsContext (ev.resultOf s) :=
  (KeepsContext.record _).bind fun _ => (keeps_beforeHooks hkeeps _).bind fun _ =>
    keeps_claimOrHandle _ (keeps_ownResult hkeeps s)

/-! ## The second stage -/

omit hkeeps in
/-- A claimed result is pushed when all after hooks have succeeded. -/
theorem finish_claimed (value : Value) :
    ev.finish s ⟨value, true⟩ w = (ev.afterHooks s.node >>= fun _ => push value) w := rfl

omit hkeeps in
/-- The own result of a statement is pushed before its after hooks run. -/
theorem finish_unclaimed (value : Value) : ev.finish s ⟨value, false⟩ w =
    ev.afterHooks s.node { w with context := w.context.push value } := by
  have hfinish : ev.finish s ⟨value, false⟩ w = (ev.afterHooks s.node >>= fun _ => pure ())
      { w with context := w.context.push value } := rfl
  rw [hfinish, bind_pure_unit]

/-- Either way a statement that finishes has pushed one value. -/
theorem finish_ok (h : ev.finish s found w = .ok () w') :
    w'.context = w.context.push found.value := by
  have hhooks := keeps_afterHooks hkeeps s.node
  obtain ⟨value, claimed⟩ := found
  cases claimed with
  | true =>
    rw [finish_claimed] at h
    obtain ⟨_, w₁, hafter, hpush⟩ := bind_ok h
    rw [push_eq] at hpush
    obtain rfl := (EStateM.Result.ok.inj hpush).2
    rw [hhooks.of_ok hafter]
  | false =>
    rw [finish_unclaimed] at h
    exact hhooks.of_ok h

/-- A result that the evaluator found itself is on the stack already when a hook after the statement
fails, a claimed one is not. -/
theorem finish_error {e : EvalError} (h : ev.finish s found w = .error e w') :
    w'.context = if found.claimed then w.context else w.context.push found.value := by
  have hhooks := keeps_afterHooks hkeeps s.node
  obtain ⟨value, claimed⟩ := found
  cases claimed with
  | true =>
    rw [finish_claimed] at h
    -- putting the value on the stack cannot fail
    obtain hafter | ⟨_, _, _, hpush⟩ := bind_error h
    · exact hhooks.of_error hafter
    · rw [push_eq] at hpush
      nomatch hpush
  | false =>
    rw [finish_unclaimed] at h
    exact hhooks.of_error h

end Statements

end MiniSql.Evaluator
