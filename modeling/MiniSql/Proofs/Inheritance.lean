import MiniSql.Proofs.Parsing

/-!
# Inherited properties of rules

A rule is built of others, down to the rules for single tokens and those for arrays, which call each
other. A property is *inherited* if it holds of these and no way to build a rule loses it
(`Inherited`). Then all rules of the grammar have it, and so has the rule for programs
(`Inherited.program`).
-/

namespace MiniSql.Grammar

/-- What is true of the simple rules, and of a rule built of others if it is of them. -/
structure Inherited (P : ∀ {α : Type}, Rule α → Prop) : Prop where
  pure : ∀ {α : Type} (a : α), P (Pure.pure a : Rule α)
  bind : ∀ {α β : Type} {rule : Rule α} {f : α → Rule β}, P rule → (∀ a, P (f a)) → P (rule >>= f)
  one : ∀ {α : Type} {what : Expectation} {read? : Token → Option α}, P (Rule.one what read?)
  take? : ∀ {α : Type} {read? : Token → Option α}, P (Rule.take? read?)
  choose : ∀ {α : Type} {what : Expectation} {rule? : Token → Option (Rule α)},
    (∀ t rule, rule? t = some rule → P rule) → P (Rule.choose what rule?)
  many : ∀ {α : Type} {starts : Token → Bool} {rule : Rule α},
    P rule → P (Rule.many starts rule : Rule (List α))
  toEnd : ∀ {α : Type} {what : Expectation} {rule? : Token → Option (Rule α)},
    (∀ t rule, rule? t = some rule → P rule) → P (Rule.toEnd what rule? : Rule (List α))
  primary : P primary
  arrayTail : P arrayTail

namespace Inherited

variable {P : ∀ {α : Type}, Rule α → Prop} (h : Inherited @P) {α : Type} {rule : Rule α}

include h

theorem accept {test : Token → Bool} : P (Rule.accept test) := h.bind h.take? fun _ => h.pure _

/-! ## Expressions -/

theorem array : P array := h.bind h.one fun _ => h.bind h.arrayTail fun _ => h.pure _

theorem atMostOne {op? : TokenKind → Option BinaryOp} {operand : Rule Expr} (hoperand : P operand) :
    P (atMostOne op? operand) := by
  refine h.bind hoperand fun l => h.bind h.take? fun op => ?_
  cases op with
  | none => exact h.pure _
  | some op => exact h.bind hoperand fun _ => h.pure _

/-- What rules hand down, a chain of operands has from its operand. -/
theorem joined {word : String} {op : BinaryOp} {operand : Rule Expr} (hoperand : P operand) :
    P (joined word op operand) :=
  h.bind hoperand fun _ => h.bind (h.many hoperand) fun _ => h.pure _

theorem expression : P expression :=
  have hequality : P equality := h.atMostOne (h.atMostOne h.primary)
  h.joined (h.joined hequality)

/-! ## Statements -/

theorem names : P names := h.bind h.one fun _ => h.bind (h.many h.one) fun _ => h.pure _

theorem optional {starts : Token → Bool} (hrule : P rule) : P (optional starts rule) := by
  refine h.bind h.accept fun taken => ?_
  cases taken with
  | false => exact h.pure _
  | true => exact h.bind hrule fun _ => h.pure _

theorem selectTail : P selectTail := by
  have hfrom (columns : List String) : P (selectFrom columns) :=
    h.bind h.one fun _ => h.bind h.one fun _ => h.bind (h.optional h.expression) fun _ =>
      h.bind (h.optional (h.bind h.one fun _ => h.names)) fun _ => h.pure _
  refine h.bind h.accept fun star => ?_
  cases star with
  | false => exact h.bind h.names hfrom
  | true => exact h.bind (h.pure []) hfrom

theorem insertTail : P insertTail :=
  have htargets : P (do let columns ← Grammar.names; Rule.token .rightParen; return columns) :=
    h.bind h.names fun _ => h.bind h.one fun _ => h.pure _
  h.bind h.one fun _ => h.bind h.one fun _ => h.bind (h.optional htargets) fun _ =>
    h.bind h.one fun _ => h.bind h.array fun _ => h.pure _

theorem statementBehind? {t : Token} {rule : Rule Statement}
    (hrule : statementBehind? t = some rule) : P rule := by
  unfold Grammar.statementBehind? at hrule
  split at hrule
  · obtain rfl := Option.some.inj hrule
    exact h.bind h.selectTail fun _ => h.bind h.one fun _ => h.pure _
  · split at hrule
    · obtain rfl := Option.some.inj hrule
      exact h.bind h.insertTail fun _ => h.bind h.one fun _ => h.pure _
    · nomatch hrule

/-- Programs have what all rules hand down. -/
theorem program : P program :=
  h.bind (h.choose fun _ _ => h.statementBehind?) fun _ =>
    h.bind (h.toEnd fun _ _ => h.statementBehind?) fun _ => h.pure _

end Inherited

end MiniSql.Grammar
