import MiniSql.Proofs.Parsing

/-!
# Rules do not see places

A change of tokens that keeps their kinds and texts (`Relocates`), such as moving them to other
places, carries over to what a rule makes of them: the result is the same, and the tokens that are
left are changed likewise (`Rule.Blind`). Every way to build a rule keeps this, so the rules of the
grammar have it. Only the rules for arrays are not built from others: they call each other, and
their lemmas follow that recursion.
-/

namespace MiniSql

variable {α β : Type} {g : Token → Token}

/-- The change keeps the kind and the text of every token. -/
structure Relocates (g : Token → Token) : Prop where
  kind : ∀ t, (g t).kind = t.kind
  text : ∀ t, (g t).text = t.text

/-- The step that changed tokens lead to. -/
def Step.relocate (g : Token → Token) {ts : List Token} (step : Step α ts) : Step α (ts.map g) :=
  ⟨step.result, step.rest.map g, step.suffix.map g⟩

namespace Relocates

variable (hg : Relocates g) (t : Token)

include hg

theorem render : (g t).render = t.render := by
  rw [Token.render, Token.render, hg.kind, hg.text]

theorem isKeyword (word : String) : (g t).isKeyword word = t.isKeyword word := by
  rw [Token.isKeyword, Token.isKeyword, hg.kind, hg.text]

end Relocates

namespace Rule

/-- Changed tokens lead the rule to the same result, and leave the changed rest. -/
def Blind (g : Token → Token) (rule : Rule α) : Prop :=
  ∀ ts, rule (ts.map g) = (rule ts).relocate g

namespace Blind

variable {rule : Rule α}

theorem pure (a : α) : Blind g (pure a : Rule α) := fun _ => rfl

theorem bind {f : α → Rule β} (hrule : Blind g rule) (hf : ∀ a, Blind g (f a)) :
    Blind g (rule >>= f) := by
  intro ts
  simp only [Bind.bind]
  rw [hrule ts]
  rcases rule ts with ⟨result, rest, h⟩
  cases result with
  | error c => rfl
  | ok a =>
    simp only [Step.relocate]
    rw [hf a rest]
    rfl

theorem one {what : Expectation} {read? : Token → Option α} (hread : ∀ t, read? (g t) = read? t) :
    Blind g (one what read?) := by
  intro ts
  cases ts with
  | nil => rfl
  | cons t ts =>
    show Rule.one what read? (g t :: ts.map g) = (Rule.one what read? (t :: ts)).relocate g
    simp only [Rule.one, hread]
    cases read? t <;> rfl

theorem take? {read? : Token → Option α} (hread : ∀ t, read? (g t) = read? t) :
    Blind g (take? read?) := by
  intro ts
  cases ts with
  | nil => rfl
  | cons t ts =>
    show Rule.take? read? (g t :: ts.map g) = (Rule.take? read? (t :: ts)).relocate g
    simp only [Rule.take?, hread]
    cases read? t <;> rfl

theorem accept {test : Token → Bool} (htest : ∀ t, test (g t) = test t) :
    Blind g (accept test) := by
  refine bind (take? fun t => ?_) fun _ => pure _
  rw [htest]

theorem keyword (hg : Relocates g) (word : String) : Blind g (keyword word) :=
  one fun t => by rw [hg.isKeyword]

theorem token (hg : Relocates g) (kind : TokenKind) : Blind g (token kind) :=
  one fun t => by rw [hg.kind]

theorem identifier (hg : Relocates g) (what : Expectation) : Blind g (identifier what) :=
  one fun t => by rw [hg.kind, hg.text]

theorem choose {what : Expectation} {rule? : Token → Option (Rule α)}
    (hsame : ∀ t, rule? (g t) = rule? t) (hrule : ∀ t rule, rule? t = some rule → Blind g rule) :
    Blind g (choose what rule?) := by
  intro ts
  cases ts with
  | nil => rfl
  | cons t ts =>
    show Rule.choose what rule? (g t :: ts.map g) = (Rule.choose what rule? (t :: ts)).relocate g
    simp only [Rule.choose, hsame]
    cases h : rule? t with
    | none => rfl
    | some rule =>
      simp only
      rw [hrule t rule h ts]
      rfl

/-- Repeating a rule does not make it see positions. -/
theorem many {starts : Token → Bool} (hstarts : ∀ t, starts (g t) = starts t)
    (hrule : Blind g rule) : Blind g (many starts rule) := by
  -- by induction on the number of tokens: a round takes its starting token
  intro ts
  induction hn : ts.length using Nat.strongRecOn generalizing ts with
  | _ n ih =>
    cases ts with
    | nil =>
      show Rule.many starts rule [] = (Rule.many starts rule []).relocate g
      rw [many_nil]
      rfl
    | cons t ts =>
      show Rule.many starts rule (g t :: ts.map g) = (Rule.many starts rule (t :: ts)).relocate g
      rw [many_cons, many_cons, hstarts, hrule ts]
      cases starts t with
      | false => rfl
      | true =>
        rcases rule ts with ⟨result, rest, h⟩
        cases result with
        | error c => rfl
        | ok a =>
          have hrest := ih rest.length (by have := h.length_le; simp at hn; omega) rest rfl
          simp only [Step.relocate, if_true]
          rw [hrest]
          rfl

theorem toEnd {what : Expectation} {rule? : Token → Option (Rule α)}
    (hsame : ∀ t, rule? (g t) = rule? t) (hrule : ∀ t rule, rule? t = some rule → Blind g rule) :
    Blind g (toEnd what rule?) := by
  intro ts
  induction hn : ts.length using Nat.strongRecOn generalizing ts with
  | _ n ih =>
    cases ts with
    | nil =>
      show Rule.toEnd what rule? [] = (Rule.toEnd what rule? []).relocate g
      rw [toEnd_nil]
      rfl
    | cons t ts =>
      show Rule.toEnd what rule? (g t :: ts.map g) = (Rule.toEnd what rule? (t :: ts)).relocate g
      rw [toEnd_cons, toEnd_cons, hsame]
      cases hchosen : rule? t with
      | none => rfl
      | some rule =>
        simp only
        rw [hrule t rule hchosen ts]
        rcases rule ts with ⟨result, rest, h⟩
        cases result with
        | error c => rfl
        | ok a =>
          have hrest := ih rest.length (by have := h.length_le; simp at hn; omega) rest rfl
          simp only [Step.relocate]
          rw [hrest]
          rfl

end Blind

end Rule

namespace Grammar

open Rule

/-! ## Arrays and primaries -/

/- The parser's own recursion. -/
mutual

/-- Primary expressions are read alike wherever their tokens stand. -/
theorem primary_blind (hg : Relocates g) (ts : List Token) :
    primary (ts.map g) = (primary ts).relocate g := by
  cases ts with
  | nil =>
    show primary [] = (primary []).relocate g
    rw [primary]
    rfl
  | cons t ts =>
    show primary (g t :: ts.map g) = (primary (t :: ts)).relocate g
    rw [primary, primary, hg.kind, hg.text]
    cases t.kind with
    | number => cases Numeral.read? t.text <;> rfl
    | leftParen =>
      simp only
      rw [arrayTail_blind hg ts]
      rfl
    | _ => rfl
termination_by 3 * ts.length

theorem arrayTail_blind (hg : Relocates g) (ts : List Token) :
    arrayTail (ts.map g) = (arrayTail ts).relocate g := by
  cases ts with
  | nil =>
    show arrayTail [] = (arrayTail []).relocate g
    rw [arrayTail]
    rfl
  | cons t ts =>
    show arrayTail (g t :: ts.map g) = (arrayTail (t :: ts)).relocate g
    rw [arrayTail, arrayTail, hg.kind]
    split
    · rfl
    · exact elements_blind hg (t :: ts)
termination_by 3 * ts.length + 2

theorem elements_blind (hg : Relocates g) (ts : List Token) :
    elements (ts.map g) = (elements ts).relocate g := by
  rw [elements, elements, primary_blind hg ts]
  rcases primary ts with ⟨result, rest, h⟩
  cases result with
  | error c => rfl
  | ok e =>
    cases rest with
    | nil => rfl
    | cons t rest =>
      simp only [Step.relocate, List.map_cons, hg.kind]
      split
      · rw [elements_blind hg rest]
        rfl
      · split <;> rfl
termination_by 3 * ts.length + 1
decreasing_by
  · omega
  · have := h.length_le
    simp only [List.length_cons] at this
    omega

end

variable (hg : Relocates g)

include hg

theorem blind_array : Blind g array :=
  (Blind.token hg _).bind fun _ => Blind.bind (arrayTail_blind hg) fun _ => .pure _

/-! ## Operators -/

theorem blind_atMostOne {op? : TokenKind → Option BinaryOp} {operand : Rule Expr}
    (hoperand : Blind g operand) : Blind g (atMostOne op? operand) := by
  refine hoperand.bind fun left => (Blind.take? fun t => by rw [hg.kind]).bind fun op => ?_
  cases op with
  | none => exact .pure _
  | some op => exact hoperand.bind fun _ => .pure _

theorem blind_joined {word : String} {op : BinaryOp} {operand : Rule Expr}
    (hoperand : Blind g operand) : Blind g (joined word op operand) :=
  hoperand.bind fun _ => (hoperand.many fun t => hg.isKeyword t word).bind fun _ => .pure _

theorem blind_expression : Blind g expression :=
  have hequality : Blind g equality :=
    blind_atMostOne hg (blind_atMostOne hg (primary_blind hg))
  blind_joined hg (blind_joined hg hequality)

/-! ## Statements -/

theorem blind_names : Blind g names :=
  (Blind.identifier hg _).bind fun _ =>
    ((Blind.identifier hg _).many fun t => by rw [hg.kind]).bind fun _ => .pure _

omit hg in
theorem blind_optional {starts : Token → Bool} {rule : Rule α}
    (hstarts : ∀ t, starts (g t) = starts t) (hrule : Blind g rule) :
    Blind g (optional starts rule) := by
  refine (Blind.accept hstarts).bind fun taken => ?_
  cases taken with
  | false => exact .pure _
  | true => exact hrule.bind fun _ => .pure _

theorem blind_selectTail : Blind g selectTail := by
  have hfrom (columns : List String) : Blind g (selectFrom columns) :=
    (Blind.keyword hg _).bind fun _ => (Blind.identifier hg _).bind fun _ =>
      (blind_optional (hg.isKeyword · _) (blind_expression hg)).bind fun _ =>
        (blind_optional (hg.isKeyword · _)
          ((Blind.keyword hg _).bind fun _ => blind_names hg)).bind fun _ => .pure _
  refine (Blind.accept fun t => by rw [hg.kind]).bind fun star => ?_
  cases star with
  | false => exact (blind_names hg).bind hfrom
  | true => exact (Blind.pure []).bind hfrom

theorem blind_insertTail : Blind g insertTail := by
  refine (Blind.keyword hg _).bind fun _ => (Blind.identifier hg _).bind fun _ => ?_
  refine (blind_optional (fun t => by rw [hg.kind]) ?_).bind fun _ =>
    (Blind.keyword hg _).bind fun _ => (blind_array hg).bind fun _ => .pure _
  exact (blind_names hg).bind fun _ => (Blind.token hg _).bind fun _ => .pure _

/-- Which statement begins is told by the kind and the text of its keyword. -/
theorem statementBehind?_relocated (t : Token) : statementBehind? (g t) = statementBehind? t := by
  rw [statementBehind?, statementBehind?, hg.isKeyword, hg.isKeyword]

theorem blind_statementBehind? (t : Token) (rule : Rule Statement)
    (h : statementBehind? t = some rule) : Blind g rule := by
  unfold statementBehind? at h
  split at h
  · obtain rfl := Option.some.inj h
    exact (blind_selectTail hg).bind fun _ => (Blind.token hg _).bind fun _ => .pure _
  · split at h
    · obtain rfl := Option.some.inj h
      exact (blind_insertTail hg).bind fun _ => (Blind.token hg _).bind fun _ => .pure _
    · cases h

/-- Programs are read alike wherever their tokens stand. -/
theorem blind_program : Blind g program :=
  (Blind.choose (statementBehind?_relocated hg) (blind_statementBehind? hg)).bind fun _ =>
    (Blind.toEnd (statementBehind?_relocated hg) (blind_statementBehind? hg)).bind fun _ =>
      .pure _

end Grammar

end MiniSql
