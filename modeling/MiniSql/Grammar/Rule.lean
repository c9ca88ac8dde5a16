import MiniSql.Grammar.Error

/-!
# Rules of a grammar

A rule reads tokens from the front of a list. Its outcome is a value or a complaint, and in both
cases the tokens it has left, which are a suffix of those it was given. A rule that complains has
not taken the token it complains about, so the rest of a failed rule says where it stopped.

Rules are joined by `do`. Repetition has two forms: `many` goes on as long as a starting token is
there, `toEnd` as long as there are tokens at all. Both end because each round takes a token.
-/

namespace MiniSql

/-- What a rule makes of the tokens `ts`: its result, and the tokens it has left. -/
structure Step (α : Type) (ts : List Token) where
  result : Except Complaint α
  rest : List Token
  suffix : rest <:+ ts

namespace Step

variable {α β : Type} {ts us : List Token}

/-- The same outcome, seen from a list that is longer at its front. -/
def widen (step : Step α us) (h : us <:+ ts) : Step α ts :=
  ⟨step.result, step.rest, step.suffix.trans h⟩

/-- Changes the value of a step that has one. -/
def map (f : α → β) (step : Step α ts) : Step β ts :=
  ⟨step.result.map f, step.rest, step.suffix⟩

/-- A step that has a value and takes nothing. -/
def done (a : α) : Step α ts := ⟨.ok a, ts, List.suffix_rfl⟩

/-- A step that complains about the next token. -/
def stuck (c : Complaint) : Step α ts := ⟨.error c, ts, List.suffix_rfl⟩

/-- A step that takes one token. -/
def took (a : α) {t : Token} : Step α (t :: ts) := ⟨.ok a, ts, List.suffix_cons t ts⟩

end Step

/-- A rule: what it makes of any list of tokens. -/
def Rule (α : Type) : Type := (ts : List Token) → Step α ts

namespace Rule

variable {α β : Type}

instance : Monad Rule where
  pure a := fun _ => .done a
  bind rule f := fun ts =>
    match rule ts with
    | ⟨.ok a, rest, h⟩ => (f a rest).widen h
    | ⟨.error c, rest, h⟩ => ⟨.error c, rest, h⟩

/-- Takes the next token if it can be read, and tells what was read. -/
def take? (read? : Token → Option α) : Rule (Option α)
  | [] => .done none
  | t :: _ =>
    match read? t with
    | some a => .took (some a)
    | none => .done none

/-- Takes the next token if it passes a test, and tells whether it did. -/
def accept (test : Token → Bool) : Rule Bool := do
  let taken ← take? fun t => if test t then some () else none
  return taken.isSome

/-- Takes the next token, which must be readable. -/
def one (what : Expectation) (read? : Token → Option α) : Rule α
  | [] => .stuck (.expected what)
  | t :: _ =>
    match read? t with
    | some a => .took a
    | none => .stuck (.expected what)

/-- Takes a keyword. -/
def keyword (word : String) : Rule Unit :=
  one (.keyword word) fun t => if t.isKeyword word then some () else none

/-- Takes a token of the given kind. -/
def token (kind : TokenKind) : Rule Unit :=
  one (.token kind) fun t => if t.kind = kind then some () else none

/-- Takes an identifier, whatever its spelling. -/
def identifier (what : Expectation) : Rule String :=
  one what fun t => if t.kind = .identifier then some t.text else none

/-- Takes one token, which chooses the rule for what follows it. -/
def choose (what : Expectation) (rule? : Token → Option (Rule α)) : Rule α
  | [] => .stuck (.expected what)
  | t :: ts =>
    match rule? t with
    | some rule => (rule ts).widen (List.suffix_cons t ts)
    | none => .stuck (.expected what)

/-! ## Repetition -/

/-- Takes a starting token and applies a rule behind it, as long as there is such a token. -/
def many (starts : Token → Bool) (rule : Rule α) : (ts : List Token) → Step (List α) ts
  | [] => .done []
  | t :: ts =>
    if starts t then
      match rule ts with
      | ⟨.error c, rest, h⟩ => ⟨.error c, rest, h.trans (List.suffix_cons t ts)⟩
      | ⟨.ok a, rest, h⟩ =>
        ((many starts rule rest).map (a :: ·)).widen (h.trans (List.suffix_cons t ts))
    else .done []
termination_by ts => ts.length
decreasing_by have := h.length_le; simp only [List.length_cons]; omega

/-- Applies a rule that its first token chooses, again and again until no token is left. -/
def toEnd (what : Expectation) (rule? : Token → Option (Rule α)) :
    (ts : List Token) → Step (List α) ts
  | [] => .done []
  | t :: ts =>
    match rule? t with
    | none => .stuck (.expected what)
    | some rule =>
      match rule ts with
      | ⟨.error c, rest, h⟩ => ⟨.error c, rest, h.trans (List.suffix_cons t ts)⟩
      | ⟨.ok a, rest, h⟩ =>
        ((toEnd what rule? rest).map (a :: ·)).widen (h.trans (List.suffix_cons t ts))
termination_by ts => ts.length
decreasing_by have := h.length_le; simp only [List.length_cons]; omega

theorem many_nil (starts : Token → Bool) (rule : Rule α) :
    many starts rule [] = .done [] := by rw [many]

theorem many_cons (starts : Token → Bool) (rule : Rule α) (t : Token) (ts : List Token) :
    many starts rule (t :: ts) =
      if starts t then
        match rule ts with
        | ⟨.error c, rest, h⟩ => ⟨.error c, rest, h.trans (List.suffix_cons t ts)⟩
        | ⟨.ok a, rest, h⟩ =>
          ((many starts rule rest).map (a :: ·)).widen (h.trans (List.suffix_cons t ts))
      else .done [] := by rw [many]

theorem toEnd_nil (what : Expectation) (rule? : Token → Option (Rule α)) :
    toEnd what rule? [] = .done [] := by rw [toEnd]

theorem toEnd_cons (what : Expectation) (rule? : Token → Option (Rule α)) (t : Token)
    (ts : List Token) :
    toEnd what rule? (t :: ts) =
      match rule? t with
      | none => .stuck (.expected what)
      | some rule =>
        match rule ts with
        | ⟨.error c, rest, h⟩ => ⟨.error c, rest, h.trans (List.suffix_cons t ts)⟩
        | ⟨.ok a, rest, h⟩ =>
          ((toEnd what rule? rest).map (a :: ·)).widen (h.trans (List.suffix_cons t ts)) := by
  rw [toEnd]

/-! ## Running a rule -/

/-- Applies a rule to a stream. What is left is the stream behind the tokens taken, also after a
complaint. -/
def run (rule : Rule α) (s : TokenStream) : Except ParseError α × TokenStream :=
  let step := rule s.tokens
  let left : TokenStream := { s with tokens := step.rest }
  (step.result.mapError (Complaint.report left), left)

end Rule

end MiniSql
