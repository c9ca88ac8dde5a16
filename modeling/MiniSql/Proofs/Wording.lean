import Mathlib.Data.List.Forall2
import MiniSql.Proofs.Phrase

/-!
# Wordings

The grammar the other way round: `Program.words` puts a program into words, and a token list is
written with these words if its tokens mean them, one for one.

Not every syntax tree can be put into words. The grammar has no parentheses around conditions, so a
condition has to follow the ladder of the operators, a list of names cannot be empty, and an
inserted row is written as an array. `Program.IsExpressible` collects this.
-/

namespace MiniSql

/-! ## Words -/

inductive Keyword
  | «select» | «from» | «where» | «group» | «by» | «insert» | «into» | «values» | «or» | «and»
  deriving DecidableEq

def Keyword.text : Keyword → String
  | «select» => "SELECT"
  | «from» => "FROM"
  | «where» => "WHERE"
  | «group» => "GROUP"
  | «by» => "BY"
  | «insert» => "INSERT"
  | «into» => "INTO"
  | «values» => "VALUES"
  | «or» => "OR"
  | «and» => "AND"

/-- What a program is written with. A mark is an operator or a punctuation mark, told by the kind
of its token. -/
inductive Word
  | keyword (k : Keyword)
  | name (text : String)
  | number (value : Binary64)
  | string (text : String)
  | boolean (value : Bool)
  | mark (kind : TokenKind)

namespace Word

def comma : Word := .mark .comma

def semicolon : Word := .mark .semicolon

/-- Wordings with a comma between each and the next. -/
def separate : List (List Word) → List Word
  | [] => []
  | [ws] => ws
  | ws :: vs :: more => ws ++ comma :: separate (vs :: more)

def parenthesize (ws : List Word) : List Word := .mark .leftParen :: ws ++ [.mark .rightParen]

/-- The tokens that stand for a word. Their places do not matter. -/
def Means : Word → Token → Prop
  | keyword k, t => t.isKeyword k.text = true
  | name text, t => t.kind = .identifier ∧ t.text = text
  | number value, t => t.kind = .number ∧ Numeral.read? t.text = some value
  | string text, t => t.kind = .string ∧ t.text = text
  | boolean value, t => t.kind = if value then .trueLiteral else .falseLiteral
  | mark kind, t => t.kind = kind

/-- The tokens stand for the words, one for one. -/
abbrev Written (ws : List Word) (ts : List Token) : Prop := List.Forall₂ Means ws ts

variable {w : Word} {ws vs : List Word} {ts : List Token}

theorem written_nil : Written [] ts ↔ ts = [] := List.forall₂_nil_left_iff

theorem written_cons : Written (w :: ws) ts ↔ ∃ t us, ts = t :: us ∧ w.Means t ∧ Written ws us := by
  rw [Written, List.forall₂_cons_left_iff]
  exact ⟨fun ⟨t, us, ht, hus, h⟩ => ⟨t, us, h, ht, hus⟩,
    fun ⟨t, us, h, ht, hus⟩ => ⟨t, us, ht, hus, h⟩⟩

theorem written_single : Written [w] ts ↔ ∃ t, ts = [t] ∧ w.Means t := by
  simp only [written_cons, written_nil]
  exact ⟨fun ⟨t, _, h, ht, hus⟩ => ⟨t, hus ▸ h, ht⟩, fun ⟨t, h, ht⟩ => ⟨t, [], h, ht, rfl⟩⟩

/-- Words one after another are written one after another. -/
theorem written_append :
    Written (ws ++ vs) ts ↔ ∃ us us', ts = us ++ us' ∧ Written ws us ∧ Written vs us' := by
  refine ⟨fun h => ?_, fun ⟨us, us', hts, hws, hvs⟩ => hts ▸ List.rel_append hws hvs⟩
  induction ws generalizing ts with
  | nil => exact ⟨[], ts, rfl, .nil, h⟩
  | cons w ws ih =>
    obtain ⟨t, us, rfl, ht, hus⟩ := written_cons.mp h
    obtain ⟨us, us', rfl, hws, hvs⟩ := ih hus
    exact ⟨t :: us, us', rfl, .cons ht hws, hvs⟩

/-- Words in parentheses are written between two parentheses. -/
theorem written_parenthesize :
    Written (parenthesize ws) ts ↔ ∃ o us c, ts = o :: us ++ [c] ∧ o.kind = .leftParen ∧
      Written ws us ∧ c.kind = .rightParen := by
  rw [parenthesize, written_append]
  refine ⟨fun ⟨us, us', hts, hfront, hback⟩ => ?_, fun ⟨o, us, c, hts, ho, hus, hc⟩ =>
    ⟨o :: us, [c], hts, .cons ho hus, .cons hc .nil⟩⟩
  obtain ⟨o, us, rfl, ho, hus⟩ := written_cons.mp hfront
  obtain ⟨c, rfl, hc⟩ := written_single.mp hback
  exact ⟨o, us, c, hts, ho, hus, hc⟩

/-- Of two or more wordings the first is written before a comma and the others behind it. -/
theorem written_separate_cons_cons {more : List (List Word)} :
    Written (separate (ws :: vs :: more)) ts ↔ ∃ us c us', ts = us ++ c :: us' ∧ Written ws us ∧
      c.kind = .comma ∧ Written (separate (vs :: more)) us' := by
  rw [separate, written_append]
  refine ⟨fun ⟨us, us', hts, hws, hmore⟩ => ?_, fun ⟨us, c, us', hts, hws, hc, hmore⟩ =>
    ⟨us, c :: us', hts, hws, .cons hc hmore⟩⟩
  obtain ⟨c, us', rfl, hc, hmore⟩ := written_cons.mp hmore
  exact ⟨us, c, us', hts, hws, hc, hmore⟩

end Word

/-! ## Putting a program into words -/

def BinaryOp.word : BinaryOp → Word
  | or => .keyword .«or»
  | and => .keyword .«and»
  | equal => .mark .equal
  | unequal => .mark .unequal
  | less => .mark .less
  | lessEqual => .mark .lessEqual
  | greater => .mark .greater
  | greaterEqual => .mark .greaterEqual

mutual

def Expr.words : Expr → List Word
  | .identifier name => [.name name]
  | .number value => [.number value]
  | .string text => [.string text]
  | .boolean value => [.boolean value]
  | .array elements => Word.parenthesize (Word.separate (Expr.wordsOfEach elements))
  | .binary left op right => left.words ++ op.word :: right.words

def Expr.wordsOfEach : List Expr → List (List Word)
  | [] => []
  | e :: es => e.words :: Expr.wordsOfEach es

end

def namesWords (names : List String) : List Word := Word.separate (names.map fun n => [.name n])

namespace Select

def columnsWords (s : Select) : List Word :=
  if s.columns = [] then [.mark .asterisk] else namesWords s.columns

def conditionWords (s : Select) : List Word :=
  s.condition?.elim [] fun e => .keyword .«where» :: e.words

def groupByWords (s : Select) : List Word :=
  s.groupBy?.elim [] fun names => .keyword .group :: .keyword .«by» :: namesWords names

def words (s : Select) : List Word :=
  .keyword .select :: (s.columnsWords ++ .keyword .«from» :: .name s.table ::
    (s.conditionWords ++ s.groupByWords))

end Select

namespace Insert

def columnsWords (i : Insert) : List Word :=
  i.columns?.elim [] fun names => Word.parenthesize (namesWords names)

def words (i : Insert) : List Word :=
  .keyword .insert :: .keyword .into :: .name i.table ::
    (i.columnsWords ++ .keyword .values :: i.values.words)

end Insert

def Statement.words : Statement → List Word
  | select s => s.words
  | insert i => i.words

def Program.words (p : Program) : List Word := p.flatMap fun s => s.words ++ [Word.semicolon]

/-! ## What can be put into words -/

namespace Expr

inductive IsPrimary : Expr → Prop
  | identifier {name : String} : IsPrimary (.identifier name)
  | number {value : Binary64} : IsPrimary (.number value)
  | string {text : String} : IsPrimary (.string text)
  | boolean {value : Bool} : IsPrimary (.boolean value)
  | array {es : List Expr} (h : ∀ e ∈ es, IsPrimary e) : IsPrimary (.array es)

/-- One operand, or two with one of the operators between them. -/
inductive IsSingle (ops : List BinaryOp) (Operand : Expr → Prop) : Expr → Prop
  | one {e : Expr} (h : Operand e) : IsSingle ops Operand e
  | two {l r : Expr} {op : BinaryOp} (hl : Operand l) (hop : op ∈ ops) (hr : Operand r) :
      IsSingle ops Operand (.binary l op r)

/-- Operands combined by one operator, to the left. -/
inductive IsChain (op : BinaryOp) (Operand : Expr → Prop) : Expr → Prop
  | one {e : Expr} (h : Operand e) : IsChain op Operand e
  | more {l r : Expr} (hl : IsChain op Operand l) (hr : Operand r) :
      IsChain op Operand (.binary l op r)

def IsRelation : Expr → Prop := IsSingle [.less, .lessEqual, .greater, .greaterEqual] IsPrimary

def IsEquality : Expr → Prop := IsSingle [.equal, .unequal] IsRelation

/-- The ladder of the operators, from the loosest down. -/
def IsCondition : Expr → Prop := IsChain .or (IsChain .and IsEquality)

end Expr

structure Select.IsExpressible (s : Select) : Prop where
  condition : ∀ e ∈ s.condition?, e.IsCondition
  groupBy : ∀ names ∈ s.groupBy?, names ≠ []

structure Insert.IsExpressible (i : Insert) : Prop where
  columns : ∀ names ∈ i.columns?, names ≠ []
  values : ∃ es, i.values = .array es ∧ ∀ e ∈ es, e.IsPrimary

def Statement.IsExpressible : Statement → Prop
  | select s => s.IsExpressible
  | insert i => i.IsExpressible

structure Program.IsExpressible (p : Program) : Prop where
  nonempty : p ≠ []
  statements : ∀ s ∈ p, s.IsExpressible

end MiniSql
