import Mathlib.Data.List.Forall2
import Mathlib.Data.List.TakeWhile
import MiniSql.Proofs.Parsing

/-!
# Acceptance

`run_program_iff` states what the parser accepts. A token list is read as a program exactly if its
significant tokens derive that program; the program has one statement for each semicolon, in source
order, because no phrase below a program holds a semicolon of its own; and no token list derives two
programs, because the parser could not accept both.
-/

namespace MiniSql.Grammar

variable {ts us : List Token}

/-! ## The tokens of a statement -/

/-- The kinds of token that statements are made of. A semicolon only ends one. -/
@[simp] def isOrdinary : TokenKind → Bool
  | .semicolon | .lineBreak | .invalid | .finish => false
  | _ => true

def Ordinary (us : List Token) : Prop := ∀ t ∈ us, isOrdinary t.kind = true

theorem ordinary_nil : Ordinary [] := fun _ ht => nomatch ht

theorem ordinary_cons {t : Token} : Ordinary (t :: us) ↔ isOrdinary t.kind = true ∧ Ordinary us :=
  List.forall_mem_cons

theorem ordinary_append {vs : List Token} :
    Ordinary (us ++ vs) ↔ Ordinary us ∧ Ordinary vs :=
  List.forall_mem_append

/-- Keywords are words, so they neither end a statement nor the program. -/
theorem ordinary_of_isKeyword {t : Token} {word : String} (h : t.isKeyword word = true) :
    isOrdinary t.kind = true := by
  rw [kind_of_isKeyword h]
  rfl

theorem ordinary_names {ns : List String} (h : Phrase.Names us ns) : Ordinary us := by
  induction h with
  | one ht => simp [Ordinary, ht]
  | more ht hc _ ih =>
    rw [ordinary_cons, ordinary_cons]
    exact ⟨by simp [ht], by simp [hc], ih⟩

/-- A primary expression, with all that stands in its parentheses, is free of semicolons. -/
theorem ordinary_primary {e : Expr} (h : Phrase.Primary us e) : Ordinary us := by
  have single {t : Token} {kind : TokenKind} (ht : t.kind = kind) (hkind : isOrdinary kind = true) :
      Ordinary [t] := by
    simpa [Ordinary, ht] using hkind
  -- by induction on the derivation, for primaries, arrays and the elements of arrays
  refine @Phrase.Primary.rec (fun us _ _ => Ordinary us) (fun us _ _ => Ordinary us)
    (fun us _ _ => Ordinary us)
    ?number ?string ?trueLiteral ?falseLiteral ?identifier ?array ?empty ?filled ?one ?more us e h
  case number => exact fun ht _ => single ht rfl
  case string => exact fun ht => single ht rfl
  case trueLiteral => exact fun ht => single ht rfl
  case falseLiteral => exact fun ht => single ht rfl
  case identifier => exact fun ht => single ht rfl
  case array => exact fun _ ih => ih
  case empty => exact fun ho hc => ordinary_append.mpr ⟨single ho rfl, single hc rfl⟩
  case filled =>
    intro o c us es ho _ hc ih
    exact ordinary_append.mpr ⟨ordinary_cons.mpr ⟨by simp [ho], ih⟩, single hc rfl⟩
  case one => exact fun _ ih => ih
  case more =>
    intro c us vs e es _ hc _ ih ihs
    exact ordinary_append.mpr ⟨ih, ordinary_cons.mpr ⟨by simp [hc], ihs⟩⟩

theorem ordinary_parenthesized {es : List Expr} (h : Phrase.Parenthesized us es) : Ordinary us :=
  ordinary_primary (.array h)

section Operators

variable {Operand : List Token → Expr → Prop} {e : Expr}
  (hoperand : ∀ {us e}, Operand us e → Ordinary us)

include hoperand

theorem ordinary_atMostOne {Sign : TokenKind → BinaryOp → Prop}
    (hsign : ∀ {kind op}, Sign kind op → isOrdinary kind = true)
    (h : Phrase.AtMostOne Sign Operand us e) : Ordinary us := by
  cases h with
  | one h => exact hoperand h
  | two hl ht hr =>
    exact ordinary_append.mpr ⟨hoperand hl, ordinary_cons.mpr ⟨hsign ht, hoperand hr⟩⟩

/-- Operands that hold no semicolon are joined without one. -/
theorem ordinary_joined {word : String} {op : BinaryOp}
    (h : Phrase.Joined word op Operand us e) : Ordinary us := by
  induction h with
  | one h => exact hoperand h
  | more _ ht hr ih =>
    exact ordinary_append.mpr
      ⟨ih, ordinary_cons.mpr ⟨ordinary_of_isKeyword ht, hoperand hr⟩⟩

end Operators

/-- No expression reaches beyond a semicolon. -/
theorem ordinary_expression {e : Expr} (h : Phrase.Expression us e) : Ordinary us := by
  have hrelation {us : List Token} {e : Expr} : Phrase.Relation us e → Ordinary us :=
    ordinary_atMostOne ordinary_primary fun h => by cases h <;> rfl
  have hequality {us : List Token} {e : Expr} : Phrase.Equality us e → Ordinary us :=
    ordinary_atMostOne hrelation fun h => by cases h <;> rfl
  have hconjunction {us : List Token} {e : Expr} : Phrase.Conjunction us e → Ordinary us :=
    ordinary_joined hequality
  exact ordinary_joined hconjunction h

theorem ordinary_optional {α : Type} {Part : List Token → α → Prop} {a? : Option α}
    (hpart : ∀ a, Part us a → Ordinary us) (h : Phrase.Optional Part us a?) : Ordinary us := by
  cases h with
  | absent => exact ordinary_nil
  | present h => exact hpart _ h

theorem ordinary_selectBody {s : Select} (h : Phrase.SelectBody us s) : Ordinary us := by
  obtain ⟨hcolumns, hf, ht, hwhere, hgroup⟩ := h
  refine ordinary_append.mpr ⟨?_, ordinary_cons.mpr ⟨ordinary_of_isKeyword hf,
    ordinary_cons.mpr ⟨by simp [ht], ordinary_append.mpr ⟨?_, ?_⟩⟩⟩⟩
  · cases hcolumns with
    | all ht => simp [Ordinary, ht]
    | listed h => exact ordinary_names h
  · refine ordinary_optional (fun e h => ?_) hwhere
    obtain ⟨hw, h⟩ := h
    exact ordinary_cons.mpr ⟨ordinary_of_isKeyword hw, ordinary_expression h⟩
  · refine ordinary_optional (fun ns h => ?_) hgroup
    obtain ⟨hg, hb, h⟩ := h
    exact ordinary_cons.mpr ⟨ordinary_of_isKeyword hg,
      ordinary_cons.mpr ⟨ordinary_of_isKeyword hb, ordinary_names h⟩⟩

theorem ordinary_insertBody {i : Insert} (h : Phrase.InsertBody us i) : Ordinary us := by
  obtain ⟨hn, ht, hcolumns, hv, hvalues⟩ := h
  refine ordinary_cons.mpr ⟨ordinary_of_isKeyword hn, ordinary_cons.mpr ⟨by simp [ht],
    ordinary_append.mpr ⟨?_, ordinary_cons.mpr
      ⟨ordinary_of_isKeyword hv, ordinary_parenthesized hvalues⟩⟩⟩⟩
  refine ordinary_optional (fun ns h => ?_) hcolumns
  obtain ⟨ho, h, hc⟩ := h
  exact ordinary_append.mpr
    ⟨ordinary_cons.mpr ⟨by simp [ho], ordinary_names h⟩, by simp [Ordinary, hc]⟩

/-- No statement reaches beyond a semicolon. -/
theorem ordinary_statement {s : Statement} (h : Phrase.Statement us s) : Ordinary us := by
  cases h with
  | select hk h => exact ordinary_cons.mpr ⟨ordinary_of_isKeyword hk, ordinary_selectBody h⟩
  | insert hk h => exact ordinary_cons.mpr ⟨ordinary_of_isKeyword hk, ordinary_insertBody h⟩

/-- No token of the list is a semicolon. -/
def Unbroken (us : List Token) : Prop := ∀ t ∈ us, t.kind ≠ .semicolon

/-- What is derived as a statement has no line breaks in it: they are not visible to the grammar. -/
theorem unbroken_statement {s : Statement} (h : Phrase.Statement us s) : Unbroken us := by
  intro t ht hkind
  have hordinary : isOrdinary t.kind = true := ordinary_statement h t ht
  rw [hkind] at hordinary
  cases hordinary

theorem ordinary_or_semicolon_of_program {p : Program} (h : Phrase.Program us p) :
    ∀ t ∈ us, isOrdinary t.kind = true ∨ t.kind = .semicolon := by
  induction h with
  | last hs hc => 
    intro t ht
    rcases List.mem_append.mp ht with ht | ht
    · exact .inl (ordinary_statement hs t ht)
    · exact .inr (List.mem_singleton.mp ht ▸ hc)
  | more hs hc _ ih =>
    intro t ht
    rcases List.mem_append.mp ht with ht | ht
    · exact .inl (ordinary_statement hs t ht)
    · rcases List.mem_cons.mp ht with rfl | ht
      · exact .inr hc
      · exact ih t ht

/-! ## What the parser accepts -/

/-- The tokens of one statement, up to the first semicolon and with it. -/
def IsTerminated (us : List Token) (s : Statement) : Prop :=
  ∃ vs c, us = vs ++ [c] ∧ Unbroken vs ∧ c.kind = .semicolon ∧ Phrase.Statement vs s

/-- A program is its statements one after another, each with the semicolon that ends it. -/
theorem terminated_of_program {p : Program} (h : Phrase.Program ts p) :
    ∃ pieces : List (List Token), ts = pieces.flatten ∧ List.Forall₂ IsTerminated pieces p := by
  induction h with
  | @last c us s hs hc =>
    exact ⟨[us ++ [c]], by simp, .cons ⟨us, c, rfl, unbroken_statement hs, hc, hs⟩ .nil⟩
  | @more c us vs s p hs hc _ ih =>
    obtain ⟨pieces, rfl, hpieces⟩ := ih
    exact ⟨(us ++ [c]) :: pieces, by simp,
      .cons ⟨us, c, rfl, unbroken_statement hs, hc, hs⟩ hpieces⟩

/-- The stream of a token list, divided at the first `finish` token. -/
theorem ofTokens_eq {tokens visible : List Token}
    (hvisible : visible = tokens.filter (·.kind ≠ .lineBreak)) :
    TokenStream.ofTokens tokens =
      { tokens := visible.takeWhile (·.kind ≠ .finish)
        finish := ((visible.dropWhile (·.kind ≠ .finish)).head?.or visible.getLast?).elim .first
          Token.position } := by
  have hbreak :
      (fun t : Token => t.kind != .lineBreak) = fun t => decide (t.kind ≠ .lineBreak) := by
    funext t
    rw [Bool.eq_iff_iff]
    simp
  have hfinish : (fun t : Token => !t.isFinish) = fun t => decide (t.kind ≠ .finish) := by
    funext t
    rw [Bool.eq_iff_iff]
    simp [Token.isFinish]
  rw [TokenStream.ofTokens, hbreak, ← hvisible, List.find?_eq_head?_dropWhile_not, hfinish]

/-- What the parser sees of a list of tokens: all up to the end mark, without the line breaks. -/
theorem tokens_ofTokens (tokens : List Token) :
    (TokenStream.ofTokens tokens).tokens =
      (tokens.filter (·.kind ≠ .lineBreak)).takeWhile (·.kind ≠ .finish) := by
  rw [ofTokens_eq rfl]

/-- The visible tokens, divided where a parser stands: behind what it still has to read there is
what it never sees. -/
theorem visible_eq_append {visible vs : List Token}
    (h : visible.takeWhile (·.kind ≠ .finish) = us ++ vs) :
    visible = us ++ (vs ++ visible.dropWhile (·.kind ≠ .finish)) := by
  rw [← List.append_assoc, ← h]
  exact List.takeWhile_append_dropWhile.symm

/-- The first token behind the visible ones, if there is any, is the end mark. -/
theorem kind_of_unseen {visible : List Token} {t : Token}
    (h : (visible.dropWhile (·.kind ≠ .finish)).head? = some t) : t.kind = .finish := by
  have hstop := List.head?_dropWhile_not (fun t : Token => decide (t.kind ≠ .finish)) visible
  rw [h] at hstop
  simpa using hstop

/-- The parser reads a program from a list of tokens exactly if the grammar derives the program from
the significant ones. Then these divide into one piece for each statement, and no other program is
derived from them. -/
theorem run_program_iff (tokens : List Token) :
    let significant := (tokens.filter (·.kind ≠ .lineBreak)).takeWhile (·.kind ≠ .finish)
    (∀ p, (program.run (.ofTokens tokens)).1 = .ok p ↔ Phrase.Program significant p) ∧
      (∀ p, Phrase.Program significant p →
        ∃ pieces : List (List Token), significant = pieces.flatten ∧
          List.Forall₂ IsTerminated pieces p) ∧
      ∀ ts p q, Phrase.Program ts p → Phrase.Program ts q → p = q := by
  intro significant
  refine ⟨fun p => ?_, fun p => terminated_of_program, fun ts p q hp hq => ?_⟩
  · rw [run_program_eq_ok_iff, tokens_ofTokens]
  · have hp' := yields_program_iff.mpr ⟨rfl, hp⟩
    exact (hp'.unique (yields_program_iff.mpr ⟨rfl, hq⟩)).1

end MiniSql.Grammar
