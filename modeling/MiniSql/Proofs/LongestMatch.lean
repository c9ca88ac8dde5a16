import MiniSql.Proofs.Acceptance
import MiniSql.Proofs.Derivation
import MiniSql.Proofs.Lookahead

/-!
# An expression is the longest match

A parser can be asked for a program or for an expression, again and again; each time it goes on
where it stopped before, also where it stopped because of an error (`behind`). What it has still to
read is always an end of its tokens, so all that counts is its position among them.

From there an expression is read as far as it goes (`expression_longest_match`). This has two
halves. The parser does not stop short: if an expression stands there and the token behind it
continues none, it is taken whole, because the rule recognises it. And nothing runs longer than what
was taken: the rule decides by the next token alone, so it would have stopped there even if that
token ended a longer expression, which would have to be taken whole.
-/

namespace MiniSql.Grammar

variable {tokens us vs rest unseen : List Token} {e : Expr} {s left : TokenStream}

/-! ## Asking again -/

/-- What a parser can be asked for. -/
inductive Goal
  | program
  | expression

/-- What is left of a stream behind one request, whether it is met or not. -/
def Goal.leaves (s : TokenStream) : Goal → TokenStream
  | .program => (Grammar.program.run s).2
  | .expression => (Grammar.expression.run s).2

/-- What a parser of the tokens has still to read after some requests. -/
def behind (tokens : List Token) (goals : List Goal) : TokenStream :=
  goals.foldl Goal.leaves (.ofTokens tokens)

/-- How many tokens a parser has taken, and so the index of the next one. -/
def position (tokens : List Token) (s : TokenStream) : Nat :=
  (TokenStream.ofTokens tokens).tokens.length - s.tokens.length

theorem Goal.leaves_suffix (goal : Goal) (s : TokenStream) :
    (goal.leaves s).tokens <:+ s.tokens := by
  cases goal with
  | program => exact (Grammar.program s.tokens).suffix
  | expression => exact (Grammar.expression s.tokens).suffix

theorem behind_suffix (tokens : List Token) (goals : List Goal) :
    (behind tokens goals).tokens <:+ (TokenStream.ofTokens tokens).tokens := by
  unfold behind
  generalize TokenStream.ofTokens tokens = s
  induction goals generalizing s with
  | nil => exact List.suffix_rfl
  | cons goal goals ih => exact (ih (goal.leaves s)).trans (goal.leaves_suffix s)

/-- Who has fewer tokens left stands further on. -/
theorem position_mono (h : left.tokens <:+ s.tokens) :
    position tokens s ≤ position tokens left := by
  have hlen := h.length_le
  unfold position
  omega

/-! ## The place in the tokens -/

/-- Of the visible tokens, a stream at place `p` has `unseen` behind it: the first `finish` token
and all that follows. -/
structure StandsAt (visible : List Token) (p : Nat) (s : TokenStream) (unseen : List Token) :
    Prop where
  le_length : p ≤ visible.length
  drop : visible.drop p = s.tokens ++ unseen
  shown : ∀ t ∈ s.tokens, t.kind ≠ .finish
  ends : ∀ t ∈ unseen.head?, t.kind = .finish

variable {visible : List Token} {p q : Nat}

/-- What is left of the tokens begins somewhere among the visible ones. -/
theorem exists_standsAt (hvisible : visible = tokens.filter (·.kind ≠ .lineBreak))
    (hs : s.tokens <:+ (TokenStream.ofTokens tokens).tokens) :
    ∃ unseen, StandsAt visible (position tokens s) s unseen := by
  obtain ⟨taken, htaken⟩ := hs
  have hposition : position tokens s = taken.length := by
    unfold position
    rw [← htaken, List.length_append]
    omega
  rw [tokens_ofTokens, ← hvisible] at htaken
  have hcut := visible_eq_append htaken.symm
  refine ⟨visible.dropWhile (·.kind ≠ .finish), ?_, ?_, fun t ht => ?_, fun t => kind_of_unseen⟩
  · rw [hposition, hcut, List.length_append]
    omega
  · rw [hposition]
    conv_lhs => rw [hcut]
    exact List.drop_left
  · have hmem : t ∈ visible.takeWhile (·.kind ≠ .finish) := htaken ▸ List.mem_append_right _ ht
    simpa using List.mem_takeWhile_imp hmem

namespace StandsAt

theorem tokens_eq (h : StandsAt visible p s unseen) :
    s.tokens = (visible.drop p).takeWhile (·.kind ≠ .finish) := by
  have hshown : ∀ t ∈ s.tokens, decide (t.kind ≠ .finish) = true :=
    fun t ht => decide_eq_true (h.shown t ht)
  have hends : unseen.takeWhile (·.kind ≠ .finish) = [] := by
    cases unseen with
    | nil => rfl
    | cons t us =>
      have ht := h.ends t rfl
      exact List.takeWhile_cons_of_neg (by simpa using ht)
  rw [h.drop, List.takeWhile_append_of_pos hshown, hends, List.append_nil]

/-- An expression among the visible tokens ends before the first `finish` token. -/
theorem prefix_tokens (h : StandsAt visible p s unseen) (hus : us <+: visible.drop p)
    (he : Phrase.Expression us e) : us <+: s.tokens := by
  rw [h.drop] at hus
  rcases List.prefix_or_prefix_of_prefix hus (List.prefix_append s.tokens unseen) with
    hshort | ⟨vs, rfl⟩
  · exact hshort
  · have hvs := (List.prefix_append_right_inj s.tokens).mp hus
    cases vs with
    | nil => simp
    | cons t vs =>
      obtain ⟨more, hmore⟩ := hvs
      have hordinary : isOrdinary t.kind = true := ordinary_expression he t (by simp)
      rw [h.ends t (hmore ▸ rfl)] at hordinary
      nomatch hordinary

end StandsAt

/-! ## Nothing runs longer, nothing stops short -/

theorem words_ne_nil (e : Expr) : e.words ≠ [] := by
  cases e with
  | binary l op r => exact List.append_ne_nil_of_right_ne_nil _ (List.cons_ne_nil _ _)
  | _ => exact List.cons_ne_nil _ _

/-- No expression is empty. -/
theorem ne_nil_of_expression (h : Phrase.Expression us e) : us ≠ [] := by
  rintro rfl
  have hwords := (Phrase.expression_iff_written.mp h).2
  exact words_ne_nil e (List.forall₂_nil_right_iff.mp hwords)

/-- What an expression is taken from holds no longer one. -/
theorem not_expression_of_yields (h : expression.Yields (us ++ rest) e rest) (hvs : vs <+: rest)
    (hne : vs ≠ []) (e' : Expr) : ¬ Phrase.Expression (us ++ vs) e' := by
  intro hlonger
  obtain ⟨t, vs, rfl⟩ := List.exists_cons_of_ne_nil hne
  obtain ⟨more, rfl⟩ := hvs
  -- the same token stands next, also where the longer expression ends the list
  have hhead : (t :: vs ++ more).head? = (t :: vs).head? := rfl
  have hstops := predictive_expression.yields hhead h
  have hgoes : expression.Yields (us ++ t :: vs ++ []) e' [] :=
    recognises_expression.complete hlonger nofun
  rw [List.append_nil] at hgoes
  exact List.cons_ne_nil _ _ (hstops.unique hgoes).2

/-- A run that succeeds yields the value, and its end stays where it was. -/
theorem run_eq_iff {α : Type} {rule : Rule α} {a : α} :
    rule.run s = (.ok a, left) ↔ rule.Yields s.tokens a left.tokens ∧ left.finish = s.finish := by
  unfold Rule.run
  constructor
  · intro h
    obtain ⟨hresult, rfl⟩ := Prod.mk.inj h
    exact ⟨⟨Rule.mapError_eq_ok_iff.mp hresult, rfl⟩, rfl⟩
  · intro ⟨⟨hresult, hrest⟩, hfinish⟩
    exact Prod.ext (Rule.mapError_eq_ok_iff.mpr hresult)
      (congrArg₂ TokenStream.mk hrest hfinish.symm)

/-- The position grows by the number of tokens taken. -/
theorem position_eq (hs : s.tokens <:+ (TokenStream.ofTokens tokens).tokens)
    (hleft : s.tokens = us ++ left.tokens) :
    position tokens left = position tokens s + us.length := by
  have hlen := hs.length_le
  have hlens := congrArg List.length hleft
  rw [List.length_append] at hlens
  unfold position
  omega

/-- Nothing runs longer. -/
theorem longest_of_run (hvisible : visible = tokens.filter (·.kind ≠ .lineBreak))
    (hs : s.tokens <:+ (TokenStream.ofTokens tokens).tokens)
    (h : expression.run s = (.ok e, left)) :
    let p := position tokens s
    let q := position tokens left
    p < q ∧ Phrase.Expression (visible.extract p q) e ∧
      ∀ r, q < r → r ≤ visible.length → ∀ e', ¬ Phrase.Expression (visible.extract p r) e' := by
  intro p q
  obtain ⟨unseen, hstands⟩ := exists_standsAt hvisible hs
  have hyields := (run_eq_iff.mp h).1
  obtain ⟨us, hus, hexpression⟩ := recognises_expression.sound hyields
  have hq : q = p + us.length := position_eq hs hus
  have hpos : 0 < us.length := List.length_pos_iff.mpr (ne_nil_of_expression hexpression)
  have hdrop : visible.drop p = us ++ (left.tokens ++ unseen) := by
    rw [hstands.drop, hus, List.append_assoc]
  refine ⟨by omega, ?_, fun r hr hlength e' hlonger => ?_⟩
  · rw [List.extract_eq_take_drop, hq, Nat.add_sub_cancel_left, hdrop, List.take_left]
    exact hexpression
  · -- the longer run goes on into what was left, which ends before the first `finish` token
    obtain ⟨m, hm⟩ : ∃ m, r - p = us.length + m := ⟨r - q, by omega⟩
    rw [List.extract_eq_take_drop, hm] at hlonger
    have hprefix := hstands.prefix_tokens (List.take_prefix _ _) hlonger
    rw [hdrop, List.take_length_add_append] at hlonger hprefix
    rw [hus, List.prefix_append_right_inj] at hprefix
    have hlen := congrArg List.length hdrop
    rw [List.length_drop, List.length_append] at hlen
    have hne : (left.tokens ++ unseen).take m ≠ [] := by
      rw [← List.length_pos_iff, List.length_take]
      omega
    exact not_expression_of_yields (hus ▸ hyields) hprefix hne e' hlonger

/-- Nothing stops short. -/
theorem exists_run_of_expression (hvisible : visible = tokens.filter (·.kind ≠ .lineBreak))
    (hs : s.tokens <:+ (TokenStream.ofTokens tokens).tokens) (hp : position tokens s = p)
    (hq : q ≤ visible.length) (h : Phrase.Expression (visible.extract p q) e)
    (hends : ∀ t, visible[q]? = some t → ¬ ContinuesExpression t) :
    ∃ left, expression.run s = (.ok e, left) ∧ position tokens left = q := by
  obtain ⟨unseen, hstands⟩ := exists_standsAt hvisible hs
  rw [hp] at hstands
  rw [List.extract_eq_take_drop] at h
  have hlength : ((visible.drop p).take (q - p)).length = q - p := by
    rw [List.length_take, List.length_drop]
    omega
  have hpos := List.length_pos_iff.mpr (ne_nil_of_expression h)
  obtain ⟨rest, hrest⟩ := hstands.prefix_tokens (List.take_prefix _ _) h
  generalize (visible.drop p).take (q - p) = us at *
  obtain rfl : q = p + us.length := by omega
  have hnext : visible[p + us.length]? = (rest ++ unseen).head? := by
    rw [← List.getElem?_drop, hstands.drop, ← hrest, List.append_assoc,
      List.getElem?_append_right (Nat.le_refl _), Nat.sub_self, List.head?_eq_getElem?]
  have hyields : expression.Yields (us ++ rest) e rest := by
    refine recognises_expression.complete h fun t ht => hends t ?_
    rw [hnext, List.head?_append, ht]
    rfl
  rw [hrest] at hyields
  have hleft : s.tokens = us ++ (⟨rest, s.finish⟩ : TokenStream).tokens := hrest.symm
  exact ⟨⟨rest, s.finish⟩, run_eq_iff.mpr ⟨hyields, rfl⟩, hp ▸ position_eq hs hleft⟩

/-- An expression is the longest match, wherever a parser has come to. Whatever it was asked for,
it stands between the tokens taken and those that are left, and it never goes back. An expression
that it reads is one of the tokens from its place on, and no longer run of them is one. And an
expression that stands there is read, unless the token behind it continues an expression. -/
theorem expression_longest_match (tokens : List Token) (goals : List Goal) :
    let visible := tokens.filter (·.kind ≠ .lineBreak)
    let s := behind tokens goals
    let p := position tokens s
    (p ≤ visible.length ∧ s.tokens = (visible.drop p).takeWhile (·.kind ≠ .finish) ∧
      ∀ goal : Goal, p ≤ position tokens (goal.leaves s)) ∧
    (∀ e left, expression.run s = (.ok e, left) →
      let q := position tokens left
      p < q ∧ Phrase.Expression (visible.extract p q) e ∧
        ∀ r, q < r → r ≤ visible.length → ∀ e', ¬ Phrase.Expression (visible.extract p r) e') ∧
    ∀ q e, q ≤ visible.length → Phrase.Expression (visible.extract p q) e →
      (∀ t, visible[q]? = some t → ¬ ContinuesExpression t) →
        ∃ left, expression.run s = (.ok e, left) ∧ position tokens left = q := by
  intro visible s p
  have hs : s.tokens <:+ (TokenStream.ofTokens tokens).tokens := behind_suffix tokens goals
  obtain ⟨unseen, hstands⟩ := exists_standsAt (Eq.refl visible) hs
  refine ⟨⟨hstands.le_length, hstands.tokens_eq, fun goal => ?_⟩,
    fun e left => longest_of_run rfl hs, fun q e => exists_run_of_expression rfl hs rfl⟩
  exact position_mono (goal.leaves_suffix s)

/-- Behind an error at its third token the parser reads the expression that begins there. -/
theorem expression_longest_match_behind_error :
    let word (text : String) : Token := ⟨.identifier, text, .first⟩
    let tokens : List Token := [word "SELECT", word "a", word "b", ⟨.equal, "=", .first⟩, word "c",
      ⟨.semicolon, ";", .first⟩]
    position tokens (behind tokens [.program]) = 2 ∧
      ∃ left, expression.run (behind tokens [.program]) =
          (.ok (.binary (.identifier "b") .equal (.identifier "c")), left) ∧
        position tokens left = 5 := by
  intro word tokens
  have hposition : position tokens (behind tokens [.program]) = 2 := by decide +kernel
  obtain ⟨-, -, hreads⟩ := expression_longest_match tokens [.program]
  rw [hposition] at hreads
  have hequality : Phrase.Equality ([word "b"] ++ ⟨.equal, "=", .first⟩ :: [word "c"])
      (.binary (.identifier "b") .equal (.identifier "c")) :=
    .two (.one (.identifier rfl)) .equal (.one (.identifier rfl))
  refine ⟨hposition, hreads 5 _ (by decide) (.one (.one hequality)) fun t ht hcontinues => ?_⟩
  obtain rfl := Option.some.inj ht
  exact hcontinues.kind_ne_semicolon rfl

end MiniSql.Grammar
