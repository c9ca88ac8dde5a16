import MiniSql.Proofs.Lookahead

/-!
# Viable prefixes

Tokens *begin* a phrase if others can be put behind them so that all together are one. A rule is
*viable* if, where it fails, the tokens it has taken begin one of its phrases: it never takes a
token after which nothing can be completed.

Each lemma follows a rule through the places where it can fail. The parts in front of such a place
have been read, hence are phrases; the part at that place is begun by hypothesis; and the parts
behind it are made up.
-/

namespace MiniSql.Grammar

open Phrase

variable {α : Type} {ts us vs rest : List Token} {c : Complaint}

/-- Tokens that can be completed to a phrase. -/
def Begins (Phrase : List Token → α → Prop) (us : List Token) : Prop :=
  ∃ more a, Phrase (us ++ more) a

/-- Where the rule fails, it has taken the beginning of a phrase. -/
structure Viable (rule : Rule α) (Phrase : List Token → α → Prop) : Prop where
  begins : ∀ {ts : List Token} {c : Complaint} {rest : List Token}, rule.Fails ts c rest →
    ∃ us, ts = us ++ rest ∧ Begins Phrase us

section Begins

variable {Phrase : List Token → α → Prop}

theorem Begins.of_phrase {a : α} (h : Phrase us a) : Begins Phrase us :=
  ⟨[], a, by rwa [List.append_nil]⟩

/-- The beginning of a beginning is one. -/
theorem Begins.of_append (h : Begins Phrase (us ++ vs)) : Begins Phrase us := by
  obtain ⟨more, a, h⟩ := h
  rw [List.append_assoc] at h
  exact ⟨vs ++ more, a, h⟩

theorem Begins.take_of_le {j k : Nat} (h : Begins Phrase (us.take k)) (hj : j ≤ k) :
    Begins Phrase (us.take j) := by
  rw [← List.take_append_drop j (us.take k), List.take_take, Nat.min_eq_left hj] at h
  exact h.of_append

end Begins

/-! ## Tokens to complete a phrase with -/

theorem exists_kind (kind : TokenKind) : ∃ t : Token, t.kind = kind := ⟨⟨kind, "", .first⟩, rfl⟩

theorem exists_isKeyword (word : String) : ∃ t : Token, t.isKeyword word = true :=
  ⟨⟨.identifier, word, .first⟩, by simp [Token.isKeyword, Text.sameIgnoringCase_iff]⟩

/-! ## Arrays and primaries -/

mutual

/-- Where a primary expression is refused, the tokens before are the beginning of one. -/
theorem primary_viable {ts rest : List Token} {c : Complaint} (h : Rule.Fails primary ts c rest) :
    ∃ us, ts = us ++ rest ∧ Begins Primary us := by
  rcases fails_primary.mp h with ⟨-, -, rfl⟩ | ⟨o, vs, rfl, ho, hc⟩
  · obtain ⟨t, ht⟩ := exists_kind .string
    exact ⟨[], rfl, [t], _, .string ht⟩
  · obtain ⟨us, rfl, more, es, hes⟩ := arrayTail_viable hc ho
    exact ⟨o :: us, rfl, more, .array es, .array hes⟩
termination_by 3 * ts.length

theorem arrayTail_viable {ts rest : List Token} {c : Complaint}
    (h : Rule.Fails arrayTail ts c rest) {o : Token} (ho : o.kind = .leftParen) :
    ∃ us, ts = us ++ rest ∧ Begins Parenthesized (o :: us) := by
  obtain ⟨us, rfl, more, es, hes⟩ := elements_viable (fails_arrayTail.mp h).2
  obtain ⟨t, ht⟩ := exists_kind .rightParen
  have hparenthesized : Parenthesized (o :: (us ++ more) ++ [t]) es := .filled ho hes ht
  exact ⟨us, rfl, more ++ [t], es, by simpa using hparenthesized⟩
termination_by 3 * ts.length + 2

theorem elements_viable {ts rest : List Token} {c : Complaint}
    (h : Rule.Fails elements ts c rest) : ∃ us, ts = us ++ rest ∧ Begins Elements us := by
  rcases fails_elements.mp h with hc | ⟨e, mid, hp, ⟨-, -, rfl⟩ | ⟨t, vs, rfl, ht, hc⟩⟩
  · obtain ⟨us, rfl, more, e, he⟩ := primary_viable hc
    exact ⟨us, rfl, more, [e], .one he⟩
  · obtain ⟨us, rfl, hus⟩ := primary_sound hp
    exact ⟨us, rfl, .of_phrase (.one hus)⟩
  · have hlen := hp.length_le
    obtain ⟨us, hus, he⟩ := primary_sound hp
    obtain ⟨ws, rfl, more, es, hes⟩ := elements_viable hc
    have helements : Elements (us ++ t :: (ws ++ more)) (e :: es) := .more he ht hes
    exact ⟨us ++ t :: ws, by simpa using hus, more, e :: es, by simpa using helements⟩
termination_by 3 * ts.length + 1
decreasing_by
  · omega
  · simp only [List.length_cons] at hlen
    omega

end

theorem viable_primary : Viable primary Primary := ⟨primary_viable⟩

theorem viable_array : Viable array fun us e => ∃ es, e = .array es ∧ Parenthesized us es where
  begins {ts c rest} h := by
    rcases Rule.fails_bind.mp h with hc | ⟨_, mid, hopen, hinside⟩
    · obtain ⟨-, -, rfl⟩ := Rule.fails_one.mp hc
      obtain ⟨o, ho⟩ := exists_kind .leftParen
      obtain ⟨t, ht⟩ := exists_kind .rightParen
      exact ⟨[], rfl, [o, t], _, [], rfl, .empty ho ht⟩
    · obtain ⟨o, rfl, ho⟩ := Rule.yields_token.mp hopen
      have hc := Rule.fails_bind_pure.mp hinside
      obtain ⟨us, rfl, more, es, hes⟩ := arrayTail_viable hc ho
      exact ⟨o :: us, rfl, more, _, es, rfl, hes⟩

/-! ## Operators -/

variable {operand : Rule Expr} {Operand : List Token → Expr → Prop} {continues : Token → Prop}

/-- Where a comparison is refused, the tokens before are the beginning of one. -/
theorem viable_atMostOne {op? : TokenKind → Option BinaryOp}
    {Sign : TokenKind → BinaryOp → Prop} (hoperand : Recognises operand Operand continues)
    (hviable : Viable operand Operand) (hsign : ∀ kind op, op? kind = some op ↔ Sign kind op) :
    Viable (atMostOne op? operand) (AtMostOne Sign Operand) where
  begins {ts c rest} h := by
    rcases Rule.fails_bind.mp h with hc | ⟨l, mid, hl, h₁⟩
    · obtain ⟨us, rfl, more, e, he⟩ := hviable.begins hc
      exact ⟨us, rfl, more, e, .one he⟩
    obtain ⟨us, rfl, hus⟩ := hoperand.sound hl
    rcases Rule.fails_bind.mp h₁ with hc | ⟨_, _, hop, h₂⟩
    · exact absurd hc Rule.not_fails_take?
    rcases Rule.yields_take?.mp hop with ⟨t, op, rfl, ht, rfl⟩ | ⟨-, rfl, rfl⟩
    · have hc := Rule.fails_bind_pure.mp h₂
      obtain ⟨vs, rfl, more, r, hr⟩ := hviable.begins hc
      have htwo : AtMostOne Sign Operand (us ++ t :: (vs ++ more)) (.binary l op r) :=
        .two hus ((hsign _ _).mp ht) hr
      exact ⟨us ++ t :: vs, by simp, more, _, by simpa using htwo⟩
    · exact absurd h₂ Rule.not_fails_pure

/-- Where a repetition is refused, the tokens before are the beginning of one. -/
theorem viable_many {rule : Rule α} {Part : List Token → α → Prop} {starts : Token → Bool}
    (hrule : Recognises rule Part continues) (hviable : Viable rule Part) :
    Viable (Rule.many starts rule) (Repeated starts Part) where
  begins {ts c rest} h := by
    induction hn : ts.length using Nat.strongRecOn generalizing ts with
    | _ n ih =>
      obtain ⟨t, us, rfl, ht, hc | ⟨a, mid, ha, hlater⟩⟩ := Rule.fails_many.mp h
      · obtain ⟨vs, rfl, more, a, ha⟩ := hviable.begins hc
        have hone : Repeated starts Part (t :: (vs ++ more) ++ []) [a] := .cons ht ha .nil
        exact ⟨t :: vs, rfl, more, [a], by simpa using hone⟩
      · have hlen := ha.length_le
        obtain ⟨vs, rfl, hvs⟩ := hrule.sound ha
        obtain ⟨ws, rfl, more, as, has⟩ := ih mid.length (by simp at hn; omega) hlater rfl
        have hmore : Repeated starts Part (t :: vs ++ (ws ++ more)) (a :: as) :=
          .cons ht hvs has
        exact ⟨t :: vs ++ ws, by simp, more, a :: as, by simpa using hmore⟩

/-- Where joined operands are refused, the tokens before are the beginning of some. -/
theorem viable_joined {word : String} {op : BinaryOp}
    (hoperand : Recognises operand Operand continues) (hviable : Viable operand Operand) :
    Viable (joined word op operand) (Joined word op Operand) where
  begins {ts c rest} h := by
    rcases Rule.fails_bind.mp h with hc | ⟨l, mid, hl, h₁⟩
    · obtain ⟨us, rfl, more, e, he⟩ := hviable.begins hc
      exact ⟨us, rfl, more, e, .one he⟩
    obtain ⟨us, rfl, hus⟩ := hoperand.sound hl
    have hc := Rule.fails_bind_pure.mp h₁
    obtain ⟨vs, rfl, more, others, hothers⟩ := (viable_many hoperand hviable).begins hc
    have hjoined : Joined word op Operand (us ++ (vs ++ more)) _ :=
      joined_of_repeated (.one hus) hothers
    exact ⟨us ++ vs, by simp, more, _, by simpa using hjoined⟩

theorem viable_expression : Viable expression Expression :=
  have hrelation : Viable relation Relation :=
    viable_atMostOne recognises_primary viable_primary relation?_eq_some_iff
  have hequality : Viable equality Equality :=
    viable_atMostOne recognises_relation hrelation equality?_eq_some_iff
  have hconjunction : Viable conjunction Conjunction := viable_joined recognises_equality hequality
  viable_joined recognises_conjunction hconjunction

/-! ## Lists of names -/

theorem viable_names : Viable names Names where
  begins {ts c rest} h := by
    have hname : Viable (Rule.identifier .columnName)
        (fun ws n => ∃ t, ws = [t] ∧ t.kind = .identifier ∧ t.text = n) :=
      { begins := fun h => by
          obtain ⟨-, -, rfl⟩ := Rule.fails_one.mp h
          obtain ⟨t, ht⟩ := exists_kind .identifier
          exact ⟨[], rfl, [t], t.text, t, rfl, ht, rfl⟩ }
    rcases Rule.fails_bind.mp h with hc | ⟨n, mid, hn, h₁⟩
    · obtain ⟨us, rfl, more, n, t, hus, ht, rfl⟩ := hname.begins hc
      exact ⟨us, rfl, more, [t.text], hus ▸ .one ht⟩
    obtain ⟨t, rfl, ht, rfl⟩ := Rule.yields_identifier.mp hn
    have hc := Rule.fails_bind_pure.mp h₁
    obtain ⟨us, rfl, more, ms, hms⟩ := (viable_many recognises_columnName hname).begins hc
    exact ⟨t :: us, rfl, more, t.text :: ms, names_iff.mpr ⟨t, us ++ more, ms, rfl, ht, rfl, hms⟩⟩

/-! ## Optional parts -/

theorem viable_optional {rule : Rule α} {starts : Token → Bool}
    {Part Inner : List Token → α → Prop} (hviable : Viable rule Inner)
    (hpart : ∀ {t : Token} {us : List Token} {a : α}, starts t = true → Inner us a →
      Part (t :: us) a) : Viable (optional starts rule) (Optional Part) where
  begins {ts c rest} h := by
    rcases Rule.fails_bind.mp h with hc | ⟨taken, mid, htaken, h₁⟩
    · exact absurd hc Rule.not_fails_accept
    rcases Rule.yields_accept.mp htaken with ⟨t, rfl, ht, rfl⟩ | ⟨-, rfl, rfl⟩
    · have hc := Rule.fails_bind_pure.mp h₁
      obtain ⟨us, rfl, more, a, ha⟩ := hviable.begins hc
      exact ⟨t :: us, rfl, more, some a, .present (hpart ht ha)⟩
    · exact absurd h₁ Rule.not_fails_pure

theorem viable_where : Viable (optional (·.isKeyword "WHERE") expression) (Optional Where) :=
  viable_optional viable_expression fun hw he => .mk hw he

theorem viable_groupBy :
    Viable (optional (·.isKeyword "GROUP") do Rule.keyword "BY"; names) (Optional GroupBy) := by
  have hinner : Viable (do Rule.keyword "BY"; names)
      fun us ns => ∃ b vs, us = b :: vs ∧ b.isKeyword "BY" = true ∧ Names vs ns :=
    { begins := fun {ts c rest} h => by
        rcases Rule.fails_bind.mp h with hc | ⟨_, mid, hby, hc⟩
        · obtain ⟨-, -, rfl⟩ := Rule.fails_one.mp hc
          obtain ⟨b, hb⟩ := exists_isKeyword "BY"
          obtain ⟨t, ht⟩ := exists_kind .identifier
          exact ⟨[], rfl, [b, t], _, b, [t], rfl, hb, .one ht⟩
        · obtain ⟨b, rfl, hb⟩ := Rule.yields_keyword.mp hby
          obtain ⟨us, rfl, more, ns, hns⟩ := viable_names.begins hc
          exact ⟨b :: us, rfl, more, ns, b, us ++ more, rfl, hb, hns⟩ }
  refine viable_optional hinner ?_
  rintro g _ ns hg ⟨b, us, rfl, hb, hns⟩
  exact .mk hg hb hns

theorem viable_targets :
    Viable
      (optional (·.kind == .leftParen) do
        let columns ← names
        Rule.token .rightParen
        return columns)
      (Optional Targets) := by
  have hinner : Viable
      (do let columns ← names
          Rule.token .rightParen
          return columns)
      fun us ns => ∃ vs t, us = vs ++ [t] ∧ Names vs ns ∧ t.kind = .rightParen :=
    { begins := fun {ts c rest} h => by
        obtain ⟨t, ht⟩ := exists_kind .rightParen
        rcases Rule.fails_bind.mp h with hc | ⟨ns, mid, hns, h₁⟩
        · obtain ⟨us, rfl, more, ns, hns⟩ := viable_names.begins hc
          exact ⟨us, rfl, more ++ [t], ns, us ++ more, t, by simp, hns, ht⟩
        obtain ⟨us, rfl, hus⟩ := recognises_names.sound hns
        have hc := Rule.fails_bind_pure.mp h₁
        obtain ⟨-, -, rfl⟩ := Rule.fails_one.mp hc
        exact ⟨us, rfl, [t], ns, us, t, rfl, hus, ht⟩ }
  refine viable_optional hinner ?_
  rintro o _ ns ho ⟨us, t, rfl, hns, ht⟩
  exact .mk (by simpa using ho) hns ht

/-! ## Statements -/

theorem selectFrom_viable {columns : List String} (h : (selectFrom columns).Fails ts c rest)
    {cs : List Token} (hcs : Columns cs columns) :
    ∃ us, ts = us ++ rest ∧ Begins SelectBody (cs ++ us) := by
  obtain ⟨t₀, ht₀⟩ := exists_kind .identifier
  rcases Rule.fails_bind.mp h with hc | ⟨_, _, hfrom, h₁⟩
  · obtain ⟨-, -, rfl⟩ := Rule.fails_one.mp hc
    obtain ⟨f, hf⟩ := exists_isKeyword "FROM"
    have hbody : SelectBody (cs ++ f :: t₀ :: ([] ++ [])) _ := .mk hcs hf ht₀ .absent .absent
    exact ⟨[], rfl, [f, t₀], _, by simpa using hbody⟩
  obtain ⟨f, rfl, hf⟩ := Rule.yields_keyword.mp hfrom
  rcases Rule.fails_bind.mp h₁ with hc | ⟨_, _, htable, h₂⟩
  · obtain ⟨-, -, rfl⟩ := Rule.fails_one.mp hc
    have hbody : SelectBody (cs ++ f :: t₀ :: ([] ++ [])) _ := .mk hcs hf ht₀ .absent .absent
    exact ⟨[f], rfl, [t₀], _, by simpa using hbody⟩
  obtain ⟨t, rfl, ht, rfl⟩ := Rule.yields_identifier.mp htable
  rcases Rule.fails_bind.mp h₂ with hc | ⟨condition?, _, hwhere, h₃⟩
  · obtain ⟨ws, rfl, more, condition?, hws⟩ := viable_where.begins hc
    have hbody : SelectBody (cs ++ f :: t :: ((ws ++ more) ++ [])) _ := .mk hcs hf ht hws .absent
    exact ⟨f :: t :: ws, rfl, more, _, by simpa using hbody⟩
  obtain ⟨ws, rfl, hws⟩ := recognises_where.sound hwhere
  have hc := Rule.fails_bind_pure.mp h₃
  obtain ⟨gs, rfl, more, groupBy?, hgs⟩ := viable_groupBy.begins hc
  have hbody : SelectBody (cs ++ f :: t :: (ws ++ (gs ++ more))) _ := .mk hcs hf ht hws hgs
  exact ⟨f :: t :: (ws ++ gs), by simp, more, _, by simpa using hbody⟩

theorem viable_selectTail : Viable selectTail SelectBody where
  begins {ts c rest} h := by
    rcases Rule.fails_bind.mp h with hc | ⟨star, mid, hstar, h₁⟩
    · exact absurd hc Rule.not_fails_accept
    rcases Rule.yields_accept.mp hstar with ⟨t, rfl, ht, rfl⟩ | ⟨-, rfl, rfl⟩
    · rcases Rule.fails_bind.mp h₁ with hpure | ⟨_, _, hpure, hfrom⟩
      · exact absurd hpure Rule.not_fails_pure
      · obtain ⟨rfl, rfl⟩ := Rule.yields_pure.mp hpure
        obtain ⟨us, rfl, hus⟩ := selectFrom_viable hfrom (.all (by simpa using ht))
        exact ⟨t :: us, rfl, hus⟩
    · rcases Rule.fails_bind.mp h₁ with hc | ⟨columns, mid, hnames, hfrom⟩
      · obtain ⟨us, rfl, more, ns, hns⟩ := viable_names.begins hc
        obtain ⟨f, hf⟩ := exists_isKeyword "FROM"
        obtain ⟨t, ht⟩ := exists_kind .identifier
        have hbody : SelectBody ((us ++ more) ++ f :: t :: ([] ++ [])) _ :=
          .mk (.listed hns) hf ht .absent .absent
        exact ⟨us, rfl, more ++ [f, t], _, by simpa using hbody⟩
      · obtain ⟨cs, rfl, hcs⟩ := recognises_names.sound hnames
        obtain ⟨us, rfl, hus⟩ := selectFrom_viable hfrom (.listed hcs)
        exact ⟨cs ++ us, by simp, hus⟩

theorem viable_insertTail : Viable insertTail InsertBody where
  begins {ts c rest} h := by
    obtain ⟨t₀, ht₀⟩ := exists_kind .identifier
    obtain ⟨v₀, hv₀⟩ := exists_isKeyword "VALUES"
    obtain ⟨o, ho⟩ := exists_kind .leftParen
    obtain ⟨p, hp⟩ := exists_kind .rightParen
    have hempty : Parenthesized [o, p] [] := .empty ho hp
    rcases Rule.fails_bind.mp h with hc | ⟨_, _, hinto, h₁⟩
    · obtain ⟨-, -, rfl⟩ := Rule.fails_one.mp hc
      obtain ⟨n, hn⟩ := exists_isKeyword "INTO"
      exact ⟨[], rfl, n :: t₀ :: ([] ++ v₀ :: [o, p]), _, .mk hn ht₀ .absent hv₀ hempty⟩
    obtain ⟨n, rfl, hn⟩ := Rule.yields_keyword.mp hinto
    rcases Rule.fails_bind.mp h₁ with hc | ⟨_, _, htable, h₂⟩
    · obtain ⟨-, -, rfl⟩ := Rule.fails_one.mp hc
      exact ⟨[n], rfl, t₀ :: ([] ++ v₀ :: [o, p]), _, .mk hn ht₀ .absent hv₀ hempty⟩
    obtain ⟨t, rfl, ht, rfl⟩ := Rule.yields_identifier.mp htable
    rcases Rule.fails_bind.mp h₂ with hc | ⟨columns?, _, hcolumns, h₃⟩
    · obtain ⟨cs, rfl, more, columns?, hcs⟩ := viable_targets.begins hc
      have hbody : InsertBody (n :: t :: ((cs ++ more) ++ v₀ :: [o, p])) _ :=
        .mk hn ht hcs hv₀ hempty
      exact ⟨n :: t :: cs, rfl, more ++ v₀ :: [o, p], _, by simpa using hbody⟩
    obtain ⟨cs, rfl, hcs⟩ := recognises_targets.sound hcolumns
    rcases Rule.fails_bind.mp h₃ with hc | ⟨_, _, hvalues, h₄⟩
    · obtain ⟨-, -, rfl⟩ := Rule.fails_one.mp hc
      exact ⟨n :: t :: cs, rfl, v₀ :: [o, p], _, .mk hn ht hcs hv₀ hempty⟩
    obtain ⟨v, rfl, hv⟩ := Rule.yields_keyword.mp hvalues
    have hc := Rule.fails_bind_pure.mp h₄
    obtain ⟨vs, rfl, more, _, es, rfl, hvs⟩ := viable_array.begins hc
    have hbody : InsertBody (n :: t :: (cs ++ v :: (vs ++ more))) _ := .mk hn ht hcs hv hvs
    exact ⟨n :: t :: (cs ++ v :: vs), by simp, more, _, by simpa using hbody⟩

/-- A statement's body and the semicolon that ends it. -/
theorem viable_terminated {β : Type} {body : Rule α} {Body : List Token → α → Prop} {f : α → β}
    (hbody : Recognises body Body continues) (hviable : Viable body Body) :
    Viable
      (do let a ← body
          Rule.token .semicolon
          return f a)
      fun us b => ∃ vs a t, us = vs ++ [t] ∧ Body vs a ∧ t.kind = .semicolon ∧ b = f a where
  begins {ts c rest} h := by
    obtain ⟨t, ht⟩ := exists_kind .semicolon
    rcases Rule.fails_bind.mp h with hc | ⟨a, mid, ha, h₁⟩
    · obtain ⟨us, rfl, more, a, ha⟩ := hviable.begins hc
      exact ⟨us, rfl, more ++ [t], f a, us ++ more, a, t, by simp, ha, ht, rfl⟩
    obtain ⟨us, rfl, hus⟩ := hbody.sound ha
    have hc := Rule.fails_bind_pure.mp h₁
    obtain ⟨-, -, rfl⟩ := Rule.fails_one.mp hc
    exact ⟨us, rfl, [t], f a, us, a, t, rfl, hus, ht, rfl⟩

/-- Where a statement is refused, the tokens before are the beginning of one with its semicolon. -/
theorem viable_statementBehind? {k : Token} {rule : Rule MiniSql.Statement}
    (hrule : statementBehind? k = some rule) :
    Viable rule fun us s => ∃ vs t, us = vs ++ [t] ∧ Phrase.Statement (k :: vs) s ∧
      t.kind = .semicolon where
  begins {ts c rest} h := by
    unfold statementBehind? at hrule
    split at hrule
    · next hk =>
      obtain rfl := Option.some.inj hrule
      obtain ⟨us, rfl, more, _, vs, q, t, hvs, hq, ht, rfl⟩ :=
        (viable_terminated recognises_selectTail viable_selectTail).begins h
      exact ⟨us, rfl, more, _, vs, t, hvs, .select hk hq, ht⟩
    · split at hrule
      · next hk =>
        obtain rfl := Option.some.inj hrule
        obtain ⟨us, rfl, more, _, vs, i, t, hvs, hi, ht, rfl⟩ :=
          (viable_terminated recognises_insertTail viable_insertTail).begins h
        exact ⟨us, rfl, more, _, vs, t, hvs, .insert hk hi, ht⟩
      · cases hrule

/-! ## Programs -/

theorem begins_program_nil : Begins Phrase.Program [] := by
  obtain ⟨k, hk⟩ := exists_isKeyword "SELECT"
  obtain ⟨a, ha⟩ := exists_kind .asterisk
  obtain ⟨f, hf⟩ := exists_isKeyword "FROM"
  obtain ⟨t, ht⟩ := exists_kind .identifier
  obtain ⟨s, hs⟩ := exists_kind .semicolon
  have hselect : Phrase.Statement (k :: ([a] ++ f :: t :: ([] ++ []))) _ :=
    .select hk (.mk (.all ha) hf ht .absent .absent)
  have hprogram : Phrase.Program (k :: ([a] ++ f :: t :: ([] ++ [])) ++ [s]) [_] :=
    .last hselect hs
  exact ⟨_, _, hprogram⟩

/-- A statement that is not finished begins a program. -/
theorem begins_program_of_fails {k : Token} {rule : Rule MiniSql.Statement}
    (hrule : statementBehind? k = some rule) (h : rule.Fails ts c rest) :
    ∃ us, k :: ts = us ++ rest ∧ Begins Phrase.Program us := by
  obtain ⟨us, rfl, more, s, vs, t, hvs, hs, ht⟩ := (viable_statementBehind? hrule).begins h
  have hprogram : Phrase.Program (k :: vs ++ [t]) [s] := .last hs ht
  rw [List.cons_append, ← hvs] at hprogram
  exact ⟨k :: us, rfl, more, [s], hprogram⟩

/-- A finished statement in front of what begins a program begins one, too. -/
theorem begins_program_cons {k t : Token} {s : MiniSql.Statement}
    (hs : Phrase.Statement (k :: us) s) (ht : t.kind = .semicolon)
    (h : Begins Phrase.Program vs) : Begins Phrase.Program (k :: us ++ t :: vs) := by
  obtain ⟨more, p, hp⟩ := h
  have hprogram : Phrase.Program (k :: us ++ t :: (vs ++ more)) (s :: p) := .more hs ht hp
  exact ⟨more, s :: p, by simpa using hprogram⟩

theorem viable_statements :
    Viable (Rule.toEnd .statement statementBehind?) Phrase.Program where
  begins {ts c rest} h := by
    -- by induction on the number of tokens: a statement takes its semicolon at least
    induction hn : ts.length using Nat.strongRecOn generalizing ts with
    | _ n ih =>
      obtain ⟨k, us, rfl, ⟨-, -, rfl⟩ | ⟨rule, hrule, hc | ⟨s, mid, hs, hlater⟩⟩⟩ :=
        Rule.fails_toEnd.mp h
      · exact ⟨[], rfl, begins_program_nil⟩
      · exact begins_program_of_fails hrule hc
      · obtain ⟨vs, t, rfl, hstatement, ht⟩ := yields_statementBehind?.mp ⟨rule, hrule, hs⟩
        obtain ⟨ws, rfl, hws⟩ := ih mid.length (by simp at hn; omega) hlater rfl
        exact ⟨k :: vs ++ t :: ws, by simp, begins_program_cons hstatement ht hws⟩

/-- Where a program is refused, the tokens before are the beginning of one. -/
theorem viable_program : Viable program Phrase.Program where
  begins {ts c rest} h := by
    rcases Rule.fails_bind.mp h with hc | ⟨s, mid, hs, h₁⟩
    · rcases Rule.fails_choose.mp hc with ⟨-, -, rfl⟩ | ⟨k, us, rule, rfl, hrule, hc⟩
      · exact ⟨[], rfl, begins_program_nil⟩
      · exact begins_program_of_fails hrule hc
    obtain ⟨k, us, rule, rfl, hrule, hyields⟩ := Rule.yields_choose.mp hs
    obtain ⟨vs, t, rfl, hstatement, ht⟩ := yields_statementBehind?.mp ⟨rule, hrule, hyields⟩
    have hc := Rule.fails_bind_pure.mp h₁
    obtain ⟨ws, rfl, hws⟩ := viable_statements.begins hc
    exact ⟨k :: vs ++ t :: ws, by simp, begins_program_cons hstatement ht hws⟩

/-- The token at which a program fails cannot be taken, whatever stands behind it. -/
theorem not_begins_of_fails {t : Token} (h : program.Fails (us ++ t :: rest) c (t :: rest)) :
    ¬ Begins Phrase.Program (us ++ [t]) := by
  rintro ⟨more, p, hp⟩
  rw [List.append_assoc] at hp
  have hyields : program.Yields (us ++ t :: more) p [] := yields_program_iff.mpr ⟨rfl, hp⟩
  have hfails : program.Fails (us ++ t :: more) c (t :: more) :=
    (predictive_program.blames h).fails rfl
  exact hyields.not_fails hfails

end MiniSql.Grammar
