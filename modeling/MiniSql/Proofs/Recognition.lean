import MiniSql.Grammar.Statement
import MiniSql.Proofs.Phrase
import MiniSql.Proofs.Yield

/-!
# Rules recognise phrases

A rule recognises phrases of some kind (`Recognises`) if it yields exactly them: what it takes is
such a phrase, and a phrase in front of other tokens is taken whole, provided that the token behind
it does not continue it. The proviso is needed because a rule takes as much as it can.

The section on arrays follows the recursion of `primary`; every other rule is built from rules that
recognise their parts, so its lemma takes those as hypotheses.
-/

namespace MiniSql.Grammar

open Phrase

variable {α : Type} {ts us rest : List Token}

/-- The rule takes exactly the given phrases, whole wherever no continuing token follows. -/
structure Recognises (rule : Rule α) (Phrase : List Token → α → Prop)
    (continues : Token → Prop) : Prop where
  sound : ∀ {ts : List Token} {a : α} {rest : List Token},
    rule.Yields ts a rest → ∃ us, ts = us ++ rest ∧ Phrase us a
  complete : ∀ {us : List Token} {a : α} {rest : List Token},
    Phrase us a → (∀ t ∈ rest.head?, ¬ continues t) → rule.Yields (us ++ rest) a rest

/-- More tokens may be named as ones that could go on. -/
theorem Recognises.mono {rule : Rule α} {Phrase : List Token → α → Prop}
    {continues continues' : Token → Prop} (h : Recognises rule Phrase continues)
    (hmono : ∀ t, continues t → continues' t) : Recognises rule Phrase continues' where
  sound := h.sound
  complete hus hrest := h.complete hus fun t ht hc => hrest t ht (hmono t hc)

/-! ## Arrays and primaries -/

/-- What a token is on its own, as a primary. -/
def literal? (t : Token) : Option Expr :=
  match t.kind with
  | .number => (Numeral.read? t.text).map .number
  | .string => some (.string t.text)
  | .trueLiteral => some (.boolean true)
  | .falseLiteral => some (.boolean false)
  | .identifier => some (.identifier t.text)
  | _ => none

theorem primary_of_literal? {t : Token} {e : Expr} (h : literal? t = some e) :
    Primary [t] e := by
  unfold literal? at h
  split at h
  · next ht =>
    obtain ⟨value, hv, rfl⟩ := Option.map_eq_some_iff.mp h
    exact .number ht hv
  · next ht => exact Option.some.inj h ▸ .string ht
  · next ht => exact Option.some.inj h ▸ .trueLiteral ht
  · next ht => exact Option.some.inj h ▸ .falseLiteral ht
  · next ht => exact Option.some.inj h ▸ .identifier ht
  · exact absurd h nofun

/-- A primary expression is a literal or a parenthesized list. -/
theorem yields_primary {e : Expr} :
    Rule.Yields primary ts e rest ↔ ∃ t us, ts = t :: us ∧
      (literal? t = some e ∧ rest = us ∨
        t.kind = .leftParen ∧ ∃ es, Rule.Yields arrayTail us es rest ∧ e = .array es) := by
  cases ts with
  | nil => simp [Rule.Yields, primary, Step.stuck]
  | cons t us =>
    have hcons : (Rule.Yields primary (t :: us) e rest ↔
        literal? t = some e ∧ rest = us ∨
          t.kind = .leftParen ∧ ∃ es, Rule.Yields arrayTail us es rest ∧ e = .array es) := by
      unfold Rule.Yields
      rw [primary, literal?]
      cases hk : t.kind with
      | number => cases Numeral.read? t.text <;> simp [Step.stuck, Step.took, eq_comm]
      | leftParen =>
        -- the parenthesis is no literal
        refine (Rule.yields_map_widen _ _ (List.suffix_cons t us)).trans
          ⟨fun h => .inr ⟨rfl, h⟩, ?_⟩
        rintro (⟨hnone, -⟩ | ⟨-, h⟩)
        · cases hnone
        · exact h
      | _ => simp [Step.stuck, Step.took, eq_comm]
    rw [hcons]
    constructor
    · intro h
      exact ⟨t, us, rfl, h⟩
    · rintro ⟨u, vs, htu, h⟩
      obtain ⟨rfl, rfl⟩ := List.cons.inj htu
      exact h

theorem yields_arrayTail {es : List Expr} :
    Rule.Yields arrayTail ts es rest ↔
      (∃ t, ts = t :: rest ∧ t.kind = .rightParen ∧ es = []) ∨
        (∀ t ∈ ts.head?, t.kind ≠ .rightParen) ∧ Rule.Yields elements ts es rest := by
  cases ts with
  | nil => simp [Rule.Yields, arrayTail, elements, primary, Step.stuck]
  | cons t us =>
    unfold Rule.Yields
    by_cases ht : t.kind = .rightParen
    · have htail : arrayTail (t :: us) = .took [] := by rw [arrayTail, if_pos ht]
      rw [htail]
      constructor
      · rintro ⟨hes, hrest⟩
        obtain rfl : us = rest := hrest
        exact .inl ⟨t, rfl, ht, (Except.ok.inj hes).symm⟩
      · rintro (⟨u, htu, -, rfl⟩ | ⟨hne, -⟩)
        · exact ⟨rfl, (List.cons.inj htu).2⟩
        · exact absurd ht (hne t rfl)
    · have htail : arrayTail (t :: us) = elements (t :: us) := by rw [arrayTail, if_neg ht]
      rw [htail]
      constructor
      · intro h
        exact .inr ⟨Rule.forall_mem_head?_cons ht, h⟩
      · rintro (⟨u, htu, hu, -⟩ | ⟨-, h⟩)
        · obtain ⟨rfl, -⟩ := List.cons.inj htu
          exact absurd hu ht
        · exact h

theorem yields_elements {es : List Expr} :
    Rule.Yields elements ts es rest ↔ ∃ e t us, Rule.Yields primary ts e (t :: us) ∧
      (t.kind = .comma ∧ (∃ more, Rule.Yields elements us more rest ∧ es = e :: more) ∨
        t.kind = .rightParen ∧ es = [e] ∧ rest = us) := by
  simp only [Rule.Yields]
  rw [elements]
  rcases hp : primary ts with ⟨result, mid, h⟩
  cases result with
  | error c => simp
  | ok e =>
    cases mid with
    | nil => simp
    | cons t us =>
      -- what the primary leaves is fixed, so only the token behind it decides
      have hbehind {P : Expr → Token → List Token → Prop} :
          (∃ e' t' us', ((.ok e : Except Complaint Expr) = .ok e' ∧ t :: us = t' :: us') ∧
            P e' t' us') ↔ P e t us := by
        constructor
        · intro h
          obtain ⟨e', t', us', ⟨he, hus⟩, hP⟩ := h
          obtain rfl := Except.ok.inj he
          obtain ⟨rfl, rfl⟩ := List.cons.inj hus
          exact hP
        · intro h
          exact ⟨e, t, us, ⟨rfl, rfl⟩, h⟩
      refine Iff.trans ?_ hbehind.symm
      dsimp only
      by_cases hc : t.kind = .comma
      · rw [if_pos hc]
        refine (Rule.yields_map_widen _ _ _).trans ⟨fun h => .inl ⟨hc, h⟩, ?_⟩
        rintro (⟨-, h⟩ | ⟨hr, -⟩)
        · exact h
        · rw [hc] at hr
          cases hr
      · rw [if_neg hc]
        by_cases hr : t.kind = .rightParen
        · rw [if_pos hr]
          constructor
          · rintro ⟨hes, hrest⟩
            exact .inr ⟨hr, (Except.ok.inj hes).symm, hrest.symm⟩
          · rintro (⟨hcomma, -⟩ | ⟨-, rfl, rfl⟩)
            · exact absurd hcomma hc
            · exact ⟨rfl, rfl⟩
        · rw [if_neg hr]
          constructor
          · rintro ⟨hes, -⟩
            cases hes
          · rintro (⟨hcomma, -⟩ | ⟨hparen, -⟩)
            · exact absurd hcomma hc
            · exact absurd hparen hr

/- The parser's own recursion: `elements` reads a primary from the same tokens, everything else
has a token less to read. -/
mutual

/-- What is read as a primary expression is derived as one. -/
theorem primary_sound {ts rest : List Token} {e : Expr} (h : Rule.Yields primary ts e rest) :
    ∃ us, ts = us ++ rest ∧ Primary us e := by
  obtain ⟨t, us, rfl, ⟨hlit, rfl⟩ | ⟨ho, es, htail, rfl⟩⟩ := yields_primary.mp h
  · exact ⟨[t], rfl, primary_of_literal? hlit⟩
  · obtain ⟨vs, hvs, harray⟩ := arrayTail_sound htail ho
    exact ⟨vs, hvs, .array harray⟩
termination_by 3 * ts.length

theorem arrayTail_sound {ts rest : List Token} {es : List Expr}
    (h : Rule.Yields arrayTail ts es rest) {o : Token} (ho : o.kind = .leftParen) :
    ∃ us, o :: ts = us ++ rest ∧ Parenthesized us es := by
  rcases yields_arrayTail.mp h with ⟨c, rfl, hc, rfl⟩ | ⟨-, helements⟩
  · exact ⟨[o, c], rfl, .empty ho hc⟩
  · obtain ⟨us, c, rfl, hus, hc⟩ := elements_sound helements
    exact ⟨o :: us ++ [c], by simp, .filled ho hus hc⟩
termination_by 3 * ts.length + 2

theorem elements_sound {ts rest : List Token} {es : List Expr}
    (h : Rule.Yields elements ts es rest) :
    ∃ us c, ts = us ++ c :: rest ∧ Elements us es ∧ c.kind = .rightParen := by
  obtain ⟨e, t, us, hp, hcases⟩ := yields_elements.mp h
  obtain ⟨vs, hvs, hprimary⟩ := primary_sound hp
  have hlen : us.length < ts.length := hp.length_le
  rcases hcases with ⟨hcomma, more, hmore, rfl⟩ | ⟨hclose, rfl, rfl⟩
  · obtain ⟨ws, c, rfl, hws, hc⟩ := elements_sound hmore
    exact ⟨vs ++ t :: ws, c, by simp [hvs], .more hprimary hcomma hws, hc⟩
  · exact ⟨vs, t, hvs, .one hprimary, hclose⟩
termination_by 3 * ts.length + 1

end

theorem head_ne_of_yields_elements {es : List Expr} (h : Rule.Yields elements ts es rest) :
    ∀ t ∈ ts.head?, t.kind ≠ .rightParen := by
  obtain ⟨e, c, us, hp, -⟩ := yields_elements.mp h
  obtain ⟨t, vs, rfl, ⟨hlit, -⟩ | ⟨ho, -⟩⟩ := yields_primary.mp hp
  · refine Rule.forall_mem_head?_cons fun hr => ?_
    simp [literal?, hr] at hlit
  · refine Rule.forall_mem_head?_cons fun hr => ?_
    rw [hr] at ho
    cases ho

/-- What is derived as a primary expression is read as one, whatever stands behind it. -/
theorem primary_complete {us : List Token} {e : Expr} (h : Primary us e) :
    ∀ rest, Rule.Yields primary (us ++ rest) e rest := by
  have single {t : Token} {e : Expr} (ht : literal? t = some e) (rest : List Token) :
      Rule.Yields primary ([t] ++ rest) e rest :=
    yields_primary.mpr ⟨t, rest, rfl, .inl ⟨ht, rfl⟩⟩
  -- by induction on the derivation, for a primary, an array behind its opening parenthesis, and the
  -- elements of an array up to its closing one
  refine @Primary.rec
    (fun us e _ => ∀ rest, Rule.Yields primary (us ++ rest) e rest)
    (fun us es _ => ∀ rest, ∃ o vs, us = o :: vs ∧ o.kind = .leftParen ∧
      Rule.Yields arrayTail (vs ++ rest) es rest)
    (fun us es _ => ∀ c rest, c.kind = .rightParen → Rule.Yields elements (us ++ c :: rest) es rest)
    ?number ?string ?trueLiteral ?falseLiteral ?identifier ?array ?empty ?filled ?one ?more us e h
  case number =>
    intro t value ht hv
    exact single (by simp [literal?, ht, hv])
  case string =>
    intro t ht
    exact single (by simp [literal?, ht])
  case trueLiteral =>
    intro t ht
    exact single (by simp [literal?, ht])
  case falseLiteral =>
    intro t ht
    exact single (by simp [literal?, ht])
  case identifier =>
    intro t ht
    exact single (by simp [literal?, ht])
  case array =>
    intro us es _ harray rest
    obtain ⟨o, vs, rfl, ho, htail⟩ := harray rest
    exact yields_primary.mpr ⟨o, vs ++ rest, rfl, .inr ⟨ho, es, htail, rfl⟩⟩
  case empty =>
    intro o c ho hc rest
    exact ⟨o, [c], rfl, ho, yields_arrayTail.mpr (.inl ⟨c, rfl, hc, rfl⟩)⟩
  case filled =>
    intro o c us es ho _ hc helements rest
    have hyields := helements c rest hc
    refine ⟨o, us ++ [c], rfl, ho, ?_⟩
    rw [List.append_assoc]
    exact yields_arrayTail.mpr (.inr ⟨head_ne_of_yields_elements hyields, hyields⟩)
  case one =>
    intro us e _ hprimary c rest hc
    exact yields_elements.mpr ⟨e, c, rest, hprimary (c :: rest), .inr ⟨hc, rfl, rfl⟩⟩
  case more =>
    intro t us vs e es _ hcomma _ hprimary hmore c rest hc
    rw [List.append_assoc]
    exact yields_elements.mpr ⟨e, t, vs ++ c :: rest, hprimary _,
      .inl ⟨hcomma, es, hmore c rest hc, rfl⟩⟩

theorem recognises_primary : Recognises primary Primary fun _ => False where
  sound := primary_sound
  complete h _ := primary_complete h _

theorem recognises_array :
    Recognises array (fun us e => ∃ es, e = .array es ∧ Parenthesized us es) fun _ => False where
  sound h := by
    obtain ⟨_, _, hopen, hinside⟩ := Rule.yields_bind.mp h
    obtain ⟨es, _, htail, hvalue⟩ := Rule.yields_bind.mp hinside
    obtain ⟨o, rfl, ho⟩ := Rule.yields_token.mp hopen
    obtain ⟨rfl, rfl⟩ := Rule.yields_pure.mp hvalue
    obtain ⟨us, hus, harray⟩ := arrayTail_sound htail ho
    exact ⟨us, hus, es, rfl, harray⟩
  complete := by
    rintro us e rest ⟨es, rfl, harray⟩ -
    -- the rule for primaries has read the same array behind the same parenthesis
    obtain ⟨o, vs, hvs, ⟨hlit, -⟩ | ⟨ho, es', htail, hes⟩⟩ :=
      yields_primary.mp (primary_complete (.array harray) rest)
    · unfold literal? at hlit
      split at hlit <;> simp at hlit
    · obtain rfl := Expr.array.inj hes
      rw [hvs]
      refine Rule.yields_bind.mpr ⟨(), vs, Rule.yields_token.mpr ⟨o, rfl, ho⟩, ?_⟩
      exact Rule.yields_bind.mpr ⟨es, rest, htail, Rule.yields_pure.mpr ⟨rfl, rfl⟩⟩

/-! ## Operators

Between the operands of a joint stands a token that continues none of them, so the left operand is
taken whole and the rule goes on at that token. -/

variable {operand : Rule Expr} {Operand : List Token → Expr → Prop} {continues : Token → Prop}

/-- One operand, or two with a comparison sign between them, if no operand goes on with a sign. -/
theorem recognises_atMostOne {op? : TokenKind → Option BinaryOp}
    {Sign : TokenKind → BinaryOp → Prop} (hoperand : Recognises operand Operand continues)
    (hsign : ∀ kind op, op? kind = some op ↔ Sign kind op)
    (hapart : ∀ t op, Sign t.kind op → ¬ continues t) :
    Recognises (atMostOne op? operand) (AtMostOne Sign Operand)
      fun t => (∃ op, Sign t.kind op) ∨ continues t where
  sound {ts e rest} h := by
    simp only [atMostOne, Rule.yields_bind, Rule.yields_take?] at h
    obtain ⟨l, mid, hl, op, mid', ⟨t, op, rfl, ht, rfl⟩ | ⟨-, rfl, rfl⟩, hrest⟩ := h
    · obtain ⟨us, rfl, hus⟩ := hoperand.sound hl
      simp only [Rule.yields_bind, Rule.yields_pure] at hrest
      obtain ⟨r, rest', hr, rfl, rfl⟩ := hrest
      obtain ⟨vs, rfl, hvs⟩ := hoperand.sound hr
      exact ⟨us ++ t :: vs, by simp, .two hus ((hsign _ _).mp ht) hvs⟩
    · obtain ⟨us, rfl, hus⟩ := hoperand.sound hl
      simp only [Rule.yields_pure] at hrest
      obtain ⟨rfl, rfl⟩ := hrest
      exact ⟨us, rfl, .one hus⟩
  complete {us e rest} h hrest := by
    have hends : ∀ t ∈ rest.head?, ¬ continues t := fun t ht hc => hrest t ht (.inr hc)
    simp only [atMostOne, Rule.yields_bind, Rule.yields_take?]
    cases h with
    | one hus =>
      refine ⟨e, rest, hoperand.complete hus hends, none, rest, .inr ⟨?_, rfl, rfl⟩, ?_⟩
      · intro t ht
        rw [Option.eq_none_iff_forall_ne_some]
        intro op hop
        exact hrest t ht (.inl ⟨op, (hsign _ _).mp hop⟩)
      · simp
    | @two t us vs l r op hl ht hr =>
      rw [List.append_assoc]
      refine ⟨l, t :: (vs ++ rest), hoperand.complete hl ?_, some op, vs ++ rest,
        .inl ⟨t, op, rfl, (hsign _ _).mpr ht, rfl⟩, ?_⟩
      · exact Rule.forall_mem_head?_cons (hapart t op ht)
      · simp only [Rule.yields_bind, Rule.yields_pure]
        exact ⟨r, rest, hoperand.complete hr hends, rfl, rfl⟩

/-- Repeated parts, each behind a starting token. -/
inductive Repeated (starts : Token → Bool) (Part : List Token → α → Prop) :
    List Token → List α → Prop
  | nil : Repeated starts Part [] []
  | cons {t : Token} {us vs : List Token} {a : α} {as : List α} (ht : starts t = true)
      (h : Part us a) (hs : Repeated starts Part vs as) :
      Repeated starts Part (t :: us ++ vs) (a :: as)

/-- In front of repeated parts a part ends: behind it stands the next starting token, or else what
follows the whole repetition. -/
theorem Repeated.head_apart {Part : List Token → α → Prop} {starts : Token → Bool} {vs : List Token}
    {as : List α} (h : Repeated starts Part vs as)
    (hapart : ∀ t, starts t = true → ¬ continues t)
    (hrest : ∀ t ∈ rest.head?, ¬ (starts t = true ∨ continues t)) :
    ∀ t ∈ (vs ++ rest).head?, ¬ continues t := by
  cases h with
  | nil => exact fun t ht hc => hrest t ht (.inr hc)
  | cons ht _ _ => exact Rule.forall_mem_head?_cons (hapart _ ht)

/-- Any number of parts, each behind a token that starts one, if no part goes on with such
a token. -/
theorem recognises_many {rule : Rule α} {Part : List Token → α → Prop} {starts : Token → Bool}
    (hrule : Recognises rule Part continues)
    (hapart : ∀ t, starts t = true → ¬ continues t) :
    Recognises (Rule.many starts rule) (Repeated starts Part)
      fun t => starts t = true ∨ continues t where
  sound {ts as rest} h := by
    -- by induction on the number of tokens: each round takes its starting token
    induction hn : ts.length using Nat.strongRecOn generalizing ts as rest with
    | _ n ih =>
      rcases Rule.yields_many.mp h with ⟨-, rfl, rfl⟩ | ⟨t, us, a, mid, later, rfl, ht, ha, hl, rfl⟩
      · exact ⟨[], rfl, .nil⟩
      · have hlen := ha.length_le
        obtain ⟨vs, rfl, hvs⟩ := hrule.sound ha
        obtain ⟨ws, rfl, hws⟩ := ih mid.length (by simp at hn hlen; omega) hl rfl
        exact ⟨t :: vs ++ ws, by simp, .cons ht hvs hws⟩
  complete {us as rest} h hrest := by
    induction h with
    | nil =>
      exact Rule.yields_many.mpr (.inl ⟨fun t ht => by simpa using fun hs => hrest t ht (.inl hs),
        rfl, rfl⟩)
    | @cons t us vs a as ht ha hs ih =>
      rw [List.append_assoc]
      have hpart : rule.Yields (us ++ (vs ++ rest)) a (vs ++ rest) :=
        hrule.complete ha (hs.head_apart hapart hrest)
      exact Rule.yields_many.mpr
        (.inr ⟨t, us ++ (vs ++ rest), a, vs ++ rest, as, rfl, ht, hpart, ih, rfl⟩)

/-- One more part may be added at the end. -/
theorem Repeated.concat {starts : Token → Bool} {Part : List Token → α → Prop} {t : Token}
    {us vs : List Token} {as : List α} {a : α} (h : Repeated starts Part us as)
    (ht : starts t = true) (ha : Part vs a) :
    Repeated starts Part (us ++ t :: vs) (as ++ [a]) := by
  induction h with
  | nil => simpa using Repeated.cons ht ha .nil
  | @cons u us ws b bs hu hb _ ih =>
    have := Repeated.cons hu hb ih
    simpa using this

variable {word : String} {op : BinaryOp}

/-- Joining on the left one operand after the other is the left-recursive rule. -/
theorem joined_of_repeated {l : Expr} {vs : List Token} {others : List Expr}
    (hl : Joined word op Operand us l) (hothers : Repeated (·.isKeyword word) Operand vs others) :
    Joined word op Operand (us ++ vs) (others.foldl (Expr.binary · op ·) l) := by
  induction hothers generalizing us l with
  | nil => simpa using hl
  | @cons t vs ws r rs ht hr _ ih => simpa using ih (hl.more ht hr)

/-- Operands joined from the left are one operand and a repetition of the others. -/
theorem repeated_of_joined {e : Expr} (h : Joined word op Operand us e) :
    ∃ vs ws l others, us = vs ++ ws ∧ Operand vs l ∧
      Repeated (·.isKeyword word) Operand ws others ∧
      e = others.foldl (Expr.binary · op ·) l := by
  induction h with
  | @one us e he => exact ⟨us, [], e, [], by simp, he, .nil, rfl⟩
  | @more t us xs l r _ ht hr ih =>
    obtain ⟨vs, ws, first, others, rfl, hfirst, hothers, rfl⟩ := ih
    exact ⟨vs, ws ++ t :: xs, first, others ++ [r], by simp, hfirst, hothers.concat ht hr,
      by simp⟩

/-- Operands joined by a keyword, if no operand goes on with it. -/
theorem recognises_joined (hoperand : Recognises operand Operand continues)
    (hapart : ∀ t : Token, t.isKeyword word = true → ¬ continues t) :
    Recognises (joined word op operand) (Joined word op Operand)
      fun t => t.isKeyword word = true ∨ continues t where
  sound h := by
    obtain ⟨l, mid, hl, hrest⟩ := Rule.yields_bind.mp h
    obtain ⟨others, mid', hothers, hvalue⟩ := Rule.yields_bind.mp hrest
    obtain ⟨rfl, rfl⟩ := Rule.yields_pure.mp hvalue
    obtain ⟨us, rfl, hus⟩ := hoperand.sound hl
    obtain ⟨vs, rfl, hvs⟩ := (recognises_many hoperand hapart).sound hothers
    exact ⟨us ++ vs, by simp, joined_of_repeated (.one hus) hvs⟩
  complete {us e rest} h hrest := by
    obtain ⟨vs, ws, l, others, rfl, hl, hothers, rfl⟩ := repeated_of_joined h
    have hmany := (recognises_many hoperand hapart).complete hothers hrest
    rw [List.append_assoc]
    have hfirst : operand.Yields (vs ++ (ws ++ rest)) l (ws ++ rest) :=
      hoperand.complete hl (hothers.head_apart hapart hrest)
    exact Rule.yields_bind.mpr ⟨l, ws ++ rest, hfirst,
      Rule.yields_bind.mpr ⟨others, rest, hmany, Rule.yields_pure.mpr ⟨rfl, rfl⟩⟩⟩

end MiniSql.Grammar
