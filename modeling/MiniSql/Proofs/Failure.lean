import MiniSql.Proofs.Yield

/-!
# Where a rule fails

`rule.Fails ts c rest` says that a rule, given the tokens `ts`, complains `c` in front of `rest`.
As for what a rule yields, each way to build a rule has one lemma that says exactly when it fails.

A rule is *predictive* if it decides by the next token alone: with other tokens behind the one at
which it stops, it does the same. Every way to build a rule keeps that, and so the failure of a
predictive rule is the fault of the token at which it stops, whatever follows.
-/

namespace MiniSql.Rule

variable {α β : Type} {ts us rest rest' : List Token} {c : Complaint}

/-- The rule takes the tokens in front of `rest` and complains there. -/
def Fails (rule : Rule α) (ts : List Token) (c : Complaint) (rest : List Token) : Prop :=
  (rule ts).result = .error c ∧ (rule ts).rest = rest

/-- A rule that fails stops somewhere in its tokens. -/
theorem Fails.suffix {rule : Rule α} (h : rule.Fails ts c rest) : rest <:+ ts := by
  rw [← h.2]
  exact (rule ts).suffix

/-- No rule succeeds and fails on the same tokens. -/
theorem Yields.not_fails {rule : Rule α} {a : α} (h : rule.Yields ts a rest) :
    ¬ rule.Fails ts c rest' := by
  intro hfails
  have heq : (Except.ok a : Except Complaint α) = .error c := h.1.symm.trans hfails.1
  cases heq

/-- A rule whose value is changed, with tokens before its own. -/
theorem fails_map_widen (rule : Rule α) (f : α → β) (h : us <:+ ts) :
    (((rule us).map f).widen h).result = .error c ∧ (((rule us).map f).widen h).rest = rest ↔
      rule.Fails us c rest := by
  show (rule us).result.map f = .error c ∧ (rule us).rest = rest ↔
    (rule us).result = .error c ∧ (rule us).rest = rest
  cases (rule us).result with
  | error c' =>
    show (Except.error c' : Except Complaint β) = .error c ∧ _ ↔ _
    rw [Except.error.injEq, Except.error.injEq]
  | ok a =>
    refine ⟨fun ⟨hc, _⟩ => ?_, fun ⟨hc, _⟩ => ?_⟩
    · cases hc
    · cases hc

/-! ## Plain rules and sequences -/

@[simp] theorem not_fails_pure {a : α} : ¬ (pure a : Rule α).Fails ts c rest := by
  rintro ⟨⟨⟩, -⟩

/-- A sequence fails in its first rule, or in the second behind it. -/
theorem fails_bind {rule : Rule α} {f : α → Rule β} :
    (rule >>= f).Fails ts c rest ↔
      rule.Fails ts c rest ∨ ∃ a mid, rule.Yields ts a mid ∧ (f a).Fails mid c rest := by
  unfold Fails Yields
  show ((Bind.bind rule f : Rule β) ts).result = _ ∧ _ ↔ _
  simp only [Bind.bind]
  obtain ⟨result, mid, h⟩ := rule ts
  cases result with
  | error c' => simp
  | ok a =>
    constructor
    · intro hfails
      exact .inr ⟨a, mid, ⟨rfl, rfl⟩, hfails⟩
    · rintro (⟨⟨⟩, -⟩ | ⟨a', mid', ⟨ha, hmid⟩, hfails⟩)
      obtain rfl := Except.ok.inj ha
      obtain rfl := hmid
      exact hfails

theorem fails_bind_pure {rule : Rule α} {f : α → β} :
    (rule >>= fun a => pure (f a)).Fails ts c rest ↔ rule.Fails ts c rest := by
  rw [fails_bind]
  exact or_iff_left fun ⟨_, _, _, hpure⟩ => not_fails_pure hpure

/-! ## Single tokens -/

/-- A rule for one token fails on any other, without taking it. -/
theorem fails_one {what : Expectation} {read? : Token → Option α} :
    (one what read?).Fails ts c rest ↔
      (∀ t ∈ ts.head?, read? t = none) ∧ c = .expected what ∧ rest = ts := by
  cases ts with
  | nil =>
    simp only [Fails, one, Step.stuck]
    grind
  | cons t us =>
    cases hr : read? t with
    | none =>
      have : one what read? (t :: us) = .stuck (.expected what) := by simp only [one, hr]
      simp only [Fails, this, Step.stuck]
      grind
    | some a =>
      have : one what read? (t :: us) = .took a := by simp only [one, hr]
      simp only [Fails, this, Step.took]
      grind

@[simp] theorem not_fails_take? {read? : Token → Option α} : ¬ (take? read?).Fails ts c rest := by
  cases ts with
  | nil => rintro ⟨⟨⟩, -⟩
  | cons t us =>
    cases hr : read? t with
    | none =>
      have : take? read? (t :: us) = .done none := by simp only [take?, hr]
      simp only [Fails, this, Step.done]
      rintro ⟨⟨⟩, -⟩
    | some a =>
      have : take? read? (t :: us) = .took (some a) := by simp only [take?, hr]
      simp only [Fails, this, Step.took]
      rintro ⟨⟨⟩, -⟩

theorem not_fails_accept {test : Token → Bool} : ¬ (accept test).Fails ts c rest := by
  intro h
  exact not_fails_take? (fails_bind_pure.mp h)

theorem fails_choose {what : Expectation} {rule? : Token → Option (Rule α)} :
    (choose what rule?).Fails ts c rest ↔
      (∀ t ∈ ts.head?, rule? t = none) ∧ c = .expected what ∧ rest = ts ∨
        ∃ t us rule, ts = t :: us ∧ rule? t = some rule ∧ rule.Fails us c rest := by
  cases ts with
  | nil =>
    simp only [Fails, choose, Step.stuck]
    grind
  | cons t us =>
    cases hr : rule? t with
    | none =>
      have : choose what rule? (t :: us) = .stuck (.expected what) := by simp only [choose, hr]
      simp only [Fails, this, Step.stuck]
      grind
    | some rule =>
      have : choose what rule? (t :: us) = (rule us).widen (List.suffix_cons t us) := by
        simp only [choose, hr]
      simp only [Fails, this, Step.widen]
      grind

/-! ## Repetition -/

/-- A repetition fails only within a round that has begun. -/
theorem fails_many {starts : Token → Bool} {rule : Rule α} :
    Fails (many starts rule) ts c rest ↔ ∃ t us, ts = t :: us ∧ starts t = true ∧
      (rule.Fails us c rest ∨
        ∃ a mid, rule.Yields us a mid ∧ Fails (many starts rule) mid c rest) := by
  cases ts with
  | nil =>
    simp only [Fails, many_nil, Step.done]
    grind
  | cons t us =>
    simp only [Fails, many_cons]
    cases hs : starts t with
    | false =>
      simp only [Bool.false_eq_true, if_false, Step.done]
      grind
    | true =>
      rw [if_pos rfl]
      rcases hr : rule us with ⟨result, mid, h⟩
      cases result with
      | error c' => grind [Yields]
      | ok a =>
        have hyields : rule.Yields us a mid := by
          rw [Yields, hr]
          exact ⟨rfl, rfl⟩
        dsimp only
        rw [fails_map_widen (many starts rule) (a :: ·)]
        constructor
        · intro hlater
          exact ⟨t, us, rfl, hs, .inr ⟨a, mid, hyields, hlater⟩⟩
        · rintro ⟨u, vs, huv, -, hc | ⟨a', mid', ha, hlater⟩⟩
          · obtain ⟨rfl, rfl⟩ := List.cons.inj huv
            exact absurd hc hyields.not_fails
          · obtain ⟨rfl, rfl⟩ := List.cons.inj huv
            obtain ⟨-, rfl⟩ := hyields.unique ha
            exact hlater

/-- A repetition up to the end also fails at a token that begins no round. -/
theorem fails_toEnd {what : Expectation} {rule? : Token → Option (Rule α)} :
    Fails (toEnd what rule?) ts c rest ↔ ∃ t us, ts = t :: us ∧
      (rule? t = none ∧ c = .expected what ∧ rest = ts ∨ ∃ rule, rule? t = some rule ∧
        (rule.Fails us c rest ∨
          ∃ a mid, rule.Yields us a mid ∧ Fails (toEnd what rule?) mid c rest)) := by
  cases ts with
  | nil =>
    simp only [Fails, toEnd_nil, Step.done]
    grind
  | cons t us =>
    simp only [Fails, toEnd_cons]
    cases hrule : rule? t with
    | none =>
      simp only [Step.stuck]
      grind
    | some rule =>
      rcases hr : rule us with ⟨result, mid, h⟩
      cases result with
      | error c' =>
        dsimp only
        rw [hr]
        grind [Yields]
      | ok a =>
        have hyields : rule.Yields us a mid := by
          rw [Yields, hr]
          exact ⟨rfl, rfl⟩
        dsimp only
        rw [hr]
        dsimp only
        rw [fails_map_widen (toEnd what rule?) (a :: ·)]
        constructor
        · intro hlater
          exact ⟨t, us, rfl, .inr ⟨rule, hrule, .inr ⟨a, mid, hyields, hlater⟩⟩⟩
        · rintro ⟨u, vs, huv, ⟨hnone, -⟩ | ⟨rule', hrule', hc | ⟨a', mid', ha, hlater⟩⟩⟩
          · obtain ⟨rfl, rfl⟩ := List.cons.inj huv
            rw [hrule] at hnone
            cases hnone
          · obtain ⟨rfl, rfl⟩ := List.cons.inj huv
            obtain rfl := Option.some.inj (hrule.symm.trans hrule')
            exact absurd hc hyields.not_fails
          · obtain ⟨rfl, rfl⟩ := List.cons.inj huv
            obtain rfl := Option.some.inj (hrule.symm.trans hrule')
            obtain ⟨-, rfl⟩ := hyields.unique ha
            exact hlater

/-- A repetition up to the end leaves nothing. -/
theorem rest_of_yields_toEnd {what : Expectation} {rule? : Token → Option (Rule α)} {as : List α}
    (h : Yields (toEnd what rule?) ts as rest) : rest = [] := by
  induction hn : ts.length using Nat.strongRecOn generalizing ts as with
  | _ n ih =>
    obtain ⟨-, -, rfl⟩ | ⟨t, us, rule, a, mid, later, rfl, -, ha, hl, -⟩ := yields_toEnd.mp h
    · rfl
    · have hlen := ha.length_le
      exact ih mid.length (by simp at hn; omega) hl rfl

/-! ## Predictive rules -/

/-- The complaint behind the tokens `us` is about the next token alone: with anything else behind
that token the rule fails in the same way, and a bad number is a number token. -/
structure Blames (rule : Rule α) (us : List Token) (c : Complaint) (rest : List Token) :
    Prop where
  fails : ∀ {rest' : List Token}, rest.head? = rest'.head? → rule.Fails (us ++ rest') c rest'
  number : c = .badNumber → ∃ t vs, rest = t :: vs ∧ t.kind = .number

/-- The rule decides by the next token alone. -/
structure Predictive (rule : Rule α) : Prop where
  yields : ∀ {us rest rest' : List Token} {a : α}, rest.head? = rest'.head? →
    rule.Yields (us ++ rest) a rest → rule.Yields (us ++ rest') a rest'
  blames : ∀ {us rest : List Token} {c : Complaint},
    rule.Fails (us ++ rest) c rest → rule.Blames us c rest

/-- Where a rule pauses between two ends, the tokens taken are cut in two. -/
theorem exists_cut {mid : List Token} (hmid : mid <:+ us ++ rest) (hrest : rest <:+ mid) :
    ∃ us₁ us₂, us = us₁ ++ us₂ ∧ mid = us₂ ++ rest := by
  obtain ⟨us₂, rfl⟩ := hrest
  obtain ⟨us₁, h⟩ := hmid
  rw [← List.append_assoc] at h
  exact ⟨us₁, us₂, (List.append_cancel_right h).symm, rfl⟩

/-- A rule that has taken tokens has taken the first one. -/
theorem exists_eq_cons {t : Token} {vs : List Token} (h : us ++ rest = t :: vs)
    (hrest : rest <:+ vs) : ∃ us', us = t :: us' ∧ vs = us' ++ rest := by
  cases us with
  | nil =>
    have hlen := hrest.length_le
    rw [show rest = t :: vs from h, List.length_cons] at hlen
    omega
  | cons u us' =>
    obtain ⟨rfl, rfl⟩ := List.cons.inj h
    exact ⟨us', rfl, rfl⟩

theorem head?_append_congr (h : rest.head? = rest'.head?) (us : List Token) :
    (us ++ rest).head? = (us ++ rest').head? := by
  rw [List.head?_append, List.head?_append, h]

namespace Predictive

variable {rule : Rule α}

theorem pure (a : α) : Predictive (pure a : Rule α) where
  yields := by
    intro us rest rest' a' _ h
    obtain ⟨rfl, hrest⟩ := yields_pure.mp h
    obtain rfl := List.append_left_eq_self.mp hrest.symm
    exact yields_pure.mpr ⟨rfl, rfl⟩
  blames h := absurd h not_fails_pure

/-- If the rules of a sequence decide by the next token, so does the sequence. -/
theorem bind {f : α → Rule β} (hrule : Predictive rule) (hf : ∀ a, Predictive (f a)) :
    Predictive (rule >>= f) where
  yields := by
    intro us rest rest' b hhead h
    obtain ⟨a, mid, ha, hb⟩ := yields_bind.mp h
    obtain ⟨us₁, us₂, rfl, rfl⟩ := exists_cut ha.suffix hb.suffix
    rw [List.append_assoc] at ha ⊢
    have ha' := hrule.yields (head?_append_congr hhead us₂) ha
    exact yields_bind.mpr ⟨a, us₂ ++ rest', ha', (hf a).yields hhead hb⟩
  blames := by
    intro us rest c h
    rcases fails_bind.mp h with h | ⟨a, mid, ha, hc⟩
    · have hblames := hrule.blames h
      exact ⟨fun hhead => fails_bind.mpr (.inl (hblames.fails hhead)), hblames.number⟩
    · obtain ⟨us₁, us₂, rfl, rfl⟩ := exists_cut ha.suffix hc.suffix
      have hblames := (hf a).blames hc
      refine ⟨fun {rest'} hhead => ?_, hblames.number⟩
      rw [List.append_assoc] at ha ⊢
      have ha' := hrule.yields (head?_append_congr hhead us₂) ha
      exact fails_bind.mpr (.inr ⟨a, us₂ ++ rest', ha', hblames.fails hhead⟩)

theorem one {what : Expectation} {read? : Token → Option α} : Predictive (one what read?) where
  yields := by
    intro us rest rest' a _ h
    obtain ⟨t, hus, ht⟩ := yields_one.mp h
    obtain ⟨us', rfl, hrest⟩ := exists_eq_cons hus List.suffix_rfl
    obtain rfl := List.append_left_eq_self.mp hrest.symm
    exact yields_one.mpr ⟨t, rfl, ht⟩
  blames := by
    intro us rest c h
    obtain ⟨hnone, rfl, hrest⟩ := fails_one.mp h
    obtain rfl := List.append_left_eq_self.mp hrest.symm
    refine ⟨fun hhead => ?_, nofun⟩
    exact fails_one.mpr ⟨fun t ht => hnone t (hhead ▸ ht), rfl, rfl⟩

theorem take? {read? : Token → Option α} : Predictive (take? read?) where
  yields := by
    intro us rest rest' a? hhead h
    rcases yields_take?.mp h with ⟨t, a, hus, ht, rfl⟩ | ⟨hnone, rfl, hrest⟩
    · obtain ⟨us', rfl, hrest⟩ := exists_eq_cons hus List.suffix_rfl
      obtain rfl := List.append_left_eq_self.mp hrest.symm
      exact yields_take?.mpr (.inl ⟨t, a, rfl, ht, rfl⟩)
    · obtain rfl := List.append_left_eq_self.mp hrest.symm
      exact yields_take?.mpr (.inr ⟨fun t ht => hnone t (hhead ▸ ht), rfl, rfl⟩)
  blames h := absurd h not_fails_take?

theorem choose {what : Expectation} {rule? : Token → Option (Rule α)}
    (hrule : ∀ t rule, rule? t = some rule → Predictive rule) : Predictive (choose what rule?) where
  yields := by
    intro us rest rest' a hhead h
    obtain ⟨t, vs, rule, hus, ht, ha⟩ := yields_choose.mp h
    obtain ⟨us', rfl, rfl⟩ := exists_eq_cons hus ha.suffix
    exact yields_choose.mpr ⟨t, us' ++ rest', rule, rfl, ht, (hrule t rule ht).yields hhead ha⟩
  blames := by
    intro us rest c h
    rcases fails_choose.mp h with ⟨hnone, rfl, hrest⟩ | ⟨t, vs, rule, hus, ht, hc⟩
    · obtain rfl := List.append_left_eq_self.mp hrest.symm
      refine ⟨fun hhead => ?_, nofun⟩
      exact fails_choose.mpr (.inl ⟨fun t ht => hnone t (hhead ▸ ht), rfl, rfl⟩)
    · obtain ⟨us', rfl, rfl⟩ := exists_eq_cons hus hc.suffix
      have hblames := (hrule t rule ht).blames hc
      refine ⟨fun {rest'} hhead => ?_, hblames.number⟩
      exact fails_choose.mpr (.inr ⟨t, us' ++ rest', rule, rfl, ht, hblames.fails hhead⟩)

/-- A repetition decides by the next token if its rounds do. -/
theorem many {starts : Token → Bool} (hrule : Predictive rule) :
    Predictive (many starts rule) where
  -- both by induction on the number of tokens: a round takes its starting token
  yields := by
    intro us rest rest' as hhead h
    induction hn : us.length using Nat.strongRecOn generalizing us as with
    | _ n ih =>
      rcases yields_many.mp h with
        ⟨hnone, rfl, hrest⟩ | ⟨t, vs, a, mid, later, hus, ht, ha, hlater, rfl⟩
      · obtain rfl := List.append_left_eq_self.mp hrest.symm
        exact yields_many.mpr (.inl ⟨fun t ht => hnone t (hhead ▸ ht), rfl, rfl⟩)
      · obtain ⟨us', rfl, rfl⟩ := exists_eq_cons hus (hlater.suffix.trans ha.suffix)
        obtain ⟨us₁, us₂, rfl, rfl⟩ := exists_cut ha.suffix hlater.suffix
        rw [List.append_assoc] at ha
        have ha' := hrule.yields (head?_append_congr hhead us₂) ha
        have hlater' := ih us₂.length (by simp at hn; omega) hlater rfl
        rw [List.cons_append, List.append_assoc]
        exact yields_many.mpr (.inr ⟨t, _, a, us₂ ++ rest', later, rfl, ht, ha', hlater', rfl⟩)
  blames := by
    intro us rest c h
    induction hn : us.length using Nat.strongRecOn generalizing us with
    | _ n ih =>
      obtain ⟨t, vs, hus, ht, hc | ⟨a, mid, ha, hlater⟩⟩ := fails_many.mp h
      · obtain ⟨us', rfl, rfl⟩ := exists_eq_cons hus hc.suffix
        have hblames := hrule.blames hc
        refine ⟨fun {rest'} hhead => ?_, hblames.number⟩
        exact fails_many.mpr ⟨t, us' ++ rest', rfl, ht, .inl (hblames.fails hhead)⟩
      · obtain ⟨us', rfl, rfl⟩ := exists_eq_cons hus (hlater.suffix.trans ha.suffix)
        obtain ⟨us₁, us₂, rfl, rfl⟩ := exists_cut ha.suffix hlater.suffix
        have hblames := ih us₂.length (by simp at hn; omega) hlater rfl
        refine ⟨fun {rest'} hhead => ?_, hblames.number⟩
        rw [List.append_assoc] at ha
        have ha' := hrule.yields (head?_append_congr hhead us₂) ha
        rw [List.cons_append, List.append_assoc]
        exact fails_many.mpr ⟨t, _, rfl, ht, .inr ⟨a, us₂ ++ rest', ha', hblames.fails hhead⟩⟩

theorem toEnd {what : Expectation} {rule? : Token → Option (Rule α)}
    (hrule : ∀ t rule, rule? t = some rule → Predictive rule) : Predictive (toEnd what rule?) where
  yields := by
    intro us rest rest' as hhead h
    -- the rule has a value only at the end, and the other list has ended there as well
    have hrest : rest = [] := rest_of_yields_toEnd h
    subst hrest
    obtain rfl := List.head?_eq_none_iff.mp hhead.symm
    exact h
  blames := by
    intro us rest c h
    induction hn : us.length using Nat.strongRecOn generalizing us with
    | _ n ih =>
      obtain ⟨t, vs, hus, ⟨hnone, rfl, hrest⟩ | ⟨rule, ht, hc | ⟨a, mid, ha, hlater⟩⟩⟩ :=
        fails_toEnd.mp h
      · obtain rfl := List.append_left_eq_self.mp hrest.symm
        refine ⟨fun {rest'} hhead => ?_, nofun⟩
        obtain ⟨ws, rfl⟩ : ∃ ws, rest' = t :: ws := by
          rw [show rest = t :: vs from hus] at hhead
          exact List.head?_eq_some_iff.mp hhead.symm
        exact fails_toEnd.mpr ⟨t, ws, rfl, .inl ⟨hnone, rfl, rfl⟩⟩
      · obtain ⟨us', rfl, rfl⟩ := exists_eq_cons hus hc.suffix
        have hblames := (hrule t rule ht).blames hc
        refine ⟨fun {rest'} hhead => ?_, hblames.number⟩
        exact fails_toEnd.mpr
          ⟨t, us' ++ rest', rfl, .inr ⟨rule, ht, .inl (hblames.fails hhead)⟩⟩
      · obtain ⟨us', rfl, rfl⟩ := exists_eq_cons hus (hlater.suffix.trans ha.suffix)
        obtain ⟨us₁, us₂, rfl, rfl⟩ := exists_cut ha.suffix hlater.suffix
        have hblames := ih us₂.length (by simp at hn; omega) hlater rfl
        refine ⟨fun {rest'} hhead => ?_, hblames.number⟩
        rw [List.append_assoc] at ha
        have ha' := (hrule t rule ht).yields (head?_append_congr hhead us₂) ha
        rw [List.cons_append, List.append_assoc]
        exact fails_toEnd.mpr
          ⟨t, _, rfl, .inr ⟨rule, ht, .inr ⟨a, us₂ ++ rest', ha', hblames.fails hhead⟩⟩⟩

end Predictive

/-! ## Running a rule -/

/-- An error is reported where the rule fails, about what it fails for. -/
theorem fails_of_run {rule : Rule α} {s left : TokenStream} {e : ParseError}
    (h : rule.run s = (.error e, left)) :
    ∃ c, rule.Fails s.tokens c left.tokens ∧ left.finish = s.finish ∧ e = c.report left := by
  obtain ⟨hresult, rfl⟩ := Prod.mk.inj h
  cases hc : (rule s.tokens).result with
  | ok a =>
    rw [hc] at hresult
    cases hresult
  | error c =>
    rw [hc] at hresult
    exact ⟨c, ⟨hc, rfl⟩, rfl, (Except.error.inj hresult).symm⟩

end MiniSql.Rule
