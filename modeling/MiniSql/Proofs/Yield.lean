import MiniSql.Grammar.Rule

/-!
# What a rule yields

`rule.Yields ts a rest` says that a rule, given the tokens `ts`, has the value `a` and leaves
`rest`. Each way to build a rule has one lemma that says exactly when it yields what, so that later
proofs follow the tokens through a rule and never open its definition.
-/

namespace MiniSql.Rule

variable {α β : Type} {ts rest : List Token} {a : α} {b : β}

/-- The rule reads `a` from the front of `ts` and leaves `rest`. -/
def Yields (rule : Rule α) (ts : List Token) (a : α) (rest : List Token) : Prop :=
  (rule ts).result = .ok a ∧ (rule ts).rest = rest

/-- A rule reads one thing from a list of tokens. -/
theorem Yields.unique {rule : Rule α} {a' : α} {rest' : List Token} (h : rule.Yields ts a rest)
    (h' : rule.Yields ts a' rest') : a = a' ∧ rest = rest' :=
  ⟨Except.ok.inj (h.1.symm.trans h'.1), h.2.symm.trans h'.2⟩

/-- What a rule leaves is the end of what it was given. -/
theorem Yields.suffix {rule : Rule α} (h : rule.Yields ts a rest) : rest <:+ ts := by
  rw [← h.2]
  exact (rule ts).suffix

theorem Yields.length_le {rule : Rule α} (h : rule.Yields ts a rest) :
    rest.length ≤ ts.length :=
  h.suffix.length_le

/-- A rule whose value is changed, with tokens before its own. -/
theorem yields_map_widen (rule : Rule α) (f : α → β) {us : List Token} (h : us <:+ ts) :
    (((rule us).map f).widen h).result = .ok b ∧ (((rule us).map f).widen h).rest = rest ↔
      ∃ a, rule.Yields us a rest ∧ b = f a := by
  show (rule us).result.map f = .ok b ∧ _ ↔ ∃ a, ((rule us).result = .ok a ∧ _) ∧ b = f a
  cases (rule us).result with
  | error c =>
    refine ⟨fun ⟨hb, _⟩ => ?_, fun ⟨a, ⟨ha, _⟩, _⟩ => ?_⟩
    · cases hb
    · cases ha
  | ok a' =>
    refine ⟨fun ⟨hb, hrest⟩ => ?_, fun ⟨a, ⟨ha, hrest⟩, hb⟩ => ?_⟩
    · exact ⟨a', ⟨rfl, hrest⟩, (Except.ok.inj hb).symm⟩
    · obtain rfl := Except.ok.inj ha
      exact ⟨congrArg Except.ok hb.symm, hrest⟩

/-- What follows begins with a known token. -/
theorem forall_mem_head?_cons {P : Token → Prop} {t : Token} (h : P t) :
    ∀ u ∈ (t :: ts).head?, P u := by
  intro u hu
  obtain rfl := Option.some.inj hu
  exact h

/-! ## Plain rules and sequences -/

@[simp] theorem yields_pure {a' : α} :
    (pure a' : Rule α).Yields ts a rest ↔ a = a' ∧ rest = ts := by
  show Except.ok a' = Except.ok a ∧ ts = rest ↔ _
  rw [Except.ok.injEq, eq_comm, eq_comm (a := ts)]

/-- Rules in sequence read one after the other. -/
@[simp] theorem yields_bind {rule : Rule α} {f : α → Rule β} :
    (rule >>= f).Yields ts b rest ↔ ∃ a mid, rule.Yields ts a mid ∧ (f a).Yields mid b rest := by
  unfold Yields
  show ((Bind.bind rule f : Rule β) ts).result = _ ∧ _ ↔ _
  simp only [Bind.bind]
  obtain ⟨result, mid, h⟩ := rule ts
  cases result with
  | error c => simp
  | ok a =>
    constructor
    · intro hb
      exact ⟨a, mid, ⟨rfl, rfl⟩, hb⟩
    · rintro ⟨a', mid', ⟨ha, hmid⟩, hb⟩
      obtain rfl := Except.ok.inj ha
      obtain rfl := hmid
      exact hb

/-! ## Single tokens -/

/-- One token with what can be read from it. -/
@[simp] theorem yields_one {what : Expectation} {read? : Token → Option α} :
    (one what read?).Yields ts a rest ↔ ∃ t, ts = t :: rest ∧ read? t = some a := by
  cases ts with
  | nil => simp [Yields, one, Step.stuck]
  | cons t us =>
    cases hr : read? t with
    | none =>
      have : one what read? (t :: us) = .stuck (.expected what) := by simp only [one, hr]
      simp only [Yields, this, Step.stuck]
      constructor
      · rintro ⟨⟨⟩, -⟩
      · rintro ⟨u, hu, hread⟩
        obtain ⟨rfl, rfl⟩ := List.cons.inj hu
        rw [hr] at hread
        cases hread
    | some a' =>
      have : one what read? (t :: us) = .took a' := by simp only [one, hr]
      simp only [Yields, this, Step.took]
      constructor
      · rintro ⟨h, rfl⟩
        exact ⟨t, rfl, hr.trans (congrArg some (Except.ok.inj h))⟩
      · rintro ⟨u, hu, hread⟩
        obtain ⟨rfl, rfl⟩ := List.cons.inj hu
        exact ⟨congrArg Except.ok (Option.some.inj (hr.symm.trans hread)), rfl⟩

@[simp] theorem yields_keyword {word : String} {u : Unit} :
    (keyword word).Yields ts u rest ↔ ∃ t, ts = t :: rest ∧ t.isKeyword word = true := by
  simp [keyword]

@[simp] theorem yields_token {kind : TokenKind} {u : Unit} :
    (token kind).Yields ts u rest ↔ ∃ t, ts = t :: rest ∧ t.kind = kind := by
  simp [token]

@[simp] theorem yields_identifier {what : Expectation} {name : String} :
    (identifier what).Yields ts name rest ↔
      ∃ t, ts = t :: rest ∧ t.kind = .identifier ∧ t.text = name := by
  simp [identifier]

/-! ## Choices by the next token -/

/-- One token that is taken if something can be read from it, and left otherwise. -/
theorem yields_take? {read? : Token → Option α} {a? : Option α} :
    (take? read?).Yields ts a? rest ↔
      (∃ t a, ts = t :: rest ∧ read? t = some a ∧ a? = some a) ∨
        (∀ t ∈ ts.head?, read? t = none) ∧ a? = none ∧ rest = ts := by
  cases ts with
  | nil =>
    simp [Yields, take?, Step.done]
    grind
  | cons t us =>
    cases hr : read? t with
    | none =>
      have : take? read? (t :: us) = .done none := by simp only [take?, hr]
      simp only [Yields, this, Step.done]
      grind
    | some a' =>
      have : take? read? (t :: us) = .took (some a') := by simp only [take?, hr]
      simp only [Yields, this, Step.took]
      grind

theorem yields_accept {test : Token → Bool} {taken : Bool} :
    (accept test).Yields ts taken rest ↔
      (∃ t, ts = t :: rest ∧ test t = true ∧ taken = true) ∨
        (∀ t ∈ ts.head?, test t = false) ∧ taken = false ∧ rest = ts := by
  simp only [accept, yields_bind, yields_take?, yields_pure]
  constructor
  · rintro ⟨a?, mid, ⟨t, u, rfl, ht, rfl⟩ | ⟨hnone, rfl, rfl⟩, rfl, rfl⟩
    · exact .inl ⟨t, rfl, by simpa using ht, rfl⟩
    · exact .inr ⟨by simpa using hnone, rfl, rfl⟩
  · rintro (⟨t, rfl, ht, rfl⟩ | ⟨hnone, rfl, rfl⟩)
    · exact ⟨some (), rest, .inl ⟨t, (), rfl, by simp [ht], rfl⟩, rfl, rfl⟩
    · exact ⟨none, rest, .inr ⟨by simpa using hnone, rfl, rfl⟩, rfl, rfl⟩

/-- One of several rules, chosen by the first token. -/
@[simp] theorem yields_choose {what : Expectation} {rule? : Token → Option (Rule α)} :
    (choose what rule?).Yields ts a rest ↔
      ∃ t us rule, ts = t :: us ∧ rule? t = some rule ∧ rule.Yields us a rest := by
  cases ts with
  | nil => simp [Yields, choose, Step.stuck]
  | cons t us =>
    cases hr : rule? t with
    | none =>
      have : choose what rule? (t :: us) = .stuck (.expected what) := by simp only [choose, hr]
      simp only [Yields, this, Step.stuck]
      grind
    | some rule =>
      have : choose what rule? (t :: us) = (rule us).widen (List.suffix_cons t us) := by
        simp only [choose, hr]
      simp only [Yields, this, Step.widen]
      grind

/-! ## Repetition -/

/-- A repetition ends at the first token that starts no part. -/
theorem yields_many {starts : Token → Bool} {rule : Rule α} {as : List α} :
    Yields (many starts rule) ts as rest ↔
      (∀ t ∈ ts.head?, starts t = false) ∧ as = [] ∧ rest = ts ∨
        ∃ t us a mid later, ts = t :: us ∧ starts t = true ∧ rule.Yields us a mid ∧
          Yields (many starts rule) mid later rest ∧ as = a :: later := by
  cases ts with
  | nil =>
    simp only [Yields, many_nil, Step.done]
    grind
  | cons t us =>
    simp only [Yields, many_cons]
    cases hs : starts t with
    | false =>
      simp only [Bool.false_eq_true, if_false, Step.done]
      grind
    | true =>
      rw [if_pos rfl]
      rcases hr : rule us with ⟨result, mid, h⟩
      cases result with
      | error c => grind
      | ok a =>
        dsimp only
        rw [yields_map_widen (many starts rule) (a :: ·)]
        grind [Yields]

/-- A repetition up to the end of the tokens. -/
theorem yields_toEnd {what : Expectation} {rule? : Token → Option (Rule α)} {as : List α} :
    Yields (toEnd what rule?) ts as rest ↔
      ts = [] ∧ as = [] ∧ rest = [] ∨
        ∃ t us rule a mid later, ts = t :: us ∧ rule? t = some rule ∧ rule.Yields us a mid ∧
          Yields (toEnd what rule?) mid later rest ∧ as = a :: later := by
  cases ts with
  | nil =>
    simp only [Yields, toEnd_nil, Step.done]
    grind
  | cons t us =>
    simp only [Yields, toEnd_cons]
    cases hrule : rule? t with
    | none => grind [Step.stuck]
    | some rule =>
      rcases hr : rule us with ⟨result, mid, h⟩
      cases result with
      | error c => grind
      | ok a =>
        dsimp only
        rw [hr]
        dsimp only
        rw [yields_map_widen (toEnd what rule?) (a :: ·)]
        grind [Yields]

/-! ## Running a rule -/

theorem mapError_eq_ok_iff {ε ε' : Type} {x : Except ε α} {f : ε → ε'} :
    x.mapError f = .ok a ↔ x = .ok a := by
  cases x with
  | ok b =>
    show Except.ok b = .ok a ↔ _
    rw [Except.ok.injEq, Except.ok.injEq]
  | error e =>
    constructor
    · intro h
      cases h
    · intro h
      cases h

/-- A run of a rule succeeds with what the rule reads from the visible tokens. -/
theorem run_eq_ok_iff {rule : Rule α} {s : TokenStream} :
    (rule.run s).1 = .ok a ↔ ∃ rest, rule.Yields s.tokens a rest := by
  refine ⟨fun h => ?_, fun h => ?_⟩
  · exact ⟨_, mapError_eq_ok_iff.mp h, rfl⟩
  · obtain ⟨rest, hresult, -⟩ := h
    exact mapError_eq_ok_iff.mpr hresult

end MiniSql.Rule
