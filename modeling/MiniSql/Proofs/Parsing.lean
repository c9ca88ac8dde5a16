import MiniSql.Proofs.Recognition

/-!
# The parser accepts exactly its grammar

The rules of the grammar, one level after the other, recognise the phrases of `Phrase`. The last of
them, `yields_program_iff`, says that the rule for programs reads a token list to its end if and
only if the list derives a program.

For each level the tokens that continue its phrases are listed. A keyword is an identifier token, so
it never is one of the signs, and no token is two keywords at once; that is why each level ends
where the next looser one goes on.
-/

namespace MiniSql.Grammar

open Phrase

variable {ts us rest : List Token}

/-! ## Keywords and signs -/

theorem kind_of_isKeyword {t : Token} {word : String} (h : t.isKeyword word = true) :
    t.kind = .identifier := by
  simp only [Token.isKeyword, Bool.and_eq_true, beq_iff_eq] at h
  exact h.1

/-- A token is at most one keyword, up to case. -/
theorem foldCase_eq_of_isKeyword {t : Token} {word other : String}
    (h : t.isKeyword word = true) (h' : t.isKeyword other = true) :
    Text.foldCase word.toList = Text.foldCase other.toList := by
  simp only [Token.isKeyword, Bool.and_eq_true, Text.sameIgnoringCase_iff] at h h'
  exact h.2.symm.trans h'.2

theorem relation?_eq_some_iff (kind : TokenKind) (op : BinaryOp) :
    relation? kind = some op ↔ RelationSign kind op := by
  constructor
  · intro h
    cases kind <;> simp only [relation?, Option.some.injEq, reduceCtorEq] at h <;> subst h <;>
      constructor
  · rintro (_ | _) <;> rfl

theorem equality?_eq_some_iff (kind : TokenKind) (op : BinaryOp) :
    equality? kind = some op ↔ EqualitySign kind op := by
  constructor
  · intro h
    cases kind <;> simp only [equality?, Option.some.injEq, reduceCtorEq] at h <;> subst h <;>
      constructor
  · rintro (_ | _) <;> rfl

/-! ## Expressions -/

/-- The tokens that lead on an expression: the comparison signs and the two logical keywords. -/
inductive ContinuesExpression (t : Token) : Prop
  | relation {op : BinaryOp} (h : RelationSign t.kind op)
  | equality {op : BinaryOp} (h : EqualitySign t.kind op)
  | conjunction (h : t.isKeyword "AND" = true)
  | disjunction (h : t.isKeyword "OR" = true)

theorem ContinuesExpression.kind_ne_semicolon {t : Token} (h : ContinuesExpression t) :
    t.kind ≠ .semicolon := by
  intro ht
  rcases h with h | h | h | h
  · rw [ht] at h
    cases h
  · rw [ht] at h
    cases h
  · exact absurd (ht.symm.trans (kind_of_isKeyword h)) nofun
  · exact absurd (ht.symm.trans (kind_of_isKeyword h)) nofun

theorem recognises_relation : Recognises relation Relation fun t => ∃ op, RelationSign t.kind op :=
  (recognises_atMostOne recognises_primary relation?_eq_some_iff fun _ _ _ => id).mono
    fun _ h => h.resolve_right id

theorem recognises_equality : Recognises equality Equality
    fun t => (∃ op, EqualitySign t.kind op) ∨ ∃ op, RelationSign t.kind op := by
  refine recognises_atMostOne recognises_relation equality?_eq_some_iff ?_
  rintro t op hop ⟨op', hop'⟩
  generalize t.kind = kind at hop hop'
  cases hop <;> nomatch hop'

/-- The operands of `OR`: comparisons joined by `AND`. -/
theorem recognises_conjunction : Recognises conjunction Conjunction
    fun t => t.isKeyword "AND" = true ∨
      (∃ op, EqualitySign t.kind op) ∨ ∃ op, RelationSign t.kind op := by
  refine recognises_joined recognises_equality fun t ht => ?_
  rw [kind_of_isKeyword ht]
  rintro (⟨op, h⟩ | ⟨op, h⟩) <;> cases h

/-- The rule for expressions reads the longest expression that the tokens begin with, and no token
it leaves could go on with it. -/
theorem recognises_expression : Recognises expression Expression ContinuesExpression := by
  refine (recognises_joined recognises_conjunction fun t ht => ?_).mono ?_
  · rintro (h | h)
    · exact absurd (foldCase_eq_of_isKeyword ht h) (by decide)
    · rw [kind_of_isKeyword ht] at h
      rcases h with ⟨op, h⟩ | ⟨op, h⟩ <;> cases h
  · rintro t (h | h | ⟨op, h⟩ | ⟨op, h⟩)
    · exact .disjunction h
    · exact .conjunction h
    · exact .equality h
    · exact .relation h

/-! ## Lists of names -/

/-- A list of names: one name, and more of them behind commas. -/
theorem names_iff {ns : List String} : Names us ns ↔ ∃ t vs ms, us = t :: vs ∧
    t.kind = .identifier ∧ ns = t.text :: ms ∧
      Repeated (·.kind == .comma) (fun ws n => ∃ t, ws = [t] ∧ t.kind = .identifier ∧ t.text = n)
        vs ms := by
  constructor
  · intro h
    induction h with
    | @one t ht => exact ⟨t, [], [], rfl, ht, rfl, .nil⟩
    | @more t c us ns ht hc _ ih =>
      obtain ⟨u, vs, ms, rfl, hu, rfl, hms⟩ := ih
      have hu' : ∃ t, [u] = [t] ∧ t.kind = .identifier ∧ t.text = u.text := ⟨u, rfl, hu, rfl⟩
      refine ⟨t, c :: u :: vs, u.text :: ms, rfl, ht, rfl, ?_⟩
      rw [show c :: u :: vs = c :: [u] ++ vs from rfl]
      exact .cons (by simp [hc]) hu' hms
  · rintro ⟨t, vs, ms, rfl, ht, rfl, hms⟩
    induction hms generalizing t with
    | nil => exact .one ht
    | cons hc hn _ ih =>
      obtain ⟨u, rfl, hu, rfl⟩ := hn
      exact .more ht (by simpa using hc) (ih u hu)

theorem recognises_columnName : Recognises (Rule.identifier .columnName)
    (fun ws n => ∃ t, ws = [t] ∧ t.kind = .identifier ∧ t.text = n) fun _ => False where
  sound h := by
    obtain ⟨t, rfl, ht, rfl⟩ := Rule.yields_identifier.mp h
    exact ⟨[t], rfl, t, rfl, ht, rfl⟩
  complete := by
    rintro us n rest ⟨t, rfl, ht, rfl⟩ -
    exact Rule.yields_identifier.mpr ⟨t, rfl, ht, rfl⟩

theorem recognises_names : Recognises names Names fun t => t.kind = .comma := by
  have hmany : Recognises (Rule.many (·.kind == .comma) (Rule.identifier .columnName)) _ _ :=
    recognises_many recognises_columnName fun _ _ => id
  -- the first name stands for itself, and each of the others behind a comma
  constructor
  · intro ts ns rest h
    obtain ⟨n, mid, hn, hrest⟩ := Rule.yields_bind.mp h
    obtain ⟨ms, mid', hms, hvalue⟩ := Rule.yields_bind.mp hrest
    obtain ⟨rfl, rfl⟩ := Rule.yields_pure.mp hvalue
    obtain ⟨t, rfl, ht, rfl⟩ := Rule.yields_identifier.mp hn
    obtain ⟨vs, rfl, hvs⟩ := hmany.sound hms
    exact ⟨t :: vs, rfl, names_iff.mpr ⟨t, vs, ms, rfl, ht, rfl, hvs⟩⟩
  · intro us ns rest h hrest
    obtain ⟨t, vs, ms, rfl, ht, rfl, hms⟩ := names_iff.mp h
    refine Rule.yields_bind.mpr
      ⟨t.text, vs ++ rest, Rule.yields_identifier.mpr ⟨t, rfl, ht, rfl⟩, ?_⟩
    refine Rule.yields_bind.mpr
      ⟨ms, rest, hmany.complete hms ?_, Rule.yields_pure.mpr ⟨rfl, rfl⟩⟩
    rintro u hu (hc | hc)
    · exact hrest u hu (by simpa using hc)
    · exact hc

/-! ## Optional parts -/

variable {α : Type} {continues : Token → Prop} {rule : Rule α}

/-- A part that starts with a token of its own is there exactly if that token is. -/
theorem recognises_optional {starts : Token → Bool} {Part Inner : List Token → α → Prop}
    (hrule : Recognises rule Inner continues)
    (hpart : ∀ us a, Part us a ↔ ∃ t vs, us = t :: vs ∧ starts t = true ∧ Inner vs a) :
    Recognises (optional starts rule) (Optional Part)
      fun t => starts t = true ∨ continues t where
  sound h := by
    obtain ⟨taken, mid, htaken, hrest⟩ := Rule.yields_bind.mp h
    rcases Rule.yields_accept.mp htaken with ⟨t, rfl, ht, rfl⟩ | ⟨-, rfl, rfl⟩
    · obtain ⟨a, mid', ha, hvalue⟩ := Rule.yields_bind.mp hrest
      obtain ⟨rfl, rfl⟩ := Rule.yields_pure.mp hvalue
      obtain ⟨us, rfl, hus⟩ := hrule.sound ha
      exact ⟨t :: us, rfl, .present ((hpart _ _).mpr ⟨t, us, rfl, ht, hus⟩)⟩
    · obtain ⟨rfl, rfl⟩ := Rule.yields_pure.mp hrest
      exact ⟨[], rfl, .absent⟩
  complete {us a? rest} h hrest := by
    cases h with
    | absent =>
      have hnone : ∀ t ∈ rest.head?, starts t = false := fun t ht =>
        Bool.eq_false_iff.mpr fun hs => hrest t ht (.inl hs)
      exact Rule.yields_bind.mpr ⟨false, rest, Rule.yields_accept.mpr (.inr ⟨hnone, rfl, rfl⟩),
        Rule.yields_pure.mpr ⟨rfl, rfl⟩⟩
    | @present us a h =>
      obtain ⟨t, vs, rfl, ht, hvs⟩ := (hpart us a).mp h
      have hinner := hrule.complete hvs fun t ht hc => hrest t ht (.inr hc)
      exact Rule.yields_bind.mpr ⟨true, vs ++ rest,
        Rule.yields_accept.mpr (.inl ⟨t, rfl, ht, rfl⟩),
        Rule.yields_bind.mpr ⟨a, rest, hinner, Rule.yields_pure.mpr ⟨rfl, rfl⟩⟩⟩

theorem recognises_where : Recognises (optional (·.isKeyword "WHERE") expression) (Optional Where)
    fun t => t.isKeyword "WHERE" = true ∨ ContinuesExpression t := by
  refine recognises_optional recognises_expression fun us e => ⟨fun h => ?_, fun h => ?_⟩
  · obtain ⟨hw, h⟩ := h
    exact ⟨_, _, rfl, hw, h⟩
  · obtain ⟨t, vs, rfl, hw, h⟩ := h
    exact .mk hw h

theorem recognises_groupBy :
    Recognises (optional (·.isKeyword "GROUP") do Rule.keyword "BY"; names) (Optional GroupBy)
      fun t => t.isKeyword "GROUP" = true ∨ t.kind = .comma := by
  have hinner : Recognises (do Rule.keyword "BY"; names)
      (fun us ns => ∃ b vs, us = b :: vs ∧ b.isKeyword "BY" = true ∧ Names vs ns)
      fun t => t.kind = .comma :=
    { sound := fun h => by
        obtain ⟨_, mid, hby, hnames⟩ := Rule.yields_bind.mp h
        obtain ⟨b, rfl, hb⟩ := Rule.yields_keyword.mp hby
        obtain ⟨us, rfl, hus⟩ := recognises_names.sound hnames
        exact ⟨b :: us, rfl, b, us, rfl, hb, hus⟩
      complete := by
        rintro us ns rest ⟨b, vs, rfl, hb, hvs⟩ hrest
        exact Rule.yields_bind.mpr ⟨(), vs ++ rest, Rule.yields_keyword.mpr ⟨b, rfl, hb⟩,
          recognises_names.complete hvs hrest⟩ }
  refine recognises_optional hinner fun us ns => ⟨fun h => ?_, fun h => ?_⟩
  · obtain ⟨hg, hb, h⟩ := h
    exact ⟨_, _, rfl, hg, _, _, rfl, hb, h⟩
  · obtain ⟨g, _, rfl, hg, b, vs, rfl, hb, h⟩ := h
    exact .mk hg hb h

theorem recognises_targets :
    Recognises
      (optional (·.kind == .leftParen) do
        let columns ← names
        Rule.token .rightParen
        return columns)
      (Optional Targets) fun t => t.kind = .leftParen := by
  have hinner : Recognises
      (do let columns ← names
          Rule.token .rightParen
          return columns)
      (fun us ns => ∃ vs c, us = vs ++ [c] ∧ Names vs ns ∧ c.kind = .rightParen)
      fun _ => False :=
    { sound := fun h => by
        obtain ⟨ns, mid, hnames, hrest⟩ := Rule.yields_bind.mp h
        obtain ⟨_, mid', hclose, hvalue⟩ := Rule.yields_bind.mp hrest
        obtain ⟨rfl, rfl⟩ := Rule.yields_pure.mp hvalue
        obtain ⟨c, rfl, hc⟩ := Rule.yields_token.mp hclose
        obtain ⟨vs, rfl, hvs⟩ := recognises_names.sound hnames
        exact ⟨vs ++ [c], by simp, vs, c, rfl, hvs, hc⟩
      complete := by
        rintro us ns rest ⟨vs, c, rfl, hvs, hc⟩ -
        have hnames : names.Yields (vs ++ c :: rest) ns (c :: rest) :=
          recognises_names.complete hvs (by simp [hc])
        rw [List.append_assoc]
        exact Rule.yields_bind.mpr ⟨ns, c :: rest, hnames, Rule.yields_bind.mpr
          ⟨(), rest, Rule.yields_token.mpr ⟨c, rfl, hc⟩, Rule.yields_pure.mpr ⟨rfl, rfl⟩⟩⟩ }
  refine (recognises_optional hinner fun us ns => ⟨fun h => ?_, fun h => ?_⟩).mono ?_
  · obtain ⟨ho, h, hc⟩ := h
    exact ⟨_, _, rfl, by simpa using ho, _, _, rfl, h, hc⟩
  · obtain ⟨o, _, rfl, ho, vs, c, rfl, h, hc⟩ := h
    exact .mk (by simpa using ho) h hc
  · rintro t (ht | ht)
    · simpa using ht
    · exact ht.elim

/-! ## Statements -/

/-- A selection behind its columns. -/
def selectFrom (columns : List String) : Rule Select := do
  Rule.keyword "FROM"
  let table ← Rule.identifier .tableName
  let condition? ← optional (·.isKeyword "WHERE") expression
  let groupBy? ← optional (·.isKeyword "GROUP") do Rule.keyword "BY"; names
  return { table, columns, condition?, groupBy? }

/-- Behind `SELECT` stands an asterisk or a list of columns. -/
theorem yields_selectTail {s : Select} :
    selectTail.Yields ts s rest ↔
      (∃ t us, ts = t :: us ∧ t.kind = .asterisk ∧ (selectFrom []).Yields us s rest) ∨
        ∃ columns mid, (∀ t ∈ ts.head?, t.kind ≠ .asterisk) ∧ names.Yields ts columns mid ∧
          (selectFrom columns).Yields mid s rest := by
  refine ⟨fun h => ?_, fun h => ?_⟩
  · obtain ⟨star, mid, hstar, hrest⟩ := Rule.yields_bind.mp h
    rcases Rule.yields_accept.mp hstar with ⟨t, rfl, ht, rfl⟩ | ⟨hnone, rfl, rfl⟩
    · obtain ⟨_, _, hpure, hfrom⟩ := Rule.yields_bind.mp hrest
      obtain ⟨rfl, rfl⟩ := Rule.yields_pure.mp hpure
      exact .inl ⟨t, _, rfl, by simpa using ht, hfrom⟩
    · obtain ⟨columns, mid', hnames, hfrom⟩ := Rule.yields_bind.mp hrest
      exact .inr ⟨columns, mid', fun t ht => by simpa using hnone t ht, hnames, hfrom⟩
  · rcases h with ⟨t, us, rfl, ht, hfrom⟩ | ⟨columns, mid, hnone, hnames, hfrom⟩
    · exact Rule.yields_bind.mpr ⟨true, us,
        Rule.yields_accept.mpr (.inl ⟨t, rfl, by simpa using ht, rfl⟩),
        Rule.yields_bind.mpr ⟨[], us, Rule.yields_pure.mpr ⟨rfl, rfl⟩, hfrom⟩⟩
    · exact Rule.yields_bind.mpr ⟨false, ts,
        Rule.yields_accept.mpr (.inr ⟨fun t ht => by simpa using hnone t ht, rfl, rfl⟩),
        Rule.yields_bind.mpr ⟨columns, mid, hnames, hfrom⟩⟩

theorem selectFrom_sound {columns : List String} {s : Select}
    (h : (selectFrom columns).Yields ts s rest) {cs : List Token} (hcs : Columns cs columns) :
    ∃ us, cs ++ ts = us ++ rest ∧ SelectBody us s := by
  obtain ⟨_, _, hfrom, h₁⟩ := Rule.yields_bind.mp h
  obtain ⟨_, _, htable, h₂⟩ := Rule.yields_bind.mp h₁
  obtain ⟨condition?, _, hwhere, h₃⟩ := Rule.yields_bind.mp h₂
  obtain ⟨groupBy?, _, hgroup, h₄⟩ := Rule.yields_bind.mp h₃
  obtain ⟨rfl, rfl⟩ := Rule.yields_pure.mp h₄
  obtain ⟨gs, rfl, hgs⟩ := recognises_groupBy.sound hgroup
  obtain ⟨ws, rfl, hws⟩ := recognises_where.sound hwhere
  obtain ⟨t, rfl, ht, rfl⟩ := Rule.yields_identifier.mp htable
  obtain ⟨f, rfl, hf⟩ := Rule.yields_keyword.mp hfrom
  exact ⟨cs ++ f :: t :: (ws ++ gs), by simp, .mk hcs hf ht hws hgs⟩

theorem recognises_selectTail :
    Recognises selectTail SelectBody fun t => t.kind ≠ .semicolon where
  sound h := by
    rcases yields_selectTail.mp h with ⟨t, us, rfl, ht, hfrom⟩ | ⟨columns, mid, -, hnames, hfrom⟩
    · exact selectFrom_sound hfrom (.all ht)
    · obtain ⟨cs, rfl, hcs⟩ := recognises_names.sound hnames
      exact selectFrom_sound hfrom (.listed hcs)
  complete {us s rest} h hrest := by
    obtain @⟨f, t, cs, ws, gs, columns, condition?, groupBy?, hcolumns, hf, ht, hwhere, hgroup⟩ := h
    have hends : ∀ u ∈ rest.head?, u.kind = .semicolon :=
      fun u hu => Decidable.not_not.mp (hrest u hu)
    -- behind the condition stands GROUP, or else what follows the whole selection
    have hws : (optional (·.isKeyword "WHERE") expression).Yields (ws ++ (gs ++ rest)) condition?
        (gs ++ rest) := by
      refine recognises_where.complete hwhere ?_
      cases hgroup with
      | absent =>
        intro u hu
        have hkind := hends u hu
        rintro (hw | hc)
        · exact absurd (hkind.symm.trans (kind_of_isKeyword hw)) nofun
        · exact hc.kind_ne_semicolon hkind
      | present hg =>
        obtain ⟨hg, -, -⟩ := hg
        refine Rule.forall_mem_head?_cons ?_
        rintro (hw | hr | he | ha | ho)
        · exact absurd (foldCase_eq_of_isKeyword hg hw) (by decide)
        · rw [kind_of_isKeyword hg] at hr
          cases hr
        · rw [kind_of_isKeyword hg] at he
          cases he
        · exact absurd (foldCase_eq_of_isKeyword hg ha) (by decide)
        · exact absurd (foldCase_eq_of_isKeyword hg ho) (by decide)
    have hgs : (optional (·.isKeyword "GROUP") do Rule.keyword "BY"; names).Yields (gs ++ rest)
        groupBy? rest := by
      refine recognises_groupBy.complete hgroup fun u hu => ?_
      have hkind := hends u hu
      rintro (hg | hc)
      · exact absurd (hkind.symm.trans (kind_of_isKeyword hg)) nofun
      · exact absurd (hkind.symm.trans hc) nofun
    have hfrom : (selectFrom columns).Yields (f :: t :: (ws ++ gs) ++ rest)
        { table := t.text, columns, condition?, groupBy? } rest := by
      rw [show f :: t :: (ws ++ gs) ++ rest = f :: t :: (ws ++ (gs ++ rest)) by simp]
      exact Rule.yields_bind.mpr ⟨(), _, Rule.yields_keyword.mpr ⟨f, rfl, hf⟩,
        Rule.yields_bind.mpr ⟨t.text, _, Rule.yields_identifier.mpr ⟨t, rfl, ht, rfl⟩,
          Rule.yields_bind.mpr ⟨condition?, _, hws,
            Rule.yields_bind.mpr ⟨groupBy?, _, hgs, Rule.yields_pure.mpr ⟨rfl, rfl⟩⟩⟩⟩⟩
    rw [List.append_assoc]
    cases hcolumns with
    | @all star hstar => exact yields_selectTail.mpr (.inl ⟨star, _, rfl, hstar, hfrom⟩)
    | listed hnames =>
      refine yields_selectTail.mpr
        (.inr ⟨columns, _, ?_, recognises_names.complete hnames ?_, hfrom⟩)
      · obtain ⟨n, vs, ms, rfl, hn, -⟩ := names_iff.mp hnames
        refine Rule.forall_mem_head?_cons ?_
        rw [hn]
        nofun
      · refine Rule.forall_mem_head?_cons ?_
        rw [kind_of_isKeyword hf]
        nofun

theorem recognises_insertTail : Recognises insertTail InsertBody fun _ => False where
  sound h := by
    obtain ⟨_, _, hinto, h₁⟩ := Rule.yields_bind.mp h
    obtain ⟨_, _, htable, h₂⟩ := Rule.yields_bind.mp h₁
    obtain ⟨columns?, _, hcolumns, h₃⟩ := Rule.yields_bind.mp h₂
    obtain ⟨_, _, hvalues, h₄⟩ := Rule.yields_bind.mp h₃
    obtain ⟨_, _, harray, h₅⟩ := Rule.yields_bind.mp h₄
    obtain ⟨rfl, rfl⟩ := Rule.yields_pure.mp h₅
    obtain ⟨vs, rfl, es, rfl, hvs⟩ := recognises_array.sound harray
    obtain ⟨v, rfl, hv⟩ := Rule.yields_keyword.mp hvalues
    obtain ⟨cs, rfl, hcs⟩ := recognises_targets.sound hcolumns
    obtain ⟨t, rfl, ht, rfl⟩ := Rule.yields_identifier.mp htable
    obtain ⟨n, rfl, hn⟩ := Rule.yields_keyword.mp hinto
    exact ⟨n :: t :: (cs ++ v :: vs), by simp, .mk hn ht hcs hv hvs⟩
  complete {us i rest} h _ := by
    obtain @⟨n, t, v, cs, vs, columns?, es, hn, ht, hcolumns, hv, hvalues⟩ := h
    have harray : array.Yields (vs ++ rest) (.array es) rest :=
      recognises_array.complete ⟨es, rfl, hvalues⟩ fun _ _ => id
    -- behind the targets stands VALUES, which opens no parenthesis
    have hbehind : ∀ u ∈ (v :: (vs ++ rest)).head?, ¬ u.kind = .leftParen := by
      refine Rule.forall_mem_head?_cons ?_
      rw [kind_of_isKeyword hv]
      nofun
    have hcs :=
      recognises_targets.complete (show Optional Targets cs columns? from hcolumns) hbehind
    rw [show n :: t :: (cs ++ v :: vs) ++ rest = n :: t :: (cs ++ v :: (vs ++ rest)) by simp]
    exact Rule.yields_bind.mpr ⟨(), _, Rule.yields_keyword.mpr ⟨n, rfl, hn⟩,
      Rule.yields_bind.mpr ⟨t.text, _, Rule.yields_identifier.mpr ⟨t, rfl, ht, rfl⟩,
        Rule.yields_bind.mpr ⟨columns?, _, hcs,
          Rule.yields_bind.mpr ⟨(), _, Rule.yields_keyword.mpr ⟨v, rfl, hv⟩,
            Rule.yields_bind.mpr ⟨.array es, _, harray, Rule.yields_pure.mpr ⟨rfl, rfl⟩⟩⟩⟩⟩⟩

/-- The rule behind a statement's first keyword takes the statement and its semicolon. -/
theorem yields_terminated {β : Type} {body : Rule α} {Body : List Token → α → Prop} {f : α → β}
    {b : β} (hbody : Recognises body Body fun t => t.kind ≠ .semicolon) :
    (do let a ← body
        Rule.token .semicolon
        return f a).Yields ts b rest ↔
      ∃ us a c, ts = us ++ c :: rest ∧ Body us a ∧ c.kind = .semicolon ∧ b = f a := by
  refine ⟨fun h => ?_, fun h => ?_⟩
  · obtain ⟨a, mid, ha, h₁⟩ := Rule.yields_bind.mp h
    obtain ⟨_, _, hsemicolon, h₂⟩ := Rule.yields_bind.mp h₁
    obtain ⟨rfl, rfl⟩ := Rule.yields_pure.mp h₂
    obtain ⟨c, rfl, hc⟩ := Rule.yields_token.mp hsemicolon
    obtain ⟨us, rfl, hus⟩ := hbody.sound ha
    exact ⟨us, a, c, rfl, hus, hc, rfl⟩
  · obtain ⟨us, a, c, rfl, hus, hc, rfl⟩ := h
    have hends : ∀ t ∈ (c :: rest).head?, ¬ t.kind ≠ .semicolon :=
      Rule.forall_mem_head?_cons (not_not_intro hc)
    exact Rule.yields_bind.mpr ⟨a, c :: rest, hbody.complete hus hends,
      Rule.yields_bind.mpr ⟨(), rest, Rule.yields_token.mpr ⟨c, rfl, hc⟩,
        Rule.yields_pure.mpr ⟨rfl, rfl⟩⟩⟩

/-- A statement is read together with the semicolon that ends it. -/
theorem yields_statementBehind? {k : Token} {s : MiniSql.Statement} :
    (∃ rule, statementBehind? k = some rule ∧ rule.Yields ts s rest) ↔
      ∃ us c, ts = us ++ c :: rest ∧ Phrase.Statement (k :: us) s ∧ c.kind = .semicolon := by
  have hinsertTail : Recognises insertTail InsertBody fun t => t.kind ≠ .semicolon :=
    recognises_insertTail.mono fun _ => False.elim
  refine ⟨fun h => ?_, fun h => ?_⟩
  · obtain ⟨rule, hrule, hs⟩ := h
    unfold statementBehind? at hrule
    split at hrule
    · next hk =>
      obtain rfl := Option.some.inj hrule
      obtain ⟨us, q, c, rfl, hus, hc, rfl⟩ := (yields_terminated recognises_selectTail).mp hs
      exact ⟨us, c, rfl, .select hk hus, hc⟩
    · split at hrule
      · next hk =>
        obtain rfl := Option.some.inj hrule
        obtain ⟨us, i, c, rfl, hus, hc, rfl⟩ := (yields_terminated hinsertTail).mp hs
        exact ⟨us, c, rfl, .insert hk hus, hc⟩
      · exact absurd hrule nofun
  · obtain ⟨us, c, rfl, hs, hc⟩ := h
    unfold statementBehind?
    cases hs with
    | @select k us q hk h =>
      rw [if_pos hk]
      exact ⟨_, rfl, (yields_terminated recognises_selectTail).mpr ⟨us, q, c, rfl, h, hc, rfl⟩⟩
    | @insert k us i hk h =>
      -- no token is both keywords
      have hk' : ¬ k.isKeyword "SELECT" = true := fun hs =>
        absurd (foldCase_eq_of_isKeyword hs hk) (by decide)
      rw [if_neg hk', if_pos hk]
      exact ⟨_, rfl, (yields_terminated hinsertTail).mpr ⟨us, i, c, rfl, h, hc, rfl⟩⟩

/-! ## Programs -/

/-- A program is a statement, its semicolon, and a program behind it unless the tokens end there. -/
theorem program_iff {p : MiniSql.Program} :
    Phrase.Program ts p ↔ ∃ k us c vs s later, ts = k :: us ++ c :: vs ∧
      Phrase.Statement (k :: us) s ∧ c.kind = .semicolon ∧ p = s :: later ∧
        (vs = [] ∧ later = [] ∨ Phrase.Program vs later) := by
  refine ⟨fun h => ?_, fun h => ?_⟩
  · -- a statement has a first token, whichever it is
    cases h with
    | @last c us s hs hc =>
      obtain ⟨k, us, rfl⟩ : ∃ k vs, us = k :: vs := by cases hs <;> exact ⟨_, _, rfl⟩
      exact ⟨k, us, c, [], s, [], rfl, hs, hc, rfl, .inl ⟨rfl, rfl⟩⟩
    | @more c us vs s later hs hc hlater =>
      obtain ⟨k, us, rfl⟩ : ∃ k vs, us = k :: vs := by cases hs <;> exact ⟨_, _, rfl⟩
      exact ⟨k, us, c, vs, s, later, rfl, hs, hc, rfl, .inr hlater⟩
  · obtain ⟨k, us, c, vs, s, later, rfl, hs, hc, rfl, ⟨rfl, rfl⟩ | hlater⟩ := h
    · exact .last hs hc
    · exact .more hs hc hlater

theorem yields_statements_iff {p : MiniSql.Program} :
    Rule.Yields (Rule.toEnd .statement statementBehind?) ts p rest ↔
      rest = [] ∧ (ts = [] ∧ p = [] ∨ Phrase.Program ts p) := by
  -- by induction on the number of tokens: a statement takes its semicolon at least
  induction hn : ts.length using Nat.strongRecOn generalizing ts p with
  | _ n ih =>
    rw [Rule.yields_toEnd]
    refine ⟨fun h => ?_, fun h => ?_⟩
    · obtain ⟨rfl, rfl, rfl⟩ | ⟨k, us, rule, s, mid, later, rfl, hrule, hs, hlater, rfl⟩ := h
      · exact ⟨rfl, .inl ⟨rfl, rfl⟩⟩
      · obtain ⟨vs, c, rfl, hstatement, hc⟩ := yields_statementBehind?.mp ⟨rule, hrule, hs⟩
        have hlen : mid.length < n := by
          rw [← hn]
          simp only [List.length_cons, List.length_append]
          omega
        obtain ⟨rfl, hmid⟩ := (ih mid.length hlen rfl).mp hlater
        have hp := program_iff.mpr ⟨k, vs, c, mid, s, later, rfl, hstatement, hc, rfl, hmid⟩
        exact ⟨rfl, .inr hp⟩
    · obtain ⟨rfl, ⟨rfl, rfl⟩ | hp⟩ := h
      · exact .inl ⟨rfl, rfl, rfl⟩
      · obtain ⟨k, us, c, vs, s, later, rfl, hs, hc, rfl, hlater⟩ := program_iff.mp hp
        have hlen : vs.length < n := by
          rw [← hn]
          simp only [List.length_cons, List.length_append]
          omega
        obtain ⟨rule, hrule, hyields⟩ := yields_statementBehind?.mpr ⟨us, c, rfl, hs, hc⟩
        exact .inr ⟨k, us ++ c :: vs, rule, s, vs, later, rfl, hrule, hyields,
          (ih vs.length hlen rfl).mpr ⟨rfl, hlater⟩, rfl⟩

/-- The rule for programs reads all tokens, and reads what the grammar derives from them. -/
theorem yields_program_iff {p : MiniSql.Program} :
    program.Yields ts p rest ↔ rest = [] ∧ Phrase.Program ts p := by
  rw [program_iff]
  refine ⟨fun h => ?_, fun h => ?_⟩
  · obtain ⟨s, mid, hs, h₁⟩ := Rule.yields_bind.mp h
    obtain ⟨later, _, hlater, h₂⟩ := Rule.yields_bind.mp h₁
    obtain ⟨rfl, rfl⟩ := Rule.yields_pure.mp h₂
    obtain ⟨k, us, rule, rfl, hrule, hyields⟩ := Rule.yields_choose.mp hs
    obtain ⟨vs, c, rfl, hstatement, hc⟩ := yields_statementBehind?.mp ⟨rule, hrule, hyields⟩
    obtain ⟨rfl, hmid⟩ := yields_statements_iff.mp hlater
    exact ⟨rfl, k, vs, c, mid, s, later, rfl, hstatement, hc, rfl, hmid⟩
  · obtain ⟨rfl, k, us, c, vs, s, later, rfl, hs, hc, rfl, hlater⟩ := h
    obtain ⟨rule, hrule, hyields⟩ := yields_statementBehind?.mpr ⟨us, c, rfl, hs, hc⟩
    exact Rule.yields_bind.mpr ⟨s, vs, Rule.yields_choose.mpr ⟨k, _, rule, rfl, hrule, hyields⟩,
      Rule.yields_bind.mpr ⟨later, [], yields_statements_iff.mpr ⟨rfl, hlater⟩,
        Rule.yields_pure.mpr ⟨rfl, rfl⟩⟩⟩

/-- Parsing succeeds with the programs that the grammar derives from all tokens. -/
theorem run_program_eq_ok_iff {s : TokenStream} {p : MiniSql.Program} :
    (program.run s).1 = .ok p ↔ Phrase.Program s.tokens p := by
  rw [Rule.run_eq_ok_iff]
  refine ⟨fun h => ?_, fun h => ?_⟩
  · obtain ⟨rest, hyields⟩ := h
    exact (yields_program_iff.mp hyields).2
  · exact ⟨[], yields_program_iff.mpr ⟨rfl, h⟩⟩

end MiniSql.Grammar
