import MiniSql.Proofs.Wording

/-!
# Derivations and wordings

`Phrase.program_iff_written` compares the two descriptions of the language: tokens derive a program
exactly if the program is expressible and they are its wording. Each phrase has such a law, proved
from the laws of its parts.
-/

namespace MiniSql.Phrase

open Word

variable {ts us : List Token} {e : Expr} {es : List Expr} {ns : List String}

/-! ## Names and primaries -/

/-- A list of names is derived from the tokens in which its words are written. -/
theorem names_iff_written : Names ts ns ↔ ns ≠ [] ∧ Written (namesWords ns) ts := by
  refine ⟨fun h => ?_, fun h => ?_⟩
  · induction h with
    | one ht => exact ⟨List.cons_ne_nil _ _, .cons ⟨ht, rfl⟩ .nil⟩
    | @more t c us ns ht hc _ ih =>
      obtain ⟨hne, h⟩ := ih
      obtain ⟨n, ns, rfl⟩ := List.exists_cons_of_ne_nil hne
      have hname : Written [.name t.text] [t] := .cons ⟨ht, rfl⟩ .nil
      exact ⟨List.cons_ne_nil _ _, written_separate_cons_cons.mpr ⟨[t], c, us, rfl, hname, hc, h⟩⟩
  · induction ns generalizing ts with
    | nil => exact absurd rfl h.1
    | cons n ns ih =>
      obtain ⟨_, h⟩ := h
      cases ns with
      | nil =>
        obtain ⟨t, rfl, ht, rfl⟩ := written_single.mp h
        exact .one ht
      | cons n' ns =>
        obtain ⟨us, c, us', rfl, hfirst, hc, hmore⟩ := written_separate_cons_cons.mp h
        obtain ⟨t, rfl, ht, rfl⟩ := written_single.mp hfirst
        exact .more ht hc (ih ⟨List.cons_ne_nil _ _, hmore⟩)

/-- The first of several elements is set apart from the others by a comma. -/
theorem elements_cons_cons {e' : Expr} : Elements ts (e :: e' :: es) ↔
    ∃ us c vs, ts = us ++ c :: vs ∧ Primary us e ∧ c.kind = .comma ∧ Elements vs (e' :: es) := by
  refine ⟨fun h => ?_, fun ⟨us, c, vs, hts, he, hc, hes⟩ => hts ▸ .more he hc hes⟩
  cases h with
  | more he hc hes => exact ⟨_, _, _, rfl, he, hc, hes⟩

theorem elements_singleton : Elements ts [e] ↔ Primary ts e := by
  refine ⟨fun h => ?_, .one⟩
  cases h with
  | one he => exact he
  | more _ _ hes => nomatch hes

/-- What stands in parentheses is nothing or a list of elements. -/
theorem parenthesized_iff : Parenthesized ts es ↔ ∃ o us c, ts = o :: us ++ [c] ∧
    o.kind = .leftParen ∧ (us = [] ∧ es = [] ∨ Elements us es) ∧ c.kind = .rightParen := by
  refine ⟨fun h => ?_, fun ⟨o, us, c, hts, ho, hus, hc⟩ => ?_⟩
  · cases h with
    | @empty o c ho hc => exact ⟨o, [], c, rfl, ho, .inl ⟨rfl, rfl⟩, hc⟩
    | @filled o c us es ho hus hc => exact ⟨o, us, c, rfl, ho, .inr hus, hc⟩
  · rcases hus with ⟨rfl, rfl⟩ | hus
    · exact hts ▸ .empty ho hc
    · exact hts ▸ .filled ho hus hc

mutual

/-- A primary expression is derived from the tokens in which its words are written. -/
theorem primary_iff_written (e : Expr) (ts : List Token) :
    Primary ts e ↔ e.IsPrimary ∧ Written e.words ts := by
  -- by recursion on the expression, whose arrays hold expressions in turn
  cases e with
  | identifier name =>
    refine ⟨fun h => ?_, fun ⟨_, h⟩ => ?_⟩
    · cases h with
      | identifier ht => exact ⟨.identifier, .cons ⟨ht, rfl⟩ .nil⟩
    · obtain ⟨t, rfl, ht, rfl⟩ := written_single.mp h
      exact .identifier ht
  | number value =>
    refine ⟨fun h => ?_, fun ⟨_, h⟩ => ?_⟩
    · cases h with
      | number ht hv => exact ⟨.number, .cons ⟨ht, hv⟩ .nil⟩
    · obtain ⟨t, rfl, ht, hv⟩ := written_single.mp h
      exact .number ht hv
  | string text =>
    refine ⟨fun h => ?_, fun ⟨_, h⟩ => ?_⟩
    · cases h with
      | string ht => exact ⟨.string, .cons ⟨ht, rfl⟩ .nil⟩
    · obtain ⟨t, rfl, ht, rfl⟩ := written_single.mp h
      exact .string ht
  | boolean value =>
    refine ⟨fun h => ?_, fun ⟨_, h⟩ => ?_⟩
    · cases h with
      | trueLiteral ht => exact ⟨.boolean, .cons ht .nil⟩
      | falseLiteral ht => exact ⟨.boolean, .cons ht .nil⟩
    · obtain ⟨t, rfl, ht⟩ := written_single.mp h
      cases value with
      | true => exact .trueLiteral ht
      | false => exact .falseLiteral ht
  | array es =>
    have hes := parenthesized_iff_written es ts
    refine ⟨fun h => ?_, fun ⟨hprimary, h⟩ => ?_⟩
    · cases h with
      | array h =>
        obtain ⟨hprimary, h⟩ := hes.mp h
        exact ⟨.array hprimary, h⟩
    · cases hprimary with
      | array hprimary => exact .array (hes.mpr ⟨hprimary, h⟩)
  | binary l op r => exact ⟨fun h => (nomatch h), fun ⟨h, _⟩ => (nomatch h)⟩

theorem parenthesized_iff_written (es : List Expr) (ts : List Token) :
    Parenthesized ts es ↔ (∀ e ∈ es, e.IsPrimary) ∧
      Written (parenthesize (separate (Expr.wordsOfEach es))) ts := by
  rw [parenthesized_iff, written_parenthesize]
  refine ⟨fun ⟨o, us, c, hts, ho, hus, hc⟩ => ?_, fun ⟨hprimary, o, us, c, hts, ho, hus, hc⟩ => ?_⟩
  · rcases hus with ⟨rfl, rfl⟩ | hus
    · exact ⟨List.forall_mem_nil _, o, [], c, hts, ho, .nil, hc⟩
    · obtain ⟨_, hprimary, hus⟩ := (elements_iff_written es us).mp hus
      exact ⟨hprimary, o, us, c, hts, ho, hus, hc⟩
  · refine ⟨o, us, c, hts, ho, ?_, hc⟩
    cases es with
    | nil => exact .inl ⟨written_nil.mp hus, rfl⟩
    | cons e es =>
      exact .inr ((elements_iff_written (e :: es) us).mpr ⟨List.cons_ne_nil _ _, hprimary, hus⟩)

/-- Elements are derived from the tokens in which their words are written, with commas
between them. -/
theorem elements_iff_written (es : List Expr) (ts : List Token) :
    Elements ts es ↔ es ≠ [] ∧ (∀ e ∈ es, e.IsPrimary) ∧
      Written (separate (Expr.wordsOfEach es)) ts := by
  match es with
  | [] => exact ⟨fun h => (nomatch h), fun ⟨hne, _⟩ => absurd rfl hne⟩
  | [e] =>
    rw [elements_singleton, primary_iff_written e ts]
    exact ⟨fun ⟨he, h⟩ => ⟨List.cons_ne_nil _ _, List.forall_mem_singleton.mpr he, h⟩,
      fun ⟨_, he, h⟩ => ⟨List.forall_mem_singleton.mp he, h⟩⟩
  | e :: e' :: es =>
    have he := primary_iff_written e
    have hes := elements_iff_written (e' :: es)
    show _ ↔ _ ∧ _ ∧ Written (separate (e.words :: e'.words :: Expr.wordsOfEach es)) ts
    rw [elements_cons_cons, written_separate_cons_cons, List.forall_mem_cons]
    refine ⟨fun ⟨us, c, vs, hts, hus, hc, hvs⟩ => ?_, fun ⟨_, ⟨hp, hps⟩, hwritten⟩ => ?_⟩
    · obtain ⟨hp, hus⟩ := (he us).mp hus
      obtain ⟨_, hps, hvs⟩ := (hes vs).mp hvs
      exact ⟨List.cons_ne_nil _ _, ⟨hp, hps⟩, us, c, vs, hts, hus, hc, hvs⟩
    · obtain ⟨us, c, vs, hts, hus, hc, hvs⟩ := hwritten
      have hrest := (hes vs).mpr ⟨List.cons_ne_nil _ _, hps, hvs⟩
      exact ⟨us, c, vs, hts, (he us).mpr ⟨hp, hus⟩, hc, hrest⟩

end

/-! ## Operators -/

section Operators

variable {Operand : List Token → Expr → Prop} {P : Expr → Prop}
  (hoperand : ∀ {ts e}, Operand ts e ↔ P e ∧ Written e.words ts)

include hoperand

/-- One operator at most stands between operands: the phrases are the writings of single
expressions. -/
theorem atMostOne_iff_written {Sign : TokenKind → BinaryOp → Prop} {ops : List BinaryOp}
    (hsign : ∀ {t : Token} {op}, Sign t.kind op ↔ op ∈ ops ∧ op.word.Means t) :
    AtMostOne Sign Operand ts e ↔ Expr.IsSingle ops P e ∧ Written e.words ts := by
  refine ⟨fun h => ?_, fun ⟨hsingle, h⟩ => ?_⟩
  · cases h with
    | one h =>
      obtain ⟨hp, hwritten⟩ := hoperand.mp h
      exact ⟨.one hp, hwritten⟩
    | two hl ht hr =>
      obtain ⟨hpl, hwl⟩ := hoperand.mp hl
      obtain ⟨hop, ht⟩ := hsign.mp ht
      obtain ⟨hpr, hwr⟩ := hoperand.mp hr
      exact ⟨.two hpl hop hpr, written_append.mpr ⟨_, _, rfl, hwl, .cons ht hwr⟩⟩
  · cases hsingle with
    | one hp => exact .one (hoperand.mpr ⟨hp, h⟩)
    | two hpl hop hpr =>
      obtain ⟨us, us', rfl, hwl, hmore⟩ := written_append.mp h
      obtain ⟨t, vs, rfl, ht, hwr⟩ := written_cons.mp hmore
      exact .two (hoperand.mpr ⟨hpl, hwl⟩) (hsign.mpr ⟨hop, ht⟩) (hoperand.mpr ⟨hpr, hwr⟩)

/-- Operators of one kind stand between operands: the phrases are the writings of chains, which lean
to the left. -/
theorem joined_iff_written {word : String} {op : BinaryOp}
    (hword : ∀ {t : Token}, t.isKeyword word = true ↔ op.word.Means t) :
    Joined word op Operand ts e ↔ Expr.IsChain op P e ∧ Written e.words ts := by
  -- both directions are inductions along the chain, which grows to the right
  refine ⟨fun h => ?_, fun h => ?_⟩
  · induction h with
    | one h =>
      obtain ⟨hp, hwritten⟩ := hoperand.mp h
      exact ⟨.one hp, hwritten⟩
    | more _ ht hr ih =>
      obtain ⟨hpl, hwl⟩ := ih
      obtain ⟨hpr, hwr⟩ := hoperand.mp hr
      exact ⟨.more hpl hpr, written_append.mpr ⟨_, _, rfl, hwl, .cons (hword.mp ht) hwr⟩⟩
  · obtain ⟨hchain, h⟩ := h
    induction hchain generalizing ts with
    | one hp => exact .one (hoperand.mpr ⟨hp, h⟩)
    | more _ hpr ih =>
      obtain ⟨us, us', rfl, hwl, hmore⟩ := written_append.mp h
      obtain ⟨t, vs, rfl, ht, hwr⟩ := written_cons.mp hmore
      exact .more (ih hwl) (hword.mpr ht) (hoperand.mpr ⟨hpr, hwr⟩)

end Operators

theorem relationSign_iff {t : Token} {op : BinaryOp} : RelationSign t.kind op ↔
    op ∈ [BinaryOp.less, .lessEqual, .greater, .greaterEqual] ∧ op.word.Means t := by
  refine ⟨fun h => ?_, fun ⟨hop, h⟩ => ?_⟩
  · generalize hkind : t.kind = kind at h
    cases h <;> exact ⟨by decide, hkind⟩
  · simp only [List.mem_cons, List.not_mem_nil, or_false] at hop
    rcases hop with rfl | rfl | rfl | rfl
    · rw [show t.kind = .less from h]
      exact .less
    · rw [show t.kind = .lessEqual from h]
      exact .lessEqual
    · rw [show t.kind = .greater from h]
      exact .greater
    · rw [show t.kind = .greaterEqual from h]
      exact .greaterEqual

theorem equalitySign_iff {t : Token} {op : BinaryOp} : EqualitySign t.kind op ↔
    op ∈ [BinaryOp.equal, .unequal] ∧ op.word.Means t := by
  refine ⟨fun h => ?_, fun ⟨hop, h⟩ => ?_⟩
  · generalize hkind : t.kind = kind at h
    cases h <;> exact ⟨by decide, hkind⟩
  · simp only [List.mem_cons, List.not_mem_nil, or_false] at hop
    rcases hop with rfl | rfl
    · rw [show t.kind = .equal from h]
      exact .equal
    · rw [show t.kind = .unequal from h]
      exact .unequal

/-- An expression is derived from the tokens in which its words are written, if it has the shape of
a condition. -/
theorem expression_iff_written : Expression ts e ↔ e.IsCondition ∧ Written e.words ts := by
  have hrelation {ts : List Token} {e : Expr} :
      Relation ts e ↔ e.IsRelation ∧ Written e.words ts :=
    atMostOne_iff_written (primary_iff_written _ _) relationSign_iff
  have hequality {ts : List Token} {e : Expr} :
      Equality ts e ↔ e.IsEquality ∧ Written e.words ts :=
    atMostOne_iff_written hrelation equalitySign_iff
  have hconjunction {ts : List Token} {e : Expr} :
      Conjunction ts e ↔ Expr.IsChain .and Expr.IsEquality e ∧ Written e.words ts :=
    joined_iff_written hequality Iff.rfl
  exact joined_iff_written hconjunction Iff.rfl

/-! ## Statements -/

theorem optional_iff_written {α : Type} {Part : List Token → α → Prop} {P : α → Prop}
    {words : α → List Word} {a? : Option α}
    (hpart : ∀ us a, Part us a ↔ P a ∧ Written (words a) us) :
    Optional Part ts a? ↔ (∀ a ∈ a?, P a) ∧ Written (a?.elim [] words) ts := by
  refine ⟨fun h => ?_, fun ⟨hp, h⟩ => ?_⟩
  · cases h with
    | absent => exact ⟨fun _ ha => (nomatch ha), .nil⟩
    | present h =>
      obtain ⟨hp, hwritten⟩ := (hpart _ _).mp h
      exact ⟨fun _ ha => Option.some_inj.mp ha ▸ hp, hwritten⟩
  · cases a? with
    | none =>
      obtain rfl := written_nil.mp h
      exact .absent
    | some a => exact .present ((hpart _ _).mpr ⟨hp a rfl, h⟩)

theorem where_iff_written (ts : List Token) (e : Expr) :
    Where ts e ↔ e.IsCondition ∧ Written (.keyword .«where» :: e.words) ts := by
  refine ⟨fun ⟨hw, h⟩ => ?_, fun ⟨hcondition, h⟩ => ?_⟩
  · obtain ⟨hcondition, hwritten⟩ := expression_iff_written.mp h
    exact ⟨hcondition, .cons hw hwritten⟩
  · obtain ⟨w, us, rfl, hw, hwritten⟩ := written_cons.mp h
    exact ⟨hw, expression_iff_written.mpr ⟨hcondition, hwritten⟩⟩

theorem groupBy_iff_written (ts : List Token) (ns : List String) :
    GroupBy ts ns ↔ ns ≠ [] ∧ Written (.keyword .group :: .keyword .«by» :: namesWords ns) ts := by
  refine ⟨fun ⟨hg, hb, h⟩ => ?_, fun ⟨hne, h⟩ => ?_⟩
  · obtain ⟨hne, hwritten⟩ := names_iff_written.mp h
    exact ⟨hne, .cons hg (.cons hb hwritten)⟩
  · obtain ⟨g, us, rfl, hg, hmore⟩ := written_cons.mp h
    obtain ⟨b, us, rfl, hb, hwritten⟩ := written_cons.mp hmore
    exact ⟨hg, hb, names_iff_written.mpr ⟨hne, hwritten⟩⟩

theorem targets_iff_written (ts : List Token) (ns : List String) :
    Targets ts ns ↔ ns ≠ [] ∧ Written (parenthesize (namesWords ns)) ts := by
  rw [written_parenthesize]
  refine ⟨fun ⟨ho, h, hc⟩ => ?_, fun ⟨hne, o, us, c, hts, ho, hwritten, hc⟩ => ?_⟩
  · obtain ⟨hne, hwritten⟩ := names_iff_written.mp h
    exact ⟨hne, _, _, _, rfl, ho, hwritten, hc⟩
  · exact hts ▸ ⟨ho, names_iff_written.mpr ⟨hne, hwritten⟩, hc⟩

theorem columns_iff_written {s : Select} : Columns ts s.columns ↔ Written s.columnsWords ts := by
  rw [Select.columnsWords]
  refine ⟨fun h => ?_, fun h => ?_⟩
  · generalize s.columns = columns at h
    cases h with
    | all ht => exact .cons ht .nil
    | listed h =>
      obtain ⟨hne, hwritten⟩ := names_iff_written.mp h
      rw [if_neg hne]
      exact hwritten
  · split at h
    · rename_i hcolumns
      obtain ⟨t, rfl, ht⟩ := written_single.mp h
      rw [hcolumns]
      exact .all ht
    · rename_i hne
      exact .listed (names_iff_written.mpr ⟨hne, h⟩)

/-- A selection is derived from the tokens in which its words are written. -/
theorem select_iff_written {s : Select} :
    Statement ts (.select s) ↔ s.IsExpressible ∧ Written s.words ts := by
  refine ⟨fun h => ?_, fun ⟨⟨hcondition, hgroup⟩, h⟩ => ?_⟩
  · cases h with
    | select hk h =>
      obtain ⟨hcolumns, hf, ht, hwhere, hgroup⟩ := h
      obtain ⟨hcondition, hws⟩ := (optional_iff_written where_iff_written).mp hwhere
      obtain ⟨hnames, hgs⟩ := (optional_iff_written groupBy_iff_written).mp hgroup
      refine ⟨⟨hcondition, hnames⟩, .cons hk (written_append.mpr ⟨_, _, rfl, ?_, ?_⟩)⟩
      · exact columns_iff_written.mp hcolumns
      · exact .cons hf (.cons ⟨ht, rfl⟩ (written_append.mpr ⟨_, _, rfl, hws, hgs⟩))
  · obtain ⟨k, us, rfl, hk, hbody⟩ := written_cons.mp h
    obtain ⟨cs, us, rfl, hcs, hfrom⟩ := written_append.mp hbody
    obtain ⟨f, us, rfl, hf, htable⟩ := written_cons.mp hfrom
    obtain ⟨t, us, rfl, ⟨ht, htext⟩, htail⟩ := written_cons.mp htable
    obtain ⟨ws, gs, rfl, hws, hgs⟩ := written_append.mp htail
    refine .select hk ?_
    have hbody := SelectBody.mk (columns_iff_written.mpr hcs) hf ht
      ((optional_iff_written where_iff_written).mpr ⟨hcondition, hws⟩)
      ((optional_iff_written groupBy_iff_written).mpr ⟨hgroup, hgs⟩)
    rw [htext] at hbody
    exact hbody

/-- An insertion is derived from the tokens in which its words are written. -/
theorem insert_iff_written {i : Insert} :
    Statement ts (.insert i) ↔ i.IsExpressible ∧ Written i.words ts := by
  refine ⟨fun h => ?_, fun ⟨⟨hcolumns, es, hes, hprimary⟩, h⟩ => ?_⟩
  · cases h with
    | insert hk h =>
      obtain ⟨hn, ht, hcolumns, hv, hvalues⟩ := h
      obtain ⟨hnames, hcs⟩ := (optional_iff_written targets_iff_written).mp hcolumns
      obtain ⟨hprimary, hvs⟩ := (parenthesized_iff_written _ _).mp hvalues
      refine ⟨⟨hnames, _, rfl, hprimary⟩, .cons hk (.cons hn (.cons ⟨ht, rfl⟩ ?_))⟩
      exact written_append.mpr ⟨_, _, rfl, hcs, .cons hv hvs⟩
  · obtain ⟨k, us, rfl, hk, hbody⟩ := written_cons.mp h
    obtain ⟨n, us, rfl, hn, htable⟩ := written_cons.mp hbody
    obtain ⟨t, us, rfl, ⟨ht, htext⟩, htail⟩ := written_cons.mp htable
    obtain ⟨cs, us, rfl, hcs, hvalues⟩ := written_append.mp htail
    obtain ⟨v, vs, rfl, hv, hvs⟩ := written_cons.mp hvalues
    rw [hes] at hvs
    refine .insert hk ?_
    have hbody := InsertBody.mk hn ht
      ((optional_iff_written targets_iff_written).mpr ⟨hcolumns, hcs⟩) hv
      ((parenthesized_iff_written es _).mpr ⟨hprimary, hvs⟩)
    rw [htext, ← hes] at hbody
    exact hbody

/-- A statement is derived from the tokens in which its words are written. -/
theorem statement_iff_written {s : MiniSql.Statement} :
    Statement ts s ↔ s.IsExpressible ∧ Written s.words ts := by
  cases s with
  | select s => exact select_iff_written
  | insert i => exact insert_iff_written

/-- The grammar derives from tokens the programs that are expressible and written in them. -/
theorem program_iff_written {p : MiniSql.Program} :
    Program ts p ↔ p.IsExpressible ∧ Written p.words ts := by
  -- by induction on the program, whose statements each end with a semicolon
  refine ⟨fun h => ?_, fun h => ?_⟩
  · induction h with
    | @last c us s hs hc =>
      obtain ⟨hexpressible, hus⟩ := statement_iff_written.mp hs
      refine ⟨⟨List.cons_ne_nil _ _, List.forall_mem_singleton.mpr hexpressible⟩, ?_⟩
      rw [Program.words, List.flatMap_singleton]
      exact written_append.mpr ⟨us, [c], rfl, hus, .cons hc .nil⟩
    | @more c us vs s p hs hc _ ih =>
      obtain ⟨hexpressible, hus⟩ := statement_iff_written.mp hs
      obtain ⟨⟨_, hmore⟩, hvs⟩ := ih
      refine ⟨⟨List.cons_ne_nil _ _, List.forall_mem_cons.mpr ⟨hexpressible, hmore⟩⟩, ?_⟩
      rw [Program.words, List.flatMap_cons, List.append_assoc]
      exact written_append.mpr ⟨us, c :: vs, rfl, hus, .cons hc hvs⟩
  · induction p generalizing ts with
    | nil => exact absurd rfl h.1.nonempty
    | cons s p ih =>
      obtain ⟨⟨_, hstatements⟩, h⟩ := h
      obtain ⟨hs, hp⟩ := List.forall_mem_cons.mp hstatements
      rw [Program.words, List.flatMap_cons, List.append_assoc] at h
      obtain ⟨us, us', rfl, hus, hmore⟩ := written_append.mp h
      obtain ⟨c, vs, rfl, hc, hvs⟩ := written_cons.mp hmore
      have hstatement := statement_iff_written.mpr ⟨hs, hus⟩
      cases p with
      | nil =>
        obtain rfl := written_nil.mp hvs
        exact .last hstatement hc
      | cons s' p => exact .more hstatement hc (ih ⟨⟨List.cons_ne_nil _ _, hp⟩, hvs⟩)

end MiniSql.Phrase
