import MiniSql.Proofs.Failure
import MiniSql.Proofs.Inheritance

/-!
# The grammar looks one token ahead

Every rule of the grammar is predictive, because the property is inherited. Only the rules for
arrays are not made from others by a `do`: they call each other, and the lemmas about them follow
that recursion.
-/

namespace MiniSql.Grammar

variable {ts us rest rest' : List Token} {c : Complaint}

/-! ## Arrays and primaries -/

/-- The complaint about a token that begins no primary. -/
def notPrimary (t? : Option Token) : Complaint :=
  if t?.any (·.kind == .number) then .badNumber else .expected .expression

/-- A primary expression is refused for its first token, or within parentheses. -/
theorem fails_primary :
    Rule.Fails primary ts c rest ↔
      (∀ t ∈ ts.head?, literal? t = none ∧ t.kind ≠ .leftParen) ∧ c = notPrimary ts.head? ∧
          rest = ts ∨
        ∃ t us, ts = t :: us ∧ t.kind = .leftParen ∧ Rule.Fails arrayTail us c rest := by
  cases ts with
  | nil =>
    simp only [Rule.Fails, primary, Step.stuck, notPrimary]
    grind
  | cons t us =>
    have hcons : Rule.Fails primary (t :: us) c rest ↔
        (literal? t = none ∧ t.kind ≠ .leftParen) ∧ c = notPrimary (some t) ∧ rest = t :: us ∨
          t.kind = .leftParen ∧ Rule.Fails arrayTail us c rest := by
      unfold Rule.Fails
      rw [primary, literal?, notPrimary]
      cases hk : t.kind with
      | number => cases Numeral.read? t.text <;> grind [Step.stuck, Step.took]
      | leftParen =>
        refine (Rule.fails_map_widen _ _ (List.suffix_cons t us)).trans
          ⟨fun h => .inr ⟨rfl, h⟩, ?_⟩
        rintro (⟨⟨-, hne⟩, -⟩ | ⟨-, h⟩)
        · exact absurd rfl hne
        · exact h
      | _ => grind [Step.stuck, Step.took]
    rw [hcons]
    grind

theorem fails_arrayTail :
    Rule.Fails arrayTail ts c rest ↔
      (∀ t ∈ ts.head?, t.kind ≠ .rightParen) ∧ Rule.Fails elements ts c rest := by
  cases ts with
  | nil => simp [Rule.Fails, arrayTail, elements, primary, Step.stuck]
  | cons t us =>
    unfold Rule.Fails
    by_cases ht : t.kind = .rightParen
    · have htail : arrayTail (t :: us) = .took [] := by rw [arrayTail, if_pos ht]
      rw [htail]
      constructor
      · rintro ⟨⟨⟩, -⟩
      · rintro ⟨hne, -⟩
        exact absurd ht (hne t rfl)
    · have htail : arrayTail (t :: us) = elements (t :: us) := by rw [arrayTail, if_neg ht]
      rw [htail]
      exact ⟨fun h => ⟨Rule.forall_mem_head?_cons ht, h⟩, fun h => h.2⟩

/-- Elements are refused in one of them, or for what stands behind it. -/
theorem fails_elements :
    Rule.Fails elements ts c rest ↔
      Rule.Fails primary ts c rest ∨ ∃ e mid, Rule.Yields primary ts e mid ∧
        ((∀ t ∈ mid.head?, t.kind ≠ .comma ∧ t.kind ≠ .rightParen) ∧
            c = .expected (.token .rightParen) ∧ rest = mid ∨
          ∃ t us, mid = t :: us ∧ t.kind = .comma ∧ Rule.Fails elements us c rest) := by
  simp only [Rule.Fails, Rule.Yields]
  rw [elements]
  rcases hp : primary ts with ⟨result, mid, h⟩
  cases result with
  | error c' => simp
  | ok e =>
    cases mid with
    | nil => grind
    | cons t us =>
      dsimp only
      by_cases hc : t.kind = .comma
      · rw [if_pos hc]
        refine (Rule.fails_map_widen _ _ _).trans ?_
        grind [Rule.Fails]
      · rw [if_neg hc]
        by_cases hr : t.kind = .rightParen
        · rw [if_pos hr]
          grind
        · rw [if_neg hr]
          grind

variable {α : Type} {rule : Rule α} {Phrase : List Token → α → Prop}

/-- Where nothing continues a phrase, it is taken in front of anything. -/
theorem Recognises.yields_congr (h : Recognises rule Phrase fun _ => False) {a : α}
    (ha : rule.Yields (us ++ rest) a rest) : rule.Yields (us ++ rest') a rest' := by
  obtain ⟨vs, hvs, hphrase⟩ := h.sound ha
  obtain rfl := List.append_cancel_right hvs
  exact h.complete hphrase fun _ _ => id

/-- Only a number token is refused for its number. -/
theorem exists_of_notPrimary (h : notPrimary ts.head? = .badNumber) :
    ∃ t us, ts = t :: us ∧ t.kind = .number := by
  cases ts with
  | nil => cases h
  | cons t us =>
    refine ⟨t, us, rfl, Decidable.byContradiction fun hk => ?_⟩
    simp [notPrimary, hk] at h

/- The parser's own recursion, as in `primary_sound`. -/
mutual

/-- A primary expression is refused for tokens that it looks at, whatever stands behind them. -/
theorem primary_blames {us rest : List Token} {c : Complaint}
    (h : Rule.Fails primary (us ++ rest) c rest) : Rule.Blames primary us c rest := by
  rcases fails_primary.mp h with ⟨hnone, rfl, hrest⟩ | ⟨t, vs, hus, ho, hc⟩
  · obtain rfl := List.append_left_eq_self.mp hrest.symm
    refine ⟨fun {rest'} hhead => ?_, exists_of_notPrimary⟩
    rw [List.nil_append, hhead] at hnone
    exact fails_primary.mpr (.inl ⟨hnone, congrArg notPrimary hhead, rfl⟩)
  · obtain ⟨us', rfl, rfl⟩ := Rule.exists_eq_cons hus hc.suffix
    have hblames := arrayTail_blames hc
    refine ⟨fun {rest'} hhead => ?_, hblames.number⟩
    exact fails_primary.mpr (.inr ⟨t, us' ++ rest', rfl, ho, hblames.fails hhead⟩)
termination_by 3 * us.length

theorem arrayTail_blames {us rest : List Token} {c : Complaint}
    (h : Rule.Fails arrayTail (us ++ rest) c rest) : Rule.Blames arrayTail us c rest := by
  obtain ⟨hne, hc⟩ := fails_arrayTail.mp h
  have hblames := elements_blames hc
  refine ⟨fun hhead => ?_, hblames.number⟩
  rw [Rule.head?_append_congr hhead us] at hne
  exact fails_arrayTail.mpr ⟨hne, hblames.fails hhead⟩
termination_by 3 * us.length + 2

theorem elements_blames {us rest : List Token} {c : Complaint}
    (h : Rule.Fails elements (us ++ rest) c rest) : Rule.Blames elements us c rest := by
  rcases fails_elements.mp h with hc | ⟨e, mid, hp, ⟨hne, rfl, rfl⟩ | ⟨t, vs, rfl, ht, hc⟩⟩
  · have hblames := primary_blames hc
    exact ⟨fun hhead => fails_elements.mpr (.inl (hblames.fails hhead)), hblames.number⟩
  · refine ⟨fun {rest'} hhead => ?_, nofun⟩
    have hp' : Rule.Yields primary (us ++ rest') e rest' := recognises_primary.yields_congr hp
    rw [hhead] at hne
    exact fails_elements.mpr (.inr ⟨e, rest', hp', .inl ⟨hne, rfl, rfl⟩⟩)
  · obtain ⟨us₁, us₂, rfl, hmid⟩ :=
      Rule.exists_cut hp.suffix (hc.suffix.trans (List.suffix_cons t vs))
    obtain ⟨us₂', rfl, rfl⟩ := Rule.exists_eq_cons hmid.symm hc.suffix
    have hblames := elements_blames hc
    refine ⟨fun {rest'} hhead => ?_, hblames.number⟩
    rw [List.append_assoc] at hp ⊢
    have hp' : Rule.Yields primary (us₁ ++ (t :: us₂' ++ rest')) e (t :: us₂' ++ rest') :=
      recognises_primary.yields_congr hp
    exact fails_elements.mpr
      (.inr ⟨e, t :: us₂' ++ rest', hp', .inr ⟨t, us₂' ++ rest', rfl, ht, hblames.fails hhead⟩⟩)
termination_by 3 * us.length + 1

end

theorem predictive_primary : Rule.Predictive primary where
  yields _ h := recognises_primary.yields_congr h
  blames h := primary_blames h

theorem predictive_arrayTail : Rule.Predictive arrayTail where
  yields := by
    intro us rest rest' es _ h
    -- behind an opening parenthesis the same tokens are a primary
    have ho : (⟨.leftParen, "", .first⟩ : Token).kind = .leftParen := rfl
    generalize (⟨.leftParen, "", .first⟩ : Token) = o at ho
    have harray : Rule.Yields primary (o :: us ++ rest) (.array es) rest :=
      yields_primary.mpr ⟨o, us ++ rest, rfl, .inr ⟨ho, es, h, rfl⟩⟩
    have harray' : Rule.Yields primary (o :: us ++ rest') (.array es) rest' :=
      recognises_primary.yields_congr harray
    obtain ⟨t, vs, hvs, ⟨hlit, -⟩ | ⟨-, es', htail, hes⟩⟩ := yields_primary.mp harray'
    · obtain ⟨rfl, -⟩ := List.cons.inj hvs
      simp [literal?, ho] at hlit
    · obtain ⟨-, rfl⟩ := List.cons.inj hvs
      obtain rfl := Expr.array.inj hes
      exact htail
  blames h := arrayTail_blames h

/-! ## The whole grammar -/

theorem inherited_predictive : Inherited @Rule.Predictive where
  pure := .pure
  bind := .bind
  one := .one
  take? := .take?
  choose := .choose
  many := .many
  toEnd := .toEnd
  primary := predictive_primary
  arrayTail := predictive_arrayTail

theorem predictive_expression : Rule.Predictive expression := inherited_predictive.expression

/-- One token ahead decides about programs. -/
theorem predictive_program : Rule.Predictive program := inherited_predictive.program

end MiniSql.Grammar
