import MiniSql.Proofs.Lookahead

/-!
# Bad numbers

A rule can complain that a number is bad. Only primaries do so, in front of a number token whose
text is not read, and every other rule passes the complaint on (`inherited_blamesUnread`).
-/

namespace MiniSql.Grammar

variable {ts us rest : List Token}

/-- The next token is a number token, but its text is not that of a number. -/
def Unread (ts : List Token) : Prop :=
  ∃ t us, ts = t :: us ∧ t.kind = .number ∧ Numeral.read? t.text = none

/-- The rule calls a number bad only where it is not read. -/
structure BlamesUnread {α : Type} (rule : Rule α) : Prop where
  unread : ∀ {ts rest : List Token}, rule.Fails ts .badNumber rest → Unread rest

/- The parser's own recursion, as in `primary_sound`. -/
mutual

/-- A literal blamed for its number is a number token whose text cannot be read. -/
theorem primary_unread {ts rest : List Token} (h : Rule.Fails primary ts .badNumber rest) :
    Unread rest := by
  rcases fails_primary.mp h with ⟨hnone, hbad, rfl⟩ | ⟨t, us, rfl, -, hc⟩
  · obtain ⟨t, us, rfl, ht⟩ := exists_of_notPrimary hbad.symm
    have hliteral := (hnone t rfl).1
    unfold literal? at hliteral
    rw [ht] at hliteral
    exact ⟨t, us, rfl, ht, Option.map_eq_none_iff.mp hliteral⟩
  · exact arrayTail_unread hc
termination_by 3 * ts.length

theorem arrayTail_unread {ts rest : List Token} (h : Rule.Fails arrayTail ts .badNumber rest) :
    Unread rest := elements_unread (fails_arrayTail.mp h).2
termination_by 3 * ts.length + 2

/-- So is one among the elements of an array. -/
theorem elements_unread {ts rest : List Token} (h : Rule.Fails elements ts .badNumber rest) :
    Unread rest := by
  rcases fails_elements.mp h with hc | ⟨e, mid, hp, ⟨-, hbad, -⟩ | ⟨t, us, rfl, -, hc⟩⟩
  · exact primary_unread hc
  · nomatch hbad
  · have hlen : us.length < ts.length := hp.length_le
    exact elements_unread hc
termination_by 3 * ts.length + 1

end

theorem unread_of_fails_many {α : Type} {starts : Token → Bool} {rule : Rule α}
    (hrule : BlamesUnread rule) (h : Rule.Fails (Rule.many starts rule) ts .badNumber rest) :
    Unread rest := by
  -- by induction on the number of tokens: a round takes its starting token
  induction hn : ts.length using Nat.strongRecOn generalizing ts with
  | _ n ih =>
    obtain ⟨t, us, rfl, -, hc | ⟨a, mid, ha, hlater⟩⟩ := Rule.fails_many.mp h
    · exact hrule.unread hc
    · have hlen := ha.length_le
      exact ih mid.length (by simp at hn; omega) hlater rfl

theorem unread_of_fails_toEnd {α : Type} {what : Expectation} {rule? : Token → Option (Rule α)}
    (hrule : ∀ t rule, rule? t = some rule → BlamesUnread rule)
    (h : Rule.Fails (Rule.toEnd what rule?) ts .badNumber rest) : Unread rest := by
  induction hn : ts.length using Nat.strongRecOn generalizing ts with
  | _ n ih =>
    obtain ⟨t, us, rfl, ⟨-, hbad, -⟩ | ⟨rule, ht, hc | ⟨a, mid, ha, hlater⟩⟩⟩ :=
      Rule.fails_toEnd.mp h
    · nomatch hbad
    · exact (hrule t rule ht).unread hc
    · have hlen := ha.length_le
      exact ih mid.length (by simp at hn; omega) hlater rfl

/-- To blame nothing but unreadable numbers is handed down from rules to the rules made of them. -/
theorem inherited_blamesUnread : Inherited @BlamesUnread where
  pure _ := ⟨fun h => absurd h Rule.not_fails_pure⟩
  bind hrule hf := by
    refine ⟨fun h => ?_⟩
    rcases Rule.fails_bind.mp h with hc | ⟨a, mid, -, hc⟩
    · exact hrule.unread hc
    · exact (hf a).unread hc
  one := ⟨fun h => nomatch (Rule.fails_one.mp h).2.1⟩
  take? := ⟨fun h => absurd h Rule.not_fails_take?⟩
  choose hrule := by
    refine ⟨fun h => ?_⟩
    rcases Rule.fails_choose.mp h with ⟨-, hbad, -⟩ | ⟨t, us, rule, -, ht, hc⟩
    · nomatch hbad
    · exact (hrule t rule ht).unread hc
  many hrule := ⟨unread_of_fails_many hrule⟩
  toEnd hrule := ⟨unread_of_fails_toEnd hrule⟩
  primary := ⟨primary_unread⟩
  arrayTail := ⟨arrayTail_unread⟩

/-- If a program is refused for a number, the number is a token whose text cannot be read. -/
theorem unread_of_fails_program (h : program.Fails ts .badNumber rest) : Unread rest :=
  inherited_blamesUnread.program.unread h

end MiniSql.Grammar
