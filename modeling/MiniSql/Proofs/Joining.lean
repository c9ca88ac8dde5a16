import MiniSql.Proofs.FirstError
import MiniSql.Proofs.LineBreak
import MiniSql.Proofs.Placing
import MiniSql.Proofs.Relocation

/-!
# Joined texts

A text that parses, a line break and another text parse as the two programs one after the other, and
an error in the second text is found where it is, so many lines further down (`parse_join`).

Three facts carry this. The lexemes of the joined text are those of both texts
(`cut_append_lineBreak`). Behind a line break places are those of the second text, moved down, and
rules do not see places (`Rule.Blind`). And the rule for statements goes through the statements of
the first text without a look at what follows them (`statements_append`).
-/

namespace MiniSql

/-- The tokens of a joined text are those of its first part and, further down, those of
the second. -/
theorem significant_join {p : String} (hp : ∀ l ∈ Lexeme.cut p.toList, ¬ l.IsInvalid) (q : String) :
    significant (p ++ "\n" ++ q) =
      significant p ++ (significant q).map (Token.down (p.toList.count '\n' + 1)) := by
  have htext : (p ++ "\n" ++ q).toList = p.toList ++ '\n' :: q.toList := by simp
  have hfilter (n : Nat) (ts : List Token) : (ts.map (Token.down n)).filter (·.kind ≠ .lineBreak) =
      (ts.filter (·.kind ≠ .lineBreak)).map (Token.down n) := List.filter_map
  rw [significant, htext, Lexeme.cut_append_lineBreak hp, Token.placed_append, Lexeme.flatten_cut,
    List.filter_append, significant, significant, ← hfilter, ← Token.placed_down,
    ← Position.advance_append_lineBreak, Position.advance_append]
  rfl

namespace Grammar

/-! ## Statements -/

/-- The rule for the statements of a program. -/
def statements : Rule Program := Rule.toEnd .statement statementBehind?

theorem program_eq_statements {ts : List Token} (h : ts ≠ []) : program ts = statements ts := by
  obtain ⟨t, us, rfl⟩ := List.exists_cons_of_ne_nil h
  rw [statements, Rule.toEnd_cons]
  simp only [program, bind, Rule.choose]
  cases statementBehind? t with
  | none => rfl
  | some rule =>
    simp only
    generalize rule us = step
    obtain ⟨result, rest, h⟩ := step
    cases result with
    | error c => rfl
    | ok s =>
      simp only [Step.widen]
      generalize Rule.toEnd .statement statementBehind? rest = later
      obtain ⟨result, rest, h⟩ := later
      cases result <;> rfl

/-- A list of statements is read one statement at a time. -/
theorem statements_cons {us vs : List Token} {c : Token} {s : Statement}
    (hs : Phrase.Statement us s) (hc : c.kind = .semicolon) :
    (statements (us ++ c :: vs)).result = (statements vs).result.map (s :: ·) ∧
      (statements (us ++ c :: vs)).rest = (statements vs).rest := by
  obtain ⟨k, us, rfl⟩ : ∃ k ws, us = k :: ws := by cases hs <;> exact ⟨_, _, rfl⟩
  obtain ⟨rule, hrule, hresult, hrest⟩ := yields_statementBehind?.mpr ⟨us, c, rfl, hs, hc⟩
  rw [List.cons_append, statements, Rule.toEnd_cons, hrule]
  simp only
  generalize rule (us ++ c :: vs) = step at hresult hrest
  obtain ⟨result, rest, h⟩ := step
  obtain rfl : result = .ok s := hresult
  obtain rfl : rest = vs := hrest
  exact ⟨rfl, rfl⟩

/-- Whatever follows a program, its statements are read first. -/
theorem statements_append {us vs : List Token} {p : Program} (h : Phrase.Program us p) :
    (statements (us ++ vs)).result = (statements vs).result.map (p ++ ·) ∧
      (statements (us ++ vs)).rest = (statements vs).rest := by
  induction h with
  | @last c us s hs hc =>
    rw [List.append_assoc]
    exact statements_cons hs hc
  | @more c us us' s p hs hc _ ih =>
    have hfirst := @statements_cons us (us' ++ vs) c s hs hc
    rw [List.append_assoc, List.cons_append, hfirst.1, hfirst.2, ih.1, ih.2]
    refine ⟨?_, rfl⟩
    cases (statements vs).result <;> rfl

end Grammar

/-! ## Joined texts -/

/-- The error found so many lines further down. -/
def ParseError.down (n : Nat) (e : ParseError) : ParseError :=
  { e with position := e.position.down n }

/-- A complaint about tokens further down is the same complaint further down. -/
theorem Complaint.report_down (c : Complaint) (n : Nat) (ts : List Token) (finish : Position) :
    c.report ⟨ts.map (Token.down n), finish.down n⟩ = (c.report ⟨ts, finish⟩).down n := by
  cases ts <;> cases c <;> rfl

/-- A text that holds a program is read without broken lexemes. -/
theorem not_isInvalid_of_program {text : String} {p : Program}
    (h : Phrase.Program (significant text) p) : ∀ l ∈ Lexeme.cut text.toList, ¬ l.IsInvalid := by
  rintro l hl ⟨message, htoken⟩
  -- the token of the lexeme is one of those that derive the program
  have hmem : (TokenKind.invalid, message) ∈
      (Token.placed .first (Lexeme.cut text.toList)).map fun t => (t.kind, t.text) := by
    rw [Token.map_placed]
    exact List.mem_filterMap.mpr ⟨l, hl, htoken⟩
  obtain ⟨t, ht, heq⟩ := List.mem_map.mp hmem
  have hkind : t.kind = .invalid := congrArg Prod.fst heq
  have hseen : t ∈ significant text := List.mem_filter.mpr ⟨ht, by simp [hkind]⟩
  have hordinary := Grammar.ordinary_or_semicolon_of_program h t hseen
  rw [hkind] at hordinary
  rcases hordinary with h | h <;> cases h

theorem parse_eq (text : String) :
    parse text = (Grammar.program (significant text)).result.mapError (Complaint.report
      ⟨(Grammar.program (significant text)).rest, Position.first.advance text.toList⟩) := by
  rw [parse, ofTokens_tokenize]
  rfl

/-- A text holds a program exactly if the grammar derives it from the significant tokens. -/
theorem parse_eq_ok_iff {text : String} {p : Program} :
    parse text = .ok p ↔ Phrase.Program (significant text) p := by
  rw [parse, Grammar.run_program_eq_ok_iff, ofTokens_tokenize]

/-- A program, a line break and another text: the text is read behind the program, with its errors
so many lines further down. It must have a token, since a text without any is no program. -/
theorem parse_join {p q : String} {first : Program} (hp : parse p = .ok first)
    (hq : ∃ t ∈ tokenize q, t.kind ≠ .lineBreak ∧ t.kind ≠ .finish) :
    parse (p ++ "\n" ++ q) = match parse q with
      | .ok later => .ok (first ++ later)
      | .error e =>
        .error ⟨e.cause, e.position.line + p.toList.count '\n' + 1, e.position.column⟩ := by
  have hprogram : Phrase.Program (significant p) first := parse_eq_ok_iff.mp hp
  let n := p.toList.count '\n' + 1
  have hne : significant q ≠ [] := by
    obtain ⟨t, ht, hbreak, hfinish⟩ := hq
    rw [tokenize, Token.place_eq_placed, List.mem_append, List.mem_singleton] at ht
    rcases ht with ht | rfl
    · exact List.ne_nil_of_mem (List.mem_filter.mpr ⟨ht, by simpa using hbreak⟩)
    · exact absurd rfl hfinish
  -- the tokens of the second text are read as they would be alone
  have hlater : (Grammar.program (significant (p ++ "\n" ++ q))).result =
        (Grammar.program (significant q)).result.map (first ++ ·) ∧
      (Grammar.program (significant (p ++ "\n" ++ q))).rest =
        (Grammar.program (significant q)).rest.map (Token.down n) := by
    have hblind := Grammar.blind_program (Token.relocates_down n) (significant q)
    have hmoved : (significant q).map (Token.down n) ≠ [] := by simpa using hne
    rw [significant_join (not_isInvalid_of_program hprogram),
      Grammar.program_eq_statements (List.append_ne_nil_of_right_ne_nil _ hmoved),
      (Grammar.statements_append hprogram).1, (Grammar.statements_append hprogram).2,
      ← Grammar.program_eq_statements hmoved, hblind]
    exact ⟨rfl, rfl⟩
  have hfinish : Position.first.advance (p ++ "\n" ++ q).toList =
      (Position.first.advance q.toList).down n := by
    rw [← Position.advance_down, ← Position.advance_append_lineBreak, ← Position.advance_append]
    simp
  rw [parse_eq, hlater.1, hlater.2, hfinish, parse_eq q]
  cases (Grammar.program (significant q)).result with
  | ok later => rfl
  | error c => exact congrArg Except.error (Complaint.report_down c n _ _)

/-- The first text ends in a comment, and the second one breaks off in its second line. -/
theorem parse_joined_selections :
    let p := "select *\nfrom t; -- all"
    let q := "select a\nfrom;"
    let selection : Program := [.select ⟨"t", [], none, none⟩]
    parse p = .ok selection ∧ (∃ t ∈ tokenize q, t.kind ≠ .lineBreak ∧ t.kind ≠ .finish) ∧
      parse q = .error ⟨.unexpected "table name" "';'", ⟨2, 5⟩⟩ ∧
      parse (p ++ "\n" ++ q) = .error ⟨.unexpected "table name" "';'", ⟨4, 5⟩⟩ := by
  intro p q selection
  have htokens : significant p = [⟨.identifier, "select", ⟨1, 1⟩⟩, ⟨.asterisk, "*", ⟨1, 8⟩⟩,
      ⟨.identifier, "from", ⟨2, 1⟩⟩, ⟨.identifier, "t", ⟨2, 6⟩⟩, ⟨.semicolon, ";", ⟨2, 7⟩⟩] := by
    decide +kernel
  have hselection : Phrase.Program (significant p) selection := by
    rw [htokens]
    exact .last (.select (by decide) (.mk (.all rfl) (by decide) rfl .absent .absent)) rfl
  have hp : parse p = .ok selection := parse_eq_ok_iff.mpr hselection
  have hq : ∃ t ∈ tokenize q, t.kind ≠ .lineBreak ∧ t.kind ≠ .finish := by decide +kernel
  have herror : parse q = .error ⟨.unexpected "table name" "';'", ⟨2, 5⟩⟩ :=
    Grammar.parse_of_error? (by decide +kernel)
  refine ⟨hp, hq, herror, ?_⟩
  have hlines : p.toList.count '\n' = 1 := by decide +kernel
  have hjoin := parse_join hp hq
  rw [herror, hlines] at hjoin
  exact hjoin

end MiniSql
