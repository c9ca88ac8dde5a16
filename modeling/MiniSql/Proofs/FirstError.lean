import MiniSql.Proofs.Acceptance
import MiniSql.Proofs.ViablePrefix

/-!
# Errors are found at the first wrong token

`error_at_first_wrong_token` states where the parser finds an error. The tokens in front of the
place where it stops can be completed to a program. With the token at that place they cannot,
however they go on, and the error has that token's position. In a text there always is such a token,
because `finish` stands at its end.
-/

namespace MiniSql.Grammar

variable {tokens us : List Token} {e : ParseError} {left : TokenStream}

/-! ## The place where the parser stops -/

/-- What a stream still has to read, seen in the tokens that it was made from. -/
theorem next_of_ofTokens (hus : (TokenStream.ofTokens tokens).tokens = us ++ left.tokens)
    (hfinish : left.finish = (TokenStream.ofTokens tokens).finish) :
    let visible := tokens.filter (·.kind ≠ .lineBreak)
    visible.take us.length = us ∧
      (∀ t, visible[us.length]? = some t →
        left.tokens.head? = some t ∨ left.tokens = [] ∧ t.kind = .finish) ∧
      left.here = (visible[us.length]?.or visible.getLast?).elim .first Token.position := by
  intro visible
  rw [tokens_ofTokens] at hus
  rw [ofTokens_eq rfl] at hfinish
  -- behind the stream stands the `finish` token, if there is one
  obtain ⟨unseen, hunseen⟩ : ∃ unseen, unseen = visible.dropWhile (·.kind ≠ .finish) := ⟨_, rfl⟩
  have hvisible : visible = us ++ (left.tokens ++ unseen) := hunseen ▸ visible_eq_append hus
  have hnext : visible[us.length]? = left.tokens.head?.or unseen.head? := by
    rw [hvisible, List.getElem?_append_right (Nat.le_refl _), Nat.sub_self,
      ← List.head?_eq_getElem?, List.head?_append]
  refine ⟨?_, fun t ht => ?_, ?_⟩
  · rw [hvisible, List.take_left]
  · rw [hnext] at ht
    cases hleft : left.tokens with
    | cons u vs =>
      rw [hleft] at ht
      exact .inl ht
    | nil =>
      have hunseen' : unseen.head? = some t := by rwa [hleft] at ht
      exact .inr ⟨rfl, kind_of_unseen (hunseen ▸ hunseen')⟩
  · rw [hnext]
    unfold TokenStream.here
    cases left.tokens with
    | cons u vs => rfl
    | nil =>
      show left.finish = _
      rw [hfinish, hunseen]
      rfl

/-! ## Tokens that cannot be taken -/

/-- The end of a token list is no part of a program. -/
theorem not_begins_finish {t : Token} (ht : t.kind = .finish) :
    ¬ Begins Phrase.Program (us ++ [t]) := by
  rintro ⟨more, p, hp⟩
  have hmem : t ∈ us ++ [t] ++ more := by simp
  rcases ordinary_or_semicolon_of_program hp t hmem with h | h
  · rw [ht] at h
    cases h
  · rw [ht] at h
    cases h

/-- An invalid token words the error in front of it. -/
theorem text_report {t : Token} {c : Complaint} (ht : left.tokens.head? = some t)
    (hkind : t.kind = .invalid) (hnumber : c ≠ .badNumber) : (c.report left).text = t.text := by
  obtain ⟨vs, hvs⟩ := List.head?_eq_some_iff.mp ht
  cases c with
  | badNumber => exact absurd rfl hnumber
  | expected what => simp [Complaint.report, Complaint.cause, ParseError.text, hvs, hkind]

/-- The parser stopped at the token of index `k` and found the error there: that token, if there is
one, is the first that no program goes on with. -/
structure StopsAt (visible : List Token) (k : Nat) (left : TokenStream) (e : ParseError) :
    Prop where
  le_length : k ≤ visible.length
  taken : visible.takeWhile (·.kind ≠ .finish) = visible.take k ++ left.tokens
  begins : Begins Phrase.Program (visible.take k)
  wrong : ∀ t, visible[k]? = some t → ¬ Begins Phrase.Program (visible.take k ++ [t])
  position : e.position = (visible[k]?.or visible.getLast?).elim .first Token.position
  text : ∀ t, visible[k]? = some t → t.kind = .invalid → e.text = t.text

/-- A program that is refused is refused at some token. -/
theorem exists_stopsAt (h : program.run (.ofTokens tokens) = (.error e, left)) :
    ∃ k, StopsAt (tokens.filter (·.kind ≠ .lineBreak)) k left e := by
  obtain ⟨visible, hvisible⟩ : ∃ visible, visible = tokens.filter (·.kind ≠ .lineBreak) :=
    ⟨_, rfl⟩
  obtain ⟨c, hfails, hfinish, rfl⟩ := Rule.fails_of_run h
  obtain ⟨us, hus, hbegins⟩ := viable_program.begins hfails
  obtain ⟨htake, hnext, hhere⟩ := next_of_ofTokens hus hfinish
  have htaken := hus
  rw [tokens_ofTokens] at htaken
  rw [hus] at hfails
  rw [← hvisible] at htake hnext hhere htaken ⊢
  rw [← htake] at hbegins htaken
  refine ⟨us.length, ?_, htaken, hbegins, fun t ht => ?_, hhere, fun t ht hkind => ?_⟩
  · rw [← htake]
    exact List.length_take_le' _ _
  · rw [htake]
    rcases hnext t ht with hleft | ⟨-, hkind⟩
    · obtain ⟨vs, hvs⟩ := List.head?_eq_some_iff.mp hleft
      exact not_begins_of_fails (hvs ▸ hfails)
    · exact not_begins_finish hkind
  · rcases hnext t ht with hleft | ⟨-, hfinish⟩
    · refine text_report hleft hkind ?_
      rintro rfl
      -- a number is called bad only where a number stands
      obtain ⟨u, ws, hws, hu⟩ := (predictive_program.blames hfails).number rfl
      rw [hws] at hleft
      obtain rfl := Option.some.inj hleft
      rw [hkind] at hu
      cases hu
    · rw [hkind] at hfinish
      cases hfinish

/-! ## Texts -/

/-- Every text has an end mark behind its tokens. -/
theorem exists_finish (p : Position) (ls : List Lexeme) :
    ∃ t ∈ Token.place p ls, t.kind = .finish := by
  induction ls generalizing p with
  | nil => exact ⟨⟨.finish, "", p⟩, List.mem_singleton_self _, rfl⟩
  | cons l ls ih =>
    obtain ⟨t, ht, hkind⟩ := ih (p.advance l.source)
    refine ⟨t, ?_, hkind⟩
    rw [Token.place]
    split
    · exact List.mem_cons_of_mem _ ht
    · exact ht

/-- Where the tokens end with `finish`, the parser does not go past it. -/
theorem StopsAt.lt_length {visible : List Token} {k : Nat} (h : StopsAt visible k left e)
    (hfinish : ∃ t ∈ visible, t.kind = .finish) : k < visible.length := by
  refine Nat.lt_of_le_of_ne h.le_length fun hend => ?_
  obtain ⟨t, ht, hkind⟩ := hfinish
  have hseen : t ∈ visible.takeWhile (·.kind ≠ .finish) := by
    rw [h.taken, hend, List.take_length]
    exact List.mem_append_left _ ht
  exact absurd hkind (by simpa using List.mem_takeWhile_imp hseen)

/-- The tokens before the wrong one begin a program, and no more than these do. -/
theorem StopsAt.begins_take_iff {visible : List Token} {k : Nat} (h : StopsAt visible k left e)
    (hlength : k < visible.length) (j : Nat) :
    Begins Phrase.Program (visible.take j) ↔ j ≤ k := by
  refine ⟨fun hj => Nat.le_of_not_lt fun hlt => ?_, h.begins.take_of_le⟩
  have ht : visible[k]? = some visible[k] := List.getElem?_eq_getElem hlength
  have hmore : Begins Phrase.Program (visible.take (k + 1)) := hj.take_of_le hlt
  rw [List.take_add_one, ht] at hmore
  exact h.wrong _ ht hmore

/-- The parser finds an error at the first token that no program goes on with. In a text there is
such a token, and it is where the error is. -/
theorem error_at_first_wrong_token :
    (∀ tokens e left, program.run (.ofTokens tokens) = (.error e, left) →
      ∃ k, StopsAt (tokens.filter (·.kind ≠ .lineBreak)) k left e) ∧
    ∀ text e, parse text = .error e →
      let visible := (tokenize text).filter (·.kind ≠ .lineBreak)
      ∃ k t, visible[k]? = some t ∧ e.position = t.position ∧
        ∀ j, Begins Phrase.Program (visible.take j) ↔ j ≤ k := by
  refine ⟨fun tokens e left => exists_stopsAt, fun text e h => ?_⟩
  intro visible
  obtain ⟨k, hstops⟩ :=
    exists_stopsAt (Prod.ext h rfl : program.run (.ofTokens (tokenize text)) = (.error e, _))
  have hlength : k < visible.length := by
    obtain ⟨t, ht, hkind⟩ := exists_finish .first (Lexeme.cut text.toList)
    exact hstops.lt_length ⟨t, List.mem_filter.mpr ⟨ht, by simp [hkind]⟩, hkind⟩
  have ht : visible[k]? = some visible[k] := List.getElem?_eq_getElem hlength
  refine ⟨k, visible[k], ht, ?_, hstops.begins_take_iff hlength⟩
  rw [hstops.position, ht]
  rfl

/-- The error of a text that is no program. -/
def error? (text : String) : Option ParseError :=
  match parse text with
  | .error e => some e
  | .ok _ => none

theorem parse_of_error? {text : String} {e : ParseError} (h : error? text = some e) :
    parse text = .error e := by
  unfold error? at h
  split at h
  · next e' he => exact he.trans (congrArg Except.error (Option.some.inj h))
  · cases h

/-- The list of columns is read, and the word behind it is missing. -/
theorem error_at_semicolon :
    parse "SELECT *;" = .error ⟨.unexpected "keyword 'FROM'" "';'", ⟨1, 9⟩⟩ :=
  parse_of_error? (by decide +kernel)

/-- The errors in the empty program and in one that stops early, each with the place where
it stops. -/
theorem wrong_tokens_found :
    (program.run (.ofTokens []) =
        (.error ⟨.unexpected "statement" "end of input", .first⟩, ⟨[], .first⟩) ∧
      ∃ k, StopsAt [] k ⟨[], .first⟩ ⟨.unexpected "statement" "end of input", .first⟩) ∧
    parse "SELECT *;" = .error ⟨.unexpected "keyword 'FROM'" "';'", ⟨1, 9⟩⟩ ∧
      ∃ k t, ((tokenize "SELECT *;").filter (·.kind ≠ .lineBreak))[k]? = some t ∧
        (⟨1, 9⟩ : Position) = t.position ∧
        ∀ j, Begins Phrase.Program
          (((tokenize "SELECT *;").filter (·.kind ≠ .lineBreak)).take j) ↔ j ≤ k := by
  have hrun : program.run (.ofTokens []) =
      (.error ⟨.unexpected "statement" "end of input", .first⟩, ⟨[], .first⟩) := rfl
  exact ⟨⟨hrun, error_at_first_wrong_token.1 _ _ _ hrun⟩, error_at_semicolon,
    error_at_first_wrong_token.2 _ _ error_at_semicolon⟩

end MiniSql.Grammar
