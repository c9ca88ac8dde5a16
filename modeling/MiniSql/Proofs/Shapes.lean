import MiniSql.Proofs.LongestNumber
import MiniSql.Proofs.Opening

/-!
# The shapes of lexemes

What is cut off a text has one of the shapes of the lexical grammar, or it is a single character
and nothing of any shape begins there (`shape_scan_or`). The cases are those of the openings: each
opening but a mark leaves one shape, and a mark that is none excludes them all
(`spelled_of_shape`).
-/

namespace MiniSql.Lexeme

variable {c : Char} {cs us rest : List Char} {token? : Option (TokenKind × String)}

/-! ## The lexeme is of one of the classes -/

theorem shape_name {c : Char} (hc : Text.startsName c = true) (cs : List Char) :
    Shape (name (c :: cs)).source (name (c :: cs)).token? := by
  have hbare : IsBare ((c :: cs).takeWhile Text.continuesName) := by
    rw [List.takeWhile_cons_of_pos (Text.continuesName_of_startsName hc)]
    exact .mk hc fun d hd => List.mem_takeWhile_imp hd
  simp only [name, token]
  generalize (c :: cs).takeWhile Text.continuesName = us at hbare
  unfold nameKind
  split
  · next htrue => exact .trueLiteral hbare htrue
  · next htrue =>
    split
    · next hfalse => exact .falseLiteral hbare hfalse
    · next hfalse => exact .name hbare (by simpa using htrue) (by simpa using hfalse)

/-- What is read behind a quote mark is a quoted text, or one that is never closed. -/
theorem shape_quoted {kind : TokenKind} {mark : Char} {missing : String}
    (hclosed : ∀ body, Shape (Text.quote mark body) (some (kind, String.ofList body)))
    (hopen : ∀ body, Shape (mark :: Text.double mark body) (some (.invalid, missing)))
    (cs : List Char) :
    Shape (quoted kind mark missing cs).source (quoted kind mark missing cs).token? := by
  unfold quoted
  split
  · exact hclosed _
  · next hnone =>
    obtain ⟨body, rfl⟩ := Text.exists_double_of_body? hnone
    exact hopen body

theorem shape_blockComment (cs : List Char) :
    Shape (blockComment cs).source (blockComment cs).token? := by
  unfold blockComment
  split
  · next tail htail =>
    obtain ⟨rest, -, hcloses⟩ := commentTail?_eq_some_iff.mp htail
    exact .blockComment hcloses
  · next hnone =>
    refine .openComment fun us ⟨rest, hus⟩ hcloses => ?_
    rw [commentTail?_eq_some_iff.mpr ⟨rest, hus.symm, hcloses⟩] at hnone
    cases hnone

/-- A mark is read as a pair if two characters make one, and as a single mark otherwise. -/
theorem mark_cases (c : Char) (cs : List Char) :
    (∃ d ds kind, cs = d :: ds ∧ pairKind? c d = some kind ∧ mark c cs = verbatim kind [c, d]) ∨
      (∀ d ∈ cs.head?, pairKind? c d = none) ∧ mark c cs = single c := by
  cases cs with
  | nil => exact .inr ⟨nofun, rfl⟩
  | cons d ds =>
    cases hpair : pairKind? c d with
    | some kind => exact .inl ⟨d, ds, kind, rfl, hpair, by simp [mark, hpair]⟩
    | none => exact .inr ⟨by simpa using hpair, by simp [mark, hpair]⟩

theorem spelled_of_pairKind? {c d : Char} {kind : TokenKind} (h : pairKind? c d = some kind) :
    String.ofList [c, d] ∈ kind.spellings := by
  unfold pairKind? at h
  split at h
  all_goals first | (obtain rfl := Option.some.inj h; decide) | cases h

theorem spelled_of_singleKind? {c : Char} {kind : TokenKind} (h : singleKind? c = some kind) :
    String.ofList [c] ∈ kind.spellings := by
  unfold singleKind? at h
  split at h
  all_goals first | (obtain rfl := Option.some.inj h; decide) | cases h

/-- The spellings of marks are single characters and pairs of them. -/
theorem spellings_cases {kind : TokenKind} {text : String} (h : text ∈ kind.spellings) :
    ∃ c ∈ openers, text.toList = [c] ∧ singleKind? c = some kind ∨
      ∃ d, text.toList = [c, d] ∧ pairKind? c d = some kind := by
  cases kind <;> simp only [TokenKind.spellings, List.mem_singleton, List.mem_pair,
    List.not_mem_nil] at h
  case unequal =>
    rcases h with rfl | rfl
    · exact ⟨'!', by decide, .inr ⟨'=', by decide⟩⟩
    · exact ⟨'<', by decide, .inr ⟨'>', by decide⟩⟩
  case lessEqual => exact ⟨'<', by decide, .inr ⟨'=', by subst h; decide⟩⟩
  case greaterEqual => exact ⟨'>', by decide, .inr ⟨'=', by subst h; decide⟩⟩
  case comma => exact ⟨',', by decide, .inl (by subst h; decide)⟩
  case semicolon => exact ⟨';', by decide, .inl (by subst h; decide)⟩
  case leftParen => exact ⟨'(', by decide, .inl (by subst h; decide)⟩
  case rightParen => exact ⟨')', by decide, .inl (by subst h; decide)⟩
  case asterisk => exact ⟨'*', by decide, .inl (by subst h; decide)⟩
  case equal => exact ⟨'=', by decide, .inl (by subst h; decide)⟩
  case less => exact ⟨'<', by decide, .inl (by subst h; decide)⟩
  case greater => exact ⟨'>', by decide, .inl (by subst h; decide)⟩

/-! ## Shapes at the start of a text -/

/-- A number literal is read as a number from its first character on, also behind a minus sign. -/
theorem opening_of_decimal {minus whole more : List Char} (hminus : minus ∈ [[], ['-']])
    (hwhole : IsDigits whole) (h : minus ++ (whole ++ more) = c :: cs) :
    opening c cs.head? ≠ .mark ∧ scan c cs = number minus (whole ++ more) := by
  obtain ⟨d, ds, rfl, hd⟩ := head_of_isDigits hwhole
  rcases List.mem_pair.mp hminus with rfl | rfl
  · obtain ⟨rfl, rfl⟩ := List.cons.inj h
    have hopening : opening d (ds ++ more).head? = .number := opening_eq_iff.mpr hd
    exact ⟨ne_of_eq_of_ne hopening (by decide), scan_of_isDigit hd⟩
  · obtain ⟨rfl, rfl⟩ := List.cons.inj h
    have hopening : opening '-' (d :: ds ++ more).head? = .negative :=
      opening_eq_iff.mpr ⟨rfl, hd⟩
    exact ⟨ne_of_eq_of_ne hopening (by decide), scan_minus hd⟩

theorem opening_of_bare (h : IsBare us) (hus : us ++ rest = c :: cs) :
    opening c cs.head? = .name := by
  cases h with
  | mk hc _ =>
    obtain ⟨rfl, rfl⟩ := List.cons.inj hus
    exact opening_eq_iff.mpr hc

/-- Where a mark or nothing begins, no other lexeme does. -/
theorem spelled_of_shape (h : Shape us token?) (hus : us ++ rest = c :: cs)
    (hmark : opening c cs.head? = .mark) :
    ∃ (kind : TokenKind) (text : String), us = text.toList ∧ text ∈ kind.spellings := by
  have hnot {o : Opening} (htells : o.Tells c cs.head?) (ho : o ≠ .mark) : False :=
    ho ((opening_eq_iff.mpr htells).symm.trans hmark)
  cases h with
  | mark h => exact ⟨_, _, rfl, h⟩
  | trueLiteral h _ | falseLiteral h _ | name h _ _ =>
    rw [opening_of_bare h hus] at hmark
    cases hmark
  | number h =>
    cases h with
    | mk hminus hwhole _ _ =>
      rw [List.append_assoc, List.append_assoc] at hus
      exact absurd hmark (opening_of_decimal hminus hwhole hus).1
  | brokenNumber h =>
    cases h with
    | mk hminus hwhole _ _ _ =>
      rw [List.append_assoc, List.append_assoc] at hus
      exact absurd hmark (opening_of_decimal hminus hwhole hus).1
  | blank h hne =>
    obtain ⟨rfl, rfl⟩ := List.cons.inj hus
    exact (hnot (o := .blank) ⟨h, hne⟩ (by decide)).elim
  | lineBreak =>
    obtain ⟨rfl, rfl⟩ := List.cons.inj hus
    exact (hnot (o := .lineBreak) rfl (by decide)).elim
  | lineComment _ =>
    obtain ⟨rfl, rfl⟩ := List.cons.inj hus
    exact (hnot (o := .lineComment) ⟨rfl, rfl⟩ (by decide)).elim
  | blockComment _ | openComment _ =>
    obtain ⟨rfl, rfl⟩ := List.cons.inj hus
    exact (hnot (o := .blockComment) ⟨rfl, rfl⟩ (by decide)).elim
  | quotedName _ | openName _ =>
    obtain ⟨rfl, rfl⟩ := List.cons.inj hus
    exact (hnot (o := .quotedName) rfl (by decide)).elim
  | string _ | openString _ =>
    obtain ⟨rfl, rfl⟩ := List.cons.inj hus
    exact (hnot (o := .string) rfl (by decide)).elim

/-- The lexeme of one character where none begins. -/
def unexpected (c : Char) : Lexeme := invalid [c] s!"unexpected character '{c}'"

/-- Whatever is scanned has one of the shapes, or it is a character that begins none. -/
theorem shape_scan_or (c : Char) (cs : List Char) :
    Shape (scan c cs).source (scan c cs).token? ∨
      scan c cs = unexpected c ∧ ∀ us token?, Shape us token? → ¬ us <+: c :: cs := by
  have htells := tells_opening c cs.head?
  rw [scan_eq_lexeme]
  cases hopening : opening c cs.head? with
  | lineBreak =>
    rw [hopening] at htells
    obtain rfl : c = '\n' := htells
    exact .inl .lineBreak
  | blank =>
    rw [hopening] at htells
    exact .inl (.blank htells.1 htells.2)
  | lineComment =>
    rw [hopening] at htells
    obtain ⟨ds, rfl⟩ := List.head?_eq_some_iff.mp htells.2
    have hsource : lineComment ('-' :: ds) = '-' :: ds.takeWhile (· != '\n') := rfl
    refine .inl ?_
    show Shape ('-' :: lineComment ('-' :: ds)) none
    rw [hsource]
    exact .lineComment fun h => by simpa using List.mem_takeWhile_imp h
  | blockComment => exact .inl (shape_blockComment _)
  | string =>
    rw [hopening] at htells
    obtain rfl : c = '\'' := htells
    exact .inl (shape_quoted .string .openString cs)
  | quotedName =>
    rw [hopening] at htells
    obtain rfl : c = '"' := htells
    exact .inl (shape_quoted .quotedName .openName cs)
  | number =>
    rw [hopening] at htells
    exact .inl (shape_number (by simp) htells)
  | negative =>
    rw [hopening] at htells
    obtain ⟨rfl, hdigit⟩ := htells
    exact .inl (shape_number (by simp) hdigit)
  | name =>
    rw [hopening] at htells
    exact .inl (shape_name htells cs)
  | mark =>
    simp only [Opening.lexeme]
    rcases mark_cases c cs with ⟨d, ds, kind, rfl, hpair, hmark⟩ | ⟨hpair, hmark⟩
    · rw [hmark]
      have hshape := Shape.mark (spelled_of_pairKind? hpair)
      rw [String.toList_ofList] at hshape
      exact .inl hshape
    · rw [hmark, single]
      cases hsingle : singleKind? c with
      | some kind =>
        have hshape := Shape.mark (spelled_of_singleKind? hsingle)
        rw [String.toList_ofList] at hshape
        exact .inl hshape
      | none =>
        refine .inr ⟨rfl, ?_⟩
        rintro us token? hshape ⟨rest, hus⟩
        obtain ⟨kind, text, rfl, hspelled⟩ := spelled_of_shape hshape hus hopening
        obtain ⟨a, -, ⟨htext, ha⟩ | ⟨b, htext, hab⟩⟩ := spellings_cases hspelled
        · rw [htext] at hus
          obtain ⟨rfl, -⟩ := List.cons.inj hus
          rw [hsingle] at ha
          cases ha
        · rw [htext] at hus
          obtain ⟨rfl, rfl⟩ := List.cons.inj hus
          rw [hpair b rfl] at hab
          cases hab

end MiniSql.Lexeme
