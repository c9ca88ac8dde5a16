import MiniSql.Proofs.Scanning

/-!
# What opens a lexeme

The first character of a text and the one behind it tell how the lexeme there goes on
(`scan_eq_lexeme`). What is so told are the openings, and any two characters make exactly one
(`opening_eq_iff`).
-/

namespace MiniSql.Lexeme

/-- The ways in which a lexeme can begin. -/
inductive Opening
  | lineBreak | blank | lineComment | blockComment | string | quotedName | number | negative
  | name | mark
  deriving DecidableEq

/-- The opening that a character makes with the one behind it. -/
def opening (c : Char) (next? : Option Char) : Opening :=
  if c = '\n' then .lineBreak
  else if Text.isBlank c then .blank
  else if c = '-' ∧ next? = some '-' then .lineComment
  else if c = '/' ∧ next? = some '*' then .blockComment
  else if c = '\'' then .string
  else if c = '"' then .quotedName
  else if c.isDigit then .number
  else if c = '-' ∧ next?.any Char.isDigit then .negative
  else if Text.startsName c then .name
  else .mark

namespace Opening

/-- The lexeme that is so opened at the start of a text. -/
def lexeme : Opening → Char → List Char → Lexeme
  | lineBreak, c, _ => verbatim .lineBreak [c]
  | blank, c, _ => gap [c]
  | lineComment, _, cs => gap ('-' :: Lexeme.lineComment cs)
  | blockComment, _, cs => Lexeme.blockComment cs.tail
  | string, c, cs => quoted .string c "unterminated string literal" cs
  | quotedName, c, cs => quoted .identifier c "unterminated quoted identifier" cs
  | number, c, cs => Lexeme.number [] (c :: cs)
  | negative, c, cs => Lexeme.number [c] cs
  | name, c, cs => Lexeme.name (c :: cs)
  | mark, c, cs => Lexeme.mark c cs

/-- A character with the one behind it is told from all others by this. -/
def Tells : Opening → Char → Option Char → Prop
  | lineBreak, c, _ => c = '\n'
  | blank, c, _ => Text.isBlank c = true ∧ c ≠ '\n'
  | lineComment, c, next? => c = '-' ∧ next? = some '-'
  | blockComment, c, next? => c = '/' ∧ next? = some '*'
  | string, c, _ => c = '\''
  | quotedName, c, _ => c = '"'
  | number, c, _ => c.isDigit = true
  | negative, c, next? => c = '-' ∧ next?.any Char.isDigit = true
  | name, c, _ => Text.startsName c = true
  | mark, c, next? => Text.isBlank c = false ∧ c ≠ '\'' ∧ c ≠ '"' ∧ c.isDigit = false ∧
      Text.startsName c = false ∧ ¬ (c = '/' ∧ next? = some '*') ∧
      ¬ (c = '-' ∧ (next? = some '-' ∨ next?.any Char.isDigit = true))

end Opening

variable {c : Char} {cs : List Char} {next? : Option Char} {o : Opening}

/-- What kind of lexeme begins is settled by its first two characters. -/
theorem scan_eq_lexeme (c : Char) (cs : List Char) :
    scan c cs = (opening c cs.head?).lexeme c cs := by
  unfold scan opening
  repeat' split
  all_goals rfl

theorem tells_opening (c : Char) (next? : Option Char) : (opening c next?).Tells c next? := by
  unfold opening
  repeat' split
  all_goals simp_all [Opening.Tells]

/-- Digits and the characters of names have greater codes than the characters of the other
openings. -/
theorem opening_of_plain (hc : 48 ≤ c.toNat ∧ c.toNat ≤ 132) :
    opening c next? =
      if c.isDigit then .number else if Text.startsName c then .name else .mark := by
  have hne {d : Char} (hd : d.toNat < 48) : c ≠ d := ne_of_toNat_ne (by omega)
  have hblank : Text.isBlank c = false := isBlank_eq_false (by omega)
  have hminus : c ≠ '-' := hne (by decide)
  simp [opening, hne (d := '\n') (by decide), hne (d := '/') (by decide),
    hne (d := '\'') (by decide), hne (d := '"') (by decide), hblank, hminus]

/-- No two openings are told by the same characters: digits, names and blanks are told apart by
their codes. -/
theorem opening_eq_iff : opening c next? = o ↔ o.Tells c next? := by
  refine ⟨fun h => h ▸ tells_opening c next?, fun h => ?_⟩
  cases o with
  | lineBreak => rw [show c = '\n' from h, opening, if_pos rfl]
  | blank => rw [opening, if_neg h.2, if_pos h.1]
  | lineComment => rw [h.1, h.2, opening, if_neg (by decide), if_neg (by decide), if_pos ⟨rfl, rfl⟩]
  | blockComment => rw [h.1, h.2]; rfl
  | string => rw [show c = '\'' from h]; rfl
  | quotedName => rw [show c = '"' from h]; rfl
  | number =>
    have hdigit : c.isDigit = true := h
    have hc := toNat_of_isDigit hdigit
    rw [opening_of_plain (by omega), if_pos hdigit]
  | negative =>
    obtain ⟨rfl, hdigit⟩ := h
    cases next? with
    | none => nomatch hdigit
    | some d =>
      have hd : d ≠ '-' := fun hd => absurd (hd ▸ hdigit) (by decide)
      rw [opening, if_neg (by decide), if_neg (by decide), if_neg (by simpa using hd),
        if_neg (by simp), if_neg (by decide), if_neg (by decide), if_neg (by decide),
        if_pos ⟨rfl, hdigit⟩]
  | name =>
    have hname : Text.startsName c = true := h
    have hc := toNat_of_startsName hname
    have hdigit : ¬ c.isDigit = true := fun hdigit => by
      have := toNat_of_isDigit hdigit
      omega
    rw [opening_of_plain (by omega), if_neg hdigit, if_pos hname]
  | mark =>
    obtain ⟨hblank, hstring, hquoted, hdigit, hname, hcomment, hminus⟩ := h
    have hbreak : c ≠ '\n' := fun hc => absurd (hc ▸ hblank) (by decide)
    have hline : ¬ (c = '-' ∧ next? = some '-') := fun h => hminus ⟨h.1, .inl h.2⟩
    have hnegative : ¬ (c = '-' ∧ next?.any Char.isDigit = true) := fun h => hminus ⟨h.1, .inr h.2⟩
    rw [opening, if_neg hbreak, if_neg (by simp [hblank]), if_neg hline, if_neg hcomment,
      if_neg hstring, if_neg hquoted, if_neg (by simp [hdigit]), if_neg hnegative,
      if_neg (by simp [hname])]

/-! ## No lexeme is the end -/

theorem nameKind_ne_finish (text : String) : nameKind text ≠ .finish := by
  rw [nameKind]
  split
  · decide
  · split <;> decide

theorem pairKind?_ne_finish (c d : Char) : pairKind? c d ≠ some .finish := by
  unfold pairKind?
  split <;> simp

theorem singleKind?_ne_finish (c : Char) : singleKind? c ≠ some .finish := by
  unfold singleKind?
  split <;> simp

/-- No lexeme of the text is an end mark. -/
theorem kind_ne_finish_of_scan {c : Char} {cs : List Char} {text : String} :
    (scan c cs).token? ≠ some (.finish, text) := by
  rw [scan_eq_lexeme]
  cases opening c cs.head? with
  | lineBreak | blank | lineComment => simp [Opening.lexeme, verbatim, token, gap]
  | blockComment =>
    simp only [Opening.lexeme, blockComment]
    split <;> simp [gap, invalid, token]
  | string | quotedName =>
    simp only [Opening.lexeme, quoted]
    split <;> simp [invalid, token]
  | number | negative =>
    simp only [Opening.lexeme, Lexeme.number]
    repeat' split
    all_goals simp [verbatim, invalid, token]
  | name => simp [Opening.lexeme, Lexeme.name, token, nameKind_ne_finish]
  | mark =>
    have hsingle : (single c).token? ≠ some (.finish, text) := by
      unfold single
      split
      · next kind hkind =>
        have hne : kind ≠ .finish := fun heq => singleKind?_ne_finish c (heq ▸ hkind)
        simp [verbatim, token, hne]
      · simp [invalid, token]
    cases cs with
    | nil => exact hsingle
    | cons d ds =>
      simp only [Opening.lexeme, Lexeme.mark]
      split
      · next kind hkind =>
        have hne : kind ≠ .finish := fun heq => pairKind?_ne_finish c d (heq ▸ hkind)
        simp [verbatim, token, hne]
      · exact hsingle

/-- Each lexeme of a text is what the scanner makes of some place in it. -/
theorem exists_scan_of_mem_cut {l : Lexeme} (h : l ∈ cut cs) : ∃ c ds, l = scan c ds := by
  fun_induction cut cs with
  | case1 => exact absurd h List.not_mem_nil
  | case2 c cs _ ih =>
    rcases List.mem_cons.mp h with rfl | h
    · exact ⟨c, cs, rfl⟩
    · exact ih h

end MiniSql.Lexeme
