import MiniSql.Proofs.Opening

/-!
# Lexemes in front of a line break

A line break goes on with no lexeme but one that is never closed (`scan_append_lineBreak`). So a
text without such lexemes is cut in front of a line break as it is cut alone
(`cut_append_lineBreak`).
-/

namespace MiniSql.Lexeme

variable {cs q : List Char} {c : Char}

theorem takeWhile_append_lineBreak {p : Char → Bool} (hp : p '\n' = false) (cs q : List Char) :
    (cs ++ '\n' :: q).takeWhile p = cs.takeWhile p := by
  induction cs with
  | nil => simp [hp]
  | cons c cs ih => simp only [List.cons_append, List.takeWhile_cons, ih]

theorem dropWhile_append_lineBreak {p : Char → Bool} (hp : p '\n' = false) (cs q : List Char) :
    (cs ++ '\n' :: q).dropWhile p = cs.dropWhile p ++ '\n' :: q := by
  induction cs with
  | nil => simp [hp]
  | cons c cs ih =>
    simp only [List.cons_append, List.dropWhile_cons, ih]
    split <;> rfl

theorem fraction_append_lineBreak (cs q : List Char) :
    fraction (cs ++ '\n' :: q) = fraction cs := by
  match cs with
  | [] => simp [fraction]
  | [c] =>
    by_cases hc : c = '.'
    · subst hc
      rfl
    · simp [fraction, hc]
  | c :: d :: cs =>
    by_cases hc : c = '.'
    · subst hc
      simp only [List.cons_append, fraction]
      rw [← List.cons_append, takeWhile_append_lineBreak (by decide)]
    · simp [fraction, hc]

theorem exponentMark_append_lineBreak (cs q : List Char) :
    exponentMark (cs ++ '\n' :: q) = exponentMark cs := by
  have hsign : ∀ cs, sign (cs ++ '\n' :: q) = sign cs := by
    intro cs
    cases cs with
    | nil => rfl
    | cons c cs => rw [List.cons_append, sign_cons, sign_cons]
  cases cs with
  | nil => rfl
  | cons c cs => rw [List.cons_append, exponentMark_cons, exponentMark_cons, hsign]

/-- No number goes on behind a line break. -/
theorem number_append_lineBreak (minus cs q : List Char) :
    number minus (cs ++ '\n' :: q) = number minus cs := by
  have hparts : (cs.takeWhile Char.isDigit).length +
      (fraction (cs.dropWhile Char.isDigit)).length ≤ cs.length := by
    have hlen := List.IsPrefix.length_le <| fraction_prefix (cs.dropWhile Char.isDigit)
    have hcs := congrArg List.length (List.takeWhile_append_dropWhile (p := Char.isDigit) (l := cs))
    simp only [List.length_append] at hcs
    omega
  have hmark (ds : List Char) : (exponentMark ds).length ≤ ds.length :=
    List.IsPrefix.length_le <| exponentMark_prefix ds
  simp only [number, takeWhile_append_lineBreak (show Char.isDigit '\n' = false by decide),
    dropWhile_append_lineBreak (show Char.isDigit '\n' = false by decide),
    fraction_append_lineBreak, List.drop_append_of_le_length hparts,
    exponentMark_append_lineBreak, List.drop_append_of_le_length (hmark _)]

/-- The lexeme is a run of characters that is none of the language. -/
def IsInvalid (l : Lexeme) : Prop := ∃ text, l.token? = some (.invalid, text)

theorem opening_append_lineBreak (c : Char) (cs q : List Char) :
    opening c (cs ++ '\n' :: q).head? = opening c cs.head? := by
  cases cs with
  | nil => simp [opening]
  | cons d cs => rfl

/-- A quoted text that is closed does not look behind a line break. -/
theorem quoted_append_lineBreak {kind : TokenKind} {mark : Char} {missing : String}
    (hmark : mark ≠ '\n') (h : ¬ (quoted kind mark missing cs).IsInvalid) (q : List Char) :
    quoted kind mark missing (cs ++ '\n' :: q) = quoted kind mark missing cs := by
  unfold quoted at h ⊢
  cases hbody : Text.body? mark cs with
  | none =>
    rw [hbody] at h
    exact absurd ⟨_, rfl⟩ h
  | some found =>
    obtain ⟨body, rest⟩ := found
    obtain ⟨rfl, hrest⟩ := Text.eq_double_of_body? hbody
    -- the closing mark is not doubled by a line break either
    have hrest' : (rest ++ '\n' :: q).head? ≠ some mark := by
      cases rest with
      | nil => simpa using hmark.symm
      | cons d rest => exact hrest
    rw [List.append_assoc, List.cons_append, Text.body?_double mark body hrest']

/-- A comment that is closed does not look behind a line break. -/
theorem blockComment_append_lineBreak (h : ¬ (blockComment cs).IsInvalid) (q : List Char) :
    blockComment (cs ++ '\n' :: q) = blockComment cs := by
  unfold blockComment at h ⊢
  cases htail : commentTail? 1 cs with
  | none =>
    rw [htail] at h
    exact absurd ⟨_, rfl⟩ h
  | some tail =>
    obtain ⟨rest, rfl, hcloses⟩ := commentTail?_eq_some_iff.mp htail
    rw [List.append_assoc, commentTail?_append hcloses]

/-- A line break goes on with no lexeme but one that is never closed. -/
theorem scan_append_lineBreak (h : ¬ (scan c cs).IsInvalid) (q : List Char) :
    scan c (cs ++ '\n' :: q) = scan c cs := by
  rw [scan_eq_lexeme] at h
  rw [scan_eq_lexeme, scan_eq_lexeme, opening_append_lineBreak]
  have htells := tells_opening c cs.head?
  cases hopening : opening c cs.head? with
  | lineBreak => rfl
  | blank => rfl
  | lineComment =>
    show gap _ = gap _
    rw [lineComment, takeWhile_append_lineBreak (by decide), lineComment]
  | blockComment =>
    rw [hopening] at h htells
    obtain ⟨ds, rfl⟩ := List.head?_eq_some_iff.mp htells.2
    exact blockComment_append_lineBreak h q
  | string =>
    rw [hopening] at h htells
    exact quoted_append_lineBreak (by rw [show c = '\'' from htells]; decide) h q
  | quotedName =>
    rw [hopening] at h htells
    exact quoted_append_lineBreak (by rw [show c = '"' from htells]; decide) h q
  | number => exact number_append_lineBreak [] (c :: cs) q
  | negative => exact number_append_lineBreak [c] cs q
  | name =>
    show Lexeme.name (c :: cs ++ '\n' :: q) = Lexeme.name (c :: cs)
    rw [name, takeWhile_append_lineBreak (by decide), name]
  | mark =>
    cases cs with
    | nil =>
      show Lexeme.mark c ('\n' :: q) = Lexeme.mark c []
      simp [Lexeme.mark, pairKind?]
    | cons d cs => rfl

/-- A text whose lexemes are whole is cut before a line break as if it ended there. -/
theorem cut_append_lineBreak (h : ∀ l ∈ cut cs, ¬ l.IsInvalid) (q : List Char) :
    cut (cs ++ '\n' :: q) = cut cs ++ verbatim .lineBreak ['\n'] :: cut q := by
  -- by induction on the first text, one lexeme after another
  induction hn : cs.length using Nat.strongRecOn generalizing cs with
  | _ n ih =>
    cases cs with
    | nil =>
      rw [List.nil_append, cut_nil, cut_cons]
      rfl
    | cons c cs =>
      rw [cut_cons] at h ⊢
      obtain ⟨hfirst, hlater⟩ := List.forall_mem_cons.mp h
      have hlen : (scan c cs).source.length - 1 ≤ cs.length := by
        have := List.IsPrefix.length_le <| scan_prefix c cs
        simp only [List.length_cons] at this
        omega
      rw [List.cons_append, cut_cons, scan_append_lineBreak hfirst,
        List.drop_append_of_le_length hlen, List.cons_append,
        ih _ (by simp at hn ⊢; omega) hlater rfl]

end MiniSql.Lexeme
