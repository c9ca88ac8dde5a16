import MiniSql.Lexeme.Cover
import MiniSql.Proofs.Layout

/-!
# Scanning trivia

What `Lexeme.cut` makes of the parts of a text. `meaning` keeps the tokens that count, and trivia
add nothing to it (`meaning_trivia`). `EndsWord` says of a text that no word goes on with its first
character; trivia, the end of the text and some marks do end a word.
-/

namespace MiniSql.Lexeme

variable {cs us rest : List Char} {c : Char}

/-- The kinds and texts of the tokens that count. -/
def meaning (cs : List Char) : List (TokenKind × String) :=
  ((cut cs).filterMap token?).filter (·.1 ≠ .lineBreak)

theorem meaning_nil : meaning [] = [] := by rw [meaning, cut_nil]; rfl

/-- A lexeme with a known source is cut off in front of what follows it. -/
theorem cut_of_scan {lexeme : Lexeme} (h : scan c (cs ++ rest) = lexeme)
    (hsource : lexeme.source = c :: cs) : cut (c :: cs ++ rest) = lexeme :: cut rest := by
  rw [List.cons_append, cut_cons, h, hsource, List.length_cons, Nat.add_sub_cancel,
    List.drop_left]

/-- A gap in front does not change the meaning of a text. -/
theorem meaning_of_scan_gap (h : scan c (cs ++ rest) = gap (c :: cs)) :
    meaning (c :: cs ++ rest) = meaning rest := by
  rw [meaning, cut_of_scan h rfl, List.filterMap_cons]
  rfl

/-- A token in front is the first one in the meaning of a text. -/
theorem meaning_of_scan_token {kind : TokenKind} {text : String}
    (h : scan c (cs ++ rest) = token kind (c :: cs) text) (hkind : kind ≠ .lineBreak) :
    meaning (c :: cs ++ rest) = (kind, text) :: meaning rest := by
  rw [meaning, cut_of_scan h rfl, List.filterMap_cons]
  exact List.filter_cons_of_pos (by simpa using hkind)

/-! ## What ends a word -/

/-- The text is empty, or starts like trivia do or with a mark that stands behind a value. -/
def EndsWord (cs : List Char) : Prop :=
  ∀ c ∈ cs.head?, Text.isBlank c = true ∨ c ∈ ['-', '/', ',', ')', ';']

theorem endsWord_nil : EndsWord [] := fun _ h => nomatch h

/-- Trivia end a word. -/
theorem endsWord_append (hus : Trivia us) (hne : us ≠ []) : EndsWord (us ++ rest) := by
  cases hus with
  | nil => exact absurd rfl hne
  | cons h hs =>
    intro c hc
    cases h with
    | blank hblank =>
      obtain rfl := Option.some_inj.mp hc
      exact .inl hblank
    | lineComment _ =>
      obtain rfl := Option.some_inj.mp hc
      exact .inr (by decide)
    | blockComment _ =>
      obtain rfl := Option.some_inj.mp hc
      exact .inr (by decide)

theorem toNat_of_isBlank (h : Text.isBlank c = true) :
    9 ≤ c.toNat ∧ c.toNat ≤ 13 ∨ c.toNat = 32 ∨ 133 ≤ c.toNat := by
  simp only [Text.isBlank, Text.blankRanges, List.any_cons, List.any_nil, Bool.or_eq_true,
    Bool.and_eq_true, decide_eq_true_eq, Bool.or_false] at h
  omega

theorem toNat_of_endsWord (h : EndsWord (c :: cs)) :
    c.toNat ≤ 32 ∨ c.toNat ∈ [41, 44, 45, 47, 59] ∨ 133 ≤ c.toNat := by
  rcases h c rfl with hblank | hmark
  · have := toNat_of_isBlank hblank
    omega
  · -- as a test of the list, so that only its members are tried
    have hmarks : ['-', '/', ',', ')', ';'].all
        (fun c => c.toNat ∈ [41, 44, 45, 47, 59]) = true := by decide
    exact .inr (.inl (of_decide_eq_true (List.all_eq_true.mp hmarks c hmark)))

/-- No word goes on with one of these characters. -/
theorem ne_of_endsWord (h : EndsWord (c :: cs)) {d : Char}
    (hd : 33 ≤ d.toNat ∧ d.toNat ≤ 132 ∧ d.toNat ∉ [41, 44, 45, 47, 59]) : c ≠ d := by
  rintro rfl
  rcases toNat_of_endsWord h with hlow | hmark | hhigh
  · omega
  · exact hd.2.2 hmark
  · omega

theorem toNat_of_isDigit (h : c.isDigit = true) : 48 ≤ c.toNat ∧ c.toNat ≤ 57 := by
  simp only [Char.isDigit, ge_iff_le, Bool.and_eq_true, decide_eq_true_eq,
    UInt32.le_iff_toNat_le] at h
  exact h

theorem toNat_of_startsName (h : Text.startsName c = true) : 65 ≤ c.toNat ∧ c.toNat ≤ 122 := by
  unfold Text.startsName Char.isAlpha Char.isUpper Char.isLower at h
  simp only [Bool.or_eq_true, Bool.and_eq_true, decide_eq_true_eq, beq_iff_eq,
    UInt32.le_iff_toNat_le, ge_iff_le] at h
  have hc : c.toNat = c.val.toNat := rfl
  have hA : 'A'.val.toNat = 65 := rfl
  have hZ : 'Z'.val.toNat = 90 := rfl
  have ha : 'a'.val.toNat = 97 := rfl
  have hz : 'z'.val.toNat = 122 := rfl
  rcases h with h | rfl
  · omega
  · decide

theorem toNat_of_continuesName (h : Text.continuesName c = true) :
    48 ≤ c.toNat ∧ c.toNat ≤ 57 ∨ 65 ≤ c.toNat ∧ c.toNat ≤ 122 := by
  rw [Text.continuesName, Char.isAlphanum, Bool.or_right_comm, Bool.or_eq_true] at h
  rcases h with h | h
  · exact .inr (toNat_of_startsName h)
  · exact .inl (toNat_of_isDigit h)

theorem isBlank_eq_false (h : 33 ≤ c.toNat ∧ c.toNat ≤ 132) : Text.isBlank c = false := by
  rw [Bool.eq_false_iff]
  intro hblank
  have := toNat_of_isBlank hblank
  omega

theorem ne_of_toNat_ne {c d : Char} (h : c.toNat ≠ d.toNat) : c ≠ d := fun heq => h (heq ▸ rfl)

/-! ## Trivia -/

theorem meaning_blank (h : Text.isBlank c = true) : meaning (c :: rest) = meaning rest := by
  by_cases hc : c = '\n'
  · have hscan : scan c rest = token .lineBreak [c] (String.ofList [c]) := by
      rw [scan, if_pos hc]
      rfl
    rw [meaning, cut_cons, hscan, List.filterMap_cons]
    rfl
  · have hscan : scan c ([] ++ rest) = gap [c] := by rw [scan, if_neg hc, if_pos h]
    exact meaning_of_scan_gap hscan

/-- A line comment ends at the end of its line. -/
theorem lineComment_append (h : '\n' ∉ cs) : lineComment (cs ++ '\n' :: rest) = cs := by
  rw [lineComment, List.takeWhile_append_of_pos, List.takeWhile_cons_of_neg (by decide),
    List.append_nil]
  intro c hc
  exact bne_iff_ne.mpr fun heq => h (heq ▸ hc)

theorem meaning_lineComment (h : '\n' ∉ cs) :
    meaning ('-' :: '-' :: cs ++ '\n' :: rest) = meaning rest := by
  have hscan : scan '-' ('-' :: cs ++ '\n' :: rest) = gap ('-' :: '-' :: cs) := by
    have hbody : lineComment ('-' :: cs ++ '\n' :: rest) = '-' :: cs :=
      lineComment_append (List.not_mem_cons_of_ne_of_not_mem (by decide) h)
    rw [scan, if_neg (by decide), if_neg (by decide), if_pos ⟨rfl, rfl⟩, hbody]
  rw [meaning_of_scan_gap hscan, meaning_blank (by decide)]

theorem commentTail?_other {depth : Nat} (hopening : ¬ ['/', '*'] <+: c :: cs)
    (hclosing : ¬ ['*', '/'] <+: c :: cs) :
    commentTail? (depth + 1) (c :: cs) = (commentTail? (depth + 1) cs).map (c :: ·) := by
  rw [commentTail?]
  · rintro ds rfl rfl
    exact hopening ⟨ds, rfl⟩
  · rintro ds rfl rfl
    exact hclosing ⟨ds, rfl⟩

/-- A comment is read up to where it closes, whatever stands behind it. -/
theorem commentTail?_append {depth : Nat} (h : ClosesComments depth cs) :
    commentTail? depth (cs ++ rest) = some cs := by
  -- by induction on the text of the comment. It is not empty where a comment is still open, so what
  -- follows it has no part in a mark
  induction h with
  | done => cases rest <;> rfl
  | opening _ ih => simp [commentTail?, ih]
  | closing _ ih => simp [commentTail?, ih]
  | @other depth c cs hopening hclosing h ih =>
    obtain ⟨d, cs, rfl⟩ : ∃ d ds, cs = d :: ds := by
      cases h <;> exact ⟨_, _, rfl⟩
    have hlonger {a b : Char} (h : ¬ [a, b] <+: c :: d :: cs) :
        ¬ [a, b] <+: c :: (d :: cs ++ rest) := by
      simpa [List.cons_prefix_cons] using h
    have hstep : commentTail? (depth + 1) (c :: (d :: cs ++ rest)) =
        (commentTail? (depth + 1) (d :: cs ++ rest)).map (c :: ·) :=
      commentTail?_other (hlonger hopening) (hlonger hclosing)
    rw [List.cons_append, hstep, ih, Option.map_some]

/-- The scanner finds the end of a comment exactly where the nesting closes. -/
theorem commentTail?_eq_some_iff {depth : Nat} {cs tail : List Char} :
    commentTail? depth cs = some tail ↔ ∃ rest, cs = tail ++ rest ∧ ClosesComments depth tail := by
  refine ⟨fun h => ?_, fun ⟨rest, hcs, htail⟩ => hcs ▸ commentTail?_append htail⟩
  -- what is no mark with all characters behind it is none with fewer
  have hfewer {a b c : Char} {cs tail rest : List Char} (hcs : cs = tail ++ rest)
      (hnot : ∀ ds, c = a → cs = b :: ds → False) : ¬ [a, b] <+: c :: tail := by
    rintro ⟨ds, h⟩
    obtain ⟨rfl, rfl⟩ := List.cons.inj h
    exact hnot (ds ++ rest) rfl hcs
  fun_induction commentTail? depth cs generalizing tail with
  | case1 cs =>
    obtain rfl := Option.some.inj h
    exact ⟨cs, rfl, .done⟩
  | case2 => cases h
  | case3 depth cs ih =>
    obtain ⟨tail, htail, rfl⟩ := Option.map_eq_some_iff.mp h
    obtain ⟨rest, rfl, hcloses⟩ := ih htail
    exact ⟨rest, rfl, .opening hcloses⟩
  | case4 depth cs ih =>
    obtain ⟨tail, htail, rfl⟩ := Option.map_eq_some_iff.mp h
    obtain ⟨rest, rfl, hcloses⟩ := ih htail
    exact ⟨rest, rfl, .closing hcloses⟩
  | case5 depth c cs hopening hclosing ih =>
    obtain ⟨tail, htail, rfl⟩ := Option.map_eq_some_iff.mp h
    obtain ⟨rest, hcs, hcloses⟩ := ih htail
    exact ⟨rest, congrArg _ hcs, .other (hfewer hcs hopening) (hfewer hcs hclosing) hcloses⟩

theorem meaning_blockComment (h : ClosesComments 1 cs) :
    meaning ('/' :: '*' :: cs ++ rest) = meaning rest := by
  have hscan : scan '/' ('*' :: cs ++ rest) = gap ('/' :: '*' :: cs) := by
    have hbody : blockComment (cs ++ rest) = gap ('/' :: '*' :: cs) := by
      rw [blockComment, commentTail?_append h]
    rw [scan, if_neg (by decide), if_neg (by decide), if_neg (by simp), if_pos ⟨rfl, rfl⟩]
    exact hbody
  exact meaning_of_scan_gap hscan

/-- Trivia have no meaning. -/
theorem meaning_trivia (h : Trivia us) : meaning (us ++ rest) = meaning rest := by
  induction h with
  | nil => rfl
  | cons h _ ih =>
    rw [List.append_assoc]
    cases h with
    | blank hblank => rw [List.cons_append, meaning_blank hblank, List.nil_append, ih]
    | lineComment hcs => rw [List.append_assoc, List.singleton_append, meaning_lineComment hcs, ih]
    | blockComment hcs => rw [meaning_blockComment hcs, ih]

end MiniSql.Lexeme
