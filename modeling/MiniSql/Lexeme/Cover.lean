import MiniSql.Lexeme

/-!
# Lexemes cover the text

Cutting a text into lexemes loses nothing and repeats nothing: the lexemes concatenate to the text
(`flatten_cut`), and none of them is empty (`source_ne_nil_of_mem_cut`).

The key fact is `scan_prefix`: the lexeme at the start of a text is a prefix of it. It is shown
class by class; for quoted lexemes it is the law of `Text.body?`.
-/

namespace MiniSql.Lexeme

theorem commentTail?_prefix {depth : Nat} {cs tail : List Char}
    (h : commentTail? depth cs = some tail) : tail <+: cs := by
  fun_induction commentTail? depth cs generalizing tail with
  | case1 => simp_all
  | case2 => simp at h
  | case3 depth cs ih =>
    obtain ⟨u, hu, rfl⟩ := Option.map_eq_some_iff.1 h
    simpa using ih hu
  | case4 depth cs ih =>
    obtain ⟨u, hu, rfl⟩ := Option.map_eq_some_iff.1 h
    simpa using ih hu
  | case5 depth c cs _ _ ih =>
    obtain ⟨u, hu, rfl⟩ := Option.map_eq_some_iff.1 h
    simpa using ih hu

theorem fraction_prefix (cs : List Char) : fraction cs <+: cs := by
  unfold fraction
  split
  · split
    · simpa using List.takeWhile_prefix _
    · exact List.nil_prefix
  · exact List.nil_prefix

theorem sign_cons (c : Char) (cs : List Char) :
    sign (c :: cs) = if c = '+' ∨ c = '-' then [c] else [] := by
  unfold sign
  split <;> simp_all

theorem exponentMark_cons (c : Char) (cs : List Char) :
    exponentMark (c :: cs) = if c = 'e' ∨ c = 'E' then c :: sign cs else [] := by
  unfold exponentMark
  split <;> simp_all

theorem exponentMark_prefix (cs : List Char) : exponentMark cs <+: cs := by
  unfold exponentMark sign
  split
  · split <;> simp
  · split <;> simp
  · simp

/-- A number is read from the front of the text. -/
theorem number_prefix (minus cs : List Char) : (number minus cs).source <+: minus ++ cs := by
  obtain ⟨r, hr⟩ := fraction_prefix (cs.dropWhile Char.isDigit)
  have hcs : cs.takeWhile Char.isDigit ++ fraction (cs.dropWhile Char.isDigit) ++ r = cs := by
    rw [List.append_assoc, hr, List.takeWhile_append_dropWhile]
  have hdrop : cs.drop ((cs.takeWhile Char.isDigit).length
      + (fraction (cs.dropWhile Char.isDigit)).length) = r := by
    have : (cs.takeWhile Char.isDigit ++ fraction (cs.dropWhile Char.isDigit) ++ r).drop
        ((cs.takeWhile Char.isDigit).length
          + (fraction (cs.dropWhile Char.isDigit)).length) = r :=
      List.drop_left' (by simp)
    rwa [hcs] at this
  obtain ⟨s, hs⟩ := exponentMark_prefix r
  have hmark : r.drop (exponentMark r).length = s := by
    have : (exponentMark r ++ s).drop (exponentMark r).length = s := List.drop_left' rfl
    rwa [hs] at this
  have hall : cs.takeWhile Char.isDigit ++ fraction (cs.dropWhile Char.isDigit)
      ++ (exponentMark r ++ (s.takeWhile Char.isDigit ++ s.dropWhile Char.isDigit)) = cs := by
    rw [List.takeWhile_append_dropWhile, hs, hcs]
  simp only [number, hdrop, hmark]
  split
  · exact ⟨r, by simpa [verbatim, token] using hcs⟩
  split
  · exact ⟨s, by simpa [invalid, token, hs] using hcs⟩
  · exact ⟨s.dropWhile Char.isDigit, by simpa [verbatim, token] using hall⟩

/-- A lexeme is read from the front of the text. -/
theorem scan_prefix (c : Char) (cs : List Char) : (scan c cs).source <+: c :: cs := by
  unfold scan
  split
  · simp [verbatim, token]
  split
  · simp [gap]
  split
  · rename_i h
    simp only [gap, lineComment]
    obtain ⟨rfl, -⟩ := h
    simpa using List.takeWhile_prefix _
  split
  · rename_i h
    obtain ⟨rfl, h⟩ := h
    obtain ⟨cs, rfl⟩ : ∃ ds, cs = '*' :: ds := by cases cs <;> simp_all
    unfold blockComment
    split
    · rename_i tail ht
      simpa [gap] using commentTail?_prefix ht
    · simp [invalid, token]
  split
  · unfold quoted
    split
    · rename_i body rest hb
      have := (Text.eq_double_of_body? hb).1
      rw [this]
      simp [token, Text.quote]
    · simp [invalid, token]
  split
  · unfold quoted
    split
    · rename_i body rest hb
      have := (Text.eq_double_of_body? hb).1
      rw [this]
      simp [token, Text.quote]
    · simp [invalid, token]
  split
  · simpa using number_prefix [] (c :: cs)
  split
  · simpa using number_prefix [c] cs
  split
  · simpa [name, token] using List.takeWhile_prefix _
  · unfold mark single
    split
    · split <;> simp [verbatim, invalid, token]
    · split
      · simp [verbatim, token]
      · split <;> simp [verbatim, invalid, token]

theorem number_source_ne_nil {minus cs : List Char}
    (h : minus ≠ [] ∨ cs.takeWhile Char.isDigit ≠ []) : (number minus cs).source ≠ [] := by
  simp only [number]
  split
  · rcases h with h | h <;> simp [verbatim, token, h]
  split
  · rcases h with h | h <;> simp [invalid, token, h]
  · rcases h with h | h <;> simp [verbatim, token, h]

/-- What is scanned is never empty. -/
theorem scan_source_ne_nil (c : Char) (cs : List Char) : (scan c cs).source ≠ [] := by
  unfold scan
  split
  · simp [verbatim, token]
  split
  · simp [gap]
  split
  · simp [gap]
  split
  · unfold blockComment
    split <;> simp [gap, invalid, token]
  split
  · unfold quoted
    split <;> simp [invalid, token, Text.quote]
  split
  · unfold quoted
    split <;> simp [invalid, token, Text.quote]
  split
  · rename_i h
    exact number_source_ne_nil (.inr (by simp [h]))
  split
  · exact number_source_ne_nil (.inl (by simp))
  split
  · rename_i h
    simp [name, token, Text.continuesName_of_startsName h]
  · unfold mark single
    split
    · split <;> simp [verbatim, invalid, token]
    · split
      · simp [verbatim, token]
      · split <;> simp [verbatim, invalid, token]

/-- A lexeme and what is cut behind it make up the text. -/
theorem scan_append_drop (c : Char) (cs : List Char) :
    (scan c cs).source ++ cs.drop ((scan c cs).source.length - 1) = c :: cs := by
  obtain ⟨r, hr⟩ := scan_prefix c cs
  have hlen : (scan c cs).source.length - 1 + 1 = (scan c cs).source.length :=
    Nat.sub_add_cancel (List.length_pos_iff.2 (scan_source_ne_nil c cs))
  have : (c :: cs).drop (scan c cs).source.length = r := by
    rw [← hr, List.drop_left']
    rfl
  rw [← hlen, List.drop_succ_cons] at this
  rw [this, hr]

/-- The lexemes of a text concatenate to it. -/
theorem flatten_cut (cs : List Char) : (cut cs).flatMap source = cs := by
  induction h : cs.length using Nat.strongRecOn generalizing cs with
  | _ n ih =>
    cases cs with
    | nil => simp [cut_nil]
    | cons c cs =>
      rw [cut_cons, List.flatMap_cons, ih _ ?_ _ rfl, scan_append_drop]
      simp only [List.length_drop, List.length_cons] at h ⊢
      omega

/-- No lexeme is empty. -/
theorem source_ne_nil_of_mem_cut {cs : List Char} {lexeme : Lexeme} (h : lexeme ∈ cut cs) :
    lexeme.source ≠ [] := by
  fun_induction cut cs with
  | case1 => simp at h
  | case2 c cs _ ih =>
    rcases List.mem_cons.1 h with rfl | h
    · exact scan_source_ne_nil c cs
    · exact ih h

end MiniSql.Lexeme
