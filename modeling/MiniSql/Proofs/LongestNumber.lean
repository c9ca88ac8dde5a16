import Mathlib.Data.List.TakeWhile
import MiniSql.Proofs.Lexical
import MiniSql.Proofs.Spelling

/-!
# The longest number

`Lexeme.number` is the only part of the lexer that reads on before it knows whether it keeps what it
has read: a point without digits behind it is no fraction, and an exponent without digits is an
error. `numberTail` is what it does behind the fraction. No number in front of a text, whole or
broken, is longer than the lexeme that is cut off there (`fits_plain`, `fits_exponent`,
`fits_broken`), and the lexeme is a number, whole or broken (`shape_number`).
-/

namespace MiniSql.Lexeme

/-- The characters begin a text no longer than the lexeme there, and if they are the lexeme they
have its token. -/
def Fits (us : List Char) (token? : Option (TokenKind × String)) (l : Lexeme) : Prop :=
  us.length ≤ l.source.length ∧ (us.length = l.source.length → token? = l.token?)

/-! ## Behind the fraction -/

/-- A number behind its fraction. -/
def numberTail (front tail : List Char) : Lexeme :=
  let mark := exponentMark tail
  let digits := (tail.drop mark.length).takeWhile Char.isDigit
  if mark = [] then verbatim .number front
  else if digits = [] then invalid (front ++ mark) "invalid number literal"
  else verbatim .number (front ++ mark ++ digits)

/-- A number is read in parts: whole digits, a fraction, and what is left. -/
theorem number_eq_tail {minus whole part tail : List Char}
    (hwhole : (whole ++ (part ++ tail)).takeWhile Char.isDigit = whole)
    (hpart : fraction (part ++ tail) = part) :
    number minus (whole ++ (part ++ tail)) = numberTail (minus ++ whole ++ part) tail := by
  have hbehind : (whole ++ (part ++ tail)).dropWhile Char.isDigit = part ++ tail := by
    have happend := List.takeWhile_append_dropWhile (p := Char.isDigit)
      (l := whole ++ (part ++ tail))
    rw [hwhole] at happend
    exact List.append_cancel_left happend
  have hdrop : (whole ++ (part ++ tail)).drop (whole.length + part.length) = tail := by
    rw [← List.append_assoc, ← List.length_append, List.drop_left]
  rw [number, hwhole, hbehind, hpart]
  simp only [hdrop]
  rfl

/-- Every text is cut into the parts of a number in front of it, as long as they can be. -/
theorem exists_number_tail (minus cs : List Char) :
    ∃ part tail, cs = cs.takeWhile Char.isDigit ++ (part ++ tail) ∧
      part = fraction (cs.dropWhile Char.isDigit) ∧
      number minus cs = numberTail (minus ++ cs.takeWhile Char.isDigit ++ part) tail := by
  obtain ⟨tail, htail⟩ := fraction_prefix (cs.dropWhile Char.isDigit)
  have hcs : cs = cs.takeWhile Char.isDigit ++
      (fraction (cs.dropWhile Char.isDigit) ++ tail) := by
    rw [htail, List.takeWhile_append_dropWhile]
  refine ⟨_, tail, hcs, rfl, ?_⟩
  have heq := @number_eq_tail minus (cs.takeWhile Char.isDigit)
    (fraction (cs.dropWhile Char.isDigit)) tail (by rw [← hcs]) (by rw [htail])
  rwa [← hcs] at heq

/-- A number without an exponent fits any longer one. -/
theorem fits_tail {us front : List Char} (h : us <+: front) (tail : List Char) :
    Fits us (some (.number, String.ofList us)) (numberTail front tail) := by
  obtain ⟨more, rfl⟩ := h
  unfold numberTail
  simp only
  split
  · refine ⟨by simp [verbatim, token], fun hlen => ?_⟩
    have hmore : more = [] := by simpa [verbatim, token] using hlen
    simp [verbatim, token, hmore]
  · next hmark =>
    have hpos := List.length_pos_iff.mpr hmark
    split
    · refine ⟨by simp [invalid, token], fun hlen => ?_⟩
      simp only [invalid, token, List.length_append] at hlen
      omega
    · refine ⟨by simp [verbatim, token], fun hlen => ?_⟩
      simp only [verbatim, token, List.length_append] at hlen
      omega

/-! ## Whole and broken numbers -/

section Numbers

variable {minus whole part sign : List Char} {mark : Char}

/-- Digits with a fraction are a number as far as they go. -/
theorem fits_plain (hwhole : IsDigits whole) (hpart : IsFraction part) (minus rest : List Char) :
    Fits (minus ++ whole ++ part) (some (.number, String.ofList (minus ++ whole ++ part)))
      (number minus (whole ++ (part ++ rest))) := by
  obtain ⟨part', tail, -, hpart', hnumber⟩ := exists_number_tail minus (whole ++ (part ++ rest))
  rw [hnumber]
  refine fits_tail ?_ tail
  rw [List.append_assoc, List.append_assoc, List.prefix_append_right_inj,
    List.takeWhile_append_of_pos hwhole.2, List.append_assoc, List.prefix_append_right_inj]
  cases hpart with
  | absent => exact List.nil_prefix
  | @present ds hds =>
    -- the point stops the digits, and the digits behind it are those of the fraction
    obtain ⟨d, ds, rfl, hd⟩ := head_of_isDigits hds
    have hdrop : (whole ++ ('.' :: d :: ds ++ rest)).dropWhile Char.isDigit =
        '.' :: d :: (ds ++ rest) := by
      rw [List.dropWhile_append_of_pos hwhole.2]
      rfl
    rw [hpart', hdrop, fraction, if_pos hd, ← List.cons_append,
      List.takeWhile_append_of_pos hds.2]
    exact ⟨_, rfl⟩

theorem exponentMark_of_mem (hmark : mark ∈ ['e', 'E']) (cs : List Char) :
    exponentMark (mark :: cs) = mark :: Lexeme.sign cs := by
  rw [exponentMark_cons, if_pos (List.mem_pair.mp hmark)]

theorem number_eq_tail_of_mark (hwhole : IsDigits whole) (hpart : IsFraction part)
    (hmark : mark ∈ ['e', 'E']) (minus cs : List Char) :
    number minus (whole ++ (part ++ mark :: cs)) =
      numberTail (minus ++ whole ++ part) (mark :: cs) := by
  have hhead : ∀ d ∈ (mark :: cs).head?, d.isDigit = false ∧ d ≠ '.' := by
    intro d hd
    obtain rfl := Option.some_inj.mp hd
    rcases List.mem_pair.mp hmark with rfl | rfl <;> decide
  refine number_eq_tail (takeWhile_append_of_stop hwhole.2 ?_) (fraction_append hpart hhead)
  exact head_fraction hpart fun d hd => (hhead d hd).1

/-- A number goes on over a whole exponent. -/
theorem fits_exponent {ds : List Char} (hmark : mark ∈ ['e', 'E'])
    (hsign : sign ∈ [[], ['+'], ['-']]) (hds : IsDigits ds) (front rest : List Char) :
    let us := front ++ mark :: (sign ++ ds)
    Fits us (some (.number, String.ofList us))
      (numberTail front (mark :: (sign ++ ds) ++ rest)) := by
  intro us
  have hdigits : ((mark :: (sign ++ ds) ++ rest).drop (mark :: sign).length).takeWhile
      Char.isDigit = ds ++ rest.takeWhile Char.isDigit := by
    rw [List.cons_append, List.append_assoc, List.length_cons, List.drop_succ_cons,
      List.drop_left, List.takeWhile_append_of_pos hds.2]
  have htail : numberTail front (mark :: (sign ++ ds) ++ rest) =
      verbatim .number (us ++ rest.takeWhile Char.isDigit) := by
    unfold numberTail
    rw [exponentMark_append hmark hsign hds]
    simp only
    rw [hdigits, if_neg (List.cons_ne_nil _ _), if_neg (List.append_ne_nil_of_left_ne_nil hds.1 _)]
    simp [us]
  rw [htail]
  refine ⟨by simp [verbatim, token], fun hlen => ?_⟩
  have hmore : rest.takeWhile Char.isDigit = [] := by simpa [verbatim, token] using hlen
  simp [verbatim, token, hmore]

/-- An exponent without digits breaks the number. -/
theorem fits_broken (hmark : mark ∈ ['e', 'E']) (hsign : sign ∈ [[], ['+'], ['-']])
    (front rest : List Char) :
    Fits (front ++ mark :: sign) (some (.invalid, "invalid number literal"))
      (numberTail front (mark :: (sign ++ rest))) := by
  have hlonger : sign.length ≤ (Lexeme.sign (sign ++ rest)).length := by
    simp only [List.mem_cons, List.not_mem_nil, or_false] at hsign
    rcases hsign with rfl | rfl | rfl <;> simp [Lexeme.sign]
  unfold numberTail
  rw [exponentMark_of_mem hmark]
  simp only
  rw [if_neg (List.cons_ne_nil _ _)]
  generalize ((mark :: (sign ++ rest)).drop _).takeWhile Char.isDigit = digits
  split
  · exact ⟨by simpa [invalid, token] using hlonger, fun _ => rfl⟩
  · next hdigits =>
    have hpos := List.length_pos_iff.mpr hdigits
    constructor
    · simp only [verbatim, token, List.length_append, List.length_cons]
      omega
    · intro hlen
      simp only [verbatim, token, List.length_append, List.length_cons] at hlen
      omega

theorem isFraction_fraction (cs : List Char) : IsFraction (fraction cs) := by
  unfold fraction
  split
  · next d ds =>
    split
    · next hd =>
      refine .present ⟨by simp [hd], fun e he => List.mem_takeWhile_imp he⟩
    · exact .absent
  · exact .absent

theorem sign_mem (cs : List Char) : Lexeme.sign cs ∈ [[], ['+'], ['-']] := by
  unfold Lexeme.sign
  split <;> simp

/-- An exponent opens with its letter and perhaps a sign. -/
theorem exists_exponentMark {cs : List Char} (h : exponentMark cs ≠ []) :
    ∃ mark sign, exponentMark cs = mark :: sign ∧ mark ∈ ['e', 'E'] ∧
      sign ∈ [[], ['+'], ['-']] := by
  cases cs with
  | nil => exact absurd rfl h
  | cons c cs =>
    rw [exponentMark_cons] at h ⊢
    by_cases hc : c = 'e' ∨ c = 'E'
    · rw [if_pos hc]
      exact ⟨c, Lexeme.sign cs, rfl, List.mem_pair.mpr hc, sign_mem cs⟩
    · rw [if_neg hc] at h
      exact absurd rfl h

theorem shape_number {cs : List Char} (hminus : minus ∈ [[], ['-']])
    (hdigit : cs.head?.any Char.isDigit = true) :
    Shape (number minus cs).source (number minus cs).token? := by
  obtain ⟨part, tail, -, rfl, hnumber⟩ := exists_number_tail minus cs
  have hwhole : IsDigits (cs.takeWhile Char.isDigit) := by
    refine ⟨?_, fun d hd => List.mem_takeWhile_imp hd⟩
    cases cs with
    | nil => nomatch hdigit
    | cons d ds => simp [show d.isDigit = true from hdigit]
  have hpart := isFraction_fraction (cs.dropWhile Char.isDigit)
  have hdecimal {exponent : List Char} (h : IsExponent exponent) :=
    IsDecimal.mk hminus hwhole hpart h
  rw [hnumber]
  unfold numberTail
  simp only
  split
  · have hplain := Shape.number (hdecimal .absent)
    rw [List.append_nil, ← List.append_assoc] at hplain
    exact hplain
  · next hne =>
    obtain ⟨mark, sign, hmarks, hmark, hsign⟩ := exists_exponentMark hne
    rw [hmarks]
    split
    · have hbroken := Shape.brokenNumber (.mk hminus hwhole hpart hmark hsign)
      rw [← List.append_assoc, ← List.append_assoc] at hbroken
      exact hbroken
    · next hdigits =>
      have hmore := Shape.number (hdecimal
        (.present hmark hsign ⟨hdigits, fun d hd => List.mem_takeWhile_imp hd⟩))
      rw [← List.cons_append, ← List.append_assoc, ← List.append_assoc, ← List.append_assoc]
        at hmore
      exact hmore

end Numbers

end MiniSql.Lexeme
