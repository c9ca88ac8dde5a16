/-!
# Quoted text

Between two quote marks the mark itself is written twice and every other character once.
`double` writes such a body, `body?` reads one up to its closing mark. The two are inverse:
`body?_eq_some_iff` says that reading succeeds exactly on a written body followed by a closing mark
that is not doubled, so every quoted text has one written form.
-/

namespace MiniSql.Text

/-- Writes the quote mark twice and every other character once. -/
def double (mark : Char) : List Char → List Char
  | [] => []
  | c :: cs => if c = mark then mark :: mark :: double mark cs else c :: double mark cs

/-- Reads a body up to its closing mark: the text with doubled marks undone, and what follows the
closing mark. There is no answer when the closing mark is missing. -/
def body? (mark : Char) : List Char → Option (List Char × List Char)
  | [] => none
  | [c] => if c = mark then some ([], []) else none
  | c :: d :: cs =>
    if c = mark then
      if d = mark then (body? mark cs).map fun (body, rest) => (mark :: body, rest)
      else some ([], d :: cs)
    else (body? mark (d :: cs)).map fun (body, rest) => (c :: body, rest)

/-- A text between two marks, as it is written. -/
def quote (mark : Char) (body : List Char) : List Char := mark :: (double mark body ++ [mark])

theorem double_append (mark : Char) (xs ys : List Char) :
    double mark (xs ++ ys) = double mark xs ++ double mark ys := by
  induction xs with
  | nil => rfl
  | cons c cs ih =>
    simp only [List.cons_append, double, ih]
    split <;> rfl

/-- A body with its marks doubled is read back. -/
theorem body?_double (mark : Char) (body : List Char) {rest : List Char}
    (h : rest.head? ≠ some mark) :
    body? mark (double mark body ++ mark :: rest) = some (body, rest) := by
  induction body with
  | nil => cases rest <;> simp_all [double, body?]
  | cons c cs ih =>
    by_cases hc : c = mark
    · simp [double, body?, hc, ih]
    · have : ∃ d ds, double mark cs ++ mark :: rest = d :: ds := by
        cases hd : double mark cs <;> simp
      obtain ⟨d, ds, hd⟩ := this
      rw [double, if_neg hc, List.cons_append, hd, body?, if_neg hc, ← hd, ih]
      rfl

/-- What is read as a body was written with its marks doubled. -/
theorem eq_double_of_body? {mark : Char} {cs body rest : List Char}
    (h : body? mark cs = some (body, rest)) :
    cs = double mark body ++ mark :: rest ∧ rest.head? ≠ some mark := by
  fun_induction body? mark cs generalizing body rest with
  | case1 => simp at h
  | case2 => simp_all [double]
  | case3 => simp at h
  | case4 cs ih =>
    obtain ⟨⟨b, r⟩, hb, heq⟩ := Option.map_eq_some_iff.1 h
    simp only [Prod.mk.injEq] at heq
    obtain ⟨rfl, rfl⟩ := heq
    obtain ⟨hcs, hr⟩ := ih hb
    simp_all [double]
  | case5 =>
    simp only [Option.some.injEq, Prod.mk.injEq] at h
    obtain ⟨rfl, rfl⟩ := h
    simp_all [double]
  | case6 c d cs hc ih =>
    obtain ⟨⟨b, r⟩, hb, heq⟩ := Option.map_eq_some_iff.1 h
    simp only [Prod.mk.injEq] at heq
    obtain ⟨rfl, rfl⟩ := heq
    obtain ⟨hcs, hr⟩ := ih hb
    simp [double, hc, ← hcs, hr]

/-- Reading succeeds exactly on a written body whose closing mark is not doubled. -/
theorem body?_eq_some_iff {mark : Char} {cs body rest : List Char} :
    body? mark cs = some (body, rest) ↔
      cs = double mark body ++ mark :: rest ∧ rest.head? ≠ some mark :=
  ⟨eq_double_of_body?, fun ⟨hcs, hr⟩ => hcs ▸ body?_double mark body hr⟩

/-- Without a closing mark all marks are doubled. -/
theorem exists_double_of_body? {mark : Char} {cs : List Char} (h : body? mark cs = none) :
    ∃ body, cs = double mark body := by
  fun_induction body? mark cs with
  | case1 => exact ⟨[], rfl⟩
  | case2 => simp at h
  | case3 c hc => exact ⟨[c], by simp [double, hc]⟩
  | case4 cs ih =>
    obtain ⟨body, rfl⟩ := ih (by simpa using h)
    exact ⟨mark :: body, by simp [double]⟩
  | case5 => simp at h
  | case6 c d cs hc ih =>
    obtain ⟨body, hbody⟩ := ih (by simpa using h)
    exact ⟨c :: body, by simp [double, hc, hbody]⟩

/-- What is written with doubled marks does not go past a mark that is not. -/
theorem prefix_of_double_append {mark : Char} {body us body' rest : List Char}
    (h : double mark body ++ us = double mark body' ++ mark :: rest)
    (hrest : rest.head? ≠ some mark) : body <+: body' := by
  induction body generalizing body' with
  | nil => exact List.nil_prefix
  | cons c cs ih =>
    by_cases hc : c = mark
    · subst hc
      cases body' with
      | nil =>
        -- the mark behind the empty body is the first of two
        simp only [double, if_true, List.nil_append, List.cons_append, List.cons.injEq,
          true_and] at h
        simp [← h] at hrest
      | cons d ds =>
        by_cases hd : d = c
        · simp only [double, hd, if_true, List.cons_append, List.cons.injEq, true_and] at h
          exact hd ▸ (List.prefix_cons_inj d).mpr (ih h)
        · simp [double, hd, Ne.symm hd] at h
    · cases body' with
      | nil => simp [double, hc] at h
      | cons d ds =>
        by_cases hd : d = mark
        · simp [double, hc, hd] at h
        · simp only [double, hc, hd, if_false, List.cons_append, List.cons.injEq] at h
          exact h.1 ▸ (List.prefix_cons_inj c).mpr (ih h.2)

end MiniSql.Text
