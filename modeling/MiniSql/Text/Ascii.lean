/-!
# ASCII letter case

Keywords, Boolean literals and option texts are compared ignoring the case of the 26 ASCII letters
and of nothing else: `É` and `é` stay different.

`sameIgnoringCase` is the kernel of the case-folding map `foldCase`, hence an equivalence.
-/

namespace MiniSql.Text

/-- Lower-cases the ASCII letters of a text and keeps every other character. -/
def foldCase (cs : List Char) : List Char := cs.map Char.toLower

/-- Two texts agree up to the case of ASCII letters. -/
def sameIgnoringCase (a b : String) : Bool := foldCase a.toList == foldCase b.toList

theorem sameIgnoringCase_iff {a b : String} :
    sameIgnoringCase a b = true ↔ foldCase a.toList = foldCase b.toList := by
  simp [sameIgnoringCase]

theorem sameIgnoringCase_self (a : String) : sameIgnoringCase a a = true := by
  simp [sameIgnoringCase]

theorem sameIgnoringCase_comm (a b : String) : sameIgnoringCase a b = sameIgnoringCase b a := by
  rw [Bool.eq_iff_iff, sameIgnoringCase_iff, sameIgnoringCase_iff, eq_comm]

/-! ## Bare names -/

/-- A bare name starts with an ASCII letter or an underscore. -/
def startsName (c : Char) : Bool := c.isAlpha || c == '_'

/-- After its first character a bare name may also hold ASCII digits. -/
def continuesName (c : Char) : Bool := c.isAlphanum || c == '_'

theorem continuesName_of_startsName {c : Char} (h : startsName c = true) :
    continuesName c = true := by
  simp only [startsName, continuesName, Char.isAlphanum, Bool.or_eq_true] at h ⊢
  grind

end MiniSql.Text
