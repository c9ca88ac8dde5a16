import Mathlib.Data.List.TakeWhile
import MiniSql.Proofs.Rounding
import MiniSql.Proofs.Spelling
import MiniSql.Scalar

/-!
# Reading numbers back

The text of a finite number is a decimal notation of it, and reading the text gives the number again
(`isDecimal_renderNumber`, `read?_renderNumber`). Only the sign of a zero is lost.

`Positional` describes what both formats of numbers write: digits, perhaps a point, and digits
behind it.
-/

namespace MiniSql

/-- A text in positional notation, the number that all of its digits write, and the number of
digits behind the point. -/
inductive Positional : List Char → Nat → Nat → Prop
  | whole {ds : List Char} (h : IsDigits ds) : Positional ds (Numeral.digitsValue ds) 0
  | pointed {ds es : List Char} (h : IsDigits ds) (hs : IsDigits es) :
      Positional (ds ++ '.' :: es) (Numeral.digitsValue (ds ++ es)) es.length

/-! ## Digits -/

namespace Decimal

theorem isDigit_digitChar : ∀ d < 10, (digitChar d).isDigit = true := by decide

theorem digitValue_digitChar : ∀ d < 10, Numeral.digitValue (digitChar d) = d := by decide

theorem isDigits_digitsOf (n : Nat) : IsDigits (digitsOf n) := by
  induction n using digitsOf.induct with
  | case1 n hsmall =>
    rw [digitsOf, if_pos hsmall]
    exact ⟨List.cons_ne_nil _ _, List.forall_mem_singleton.mpr (isDigit_digitChar n hsmall)⟩
  | case2 n hlarge ih =>
    have hlast : (digitChar (n % 10)).isDigit = true := isDigit_digitChar _ (by omega)
    rw [digitsOf, if_neg hlarge]
    refine ⟨List.append_ne_nil_of_left_ne_nil ih.1 _, fun d hd => ?_⟩
    rcases List.mem_append.mp hd with hfront | hback
    · exact ih.2 d hfront
    · exact List.mem_singleton.mp hback ▸ hlast

end Decimal

namespace Numeral

open Decimal

theorem digitsValue_concat (ds : List Char) (d : Char) :
    digitsValue (ds ++ [d]) = 10 * digitsValue ds + digitValue d := by
  unfold digitsValue
  rw [List.foldl_append, List.foldl_cons, List.foldl_nil]

/-- The digits written for a number have its value. -/
theorem digitsValue_digitsOf (n : Nat) : digitsValue (digitsOf n) = n := by
  induction n using digitsOf.induct with
  | case1 n hsmall =>
    rw [digitsOf, if_pos hsmall, ← List.nil_append [digitChar n], digitsValue_concat,
      digitValue_digitChar n hsmall]
    exact Nat.zero_add n
  | case2 n hlarge ih =>
    rw [digitsOf, if_neg hlarge, digitsValue_concat, ih, digitValue_digitChar _ (by omega)]
    omega

theorem digitsValue_zeros (count : Nat) (ds : List Char) :
    digitsValue (List.replicate count '0' ++ ds) = digitsValue ds := by
  induction count with
  | zero => rfl
  | succ count ih =>
    rw [List.replicate_succ, List.cons_append, ← ih]
    rfl

end Numeral

/-! ## Both formats are positional -/

namespace Decimal

theorem positional_digitsOf (n : Nat) : Positional (digitsOf n) n 0 := by
  have h := Positional.whole (isDigits_digitsOf n)
  rwa [Numeral.digitsValue_digitsOf] at h

/-- What `layout` writes is read with the decimal's own digits and exponent, where these are
below the point, and else with all digits written out. -/
theorem positional_layout (x : Decimal) :
    if x.exponent < 0 then Positional x.layout x.digits x.exponent.natAbs
    else Positional x.layout (x.digits * tenTo x.exponent.natAbs) 0 := by
  unfold layout
  split
  · next hnegative =>
    dsimp only
    generalize hzeros : List.replicate _ '0' ++ digitsOf x.digits = padded
    obtain ⟨hne, hdigits⟩ := isDigits_digitsOf x.digits
    have hlength : x.exponent.natAbs < padded.length := by
      rw [← hzeros, List.length_append, List.length_replicate]
      omega
    have hall : ∀ d ∈ padded, d.isDigit = true := by
      intro d hd
      rw [← hzeros, List.mem_append] at hd
      rcases hd with hzero | hdigit
      · rw [List.eq_of_mem_replicate hzero]
        decide
      · exact hdigits d hdigit
    have hvalue : Numeral.digitsValue padded = x.digits := by
      rw [← hzeros, Numeral.digitsValue_zeros, Numeral.digitsValue_digitsOf]
    -- the point is set so that the exponent's number of digits stand behind it
    have hfront : IsDigits (padded.take (padded.length - x.exponent.natAbs)) := by
      refine ⟨fun hnil => ?_, fun d hd => hall d (List.mem_of_mem_take hd)⟩
      have := congrArg List.length hnil
      rw [List.length_take, List.length_nil] at this
      omega
    have hback : IsDigits (padded.drop (padded.length - x.exponent.natAbs)) := by
      refine ⟨fun hnil => ?_, fun d hd => hall d (List.mem_of_mem_drop hd)⟩
      have := congrArg List.length hnil
      rw [List.length_drop, List.length_nil] at this
      omega
    have h := Positional.pointed hfront hback
    rwa [List.take_append_drop, hvalue, List.length_drop,
      Nat.sub_sub_self (Nat.le_of_lt hlength)] at h
  · exact positional_digitsOf _

end Decimal

/-! ## Reading positional notation -/

namespace Numeral

variable {cs rest : List Char} {digits places : Nat}

theorem isDecimal_of_positional (h : Positional cs digits places) (negative : Bool) :
    IsDecimal (if negative then '-' :: cs else cs) := by
  have hunsigned : ∃ whole part, cs = whole ++ (part ++ []) ∧ IsDigits whole ∧
      IsFraction part := by
    cases h with
    | whole hds => exact ⟨cs, [], by rw [List.append_nil, List.append_nil], hds, .absent⟩
    | @pointed ds es hds hes => exact ⟨ds, '.' :: es, by rw [List.append_nil], hds, .present hes⟩
  obtain ⟨whole, part, rfl, hwhole, hpart⟩ := hunsigned
  cases negative with
  | true => exact @IsDecimal.mk ['-'] whole part [] (by decide) hwhole hpart .absent
  | false => exact @IsDecimal.mk [] whole part [] (by decide) hwhole hpart .absent

/-- Positional digits are read as the decimal number that they stand for. -/
theorem decimal?_of_positional (h : Positional cs digits places) (negative : Bool) :
    decimal? negative cs = some (.ofDecimal negative digits (-places)) := by
  unfold decimal?
  cases h with
  | whole hds =>
    have htake : cs.takeWhile Char.isDigit = cs := List.takeWhile_eq_self_iff.mpr hds.2
    have hdrop : cs.dropWhile Char.isDigit = [] := List.dropWhile_eq_nil_iff.mpr hds.2
    rw [htake, hdrop]
    simp [fraction, exponent?, hds.1]
  | @pointed ds es hds hes =>
    have hstop : ∀ d ∈ ('.' :: es).head?, d.isDigit = false := by
      intro d hd
      obtain rfl : '.' = d := Option.some_inj.mp hd
      decide
    have htake : es.takeWhile Char.isDigit = es := List.takeWhile_eq_self_iff.mpr hes.2
    have hdrop : es.dropWhile Char.isDigit = [] := List.dropWhile_eq_nil_iff.mpr hes.2
    rw [Lexeme.takeWhile_append_of_stop hds.2 hstop, Lexeme.dropWhile_append_of_stop hds.2 hstop]
    simp [fraction, exponent?, htake, hdrop, hds.1]

/-- The words for numbers start with letters. -/
theorem word?_of_isDigit {d : Char} (h : d.isDigit = true) (negative : Bool) :
    word? negative (d :: cs) = none := by
  have hletter : ¬ d.toLower.isAlpha = true := by
    intro hlower
    have halpha := Lexeme.isAlpha_of_isAlpha_toLower hlower
    have hname : Text.startsName d = true := by
      unfold Text.startsName
      rw [halpha, Bool.true_or]
    have hlow := Lexeme.toNat_of_isDigit h
    have hhigh := Lexeme.toNat_of_startsName hname
    omega
  have hne {c : Char} {word : List Char} (hc : c.isAlpha = true) :
      ¬ (d :: cs).map Char.toLower = c :: word := by
    intro heq
    obtain rfl := (List.cons.inj heq).1
    exact hletter hc
  unfold word?
  dsimp only
  rw [if_neg, if_neg]
  · exact hne (by decide)
  · rintro (hinf | hinfinity)
    · exact hne (by decide) hinf
    · exact hne (by decide) hinfinity

/-- A numeral that starts with a digit has no sign. -/
theorem sign_of_isDigit {d : Char} (h : d.isDigit = true) (cs : List Char) :
    sign (d :: cs) = (false, d :: cs) := by
  unfold sign
  split
  · next heq =>
    obtain ⟨rfl, -⟩ := List.cons.inj heq
    nomatch h
  · next heq =>
    obtain ⟨rfl, -⟩ := List.cons.inj heq
    nomatch h
  · rfl

theorem head_of_positional (h : Positional cs digits places) :
    ∃ d ds, cs = d :: ds ∧ d.isDigit = true := by
  cases h with
  | whole hds => exact Lexeme.head_of_isDigits hds
  | @pointed ds es hds hes =>
    obtain ⟨d, ds, rfl, hd⟩ := Lexeme.head_of_isDigits hds
    exact ⟨d, ds ++ '.' :: es, rfl, hd⟩

/-- The same for the whole literal, its sign included. -/
theorem read?_of_positional (h : Positional cs digits places) (negative : Bool) :
    read? (String.ofList (if negative then '-' :: cs else cs)) =
      some (.ofDecimal negative digits (-places)) := by
  obtain ⟨d, ds, rfl, hd⟩ := head_of_positional h
  have hsign : sign (if negative then '-' :: d :: ds else d :: ds) = (negative, d :: ds) := by
    cases negative with
    | true => rfl
    | false => exact sign_of_isDigit hd ds
  unfold read?
  rw [String.toList_ofList, hsign]
  dsimp only
  rw [word?_of_isDigit hd, decimal?_of_positional h negative, Option.none_or]

end Numeral

/-! ## Numbers -/

namespace Binary64

/-- Neither `nan` nor an infinity. -/
def isFinite : Binary64 → Bool
  | .nan => false
  | .number _ rank _ => decide (rank < infiniteRank)

/-- The number without the sign of a zero. -/
def canonical : Binary64 → Binary64
  | .nan => .nan
  | .number negative rank h => .number (negative && rank != 0) rank h

/-- The canonical form of a number compares equal to it: they differ at most in the sign of zero. -/
theorem equals_canonical {x : Binary64} (h : x.isFinite = true) : x.canonical.equals x = true := by
  cases x with
  | nan => nomatch h
  | number negative rank hrank =>
    rw [equals_iff]
    refine ⟨_, rfl, ?_⟩
    by_cases hzero : rank = 0
    · subst hzero
      cases negative <;> rfl
    · have hsign : (negative && rank != 0) = negative := by simp [hzero]
      show _ = some (if (negative && rank != 0) = true then _ else _)
      rw [hsign]
      rfl

theorem ofRank_of_le {rank : Nat} (h : rank ≤ infiniteRank) (negative : Bool) :
    ofRank negative rank = .number negative rank h := by
  unfold ofRank
  congr 1
  exact Nat.min_eq_left h

/-- The shortest digits of a number are read back as that number. -/
theorem ofDecimal_shortest (negative : Bool) {rank : Nat} (h : rank ≤ infiniteRank) :
    ofDecimal negative (shortest rank).digits (shortest rank).exponent = .number negative rank h :=
  (ofDecimal_of_readsBack (readsBack_shortest rank) negative).trans (ofRank_of_le h negative)

theorem ofDecimal_of_nonneg (negative : Bool) (digits : Nat) {exponent : Int} (h : 0 ≤ exponent) :
    ofDecimal negative (digits * tenTo exponent.natAbs) 0 = ofDecimal negative digits exponent := by
  unfold ofDecimal
  rw [if_neg (Int.lt_irrefl 0), if_neg (Int.not_lt.mpr h), Int.natAbs_zero, tenTo_zero, Nat.mul_one]

theorem integer?_number (negative : Bool) {rank : Nat} (h : rank ≤ infiniteRank) :
    integer? (.number negative rank h) =
      if units rank % twoTo 1074 = 0 then
        some (if negative then -((units rank / twoTo 1074 : Nat) : Int)
          else (units rank / twoTo 1074 : Nat))
      else none := rfl

theorem integer?_zero (negative : Bool) (h : 0 ≤ infiniteRank) :
    integer? (.number negative 0 h) = some 0 := by
  rw [integer?_number, units_zero, Nat.zero_mod, if_pos rfl, Nat.zero_div]
  cases negative with
  | true => rfl
  | false => rfl

/-- An integer has the sign of its number, unless it is 0. -/
theorem integer?_eq_some {negative : Bool} {rank : Nat} {h : rank ≤ infiniteRank} {n : Int}
    (hn : integer? (.number negative rank h) = some n) :
    n.natAbs * twoTo 1074 = units rank ∧ decide (n < 0) = (negative && rank != 0) := by
  rw [integer?_number] at hn
  split at hn
  · next hwhole =>
    have hsize : units rank / twoTo 1074 * twoTo 1074 = units rank :=
      Nat.div_mul_cancel (Nat.dvd_of_mod_eq_zero hwhole)
    have hzero : units rank / twoTo 1074 = 0 ↔ rank = 0 := by
      rw [← @units_eq_zero_iff rank]
      constructor
      · intro h
        rw [← hsize, h, Nat.zero_mul]
      · intro h
        rw [h, Nat.zero_div]
    obtain rfl := Option.some.inj hn
    generalize units rank / twoTo 1074 = size at hsize hzero ⊢
    cases negative with
    | true =>
      rw [if_pos rfl, Int.natAbs_neg, Int.natAbs_natCast, Bool.true_and, Bool.eq_iff_iff,
        decide_eq_true_iff, bne_iff_ne]
      exact ⟨hsize, by omega⟩
    | false =>
      rw [if_neg Bool.false_ne_true, Int.natAbs_natCast, Bool.false_and, decide_eq_false_iff_not]
      exact ⟨hsize, by omega⟩
  · nomatch hn

end Binary64

open Binary64

/-! ## The text of a number -/

/-- A finite number is written in positional digits that are read back as the same number. -/
theorem exists_positional_render (negative : Bool) {rank : Nat} (h : rank < infiniteRank) :
    ∃ cs digits places, Positional cs digits places ∧
      (Binary64.number negative rank (Nat.le_of_lt h)).render =
        String.ofList (if negative then '-' :: cs else cs) ∧
      ofDecimal negative digits (-places) = .number negative rank (Nat.le_of_lt h) := by
  have hvalue := ofDecimal_shortest negative (Nat.le_of_lt h)
  have hlayout := Decimal.positional_layout (shortest rank)
  have hrender : (Binary64.number negative rank (Nat.le_of_lt h)).render = String.ofList
      (if negative then '-' :: (shortest rank).layout else (shortest rank).layout) := by
    unfold render
    dsimp only
    rw [if_neg (Nat.ne_of_lt h)]
  split at hlayout
  · next hnegative =>
    refine ⟨_, _, _, hlayout, hrender, ?_⟩
    rw [← hvalue, Int.ofNat_natAbs_of_nonpos (Int.le_of_lt hnegative), Int.neg_neg]
  · next hpositive =>
    refine ⟨_, _, _, hlayout, hrender, ?_⟩
    rw [← hvalue]
    exact ofDecimal_of_nonneg negative _ (Int.not_lt.mp hpositive)

/-- So is one with an integral value, which is written without a fraction. -/
theorem exists_positional_ofInt {negative : Bool} {rank : Nat} {h : rank ≤ infiniteRank} {n : Int}
    (hn : integer? (.number negative rank h) = some n) :
    Positional (Decimal.digitsOf n.natAbs) n.natAbs 0 ∧
      Decimal.ofInt n = (if decide (n < 0) then '-' :: Decimal.digitsOf n.natAbs
        else Decimal.digitsOf n.natAbs) ∧
      ofDecimal (decide (n < 0)) n.natAbs 0 = .number (negative && rank != 0) rank h := by
  obtain ⟨hsize, hsign⟩ := integer?_eq_some hn
  have hrank : nearestRank n.natAbs 1 = rank :=
    nearestRank_eq Nat.one_pos (hsize.trans (Nat.mul_one _).symm)
  refine ⟨Decimal.positional_digitsOf _, ?_, ?_⟩
  · unfold Decimal.ofInt
    simp only [decide_eq_true_eq]
  · unfold ofDecimal ofRatio
    rw [if_neg (Int.lt_irrefl 0), Int.natAbs_zero, tenTo_zero, Nat.mul_one, hrank, hsign]
    exact ofRank_of_le h _

/-- Which of the two formats a number has. -/
theorem renderNumber_cases (x : Binary64) :
    (∃ n, x.integer? = some n ∧ Scalar.renderNumber x = String.ofList (Decimal.ofInt n)) ∨
      (∀ n, x.integer? = some n → tenTo 15 ≤ n.natAbs) ∧ Scalar.renderNumber x = x.render := by
  unfold Scalar.renderNumber
  cases x.integer? with
  | none => exact .inr ⟨nofun, rfl⟩
  | some n =>
    dsimp only
    split
    · exact .inl ⟨n, rfl, rfl⟩
    · next hlarge => exact .inr ⟨fun _ h => Option.some.inj h ▸ Nat.le_of_not_lt hlarge, rfl⟩

/-- A finite number is written in positional notation, behind a minus where it is below zero. -/
theorem exists_positional {x : Binary64} (h : x.isFinite = true) :
    ∃ negative cs digits places, Positional cs digits places ∧
      Scalar.renderNumber x = String.ofList (if negative then '-' :: cs else cs) ∧
      ofDecimal negative digits (-(places : Int)) = x.canonical := by
  cases x with
  | nan => nomatch h
  | number negative rank hrank =>
    have hlt : rank < infiniteRank := of_decide_eq_true h
    obtain ⟨n, hn, hrender⟩ | ⟨hlarge, hrender⟩ :=
      renderNumber_cases (.number negative rank hrank)
    · obtain ⟨hcs, htext, hvalue⟩ := exists_positional_ofInt hn
      exact ⟨_, _, _, _, hcs, hrender.trans (congrArg _ htext), hvalue⟩
    · obtain ⟨cs, digits, places, hcs, htext, hvalue⟩ := exists_positional_render negative hlt
      have hne : rank ≠ 0 := by
        rintro rfl
        have hzero := hlarge 0 (integer?_zero negative hrank)
        exact Nat.not_le.mpr (tenTo_pos 15) hzero
      have hcanonical : canonical (.number negative rank hrank) = .number negative rank hrank := by
        unfold canonical
        simp [hne]
      exact ⟨negative, cs, digits, places, hcs, hrender.trans htext, hvalue.trans hcanonical.symm⟩

/-- What is written for a finite number is a number literal of the language. -/
theorem isDecimal_renderNumber {x : Binary64} (h : x.isFinite = true) :
    IsDecimal (Scalar.renderNumber x).toList := by
  obtain ⟨negative, cs, digits, places, hcs, hrender, -⟩ := exists_positional h
  rw [hrender, String.toList_ofList]
  exact Numeral.isDecimal_of_positional hcs negative

/-- A finite number written and read again is its canonical form. -/
theorem read?_renderNumber {x : Binary64} (h : x.isFinite = true) :
    Numeral.read? (Scalar.renderNumber x) = some x.canonical := by
  obtain ⟨negative, cs, digits, places, hcs, hrender, hvalue⟩ := exists_positional h
  rw [hrender, Numeral.read?_of_positional hcs, hvalue]

end MiniSql
