import Mathlib.Data.String.Basic
import MiniSql.Condition
import MiniSql.Proofs.Grouping

/-!
# Comparisons hang together

Equality and order of scalars are computed apart, and conditions use both. They agree: two scalars
are equal exactly if their order is `.eq` (`Scalar.compare?_eq_eq_iff`). So each of the six
comparisons is a function of the order alone, which may be missing (`holds?_eq_accepts`), and what
they have to do with each other is seen on the four possible orders (`comparisons_coherent`).

There is an order wherever both sides have the same type and neither is `nan`. It is that of the
integers for numbers, of the code points for texts, and of `false` and `true`; on each of them the
laws of an order hold.
-/

namespace MiniSql

namespace Scalar

variable {a b c : Scalar} {o : Ordering}

/-! ## The order of two scalars -/

/-- The scalars have one type and this order in it. -/
inductive Compared : Scalar → Scalar → Ordering → Prop
  | number {x y : Binary64} {j k : Int} {o : Ordering} (hx : x.key? = some j)
      (hy : y.key? = some k) (h : compare j k = o) : Compared (.number x) (.number y) o
  | text {s t : String} {o : Ordering} (h : compare s t = o) : Compared (.text s) (.text t) o
  | boolean {p q : Bool} {o : Ordering} (h : compare p q = o) :
      Compared (.boolean p) (.boolean q) o

/-- The comparison computed is the one described. -/
theorem compare?_eq_some_iff : a.compare? b = some o ↔ Compared a b o := by
  constructor
  · intro h
    unfold compare? at h
    split at h
    · obtain ⟨j, k, hx, hy, hjk⟩ := Binary64.compare?_eq_some_iff.mp h
      exact .number hx hy hjk
    · exact .text (Option.some.inj h)
    · exact .boolean (Option.some.inj h)
    · nomatch h
  · intro h
    cases h with
    | number hx hy hjk => exact Binary64.compare?_eq_some_iff.mpr ⟨_, _, hx, hy, hjk⟩
    | text hst => exact congrArg some hst
    | boolean hpq => exact congrArg some hpq

/-- Exchanging two scalars exchanges less and greater. -/
theorem Compared.swap (h : Compared a b o) : Compared b a o.swap := by
  cases h with
  | number hx hy hjk => exact .number hy hx (hjk ▸ Std.OrientedCmp.eq_swap)
  | text hst => exact .text (hst ▸ Std.OrientedCmp.eq_swap)
  | boolean hpq => exact .boolean (hpq ▸ Std.OrientedCmp.eq_swap)

/-- What is equal compares alike. -/
theorem Compared.congr (hab : Compared a b .eq) (hbc : Compared b c o) : Compared a c o := by
  cases hab with
  | number hx hy hjk =>
    rw [Std.compare_eq_iff_eq.mp hjk] at hx
    cases hbc with
    | number hy' hz h =>
      rw [hy] at hy'
      exact .number hx hz (Option.some.inj hy' ▸ h)
  | text hst => exact Std.compare_eq_iff_eq.mp hst ▸ hbc
  | boolean hpq => exact Std.compare_eq_iff_eq.mp hpq ▸ hbc

/-- The order of scalars is transitive. -/
theorem Compared.trans (hab : Compared a b .lt) (hbc : Compared b c .lt) : Compared a c .lt := by
  cases hab with
  | number hx hy hjk =>
    cases hbc with
    | number hy' hz h =>
      rw [hy] at hy'
      obtain rfl := Option.some.inj hy'
      exact .number hx hz (Std.TransCmp.lt_trans hjk h)
  | text hst =>
    cases hbc with
    | text h => exact .text (Std.TransCmp.lt_trans hst h)
  | boolean hpq =>
    cases hbc with
    | boolean h => exact .boolean (Std.TransCmp.lt_trans hpq h)

/-! ## Laws of the order -/

/-- Equality and order agree. -/
theorem compare?_eq_eq_iff : a.compare? b = some .eq ↔ a.equals b = true := by
  rw [compare?_eq_some_iff]
  constructor
  · intro h
    cases h with
    | number hx hy hjk =>
      rw [Std.compare_eq_iff_eq.mp hjk] at hx
      exact Binary64.equals_iff.mpr ⟨_, hx, hy⟩
    | text hst => exact beq_iff_eq.mpr (Std.compare_eq_iff_eq.mp hst)
    | boolean hpq => exact beq_iff_eq.mpr (Std.compare_eq_iff_eq.mp hpq)
  · intro h
    unfold equals at h
    split at h
    · obtain ⟨k, hx, hy⟩ := Binary64.equals_iff.mp h
      exact .number hx hy Std.compare_self
    · exact .text (Std.compare_eq_iff_eq.mpr (beq_iff_eq.mp h))
    · exact .boolean (Std.compare_eq_iff_eq.mpr (beq_iff_eq.mp h))
    · nomatch h

/-- The other way round the order is reversed, and missing if it was. -/
theorem compare?_swap (a b : Scalar) : b.compare? a = (a.compare? b).map Ordering.swap := by
  apply Option.ext
  intro o
  rw [compare?_eq_some_iff, Option.map_eq_some_iff]
  constructor
  · intro h
    exact ⟨o.swap, compare?_eq_some_iff.mpr h.swap, Ordering.swap_swap⟩
  · intro ⟨o', h, ho⟩
    exact ho ▸ (compare?_eq_some_iff.mp h).swap

/-- Equal scalars compare alike with every scalar. -/
theorem compare?_congr (h : a.equals b = true) (c : Scalar) : a.compare? c = b.compare? c := by
  have hab := compare?_eq_some_iff.mp (compare?_eq_eq_iff.mpr h)
  apply Option.ext
  intro o
  rw [compare?_eq_some_iff, compare?_eq_some_iff]
  exact ⟨hab.swap.congr, hab.congr⟩

/-- What is computed as less is transitive. -/
theorem compare?_trans (hab : a.compare? b = some .lt) (hbc : b.compare? c = some .lt) :
    a.compare? c = some .lt := by
  rw [compare?_eq_some_iff] at hab hbc ⊢
  exact hab.trans hbc

/-- Only different types and `nan` keep scalars from having an order. -/
theorem compare?_isSome_iff : (a.compare? b).isSome = true ↔
    a.typeName = b.typeName ∧ a ≠ .number .nan ∧ b ≠ .number .nan := by
  cases a with
  | number x => cases b with
    | number y =>
      cases x <;> cases y <;> simp [compare?, Binary64.compare?, Binary64.key?, typeName]
    | _ => simp [compare?, typeName]
  | text s => cases b <;> simp [compare?, typeName]
  | boolean p => cases b <;> simp [compare?, typeName]

end Scalar

/-! ## The six comparisons -/

namespace Comparison

/-- Whether a comparison holds where the two sides have this order, or none. -/
def accepts (order? : Option Ordering) : Comparison → Bool
  | equal => order? == some .eq
  | unequal => order? != some .eq
  | less => order?.any (·.isLT)
  | lessEqual => order?.any (·.isLE)
  | greater => order?.any (·.isGT)
  | greaterEqual => order?.any (·.isGE)

/-- A comparison only looks at the order of its operands. -/
theorem holds_eq_accepts (c : Comparison) (a b : Scalar) :
    c.holds a b = c.accepts (a.compare? b) := by
  have hequals : a.equals b = (a.compare? b == some .eq) := by
    rw [Bool.eq_iff_iff, beq_iff_eq]
    exact Scalar.compare?_eq_eq_iff.symm
  cases c with
  | equal => exact hequals
  | unequal => exact congrArg (!·) hequals
  | _ => rfl

/-- The order of two sides that may be absent. -/
def orderOf? (a? b? : Option Scalar) : Option Ordering :=
  a?.bind fun a => b?.bind fun b => a.compare? b

theorem holds?_eq_accepts (c : Comparison) (a? b? : Option Scalar) :
    c.holds? a? b? = c.accepts (orderOf? a? b?) := by
  have habsent : (c == unequal) = c.accepts none := by cases c <;> rfl
  cases a? with
  | none => exact habsent
  | some a =>
    cases b? with
    | none => exact habsent
    | some b => exact c.holds_eq_accepts a b

/-- Two operands have an order if both are present, are of one type, and none is NaN. -/
theorem orderOf?_isSome_iff {a? b? : Option Scalar} : (orderOf? a? b?).isSome = true ↔
    ∃ a b, a? = some a ∧ b? = some b ∧ a.typeName = b.typeName ∧ a ≠ .number .nan ∧
      b ≠ .number .nan := by
  cases a? with
  | none => simp [orderOf?]
  | some a =>
    cases b? with
    | none => simp [orderOf?]
    | some b => simpa [orderOf?] using Scalar.compare?_isSome_iff

theorem accepts_lessEqual (order? : Option Ordering) :
    lessEqual.accepts order? = (less.accepts order? || equal.accepts order?) := by
  cases order? with
  | none => rfl
  | some order => cases order <;> rfl

theorem accepts_greaterEqual (order? : Option Ordering) :
    greaterEqual.accepts order? = (greater.accepts order? || equal.accepts order?) := by
  cases order? with
  | none => rfl
  | some order => cases order <;> rfl

/-- Of the three comparisons that exclude one another, one holds where there is an order, and none
where there is none. -/
theorem count_accepts (order? : Option Ordering) :
    [less.accepts order?, equal.accepts order?, greater.accepts order?].count true =
      order?.isSome.toNat := by
  cases order? with
  | none => rfl
  | some order => cases order <;> rfl

end Comparison

/-! ## Conditions -/

/-- A comparing condition tests the order of a cell and a scalar. -/
theorem Condition.admits_of_ofText? (row : Row) (left right : Value) {op : String} {c : Comparison}
    (h : Comparison.ofText? op = some c) :
    Condition.admits ⟨left, op, right⟩ row =
      c.accepts (Comparison.orderOf? (left.column? row) right.toScalar?) := by
  have hand : op ≠ "and" := by
    rintro rfl
    nomatch h
  have hor : op ≠ "or" := by
    rintro rfl
    nomatch h
  show (Value.condition left op right).admits row = _
  rw [Value.admits, if_neg hand, if_neg hor, compares, h, ← Comparison.holds?_eq_accepts]
  rfl

/-- Only a name can stand for a cell, and only if the row has the column. -/
theorem Value.column?_eq_some_iff {row : Row} {left : Value} {a : Scalar} :
    left.column? row = some a ↔ ∃ column, left = .name column ∧ row.get? column = some a := by
  unfold column?
  split
  · next column =>
    constructor
    · intro h
      exact ⟨column, rfl, h⟩
    · intro ⟨_, hcolumn, h⟩
      exact Value.name.inj hcolumn ▸ h
  · next hname =>
    constructor
    · intro h
      nomatch h
    · intro ⟨column, hcolumn, _⟩
      exact absurd hcolumn (hname column)

/-- On the right, a name stands for its own text. -/
theorem Value.toScalar?_eq_some_iff {right : Value} {b : Scalar} : right.toScalar? = some b ↔
    right = .scalar b ∨ ∃ text, right = .name text ∧ b = .text text := by
  cases right <;> simp [toScalar?, eq_comm]

theorem Binary64.key?_ofRank_zero (negative : Bool) : (ofRank negative 0).key? = some 0 := by
  cases negative <;> rfl

/-- Texts are ordered by the codes of their characters. -/
theorem Scalar.compare?_text_eq_lt_iff (s t : String) : (text s).compare? (text t) = some .lt ↔
    s.toList.map Char.toNat < t.toList.map Char.toNat := by
  have hcodes (cs ds : List Char) : cs.map Char.toNat < ds.map Char.toNat ↔ cs < ds := by
    induction cs generalizing ds with
    | nil => cases ds <;> simp
    | cons c cs ih =>
      cases ds with
      | nil => simp
      | cons d ds =>
        rw [List.map_cons, List.map_cons, List.cons_lt_cons_iff, List.cons_lt_cons_iff, ih,
          Char.toNat_inj]
        exact Iff.rfl
  unfold compare?
  rw [Option.some.injEq, compare_lt_iff_lt, String.lt_iff_toList_lt, hcodes]

/-- The six comparisons hang together. On every row, whatever stands on the two sides: `!=` denies
`=`, `<=` and `>=` allow for it, and of `<`, `=` and `>` at most one holds. One of them does just if
the row has the column on the left, the right side is a scalar or a name, and the two have one type
and are no `nan`. On scalars, equality and the order agree, and each of them keeps its laws. -/
theorem comparisons_coherent :
    (∀ (row : Row) (left right : Value),
      let holds (op : String) : Bool := Condition.admits ⟨left, op, right⟩ row
      (holds "!=" = !holds "=") ∧
      (holds "<=" = (holds "<" || holds "=")) ∧
      (holds ">=" = (holds ">" || holds "=")) ∧
      [holds "<", holds "=", holds ">"].count true ≤ 1 ∧
      ([holds "<", holds "=", holds ">"].count true = 1 ↔
        ∃ column a b, left = .name column ∧ row.get? column = some a ∧
          (right = .scalar b ∨ ∃ text, right = .name text ∧ b = .text text) ∧
          a.typeName = b.typeName ∧ a ≠ .number .nan ∧ b ≠ .number .nan)) ∧
    (∀ a b : Scalar, a.equals b = b.equals a) ∧
    (∀ a b c : Scalar, a.equals b = true → b.equals c = true → a.equals c = true) ∧
    (∀ a b : Scalar, a.compare? b = some .eq ↔ a.equals b = true) ∧
    (∀ a b : Scalar, b.compare? a = (a.compare? b).map Ordering.swap) ∧
    (∀ a b c : Scalar, a.compare? b = some .lt → b.compare? c = some .lt →
      a.compare? c = some .lt) ∧
    (∀ a b : Scalar, a.equals b = true → ∀ c : Scalar,
      a.equals c = b.equals c ∧ a.compare? c = b.compare? c ∧ c.compare? a = c.compare? b) ∧
    (∀ negative negative' : Bool,
      (Scalar.number (.ofRank negative 0)).equals (.number (.ofRank negative' 0)) = true) ∧
    ∀ s t : String, (Scalar.text s).compare? (.text t) = some .lt ↔
      s.toList.map Char.toNat < t.toList.map Char.toNat := by
  refine ⟨fun row left right => ?_, Scalar.equals_comm, fun _ _ _ => Scalar.equals_trans,
    fun _ _ => Scalar.compare?_eq_eq_iff, Scalar.compare?_swap, fun _ _ _ => Scalar.compare?_trans,
    fun a b h c => ⟨?_, Scalar.compare?_congr h c, ?_⟩, fun _ _ => ?_,
    Scalar.compare?_text_eq_lt_iff⟩
  · intro holds
    have hholds (op : String) (c : Comparison) (h : Comparison.ofText? op = some c) :
        holds op = c.accepts (Comparison.orderOf? (left.column? row) right.toScalar?) :=
      Condition.admits_of_ofText? row left right h
    rw [hholds "=" .equal rfl, hholds "!=" .unequal rfl, hholds "<" .less rfl,
      hholds "<=" .lessEqual rfl, hholds ">" .greater rfl, hholds ">=" .greaterEqual rfl,
      Comparison.count_accepts]
    refine ⟨rfl, Comparison.accepts_lessEqual _, Comparison.accepts_greaterEqual _, ?_, ?_⟩
    · exact Bool.toNat_le _
    · rw [Bool.toNat_eq_one, Comparison.orderOf?_isSome_iff]
      constructor
      · intro ⟨a, b, ha, hb, h⟩
        obtain ⟨column, hleft, hget⟩ := Value.column?_eq_some_iff.mp ha
        exact ⟨column, a, b, hleft, hget, Value.toScalar?_eq_some_iff.mp hb, h⟩
      · intro ⟨column, a, b, hleft, hget, hright, h⟩
        exact ⟨a, b, Value.column?_eq_some_iff.mpr ⟨column, hleft, hget⟩,
          Value.toScalar?_eq_some_iff.mpr hright, h⟩
  · rw [Bool.eq_iff_iff, ← Scalar.compare?_eq_eq_iff, ← Scalar.compare?_eq_eq_iff,
      Scalar.compare?_congr h c]
  · rw [Scalar.compare?_swap a c, Scalar.compare?_swap b c, Scalar.compare?_congr h c]
  · exact Binary64.equals_iff.mpr ⟨0, Binary64.key?_ofRank_zero _, Binary64.key?_ofRank_zero _⟩

/-- The two zeros are one value to every comparison. -/
theorem comparisons_coherent_zeros :
    let row := Row.empty.set "x" (.number (.ofRank true 0))
    let zero : Scalar := .number (.ofRank false 0)
    let one : Scalar := .number (.ofRank false 0x3ff0000000000000)
    (Condition.admits ⟨.name "x", "<=", .scalar zero⟩ row =
      (Condition.admits ⟨.name "x", "<", .scalar zero⟩ row ||
        Condition.admits ⟨.name "x", "=", .scalar zero⟩ row)) ∧
    Scalar.compare? (.number (.ofRank true 0)) one = zero.compare? one ∧
    zero.compare? one = some .lt := by
  intro row zero one
  have ⟨hrow, _, _, _, _, _, hcongr, _, _⟩ := comparisons_coherent
  exact ⟨(hrow row (.name "x") (.scalar zero)).2.1,
    (hcongr (.number (.ofRank true 0)) zero (by decide) one).2.1, by decide⟩

end MiniSql
