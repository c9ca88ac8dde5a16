import Mathlib.Data.List.Basic
import MiniSql.Proofs.Compilation

/-!
# The first row of every group

Two rows are in one group if they agree on every grouping column: both lack it, or both have it with
equal values. This relation is symmetric and transitive, but it is not reflexive: a row with `nan`
in a grouping column is in no group, not even with itself (`sameGroup_self`).

A selection compares a row only with the rows kept before it. As the relation is transitive, it
keeps those rows that share their group with no row before them, whether that was kept or not
(`firstRows_eq_openings`), and so one of each group (`select_first_of_groups`).
-/

namespace MiniSql

/-! ## Equality of scalars -/

theorem Binary64.equals_comm (a b : Binary64) : a.equals b = b.equals a := by
  rw [Bool.eq_iff_iff, equals_iff, equals_iff]
  exact exists_congr fun _ => And.comm

theorem Binary64.equals_self {a : Binary64} (h : a ≠ .nan) : a.equals a = true := by
  cases a with
  | nan => exact absurd rfl h
  | number negative rank hrank => exact equals_iff.mpr ⟨_, rfl, rfl⟩

theorem Scalar.equals_comm (a b : Scalar) : a.equals b = b.equals a := by
  cases a with
  | number x => cases b with
    | number y => exact Binary64.equals_comm x y
    | _ => rfl
  | text x => cases b with
    | text y => exact Bool.beq_comm
    | _ => rfl
  | boolean x => cases b with
    | boolean y => exact Bool.beq_comm
    | _ => rfl

theorem Scalar.equals_self {a : Scalar} (h : a ≠ .number .nan) : a.equals a = true := by
  cases a with
  | number x => exact Binary64.equals_self fun hx => h (congrArg _ hx)
  | text x => exact beq_self_eq_true x
  | boolean x => exact beq_self_eq_true x

/-- NaN equals nothing. -/
theorem Scalar.nan_equals (a : Scalar) : (Scalar.number .nan).equals a = false := by
  cases a with
  | number x => cases x <;> rfl
  | _ => rfl

/-! ## Rows of one group -/

namespace Row

theorem agreesOn_comm (column : String) (a b : Row) :
    a.agreesOn column b = b.agreesOn column a := by
  unfold agreesOn
  cases a.get? column with
  | none => cases b.get? column <;> rfl
  | some x => cases b.get? column with
    | none => rfl
    | some y => exact Scalar.equals_comm x y

theorem sameGroup_comm (keys : List String) (a b : Row) :
    a.sameGroup keys b = b.sameGroup keys a := by
  rw [sameGroup, sameGroup]
  exact congrArg _ (funext fun key => agreesOn_comm key a b)

/-- A row with NaN in a column agrees with no row on it, not even with itself. -/
theorem agreesOn_of_nan {column : String} {a b : Row} (h : a.get? column = some (.number .nan)) :
    a.agreesOn column b = false := by
  unfold agreesOn
  rw [h]
  cases b.get? column with
  | none => rfl
  | some y => exact Scalar.nan_equals y

/-- The two zeros are one value of a key. -/
theorem agreesOn_of_zeros {column : String} {a b : Row} {negative negative' : Bool}
    {h h' : 0 ≤ Binary64.infiniteRank}
    (ha : a.get? column = some (.number (.number negative 0 h)))
    (hb : b.get? column = some (.number (.number negative' 0 h'))) :
    a.agreesOn column b = true := by
  unfold agreesOn
  rw [ha, hb]
  cases negative <;> cases negative' <;> rfl

/-- Only `nan` keeps a row from being in one group with itself. -/
theorem sameGroup_self {keys : List String} {row : Row}
    (h : ∀ key ∈ keys, row.get? key ≠ some (.number .nan)) : row.sameGroup keys row = true := by
  rw [sameGroup, List.all_eq_true]
  intro key hkey
  have hvalue := h key hkey
  unfold agreesOn
  cases hget : row.get? key with
  | none => rfl
  | some x => exact Scalar.equals_self fun hx => hvalue (by rw [hget, hx])

end Row

/-! ## Places of rows -/

section Places

variable {keys : List String} {rows : List Row} {i j k : Nat}

/-- There are rows in these two places, and they are in one group. -/
def SameGroupAt (keys : List String) (rows : List Row) (i j : Nat) : Prop :=
  ∃ a b, rows[i]? = some a ∧ rows[j]? = some b ∧ a.sameGroup keys b = true

theorem SameGroupAt.symm (h : SameGroupAt keys rows i j) : SameGroupAt keys rows j i := by
  obtain ⟨a, b, ha, hb, hab⟩ := h
  exact ⟨b, a, hb, ha, Row.sameGroup_comm keys a b ▸ hab⟩

/-- To be in one group is transitive for the places of rows. -/
theorem SameGroupAt.trans (h : SameGroupAt keys rows i j) (h' : SameGroupAt keys rows j k) :
    SameGroupAt keys rows i k := by
  obtain ⟨a, b, ha, hb, hab⟩ := h
  obtain ⟨b', c, hb', hc, hbc⟩ := h'
  obtain rfl := Option.some.inj (hb.symm.trans hb')
  exact ⟨a, c, ha, hc, Row.sameGroup_trans hab hbc⟩

/-- There is a row in this place, and no row before it is in one group with it. -/
def OpensGroup (keys : List String) (rows : List Row) (k : Nat) : Prop :=
  k < rows.length ∧ ∀ j < k, ¬ SameGroupAt keys rows j k

/-- No two rows open the same group. -/
theorem OpensGroup.eq_of_sameGroupAt (hi : OpensGroup keys rows i) (hj : OpensGroup keys rows j)
    (h : SameGroupAt keys rows i j) : i = j := by
  rcases Nat.lt_trichotomy i j with hij | hij | hij
  · exact absurd h (hj.2 i hij)
  · exact hij
  · exact absurd h.symm (hi.2 j hij)

/-- The first place of a group opens it. -/
theorem exists_opensGroup (h : SameGroupAt keys rows k k) :
    ∃ i ≤ k, OpensGroup keys rows i ∧ SameGroupAt keys rows i k := by
  induction k using Nat.strongRecOn with
  | _ k ih =>
    by_cases hearlier : ∃ j < k, SameGroupAt keys rows j k
    · obtain ⟨j, hjk, hsame⟩ := hearlier
      obtain ⟨i, hij, hopens, hsame'⟩ := ih j hjk (hsame.trans hsame.symm)
      exact ⟨i, by omega, hopens, hsame'.trans hsame⟩
    · have hlt : k < rows.length := by
        obtain ⟨row, -, hrow, -⟩ := h
        exact (List.getElem?_eq_some_iff.mp hrow).1
      exact ⟨k, Nat.le_refl k, ⟨hlt, fun j hj hsame => hearlier ⟨j, hj, hsame⟩⟩, h⟩

/-- The places of the rows that `firstRows` keeps. -/
def openings (keys : List String) (rows : List Row) : List Nat :=
  (rows.zipIdx.filter fun (row, place) =>
    (rows.take place).all fun earlier => !earlier.sameGroup keys row).map Prod.snd

/-- Openings are listed in the order of the rows. -/
theorem pairwise_openings : (openings keys rows).Pairwise (· < ·) := by
  have hplaces : (rows.zipIdx.map Prod.snd).Pairwise (· < ·) := by
    rw [List.zipIdx_map_snd]
    exact List.pairwise_lt_range'
  exact hplaces.sublist (List.filter_sublist.map _)

theorem all_take_iff {row : Row} (hrow : rows[k]? = some row) :
    ((rows.take k).all fun earlier => !earlier.sameGroup keys row) = true ↔
      ∀ j < k, ¬ SameGroupAt keys rows j k := by
  rw [List.all_eq_true]
  constructor
  · rintro hall j hjk ⟨earlier, row', hearlier, hrow', hsame⟩
    obtain rfl := Option.some.inj (hrow.symm.trans hrow')
    rw [← List.getElem?_take_of_lt hjk] at hearlier
    have hnot := hall earlier (List.mem_of_getElem? hearlier)
    rw [hsame] at hnot
    nomatch hnot
  · intro hfirst earlier hmem
    obtain ⟨j, hj⟩ := List.mem_iff_getElem?.mp hmem
    have hjk : j < k := by
      have hlt := (List.getElem?_eq_some_iff.mp hj).1
      rw [List.length_take] at hlt
      omega
    rw [List.getElem?_take_of_lt hjk] at hj
    rw [Bool.not_eq_true', Bool.eq_false_iff]
    exact fun hsame => hfirst j hjk ⟨earlier, row, hj, hrow, hsame⟩

/-- The openings are the places that open groups. -/
theorem mem_openings : k ∈ openings keys rows ↔ OpensGroup keys rows k := by
  unfold openings OpensGroup
  rw [List.mem_map]
  constructor
  · rintro ⟨⟨row, place⟩, hmem, rfl⟩
    obtain ⟨hmem, hall⟩ := List.mem_filter.mp hmem
    have hrow := List.mem_zipIdx_iff_getElem?.mp hmem
    exact ⟨(List.getElem?_eq_some_iff.mp hrow).1, (all_take_iff hrow).mp hall⟩
  · rintro ⟨hlt, hfirst⟩
    have hrow := List.getElem?_eq_getElem hlt
    refine ⟨(rows[k], k), List.mem_filter.mpr ⟨?_, (all_take_iff hrow).mpr hfirst⟩, rfl⟩
    exact List.mem_zipIdx_iff_getElem?.mpr hrow

/-- The first rows of groups stand at the openings. -/
theorem firstRows_eq_openings :
    firstRows keys rows = (openings keys rows).filterMap (rows[·]?) := by
  rw [firstRows, openings, List.filterMap_map, ← List.filterMap_eq_map]
  refine List.filterMap_congr fun entry hentry => ?_
  exact (List.mem_zipIdx_iff_getElem?.mp (List.mem_of_mem_filter hentry)).symm

end Places

/-- Grouping keeps the rows at the openings. -/
theorem groupRows_eq_openings (key : String) (keys : List String) (rows : List Row) :
    groupRows (some (key :: keys)) rows = (openings (key :: keys) rows).filterMap (rows[·]?) :=
  (firstOfGroups_eq (key :: keys) [] rows [] fun _ => rfl).trans firstRows_eq_openings

/-! ## Selections -/

/-- A selection with grouping columns answers with the rows that open a group, in their order. No
two of them are in one group, and a row without `nan` in its key is in one group with exactly one of
them, which does not come after it. Without grouping columns no row is left out. -/
theorem select_first_of_groups (store : Store) (table : String) (columns : List String)
    (condition? : Option Condition) (key : String) (keys : List String) :
    (∀ found, store.table? table = some found →
      let rows := found.rows.filter (Condition.admits? condition?)
      ∃ kept : List Nat,
        store.select { table, columns, condition?, groupBy? := some (key :: keys) } =
          .ok (projectRows columns (kept.filterMap (rows[·]?))) ∧
        kept.Pairwise (· < ·) ∧
        (∀ k, k ∈ kept ↔ OpensGroup (key :: keys) rows k) ∧
        (∀ i ∈ kept, ∀ j ∈ kept, i ≠ j → ¬ SameGroupAt (key :: keys) rows i j) ∧
        ∀ k row, rows[k]? = some row →
          (∀ column ∈ key :: keys, row.get? column ≠ some (.number .nan)) →
          ∃ i ∈ kept, i ≤ k ∧ SameGroupAt (key :: keys) rows i k ∧
            ∀ j ∈ kept, SameGroupAt (key :: keys) rows j k → j = i) ∧
    store.select { table, columns, condition?, groupBy? := some [] } =
      store.select { table, columns, condition?, groupBy? := none } ∧
    ∀ (column : String) (a b : Row),
      (a.get? column = some (.number .nan) → a.agreesOn column b = false) ∧
      ∀ negative negative' h h', a.get? column = some (.number (.number negative 0 h)) →
        b.get? column = some (.number (.number negative' 0 h')) → a.agreesOn column b = true := by
  refine ⟨?_, rfl, fun column a b => ⟨Row.agreesOn_of_nan, fun _ _ _ _ => Row.agreesOn_of_zeros⟩⟩
  intro found hfound rows
  refine ⟨openings (key :: keys) rows, ?_, pairwise_openings, fun k => mem_openings,
    fun i hi j hj hne h => ?_, fun k row hrow hkey => ?_⟩
  · rw [Store.select]
    simp only [hfound]
    rw [Query.answer, groupRows_eq_openings]
  · exact hne ((mem_openings.mp hi).eq_of_sameGroupAt (mem_openings.mp hj) h)
  · have hself : SameGroupAt (key :: keys) rows k k :=
      ⟨row, row, hrow, hrow, Row.sameGroup_self hkey⟩
    obtain ⟨i, hik, hopens, hsame⟩ := exists_opensGroup hself
    refine ⟨i, mem_openings.mpr hopens, hik, hsame, fun j hj hsame' => ?_⟩
    exact (mem_openings.mp hj).eq_of_sameGroupAt hopens (hsame'.trans hsame.symm)

/-- Each row with `nan` in its key opens a group of its own. -/
example :
    let key (x : Binary64) : Row := .ofList [("a", .number x)]
    groupRows (some ["a"])
        [key (.ofRank true 0), key (.ofRank false 0), key .nan, key .nan, .empty] =
      [key (.ofRank true 0), key .nan, key .nan, .empty] := by decide +kernel

end MiniSql
