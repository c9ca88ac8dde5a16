import Mathlib.Data.List.Induction
import MiniSql.Proofs.Meaning

/-!
# What an insertion has to meet

An insertion into a store is done or refused. It is done if it fits its table (`Insertion.Fits`),
and then adds one row at the end of that table. It is refused for the first condition that it
violates (`Insertion.Violates`). One of the two holds of every insertion (`fits_or_violates_in`),
and each of them determines what the store answers (`insert_of_fits`, `insert_of_violates`).
-/

namespace MiniSql

/-! ## Repeated columns -/

namespace Store

theorem firstRepeated?_append {seen before : List String} (hbefore : before.Nodup)
    (hseen : ∀ name ∈ before, name ∉ seen) (rest : List String) :
    firstRepeated? seen (before ++ rest) = firstRepeated? (seen ++ before) rest := by
  induction before generalizing seen with
  | nil => rw [List.nil_append, List.append_nil]
  | cons first before ih =>
    obtain ⟨hfirst, hbefore⟩ := List.nodup_cons.mp hbefore
    have hlater : ∀ name ∈ before, name ∉ seen ++ [first] := by
      intro name hname
      rw [List.mem_append, List.mem_singleton]
      rintro (hmem | rfl)
      · exact hseen name (List.mem_cons_of_mem _ hname) hmem
      · exact hfirst hname
    rw [List.cons_append, firstRepeated?, if_neg (hseen first List.mem_cons_self),
      ih hbefore hlater, List.append_assoc, List.singleton_append]

/-- A list without repetitions has no first repetition. -/
theorem firstRepeated?_of_nodup {names : List String} (h : names.Nodup) :
    firstRepeated? [] names = none := by
  have happend := firstRepeated?_append h (fun _ _ => List.not_mem_nil) []
  rwa [List.append_nil] at happend

/-- The first repetition is the first name that stands among those before it. -/
theorem firstRepeated?_of_split {before : List String} {name : String} (hbefore : before.Nodup)
    (hname : name ∈ before) (after : List String) :
    firstRepeated? [] (before ++ name :: after) = some name := by
  rw [firstRepeated?_append hbefore fun _ _ => List.not_mem_nil, List.nil_append, firstRepeated?,
    if_pos hname]

/-- A list with repetitions can be split at the first. -/
theorem exists_split_of_not_nodup {names : List String} (h : ¬ names.Nodup) :
    ∃ before name after, names = before ++ name :: after ∧ before.Nodup ∧ name ∈ before := by
  induction names using List.reverseRecOn with
  | nil => exact absurd List.nodup_nil h
  | append_singleton names name ih =>
    by_cases hnodup : names.Nodup
    · refine ⟨names, name, [], rfl, hnodup, ?_⟩
      by_contra hmem
      refine h (List.nodup_append.mpr ⟨hnodup, by simp, ?_⟩)
      rintro other hother _ hlast rfl
      exact hmem (List.mem_singleton.mp hlast ▸ hother)
    · obtain ⟨before, other, after, rfl, hbefore, hother⟩ := ih hnodup
      exact ⟨before, other, after ++ [name], by simp, hbefore, hother⟩

end Store

/-! ## Conditions on an insertion -/

namespace Insertion

/-- The columns that an insertion fills, given those of its table. -/
def targetsIn (i : Insertion) (columns : List String) : List String :=
  if i.columns = [] then columns else i.columns

/-- The row that an insertion adds, given the columns of its table. -/
def rowIn (i : Insertion) (columns : List String) : Row :=
  Row.ofList ((i.targetsIn columns).zip i.values)

/-- The insertion fits a table of these columns. -/
structure Fits (i : Insertion) (columns : List String) : Prop where
  known : ∀ column ∈ i.columns, column ∈ columns
  nodup : i.columns.Nodup
  arity : (i.targetsIn columns).length = i.values.length

/-- The first condition that an insertion violates, as the error about it: it needs a table, only
columns of that table, none of them twice, and as many values as target columns. -/
inductive Violates (i : Insertion) : Option (List String) → BackendError → Prop
  | table : Violates i none (.tableNotFound i.table)
  | known {columns before after : List String} {column : String}
      (hsplit : i.columns = before ++ column :: after) (hbefore : ∀ c ∈ before, c ∈ columns)
      (hcolumn : column ∉ columns) : Violates i (some columns) (.columnNotFound i.table column)
  | nodup {columns before after : List String} {column : String}
      (hknown : ∀ c ∈ i.columns, c ∈ columns) (hsplit : i.columns = before ++ column :: after)
      (hbefore : before.Nodup) (hcolumn : column ∈ before) :
      Violates i (some columns) (.duplicateColumn column)
  | arity {columns : List String} (hknown : ∀ c ∈ i.columns, c ∈ columns)
      (hnodup : i.columns.Nodup) (hne : (i.targetsIn columns).length ≠ i.values.length) :
      Violates i (some columns) (.arityMismatch (i.targetsIn columns).length i.values.length)

variable {i : Insertion} {columns : List String} {table : Table} {e : BackendError} {store : Store}

/-- An insertion fits, or violates one of the conditions before all others. -/
theorem fits_or_violates (i : Insertion) (columns : List String) :
    i.Fits columns ∨ ∃ e, i.Violates (some columns) e := by
  cases hunknown : i.columns.find? (· ∉ columns) with
  | some column =>
    obtain ⟨hcolumn, before, after, hsplit, hbefore⟩ := List.find?_eq_some_iff_append.mp hunknown
    exact .inr ⟨_, .known hsplit (by simpa using hbefore) (by simpa using hcolumn)⟩
  | none =>
    have hknown : ∀ column ∈ i.columns, column ∈ columns := by simpa using hunknown
    by_cases hnodup : i.columns.Nodup
    · by_cases harity : (i.targetsIn columns).length = i.values.length
      · exact .inl ⟨hknown, hnodup, harity⟩
      · exact .inr ⟨_, .arity hknown hnodup harity⟩
    · obtain ⟨before, column, after, hsplit, hbefore, hcolumn⟩ :=
        Store.exists_split_of_not_nodup hnodup
      exact .inr ⟨_, .nodup hknown hsplit hbefore hcolumn⟩

/-! ## What the store does -/

theorem targets_eq (i : Insertion) (table : Table) :
    Store.targets i table =
      match i.columns.find? (· ∉ table.columns), Store.firstRepeated? [] i.columns with
      | some column, _ => .error (.columnNotFound i.table column)
      | none, some column => .error (.duplicateColumn column)
      | none, none => .ok (i.targetsIn table.columns) := by
  rw [Store.targets, targetsIn]
  by_cases hlisted : i.columns = []
  · rw [if_pos hlisted, if_pos hlisted, hlisted]
    rfl
  · rw [if_neg hlisted, if_neg hlisted]
    cases i.columns.find? (· ∉ table.columns) with
    | some column => rfl
    | none => cases Store.firstRepeated? [] i.columns <;> rfl

/-- For an insertion that fits, the row is made of the columns and values listed. -/
theorem newRow_of_fits (h : i.Fits table.columns) :
    Store.newRow i table = .ok (i.rowIn table.columns) := by
  have hknown : i.columns.find? (· ∉ table.columns) = none := by simpa using h.known
  rw [Store.newRow, targets_eq]
  simp only [hknown, Store.firstRepeated?_of_nodup h.nodup, if_pos h.arity]
  rfl

/-- An insertion that does not fit is refused for the first condition that it violates. -/
theorem newRow_of_violates (h : i.Violates (some table.columns) e) :
    Store.newRow i table = .error e := by
  rw [Store.newRow, targets_eq]
  cases h with
  | known hsplit hbefore hcolumn =>
    have hunknown := List.find?_eq_some_iff_append (p := (· ∉ table.columns)).mpr
      ⟨by simpa using hcolumn, _, _, hsplit, by simpa using hbefore⟩
    simp only [hunknown]
  | @nodup _ _ after _ hknown hsplit hbefore hcolumn =>
    have hnone : i.columns.find? (· ∉ table.columns) = none := by simpa using hknown
    have hrepeat := Store.firstRepeated?_of_split hbefore hcolumn after
    rw [← hsplit] at hrepeat
    simp only [hnone, hrepeat]
  | arity hknown hnodup hne =>
    have hnone : i.columns.find? (· ∉ table.columns) = none := by simpa using hknown
    simp only [hnone, Store.firstRepeated?_of_nodup hnodup, if_neg hne]

theorem fits_or_violates_in (store : Store) (i : Insertion) :
    (∃ table, store.table? i.table = some table ∧ i.Fits table.columns) ∨
      ∃ e, i.Violates (store.schema? i.table) e := by
  rw [Store.schema?]
  cases store.table? i.table with
  | none => exact .inr ⟨_, .table⟩
  | some table => exact (i.fits_or_violates table.columns).imp_left fun h => ⟨table, rfl, h⟩

theorem insert_of_fits (htable : store.table? i.table = some table) (h : i.Fits table.columns) :
    store.insert i = .ok (store.put i.table (table.push (i.rowIn table.columns))) := by
  rw [Store.insert, htable]
  simp only [newRow_of_fits h]
  rfl

theorem insert_of_violates (h : i.Violates (store.schema? i.table) e) :
    store.insert i = .error e := by
  rw [Store.schema?] at h
  rw [Store.insert]
  cases htable : store.table? i.table with
  | none =>
    rw [htable] at h
    cases h
    rfl
  | some table =>
    rw [htable] at h
    simp only [newRow_of_violates h]
    rfl

/-- An insertion succeeds if its table exists and it fits the columns of the table. -/
theorem insert_ok_iff : (∃ after, store.insert i = .ok after) ↔
    ∃ columns, store.schema? i.table = some columns ∧ i.Fits columns := by
  constructor
  · rintro ⟨after, hafter⟩
    rcases fits_or_violates_in store i with ⟨table, htable, hfits⟩ | ⟨e, hviolates⟩
    · exact ⟨table.columns, by rw [Store.schema?, htable]; rfl, hfits⟩
    · rw [insert_of_violates hviolates] at hafter
      nomatch hafter
  · rintro ⟨columns, hschema, hfits⟩
    obtain ⟨table, htable, rfl⟩ := Option.map_eq_some_iff.mp hschema
    exact ⟨_, insert_of_fits htable hfits⟩

/-- An insertion fails with the first condition violated. -/
theorem insert_error_iff :
    store.insert i = .error e ↔ i.Violates (store.schema? i.table) e := by
  refine ⟨fun h => ?_, insert_of_violates⟩
  rcases fits_or_violates_in store i with ⟨table, htable, hfits⟩ | ⟨e', hviolates⟩
  · rw [insert_of_fits htable hfits] at h
    nomatch h
  · rw [insert_of_violates hviolates] at h
    obtain rfl := Except.error.inj h
    exact hviolates

end Insertion

end MiniSql
