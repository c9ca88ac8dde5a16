import Mathlib.Data.List.Perm.Subperm
import MiniSql.Proofs.Fitting

/-!
# What an insertion keeps

An insertion that succeeds adds one row, made by setting its target columns one after another. Set
twice, a column holds the last of its values only; so the row holds every value exactly if no target
is repeated (`Row.holdsEach_ofList_iff`). Listed targets are checked for repetition, while the
columns of the table, which are the targets of an insertion without a list, are taken as the table
was made: `insertion_keeps_values_iff` says for every store that can be built which insertions keep
all their values.
-/

namespace MiniSql

/-! ## Rows made by setting columns -/

namespace Row

variable {row : Row} {entries : List (String × Scalar)} {columns : List String}
  {values : List Scalar} {column : String} {value : Scalar}

/-- Each value has a column of its own, which is its target. -/
structure HoldsEach (row : Row) (targets : List String) (values : List Scalar) : Prop where
  size : row.entries.length = values.length
  get : ∀ (k : Nat) (column : String) (value : Scalar), targets[k]? = some column →
    values[k]? = some value → row.get? column = some value

def setAll (row : Row) (entries : List (String × Scalar)) : Row :=
  entries.foldl (fun row entry => row.set entry.1 entry.2) row

theorem setAll_cons (row : Row) (entry : String × Scalar) (entries : List (String × Scalar)) :
    row.setAll (entry :: entries) = (row.set entry.1 entry.2).setAll entries := rfl

/-- A column that is new to the row is added behind the others. -/
theorem names_set (row : Row) (column : String) (value : Scalar) :
    (row.set column value).names =
      if column ∈ row.names then row.names else row.names ++ [column] :=
  Entries.names_set column value row.entries

/-- Columns that are not set keep their values. -/
theorem get?_setAll_of_notMem (row : Row) (h : column ∉ Entries.names entries) :
    (row.setAll entries).get? column = row.get? column := by
  induction entries generalizing row with
  | nil => rfl
  | cons entry entries ih =>
    rw [Entries.names_cons, List.mem_cons, not_or] at h
    rw [setAll_cons, ih _ h.2, get?_set, if_neg (Ne.symm h.1)]

/-- Columns that are set once have the value that is set. -/
theorem get?_setAll_of_mem (row : Row) (hnodup : (Entries.names entries).Nodup)
    (h : (column, value) ∈ entries) : (row.setAll entries).get? column = some value := by
  induction entries generalizing row with
  | nil => nomatch h
  | cons entry entries ih =>
    rw [Entries.names_cons, List.nodup_cons] at hnodup
    rw [setAll_cons]
    rcases List.mem_cons.mp h with rfl | hrest
    · -- no later entry sets the column again
      rw [get?_setAll_of_notMem _ hnodup.1, get?_set, if_pos rfl]
    · exact ih _ hnodup.2 hrest

/-- New columns are added in the order in which they are set. -/
theorem names_setAll_of_nodup (row : Row) (hnodup : (row.names ++ Entries.names entries).Nodup) :
    (row.setAll entries).names = row.names ++ Entries.names entries := by
  induction entries generalizing row with
  | nil => exact (List.append_nil _).symm
  | cons entry entries ih =>
    have hnew : entry.1 ∉ row.names := fun hmem =>
      (List.nodup_append.mp hnodup).2.2 _ hmem _ List.mem_cons_self rfl
    have hset : (row.set entry.1 entry.2).names = row.names ++ [entry.1] := by
      rw [names_set, if_neg hnew]
    have hsplit : row.names ++ Entries.names (entry :: entries) =
        (row.names ++ [entry.1]) ++ Entries.names entries := by
      rw [Entries.names_cons, List.append_assoc, List.singleton_append]
    rw [hsplit, ← hset] at hnodup ⊢
    rw [setAll_cons]
    exact ih _ hnodup

theorem mem_names_of_mem_setAll (row : Row) (h : column ∈ (row.setAll entries).names) :
    column ∈ row.names ∨ column ∈ Entries.names entries := by
  induction entries generalizing row with
  | nil => exact .inl h
  | cons entry entries ih =>
    have hset : column ∈ (row.set entry.1 entry.2).names →
        column ∈ row.names ∨ column = entry.1 := by
      rw [names_set]
      split
      · exact .inl
      · simp
    rw [Entries.names_cons, List.mem_cons]
    rcases ih _ h with hrow | hlater
    · exact (hset hrow).imp_right .inl
    · exact .inr (.inr hlater)

theorem names_zip (h : columns.length = values.length) :
    Entries.names (columns.zip values) = columns :=
  List.map_fst_zip (Nat.le_of_eq h)

theorem length_names (row : Row) : row.names.length = row.entries.length :=
  List.length_map _

/-- A row with as many entries as there are values has no column twice. -/
theorem nodup_of_size (h : columns.length = values.length)
    (hsize : (ofList (columns.zip values)).entries.length = values.length) : columns.Nodup := by
  have hnodup := nodup_names_ofList (columns.zip values)
  have hsubset : (ofList (columns.zip values)).names ⊆ columns := by
    intro column hcolumn
    rcases mem_names_of_mem_setAll empty hcolumn with hempty | hmem
    · nomatch hempty
    · rwa [names_zip h] at hmem
  -- a row with as many columns as there are targets has each of them once
  have hlength : columns.length ≤ (ofList (columns.zip values)).names.length := by
    rw [length_names, hsize]
    exact Nat.le_of_eq h
  have hperm := (List.subperm_of_subset hnodup hsubset).perm_of_length_le hlength
  exact hperm.nodup_iff.mp hnodup

theorem names_ofList_zip (h : columns.length = values.length) (hnodup : columns.Nodup) :
    (ofList (columns.zip values)).names = columns := by
  have hentries : (Entries.names (columns.zip values)).Nodup := by rwa [names_zip h]
  have hall : (ofList (columns.zip values)).names = Entries.names (columns.zip values) :=
    names_setAll_of_nodup empty hentries
  rwa [names_zip h] at hall

/-- A row holds all the values listed for it exactly if no column is listed twice. -/
theorem holdsEach_ofList_iff (h : columns.length = values.length) :
    (ofList (columns.zip values)).HoldsEach columns values ↔ columns.Nodup := by
  refine ⟨fun hholds => nodup_of_size h hholds.size, fun hnodup => ?_⟩
  have hentries : (Entries.names (columns.zip values)).Nodup := by rwa [names_zip h]
  refine ⟨?_, fun k column value hcolumn hvalue => ?_⟩
  · rw [← length_names, names_ofList_zip h hnodup, h]
  · have hzip : (columns.zip values)[k]? = some (column, value) :=
      List.getElem?_zip_eq_some.mpr ⟨hcolumn, hvalue⟩
    exact get?_setAll_of_mem empty hentries (List.mem_of_getElem? hzip)

end Row

/-! ## Insertions that are done -/

/-- An insertion that succeeds has a value for each of its columns, and none of those
listed twice. -/
theorem Insertion.insert_ok {i : Insertion} {store after : Store} (h : store.insert i = .ok after) :
    ∃ table, store.table? i.table = some table ∧
      (i.targetsIn table.columns).length = i.values.length ∧
      (i.columns ≠ [] → (i.targetsIn table.columns).Nodup) ∧
      after = store.put i.table (table.push (i.rowIn table.columns)) := by
  rcases fits_or_violates_in store i with ⟨table, htable, hfits⟩ | ⟨e, hviolates⟩
  · rw [insert_of_fits htable hfits] at h
    refine ⟨table, htable, hfits.arity, fun hlisted => ?_, (Except.ok.inj h).symm⟩
    rw [targetsIn, if_neg hlisted]
    exact hfits.nodup
  · rw [insert_of_violates hviolates] at h
    cases h

/-! ## Stores as they are built -/

/-- A way to change a store from outside. -/
inductive Store.Change
  | create (name : String) (columns : List String)
  /-- Makes a table with rows in it. -/
  | load (name : String) (columns : List String) (rows : List Row)
  | insert (i : Insertion)

namespace Store

/-- An insertion that fails changes nothing. -/
def apply (store : Store) : Change → Store
  | .create name columns => store.create name columns
  | .load name columns rows => store.put name ⟨columns, rows⟩
  | .insert i => (store.insert i).toOption.getD store

/-- The store that changes make, one after another, from one without tables. -/
def build (history : List Change) : Store := history.foldl apply empty

/-- The columns that a change gives to a table. -/
def Change.columnsOf? (name : String) : Change → Option (List String)
  | .create other columns => if other = name then some columns else none
  | .load other columns _ => if other = name then some columns else none
  | .insert _ => none

/-- The columns that a table was made with, when it was made last. -/
def madeWith? (history : List Change) (name : String) : Option (List String) :=
  history.reverse.findSome? (Change.columnsOf? name)

theorem schema?_put (store : Store) (name other : String) (table : Table) :
    (store.put name table).schema? other =
      if name = other then some table.columns else store.schema? other := by
  rw [schema?, table?_put]
  split <;> rfl

theorem schema?_apply (store : Store) (change : Change) (name : String) :
    (store.apply change).schema? name = (change.columnsOf? name).or (store.schema? name) := by
  cases change with
  | create other columns =>
    rw [apply, create, schema?_put, Change.columnsOf?]
    split <;> rfl
  | load other columns rows =>
    rw [apply, schema?_put, Change.columnsOf?]
    split <;> rfl
  | insert i =>
    rw [apply, Change.columnsOf?, Option.none_or]
    cases hinsert : store.insert i with
    | error e => rfl
    | ok after =>
      -- the table stays as it was made, and has a row more
      obtain ⟨table, htable, -, -, rfl⟩ := Insertion.insert_ok hinsert
      show (store.put i.table (table.push _)).schema? name = store.schema? name
      rw [schema?_put]
      split
      · next hname =>
        rw [← hname, schema?, htable]
        rfl
      · rfl

/-- The columns of a table are those that it was last made with. -/
theorem schema?_build (history : List Change) (name : String) :
    (build history).schema? name = madeWith? history name := by
  induction history using List.reverseRecOn with
  | nil => rfl
  | append_singleton history change ih =>
    rw [build, List.foldl_append, List.foldl_cons, List.foldl_nil, schema?_apply]
    rw [madeWith?, List.reverse_append, List.reverse_singleton, List.singleton_append,
      List.findSome?_cons]
    rw [show (history.foldl apply empty).schema? name = madeWith? history name from ih]
    cases change.columnsOf? name <;> rfl

end Store

/-! ## Which insertions keep their values -/

/-- A successful insertion adds one row to its table. The row holds every value exactly if the
columns that receive them are pairwise different; columns that the statement lists are, but those
that a table was made with need not be. -/
theorem insertion_keeps_values_iff (history : List Store.Change) (i : Insertion) {after : Store}
    (h : (Store.build history).insert i = .ok after) :
    ∃ columns rows row, Store.madeWith? history i.table = some columns ∧
      (Store.build history).rows? i.table = some rows ∧
      after.rows? i.table = some (rows ++ [row]) ∧
      (row.HoldsEach (i.targetsIn columns) i.values ↔ i.columns ≠ [] ∨ columns.Nodup) := by
  obtain ⟨table, htable, hlength, hlisted, rfl⟩ := Insertion.insert_ok h
  have hcolumns : Store.madeWith? history i.table = some table.columns := by
    rw [← Store.schema?_build, Store.schema?, htable]
    rfl
  refine ⟨table.columns, table.rows, i.rowIn table.columns, hcolumns, ?_, ?_, ?_⟩
  · rw [Store.rows?, htable]
    rfl
  · rw [Store.rows?, Store.table?_put, if_pos rfl]
    rfl
  · rw [Insertion.rowIn, Row.holdsEach_ofList_iff hlength]
    by_cases hempty : i.columns = []
    · simp [Insertion.targetsIn, hempty]
    · exact iff_of_true (hlisted hempty) (.inl hempty)

/-- Both values are kept, each in the column listed for it. -/
theorem values_kept_as_listed : ∃ after,
    (Store.build [.create "t" ["a"], .load "t" ["a", "b"] []]).insert
      ⟨"t", ["b", "a"], [.boolean true, .boolean false]⟩ = .ok after ∧
    ∃ columns rows row,
      Store.madeWith? [.create "t" ["a"], .load "t" ["a", "b"] []] "t" = some columns ∧
      (Store.build [.create "t" ["a"], .load "t" ["a", "b"] []]).rows? "t" = some rows ∧
      after.rows? "t" = some (rows ++ [row]) ∧
      (row.HoldsEach ["b", "a"] [.boolean true, .boolean false] ↔
        ["b", "a"] ≠ [] ∨ columns.Nodup) :=
  ⟨_, rfl, insertion_keeps_values_iff _ ⟨"t", ["b", "a"], [.boolean true, .boolean false]⟩ rfl⟩

/-- A table made with a column twice takes two values, and keeps one. -/
theorem value_lost_in_repeated_column : ∃ after row,
    (Store.build [.create "t" ["a", "a"]]).insert ⟨"t", [], [.boolean true, .boolean false]⟩ =
      .ok after ∧
    after.rows? "t" = some [row] ∧ row.entries = [("a", .boolean false)] ∧
    ¬ row.HoldsEach ["a", "a"] [.boolean true, .boolean false] := by
  refine ⟨_, _, rfl, rfl, rfl, fun h => ?_⟩
  nomatch h.size

end MiniSql
