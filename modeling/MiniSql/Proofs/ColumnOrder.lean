import MiniSql.Proofs.Appending
import MiniSql.Proofs.Projection

/-!
# The order of the columns of an insertion

A row keeps its columns in the order in which they were inserted, and a selection of all columns
shows it. Nothing else does: a condition, a grouping and a projection read a row by the names of its
columns only.

So two rows are alike if each column has the same value in both (`Row.Alike`), and two stores if
their tables hold alike rows in the same order (`Store.Alike`). Every request preserves this
(`Store.Alike.reply`), and selections that name their columns cannot tell such stores apart
(`Store.Alike.select_eq`). An insertion with its columns in another order makes a store alike
(`column_order_unobserved`).
-/

namespace MiniSql

/-! ## Rows that are read alike -/

/-- Each column has the same value in both rows, or is missing from both. -/
def Row.Alike (a b : Row) : Prop := ∀ column, a.get? column = b.get? column

namespace Row.Alike

variable {a b : Row}

theorem refl (row : Row) : row.Alike row := fun _ => rfl

/-- Alike rows pass the same conditions. -/
theorem admits?_eq (h : a.Alike b) (c? : Option Condition) :
    Condition.admits? c? a = Condition.admits? c? b := by
  cases c? with
  | none => rfl
  | some c => exact (Value.ofCondition c).admits_congr fun column _ => h column

/-- Alike rows have the same keys. -/
theorem key_eq (h : a.Alike b) (columns : List String) : a.key columns = b.key columns :=
  List.map_congr_left fun column _ => h column

/-- Alike rows have the same projections, to the last entry: the columns asked for fix the order. -/
theorem project_eq (h : a.Alike b) (columns : List String) :
    a.project columns = b.project columns := by
  rw [Row.project, Row.project]
  refine congrArg Row.mk (List.filterMap_congr fun column _ => ?_)
  rw [h column]

end Row.Alike

/-! ## Selections from rows that are read alike -/

section Rows

variable {rows rows' : List Row}

/-- From alike rows the same places are kept as the first of their groups. -/
theorem firstOfGroups_alike (h : List.Forall₂ Row.Alike rows rows') (columns : List String)
    (seen : List (List (Option Scalar))) :
    List.Forall₂ Row.Alike (firstOfGroups columns seen rows)
      (firstOfGroups columns seen rows') := by
  induction h generalizing seen with
  | nil => exact .nil
  | cons halike _ ih =>
    rw [firstOfGroups, firstOfGroups, halike.key_eq]
    split
    · exact ih seen
    · exact .cons halike (ih _)

theorem groupRows_alike (h : List.Forall₂ Row.Alike rows rows') (groupBy? : Option (List String)) :
    List.Forall₂ Row.Alike (groupRows groupBy? rows) (groupRows groupBy? rows') := by
  match groupBy? with
  | none | some [] => exact h
  | some (key :: keys) => exact firstOfGroups_alike h (key :: keys) []

theorem filter_alike (h : List.Forall₂ Row.Alike rows rows') (c? : Option Condition) :
    List.Forall₂ Row.Alike (rows.filter (Condition.admits? c?))
      (rows'.filter (Condition.admits? c?)) :=
  List.rel_filter (fun _ _ halike => Bool.eq_iff_iff.mp (halike.admits?_eq c?)) h

/-- Once projected, alike rows are the same. -/
theorem map_project_eq (h : List.Forall₂ Row.Alike rows rows') (columns : List String) :
    rows.map (·.project columns) = rows'.map (·.project columns) := by
  induction h with
  | nil => rfl
  | cons halike _ ih => rw [List.map_cons, List.map_cons, halike.project_eq, ih]

/-- Rows that are read alike have the same answer if the query names its columns. -/
theorem Query.answer_eq (h : List.Forall₂ Row.Alike rows rows') {q : Query} (hq : q.columns ≠ []) :
    q.answer rows = q.answer rows' := by
  rw [Query.answer, Query.answer, projectRows, projectRows, if_neg hq, if_neg hq]
  exact map_project_eq (groupRows_alike (filter_alike h q.condition?) q.groupBy?) q.columns

end Rows

/-! ## Stores that are read alike -/

/-- The tables have the same columns, and rows that are read alike. -/
structure Table.Alike (a b : Table) : Prop where
  columns : a.columns = b.columns
  rows : List.Forall₂ Row.Alike a.rows b.rows

/-- The same names have tables, and tables that are read alike. -/
def Store.Alike (a b : Store) : Prop :=
  ∀ name, Option.Rel Table.Alike (a.table? name) (b.table? name)

theorem Table.Alike.refl (table : Table) : table.Alike table :=
  ⟨rfl, List.forall₂_same.mpr fun row _ => Row.Alike.refl row⟩

/-- Alike tables stay alike when alike rows are added. -/
theorem Table.Alike.push {a b : Table} (h : a.Alike b) {row row' : Row} (hrow : row.Alike row') :
    (a.push row).Alike (b.push row') :=
  ⟨h.columns, List.rel_append h.rows (.cons hrow .nil)⟩

namespace Store.Alike

variable {a b : Store}

theorem refl (store : Store) : store.Alike store := by
  intro name
  cases store.table? name with
  | none => exact .none
  | some table => exact .some (Table.Alike.refl table)

theorem put (h : a.Alike b) (name : String) {table table' : Table} (htable : table.Alike table') :
    (a.put name table).Alike (b.put name table') := by
  intro other
  rw [table?_put, table?_put]
  split
  · exact .some htable
  · exact h other

/-- Alike stores have the same tables, and each of them alike. -/
theorem table?_cases (h : a.Alike b) (name : String) :
    (a.table? name = none ∧ b.table? name = none) ∨
      ∃ table table', a.table? name = some table ∧ b.table? name = some table' ∧
        table.Alike table' := by
  have hname := h name
  generalize a.table? name = found at hname ⊢
  generalize b.table? name = found' at hname ⊢
  cases hname with
  | none => exact .inl ⟨rfl, rfl⟩
  | some halike => exact .inr ⟨_, _, rfl, rfl, halike⟩

/-- Alike stores have the same columns in every table. -/
theorem schema?_eq (h : a.Alike b) : a.schema? = b.schema? := by
  funext name
  rw [schema?, schema?]
  rcases h.table?_cases name with ⟨ha, hb⟩ | ⟨table, table', ha, hb, halike⟩
  · rw [ha, hb]
  · rw [ha, hb]
    exact congrArg some halike.columns

/-- Selections that name their columns cannot tell the stores apart. -/
theorem select_eq (h : a.Alike b) {q : Query} (hq : q.columns ≠ []) : a.select q = b.select q := by
  rw [Store.select, Store.select]
  rcases h.table?_cases q.table with ⟨ha, hb⟩ | ⟨table, table', ha, hb, halike⟩
  · rw [ha, hb]
  · rw [ha, hb]
    exact congrArg _ (Query.answer_eq halike.rows hq)

/-- An insertion is refused by both stores, or adds the same row to both. -/
theorem insert (h : a.Alike b) (i : Insertion) :
    (∃ e, a.insert i = .error e ∧ b.insert i = .error e) ∨
      ∃ a' b', a.insert i = .ok a' ∧ b.insert i = .ok b' ∧ a'.Alike b' := by
  rcases Insertion.fits_or_violates_in a i with ⟨table, ha, hfits⟩ | ⟨e, hviolates⟩
  · obtain ⟨hnone, -⟩ | ⟨_, table', hsome, hb, halike⟩ := h.table?_cases i.table
    · nomatch ha.symm.trans hnone
    · obtain rfl := Option.some.inj (ha.symm.trans hsome)
      have hfits' : i.Fits table'.columns := halike.columns ▸ hfits
      refine .inr ⟨_, _, Insertion.insert_of_fits ha hfits, Insertion.insert_of_fits hb hfits', ?_⟩
      rw [halike.columns]
      exact h.put i.table (halike.push (Row.Alike.refl _))
  · refine .inl ⟨e, Insertion.insert_of_violates hviolates, Insertion.insert_of_violates ?_⟩
    rwa [← h.schema?_eq]

/-- Any request leaves alike stores alike. -/
theorem reply (h : a.Alike b) (r : Request) :
    (Store.backend.reply r a).state.Alike (Store.backend.reply r b).state := by
  cases r with
  | select q =>
    rw [(Evaluator.reply_select q a).2, (Evaluator.reply_select q b).2]
    exact h
  | insert i =>
    rw [(Evaluator.reply_insert i a).2, (Evaluator.reply_insert i b).2]
    rcases h.insert i with ⟨e, ha, hb⟩ | ⟨a', b', ha, hb, halike⟩
    · rw [ha, hb]
      exact h
    · rw [ha, hb]
      exact halike

/-- So does any list of requests. -/
theorem after (h : a.Alike b) (requests : List Request) :
    (Store.backend.after a requests).Alike (Store.backend.after b requests) := by
  induction requests generalizing a b with
  | nil => exact h
  | cons r requests ih => exact ih (h.reply r)

end Store.Alike

/-! ## Columns in another order -/

/-- The order in which the entries of different columns are set does not matter to lookups. -/
theorem Row.ofList_alike {entries entries' : List (String × Scalar)}
    (hnodup : (Entries.names entries).Nodup) (hperm : entries.Perm entries') :
    (ofList entries).Alike (ofList entries') := by
  have hnames : (Entries.names entries).Perm (Entries.names entries') := hperm.map _
  intro column
  by_cases hmem : column ∈ Entries.names entries
  · obtain ⟨⟨_, value⟩, hvalue, rfl⟩ := List.mem_map.mp hmem
    exact (get?_setAll_of_mem empty hnodup hvalue).trans
      (get?_setAll_of_mem empty (hnames.nodup hnodup) (hperm.subset hvalue)).symm
  · exact (get?_setAll_of_notMem empty hmem).trans
      (get?_setAll_of_notMem empty (mt hnames.mem_iff.mpr hmem)).symm

namespace Insertion

/-- The insertion of values into the columns that are listed with them. -/
def ofEntries (table : String) (entries : Entries Scalar) : Insertion :=
  ⟨table, entries.names, entries.map Prod.snd⟩

variable {name : String} {columns : List String} {entries entries' : Entries Scalar}

theorem targetsIn_ofEntries (h : entries ≠ []) :
    (ofEntries name entries).targetsIn columns = entries.names :=
  if_neg (mt List.map_eq_nil_iff.mp h)

theorem rowIn_ofEntries (h : entries ≠ []) :
    (ofEntries name entries).rowIn columns = Row.ofList entries := by
  rw [rowIn, targetsIn_ofEntries h]
  refine congrArg Row.ofList ?_
  exact List.zip_map'.trans (List.map_id entries)

theorem fits_ofEntries_iff (h : entries ≠ []) : (ofEntries name entries).Fits columns ↔
    (∀ column ∈ entries.names, column ∈ columns) ∧ entries.names.Nodup := by
  refine ⟨fun hfits => ⟨hfits.known, hfits.nodup⟩, fun ⟨hknown, hnodup⟩ => ⟨hknown, hnodup, ?_⟩⟩
  rw [targetsIn_ofEntries h]
  exact (List.length_map _).trans (List.length_map _).symm

/-- Whether an insertion fits does not depend on the order in which it names its columns. -/
theorem Fits.of_perm (h : (ofEntries name entries).Fits columns) (hne : entries ≠ [])
    (hperm : entries.Perm entries') : (ofEntries name entries').Fits columns := by
  have hnames : entries.names.Perm entries'.names := hperm.map _
  have hne' : entries' ≠ [] := fun hnil => hne (hnil ▸ hperm).eq_nil
  obtain ⟨hknown, hnodup⟩ := (fits_ofEntries_iff hne).mp h
  exact (fits_ofEntries_iff hne').mpr
    ⟨fun column hcolumn => hknown column (hnames.mem_iff.mpr hcolumn), hnames.nodup hnodup⟩

end Insertion

/-- With its columns and their values in another order, an insertion is refused or done as before,
and makes a store that is read alike. -/
theorem Store.insert_alike (store : Store) (name : String) {entries entries' : Entries Scalar}
    (hne : entries ≠ []) (hperm : entries.Perm entries') :
    (∃ e e', store.insert (.ofEntries name entries) = .error e ∧
      store.insert (.ofEntries name entries') = .error e') ∨
      ∃ after after', store.insert (.ofEntries name entries) = .ok after ∧
        store.insert (.ofEntries name entries') = .ok after' ∧ after.Alike after' := by
  have hne' : entries' ≠ [] := fun h => hne (h ▸ hperm).eq_nil
  rcases Insertion.fits_or_violates_in store (.ofEntries name entries) with
    ⟨table, htable, hfits⟩ | ⟨e, hviolates⟩
  · have hfits' := hfits.of_perm hne hperm
    refine .inr ⟨_, _, Insertion.insert_of_fits htable hfits,
      Insertion.insert_of_fits htable hfits', ?_⟩
    rw [Insertion.rowIn_ofEntries hne, Insertion.rowIn_ofEntries hne']
    exact (Alike.refl store).put name
      ((Table.Alike.refl table).push (Row.ofList_alike hfits.nodup hperm))
  · rcases Insertion.fits_or_violates_in store (.ofEntries name entries') with
      ⟨table, htable, hfits'⟩ | ⟨e', hviolates'⟩
    · have hfits := hfits'.of_perm hne' hperm.symm
      have hinsert := Insertion.insert_of_violates hviolates
      rw [Insertion.insert_of_fits (i := .ofEntries name entries) htable hfits] at hinsert
      nomatch hinsert
    · exact .inl ⟨e, e', Insertion.insert_of_violates hviolates,
        Insertion.insert_of_violates hviolates'⟩

/-- The order in which an insertion lists its columns cannot be seen: insertions that differ in it
only are both done or both refused, and whatever is requested afterwards, a selection that names its
columns has the same answer behind either. -/
theorem column_order_unobserved (store : Store) (name : String) {entries entries' : Entries Scalar}
    (hne : entries ≠ []) (hperm : entries.Perm entries') :
    let reply := Store.backend.insert (.ofEntries name entries) store
    let reply' := Store.backend.insert (.ofEntries name entries') store
    (reply.answer = .ok () ↔ reply'.answer = .ok ()) ∧
    ∀ (requests : List Request) (q : Query), q.columns ≠ [] →
      (Store.backend.select q (Store.backend.after reply.state requests)).answer =
        (Store.backend.select q (Store.backend.after reply'.state requests)).answer := by
  intro reply reply'
  obtain ⟨hanswer, hstate⟩ := Store.backend_insert (.ofEntries name entries) store
  obtain ⟨hanswer', hstate'⟩ := Store.backend_insert (.ofEntries name entries') store
  have hboth : (reply.answer = .ok () ↔ reply'.answer = .ok ()) ∧
      reply.state.Alike reply'.state := by
    rw [hanswer, hanswer', hstate, hstate']
    rcases store.insert_alike name hne hperm with ⟨e, e', h, h'⟩ | ⟨after, after', h, h', halike⟩
    · rw [h, h']
      exact ⟨iff_of_false nofun nofun, Store.Alike.refl store⟩
    · rw [h, h']
      exact ⟨Iff.rfl, halike⟩
  obtain ⟨hiff, halike⟩ := hboth
  refine ⟨hiff, fun requests q hq => ?_⟩
  rw [(Store.backend_select q _).1, (Store.backend_select q _).1,
    (halike.after requests).select_eq hq]

/-- The rows that are inserted differ, and still no named column shows it. -/
theorem swapped_columns_unobserved :
    let store := Store.empty.create "t" ["a", "b"]
    let entries : Entries Scalar := [("a", .boolean true), ("b", .text "x")]
    let reply := Store.backend.insert (.ofEntries "t" entries) store
    let reply' := Store.backend.insert (.ofEntries "t" entries.reverse) store
    reply.answer = .ok () ∧ reply.state.rows? "t" ≠ reply'.state.rows? "t" ∧
    (reply.answer = .ok () ↔ reply'.answer = .ok ()) ∧
    ∀ (requests : List Request) (q : Query), q.columns ≠ [] →
      (Store.backend.select q (Store.backend.after reply.state requests)).answer =
        (Store.backend.select q (Store.backend.after reply'.state requests)).answer := by
  intro store entries reply reply'
  have hne : entries ≠ [] := List.cons_ne_nil _ _
  have hperm : entries.Perm entries.reverse := (List.reverse_perm entries).symm
  exact ⟨rfl, by decide, column_order_unobserved store "t" hne hperm⟩

end MiniSql
