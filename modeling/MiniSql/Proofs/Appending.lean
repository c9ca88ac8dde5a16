import MiniSql.Proofs.Insertion
import MiniSql.Proofs.Requests

/-!
# Insertions only append

An insertion that is done adds one row at the end of its table, and one that is refused changes
nothing. `Store.Grown` says what requests may do to a store: its tables keep their columns and the
rows they have, and get as many rows more as insertions into them were done. One request does no
more (`Store.grown_reply`), hence neither does any number of them (`insertions_append`).
-/

namespace MiniSql

/-! ## The row of an insertion -/

namespace Insertion

variable {i : Insertion} {columns : List String}

/-- An insertion that fits names columns of the table only. -/
theorem mem_targetsIn (h : i.Fits columns) {column : String}
    (hcolumn : column ∈ i.targetsIn columns) : column ∈ columns := by
  rw [targetsIn] at hcolumn
  split at hcolumn
  · exact hcolumn
  · exact h.known column hcolumn

/-- The row of an insertion that fits has no column besides those of the table. -/
theorem names_rowIn_subset (h : i.Fits columns) : (i.rowIn columns).names ⊆ columns := by
  intro column hcolumn
  rcases Row.mem_names_of_mem_setAll Row.empty hcolumn with hempty | hmem
  · nomatch hempty
  · rw [Row.names_zip h.arity] at hmem
    exact mem_targetsIn h hmem

end Insertion

/-! ## Many requests -/

/-- A backend's answers to requests that are made one after another. -/
def Backend.answers {σ : Type} (b : Backend σ) (state : σ) :
    List Request → List (Except BackendError Value)
  | [] => []
  | r :: rs => (b.reply r state).answer :: b.answers (b.reply r state).state rs

/-- The request adds a row to the table, if it is done. -/
def Request.insertsInto (name : String) : Request → Bool
  | .select _ => false
  | .insert i => i.table == name

namespace Store

/-- How many insertions into the table are done, of requests made one after another. -/
def insertionsDone (store : Store) (requests : List Request) (name : String) : Nat :=
  (requests.zip (backend.answers store requests)).countP fun (r, answer) =>
    r.insertsInto name && answer.toBool

/-- The tables are the same but for rows at the end: as many as given, each of which holds only
columns of its table and none of them twice. -/
structure Grown (store after : Store) (count : String → Nat) : Prop where
  names : after.tables.names = store.tables.names
  tables : ∀ name table, store.table? name = some table → ∃ rows : List Row,
    after.table? name = some { table with rows := table.rows ++ rows } ∧
      rows.length = count name ∧ ∀ row ∈ rows, row.names.Nodup ∧ row.names ⊆ table.columns

namespace Grown

variable {store after later : Store} {count count' : String → Nat}

theorem refl (store : Store) : store.Grown store fun _ => 0 := by
  refine ⟨rfl, fun name table htable => ⟨[], ?_, rfl, fun _ h => nomatch h⟩⟩
  rw [htable, List.append_nil]

/-- Stores grow step by step, and the counts of new rows add up. -/
theorem trans (h : store.Grown after count) (h' : after.Grown later count') :
    store.Grown later fun name => count name + count' name := by
  refine ⟨h'.names.trans h.names, fun name table htable => ?_⟩
  obtain ⟨rows, hafter, hlength, hrows⟩ := h.tables name table htable
  obtain ⟨rows', hlater, hlength', hrows'⟩ := h'.tables name _ hafter
  refine ⟨rows ++ rows', ?_, ?_, fun row hrow => ?_⟩
  · rw [hlater, List.append_assoc]
  · rw [List.length_append, hlength, hlength']
  · exact (List.mem_append.mp hrow).elim (hrows row) (hrows' row)

end Grown

variable {store : Store} {i : Insertion} {table : Table}

/-- An insertion that fits adds one row to its table and leaves the other tables alone. -/
theorem grown_put (htable : store.table? i.table = some table) (h : i.Fits table.columns) :
    store.Grown (store.put i.table (table.push (i.rowIn table.columns)))
      fun name => if i.table = name then 1 else 0 := by
  refine ⟨names_put htable _, fun name other hother => ?_⟩
  rw [table?_put]
  split
  · next hname =>
    obtain rfl := Option.some.inj (htable.symm.trans (hname ▸ hother))
    refine ⟨[i.rowIn table.columns], rfl, rfl, fun row hrow => ?_⟩
    obtain rfl := List.mem_singleton.mp hrow
    exact ⟨Row.nodup_names_ofList _, Insertion.names_rowIn_subset h⟩
  · exact (Grown.refl store).tables name other hother

/-- One request adds at most one row, and only a done insertion does. -/
theorem grown_reply (store : Store) (r : Request) :
    store.Grown (backend.reply r store).state fun name =>
      if r.insertsInto name && (backend.reply r store).answer.toBool then 1 else 0 := by
  cases r with
  | select q =>
    rw [(Evaluator.reply_select q store).2]
    exact Grown.refl store
  | insert i =>
    obtain ⟨hanswer, hstate⟩ := Evaluator.reply_insert i store
    rw [hanswer, hstate]
    rcases Insertion.fits_or_violates_in store i with ⟨table, htable, hfits⟩ | ⟨e, hviolates⟩
    · rw [Insertion.insert_of_fits htable hfits]
      simpa [Request.insertsInto, Except.map, Except.toBool, Except.toOption] using
        grown_put htable hfits
    · rw [Insertion.insert_of_violates hviolates]
      simpa [Except.map, Except.toBool, Except.toOption] using Grown.refl store

/-- Whatever is requested, tables grow by one row for each insertion done into them, and by nothing
else. -/
theorem grown_after (store : Store) (requests : List Request) :
    store.Grown (backend.after store requests) (store.insertionsDone requests) := by
  induction requests generalizing store with
  | nil => exact Grown.refl store
  | cons r requests ih =>
    have hcount (name : String) : store.insertionsDone (r :: requests) name =
        (if r.insertsInto name && (backend.reply r store).answer.toBool then 1 else 0) +
          (backend.reply r store).state.insertionsDone requests name := by
      rw [insertionsDone, Backend.answers, List.zip_cons_cons, List.countP_cons, Nat.add_comm]
      rfl
    rw [funext hcount]
    exact (grown_reply store r).trans (ih _)

end Store

/-- An insertion is done if it fits its table, and then adds its row to the end of that table and
does nothing else. Otherwise it is refused for the first condition that it violates, and does
nothing at all. So requests only ever add rows at the end of tables. -/
theorem insertions_append (store : Store) :
    (∀ i : Insertion,
      let reply := Store.backend.insert i store
      (reply.answer = .ok () ↔
        ∃ columns, store.schema? i.table = some columns ∧ i.Fits columns) ∧
      (∀ e, reply.answer = .error e ↔ i.Violates (store.schema? i.table) e) ∧
      (∀ e, reply.answer = .error e → reply.state = store) ∧
      (reply.answer = .ok () → ∃ table, store.table? i.table = some table ∧
        reply.state.tables.names = store.tables.names ∧
        ∀ name, reply.state.table? name =
          if i.table = name then some (table.push (i.rowIn table.columns))
          else store.table? name)) ∧
    ∀ requests : List Request,
      store.Grown (Store.backend.after store requests) (store.insertionsDone requests) := by
  refine ⟨fun i => ?_, store.grown_after⟩
  intro reply
  obtain ⟨hanswer, hstate⟩ := Store.backend_insert i store
  have hok : reply.answer = .ok () ↔ ∃ after, store.insert i = .ok after := by
    rw [hanswer]
    cases store.insert i <;> simp [Except.map]
  have herror (e : BackendError) : reply.answer = .error e ↔ store.insert i = .error e := by
    rw [hanswer]
    cases store.insert i <;> simp [Except.map]
  refine ⟨hok.trans Insertion.insert_ok_iff, fun e => (herror e).trans Insertion.insert_error_iff,
    fun e h => ?_, fun h => ?_⟩
  · rw [hstate, (herror e).mp h]
    rfl
  · obtain ⟨after, hafter⟩ := hok.mp h
    rw [hstate, hafter]
    obtain ⟨table, htable, -, -, rfl⟩ := Insertion.insert_ok hafter
    exact ⟨table, htable, Store.names_put htable _, fun name => Store.table?_put ..⟩

end MiniSql
