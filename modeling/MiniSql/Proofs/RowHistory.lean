import Mathlib.Data.Finset.Card
import MiniSql.Proofs.Insertion

/-!
# Rows with a history

A row is changed by setting a column or by projecting. Whatever was done to it before, reading a
column gives the value that is current in its history: the one set last, unless a projection has
left the column out since (`get?_build_iff`).

A projection that asks for a column twice makes a row that holds it twice. Setting the column then
changes its first copy only, and the second one goes stale. But reading finds the first copy, and so
does every later projection, which is why the history alone decides.

Where columns are only set, a row holds each of them once, in the order in which they were set first
(`names_ofList`).
-/

namespace MiniSql.Row

/-- A change of a row. -/
inductive Change
  | set (column : String) (value : Scalar)
  | project (columns : List String)

/-- The row after a change. -/
def apply (row : Row) : Change → Row
  | .set column value => row.set column value
  | .project columns => row.project columns

/-- The row that a history of changes makes of the empty row. -/
def build (history : List Change) : Row := history.foldl apply empty

/-- The change leaves the column as it is: it sets another one, or it is a projection that asks for
the column. -/
inductive Change.Keeps (column : String) : Change → Prop
  | set {other : String} {value : Scalar} (h : other ≠ column) : Keeps column (.set other value)
  | project {columns : List String} (h : column ∈ columns) : Keeps column (.project columns)

/-- The column was set to the value, and no change since then was one of that column. -/
def IsCurrent (history : List Change) (column : String) (value : Scalar) : Prop :=
  ∃ earlier later, history = earlier ++ .set column value :: later ∧
    ∀ change ∈ later, change.Keeps column

variable {history : List Change} {change : Change} {column : String} {value : Scalar}

/-! ## One change -/

/-- A change gives a column its value, or keeps the value it had. -/
theorem get?_apply_iff (row : Row) : (row.apply change).get? column = some value ↔
    change = .set column value ∨ change.Keeps column ∧ row.get? column = some value := by
  cases change with
  | set other new =>
    show (row.set other new).get? column = _ ↔ _
    rw [get?_set]
    by_cases hother : other = column
    · subst hother
      have hkeeps : ¬ (Change.set other new).Keeps other := fun | .set h => h rfl
      simp [hkeeps]
    · rw [if_neg hother]
      simp [hother, Change.Keeps.set hother]
  | project columns =>
    show (row.project columns).get? column = _ ↔ _
    rw [get?_project]
    by_cases hmem : column ∈ columns
    · simp [hmem, Change.Keeps.project hmem]
    · have hkeeps : ¬ (Change.project columns).Keeps column := fun | .project h => hmem h
      simp [hmem, hkeeps]

theorem isCurrent_concat_iff : IsCurrent (history ++ [change]) column value ↔
    change = .set column value ∨ change.Keeps column ∧ IsCurrent history column value := by
  constructor
  · intro ⟨earlier, later, hhistory, hlater⟩
    rcases List.eq_nil_or_concat' later with rfl | ⟨later, last, rfl⟩
    · have hlast := (List.append_inj' hhistory rfl).2
      exact .inl (List.singleton_inj.mp hlast)
    · rw [← List.cons_append, ← List.append_assoc] at hhistory
      obtain ⟨hfront, hlast⟩ := List.append_inj' hhistory rfl
      rw [List.forall_mem_append, List.forall_mem_singleton, ← List.singleton_inj.mp hlast]
        at hlater
      exact .inr ⟨hlater.2, earlier, later, hfront, hlater.1⟩
  · intro h
    rcases h with rfl | ⟨hkeeps, earlier, later, rfl, hlater⟩
    · exact ⟨history, [], rfl, List.forall_mem_nil _⟩
    · refine ⟨earlier, later ++ [change], by simp, ?_⟩
      rw [List.forall_mem_append, List.forall_mem_singleton]
      exact ⟨hlater, hkeeps⟩

/-! ## A whole history -/

/-- A history is built change by change. -/
theorem build_concat (history : List Change) (change : Change) :
    build (history ++ [change]) = (build history).apply change := by
  unfold build
  rw [List.foldl_append, List.foldl_cons, List.foldl_nil]

theorem get?_build_iff : (build history).get? column = some value ↔
    IsCurrent history column value := by
  -- by induction on the history from its end, because its last change decides first
  induction history using List.reverseRecOn with
  | nil =>
    constructor
    · intro h
      nomatch h
    · intro ⟨earlier, later, hhistory, _⟩
      nomatch List.append_ne_nil_of_right_ne_nil earlier (List.cons_ne_nil _ later) hhistory.symm
  | append_singleton history change ih =>
    rw [build_concat, get?_apply_iff, isCurrent_concat_iff, ih]

/-! ## Columns that are only set -/

/-- A history of assignments only builds the row of these entries. -/
theorem build_map_set (entries : List (String × Scalar)) :
    build (entries.map fun entry => .set entry.1 entry.2) = ofList entries := by
  unfold build ofList
  rw [List.foldl_map]
  rfl

/-- The columns of a row built from entries stand in the order in which they were first set. -/
theorem names_ofList (entries : List (String × Scalar)) :
    (ofList entries).names = (Entries.names entries).eraseDups := by
  induction entries using List.reverseRecOn with
  | nil => rfl
  | append_singleton entries entry ih =>
    have hset : ofList (entries ++ [entry]) = (ofList entries).set entry.1 entry.2 := by
      unfold ofList
      rw [List.foldl_append, List.foldl_cons, List.foldl_nil]
    have hnames : Entries.names (entries ++ [entry]) = Entries.names entries ++ [entry.1] :=
      List.map_append
    rw [hset, names_set, ih, hnames, List.eraseDups_append]
    by_cases hmem : entry.1 ∈ Entries.names entries
    · rw [if_pos (List.mem_eraseDups.mpr hmem)]
      simp [List.removeAll, hmem]
    · rw [if_neg (mt List.mem_eraseDups.mp hmem)]
      simp [List.removeAll, List.eraseDups_cons, hmem]

/-- A row has as many entries as there are different names among those it was built from. -/
theorem length_ofList (entries : List (String × Scalar)) :
    (ofList entries).entries.length = (Entries.names entries).toFinset.card := by
  have hsame : (ofList entries).names.toFinset = (Entries.names entries).toFinset := by
    ext column
    rw [List.mem_toFinset, List.mem_toFinset, names_ofList, List.mem_eraseDups]
  rw [← length_names, ← hsame, List.toFinset_card_of_nodup (nodup_names_ofList entries)]

/-! ## Projections -/

/-- A projection has the requested columns that the row has, as often as they are requested, each
with the value that reading the row gives. -/
theorem map_entries_project (row : Row) (columns : List String) :
    (row.project columns).entries.map (fun entry => (entry.1, some entry.2)) =
      (columns.filter (· ∈ row.names)).map fun column => (column, row.get? column) := by
  unfold project
  induction columns with
  | nil => rfl
  | cons column columns ih =>
    have hmem : (row.get? column).isSome = true ↔ column ∈ row.names :=
      Entries.get?_isSome_iff column row.entries
    rw [List.filterMap_cons, List.filter_cons]
    cases hget : row.get? column with
    | some value =>
      rw [hget] at hmem
      rw [if_pos (decide_eq_true (hmem.mp rfl)), List.map_cons, hget]
      exact congrArg _ ih
    | none =>
      rw [hget] at hmem
      rw [if_neg (by simpa using hmem)]
      exact ih

/-- A row is an ordered map, whatever its history. Reading a column gives the value that is current
in the history, and nothing if there is none. Rows made by setting columns hold each of them once,
in the order in which they were first set. A projection takes the columns that it asks for and the
row has, in the order of the request. -/
theorem reads_current :
    (∀ (history : List Change) (column : String),
      (∀ value, (build history).get? column = some value ↔ IsCurrent history column value) ∧
      ((build history).get? column = none ↔ ∀ value, ¬ IsCurrent history column value)) ∧
    (∀ entries : List (String × Scalar),
      let row := ofList entries
      row = build (entries.map fun entry => .set entry.1 entry.2) ∧
      row.names.Nodup ∧ row.names = (Entries.names entries).eraseDups ∧
      row.entries.length = (Entries.names entries).toFinset.card) ∧
    ∀ (row : Row) (columns : List String),
      (row.project columns).entries.map (fun entry => (entry.1, some entry.2)) =
        (columns.filter (· ∈ row.names)).map fun column => (column, row.get? column) := by
  refine ⟨fun history column => ⟨fun value => get?_build_iff, ?_⟩, fun entries => ?_,
    map_entries_project⟩
  · rw [Option.eq_none_iff_forall_ne_some]
    exact forall_congr' fun value => not_congr get?_build_iff
  · exact ⟨(build_map_set entries).symm, nodup_names_ofList entries, names_ofList entries,
      length_ofList entries⟩

/-- The second copy of a column goes stale, and nothing reads it. -/
example :
    let row := build [.set "a" (.boolean false), .project ["a", "a"], .set "a" (.boolean true)]
    row.entries = [("a", .boolean true), ("a", .boolean false)] ∧
      (row.project ["a", "a"]).entries = [("a", .boolean true), ("a", .boolean true)] := by decide

end MiniSql.Row
