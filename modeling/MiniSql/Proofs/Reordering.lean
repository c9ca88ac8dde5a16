import Mathlib.Data.List.FinRange
import MiniSql.Proofs.Execution
import MiniSql.Proofs.Frame

/-!
# Statements on different tables

Statements that name different tables do not depend on each other. A program whose statements are
reordered so that those of one table stay in their order succeeds if the program does, and then
leaves the same tables and gives each statement the same result (`execute_reordered`).

Of the statements before it, only those on its own table matter to a statement
(`Statement.resultIn_congr`), and such a reordering leaves these as they are (`Reorders.before_eq`).
-/

namespace MiniSql

/-- Whether the element stands in one list or the other, the chosen ones before it are the same. -/
theorem filter_take_eq {α : Type} {chosen : α → Bool} {l l' : List α} (hnodup : l.Nodup)
    (h : l.filter chosen = l'.filter chosen) {k k' : Nat} {a : α} (hk : l[k]? = some a)
    (hk' : l'[k']? = some a) (ha : chosen a = true) :
    (l.take k).filter chosen = (l'.take k').filter chosen := by
  have hsplit {l : List α} {k : Nat} (hk : l[k]? = some a) :
      l = l.take k ++ a :: l.drop (k + 1) := by
    obtain ⟨hlt, rfl⟩ := List.getElem?_eq_some_iff.mp hk
    rw [← List.drop_eq_getElem_cons, List.take_append_drop]
  have hfilter {l : List α} {k : Nat} (hk : l[k]? = some a) :
      l.filter chosen = (l.take k).filter chosen ++ a :: (l.drop (k + 1)).filter chosen := by
    conv_lhs => rw [hsplit hk]
    rw [List.filter_append, List.filter_cons_of_pos ha]
  rw [hsplit hk] at hnodup
  obtain ⟨-, hdrop, htake⟩ := List.nodup_append.mp hnodup
  rw [hfilter hk, hfilter hk'] at h
  refine ((List.append_cons_inj_of_notMem ?_ ?_).mp h).1
  · exact fun hmem => htake a (List.mem_of_mem_filter hmem) a List.mem_cons_self rfl
  · exact fun hmem => (List.nodup_cons.mp hdrop).1 (List.mem_of_mem_filter hmem)

/-! ## Statements on one table -/

/-- The table that a statement names. -/
def Statement.table : Statement → String
  | select s => s.table
  | insert i => i.table

namespace Program

/-- The statements that name the table. -/
def on (p : Program) (name : String) : Program := p.filter (·.table = name)

/-- The rows inserted into a table come from the statements on it. -/
theorem rowsInto_on (p : Program) (name : String) (columns : List String) :
    Program.rowsInto (p.on name) name columns = p.rowsInto name columns := by
  rw [rowsInto, rowsInto, on, List.filterMap_filter]
  refine List.filterMap_congr fun s _ => ?_
  cases s with
  | select s => exact ite_self none
  | insert i => by_cases hi : i.table = name <;> simp [Statement.table, hi]

/-- What is inserted into a table is told by the statements on it. -/
theorem rowsInto_congr {p q : Program} {name : String} (h : p.on name = q.on name)
    (columns : List String) : p.rowsInto name columns = q.rowsInto name columns := by
  rw [← rowsInto_on p, ← rowsInto_on q, h]

end Program

/-- The result of a statement depends on the statements before it on its own table only. -/
theorem Statement.resultIn_congr {before before' : Program} {s : Statement}
    (h : before.on s.table = before'.on s.table) (store : Store) :
    s.resultIn store before = s.resultIn store before' := by
  cases s with
  | insert i => rfl
  | select s =>
    have hrows : before.rowsInto s.table = before'.rowsInto s.table :=
      funext (Program.rowsInto_congr h)
    rw [resultIn, resultIn, Store.rowsAfter, Store.rowsAfter, hrows]

/-! ## Reordering -/

namespace Program

/-- The statements of the program in these places, one after another. -/
def reordered (p : Program) (order : List (Fin p.length)) : Program := order.map fun i => p[i]

theorem reordered_finRange (p : Program) : p.reordered (List.finRange p.length) = p :=
  List.map_getElem_finRange p

/-- Choosing places and choosing a table commute. -/
theorem on_places (p : Program) (places : List (Fin p.length)) (name : String) :
    (p.reordered places).on name =
      p.reordered (places.filter fun i => p[i].table = name) := List.filter_map

/-- Every place comes up once, and the places of statements on one table in their order. -/
structure Reorders (p : Program) (order : List (Fin p.length)) : Prop where
  perm : order.Perm (List.finRange p.length)
  keeps : order.Pairwise fun i j => p[i].table = p[j].table → i < j

namespace Reorders

variable {p : Program} {order : List (Fin p.length)} (h : p.Reorders order)

include h

theorem perm_reordered : (p.reordered order).Perm p :=
  (h.perm.map _).trans (.of_eq (reordered_finRange p))

/-- The places of the statements on a table are in ascending order in either program. -/
theorem filter_eq (name : String) : order.filter (fun i => p[i].table = name) =
    (List.finRange p.length).filter fun i => p[i].table = name := by
  have hsorted : (order.filter fun i => p[i].table = name).Pairwise (· < ·) := by
    refine List.pairwise_filter.mpr (h.keeps.imp fun {i j} hij hi hj => hij ?_)
    exact (of_decide_eq_true hi).trans (of_decide_eq_true hj).symm
  have hrange := (List.pairwise_lt_finRange p.length).filter fun i => p[i].table = name
  exact (h.perm.filter _).eq_of_pairwise (fun i j _ _ hij hji => absurd hij hji.asymm)
    hsorted hrange

/-- The statements on one table keep their order. -/
theorem on_eq (name : String) : (p.reordered order).on name = p.on name := by
  have hp := on_places p (List.finRange p.length) name
  rw [reordered_finRange] at hp
  rw [on_places, h.filter_eq, hp]

/-- A statement has the same statements on its table before it. -/
theorem before_eq {k : Nat} {i : Fin p.length} (hk : order[k]? = some i) :
    Program.on ((p.reordered order).take k) p[i].table = Program.on (p.take i) p[i].table := by
  have hplace : (List.finRange p.length)[i.val]? = some i := by
    rw [List.getElem?_eq_getElem (by rw [List.length_finRange]; exact i.isLt),
      List.getElem_finRange]
    rfl
  have hbefore := filter_take_eq (h.perm.nodup_iff.mpr (List.nodup_finRange _))
    (h.filter_eq p[i].table) hk hplace (decide_eq_true rfl)
  have hp : p.take i = p.reordered ((List.finRange p.length).take i) := by
    rw [reordered, List.map_take]
    exact congrArg _ (reordered_finRange p).symm
  have hq : (p.reordered order).take k = p.reordered (order.take k) := List.map_take.symm
  rw [hp, hq, on_places, on_places, hbefore]

end Reorders

end Program

/-! ## Executions -/

namespace Evaluator

variable {σ ω ε α : Type}

/-- The action succeeds in the world. -/
def Succeeds (x : Action ε σ ω α) (w : World σ ω) : Prop := ∃ a w', x w = .ok a w'

section Executions

variable {ev : Evaluator Store ω} (hev : ev.extensions = []) (hbackend : ev.backend = Store.backend)
  {p : Program} {w w' : World Store ω} {s : Statement}

include hev hbackend

/-- Whether a statement succeeds is settled by the schemas, before anything is executed. -/
theorem visit_succeeds_iff :
    Succeeds (ev.visit s.node) w ↔ s.fault? w.state.schema? = none := by
  rw [Succeeds, visit_statement_eq hev, hbackend]
  cases hfault : s.fault? w.state.schema? with
  | none =>
    obtain ⟨w', hperform, -⟩ := perform_of_faultless (.start w.state) hfault
    rw [hperform]
    exact iff_of_true ⟨_, _, rfl⟩ rfl
  | some error =>
    obtain ⟨w', hperform, -⟩ := perform_of_fault hfault
    rw [hperform]
    exact iff_of_false (fun ⟨_, _, h⟩ => nomatch h) nofun

/-- Whatever is run, no table changes its columns. -/
theorem schema?_run (p : Program) (w : World Store ω) :
    (worldOf (ev.run p w)).state.schema? = w.state.schema? := by
  obtain ⟨w', hrun, hreached, -⟩ := run_meaning hev hbackend p w
  rw [hrun]
  cases p.findSome? (·.fault? w.state.schema?) with
  | none => exact hreached.schema?_eq
  | some error => exact hreached.schema?_eq

/-- A program whose statements all fit the schemas succeeds, each statement with the result it has
after those before it. -/
theorem execute_of_faultless (h : ∀ s ∈ p, s.fault? w.state.schema? = none) :
    ∃ w', ev.execute p w = .ok (p.mapIdx fun k s => s.resultIn w.state (p.take k)) w' ∧
      Reached w.state p w'.state := by
  obtain ⟨w', hrun, hreached, hstack, -⟩ :=
    run_meaning hev hbackend p { w with context := .fresh ev.policy }
  have hall : p.takeWhile (Faultless w.state.schema?) = p := by
    rw [List.takeWhile_eq_self_iff]
    exact fun s hs => by rw [Faultless, h s hs]; rfl
  rw [List.findSome?_eq_none_iff.mpr h] at hrun
  rw [hall] at hreached hstack
  refine ⟨{ w' with context := w.context }, ?_, hreached⟩
  rw [execute, hrun, hstack]
  rfl

/-- A program succeeds exactly if each of its statements fits the schemas. -/
theorem execute_succeeds_iff :
    Succeeds (ev.execute p) w ↔ ∀ s ∈ p, s.fault? w.state.schema? = none := by
  constructor
  · rintro ⟨vs, w', hexecute⟩
    obtain ⟨w₁, hrun, -⟩ := run_meaning hev hbackend p { w with context := .fresh ev.policy }
    rw [← List.findSome?_eq_none_iff]
    cases hfault : p.findSome? (·.fault? w.state.schema?) with
    | none => rfl
    | some error =>
      rw [hfault] at hrun
      rw [execute, hrun] at hexecute
      cases hexecute
  · intro h
    obtain ⟨w', hexecute, -⟩ := execute_of_faultless hev hbackend h
    exact ⟨_, w', hexecute⟩

theorem execute_ok {vs : List Value} (h : ev.execute p w = .ok vs w') :
    vs = p.mapIdx (fun k s => s.resultIn w.state (p.take k)) ∧ Reached w.state p w'.state := by
  have hfaultless := (execute_succeeds_iff hev hbackend).mp ⟨vs, w', h⟩
  obtain ⟨w₁, hexecute, hreached⟩ := execute_of_faultless hev hbackend hfaultless
  obtain ⟨rfl, rfl⟩ := EStateM.Result.ok.inj (hexecute.symm.trans h)
  exact ⟨rfl, hreached⟩

end Executions

/-- Statements on different tables may be reordered: the program succeeds as before, with the same
tables and the same result of each statement. For success nothing counts but the statements
themselves and the columns of the tables, which no run changes. -/
theorem execute_reordered (policy : ClaimPolicy) {p : Program} {order : List (Fin p.length)}
    (horder : p.Reorders order) (w : World Store ω) :
    let ev : Evaluator Store ω := ⟨Store.backend, [], policy⟩
    (Succeeds (ev.execute p) w ↔ Succeeds (ev.execute (p.reordered order)) w) ∧
    (∀ vs w₁ vs' w₂, ev.execute p w = .ok vs w₁ →
      ev.execute (p.reordered order) w = .ok vs' w₂ →
        (∀ name, w₁.state.table? name = w₂.state.table? name) ∧
        w₁.state.tables.names = w₂.state.tables.names ∧
        vs.length = p.length ∧ vs'.length = p.length ∧
        ∀ (k : Nat) (i : Fin p.length), order[k]? = some i → vs'[k]? = vs[i.val]?) ∧
    (∀ (s : Statement) (w w' : World Store ω), w.state.schema? = w'.state.schema? →
      (Succeeds (ev.visit s.node) w ↔ Succeeds (ev.visit s.node) w')) ∧
    ∀ (q : Program) (w : World Store ω),
      (worldOf (ev.run q w)).state.schema? = w.state.schema? := by
  intro ev
  have hev : ev.extensions = [] := rfl
  refine ⟨?_, ?_, ?_, schema?_run hev rfl⟩
  · rw [execute_succeeds_iff hev rfl, execute_succeeds_iff hev rfl]
    exact forall_congr' fun s => imp_congr horder.perm_reordered.mem_iff.symm Iff.rfl
  · intro vs w₁ vs' w₂ h h'
    obtain ⟨rfl, htables, hnames⟩ := execute_ok hev rfl h
    obtain ⟨rfl, htables', hnames'⟩ := execute_ok hev rfl h'
    refine ⟨fun name => ?_, hnames.trans hnames'.symm, List.length_mapIdx, ?_, fun k i hk => ?_⟩
    · rw [htables, htables', funext (Program.rowsInto_congr (horder.on_eq name))]
    · rw [List.length_mapIdx]
      exact horder.perm_reordered.length_eq
    · have hs : (p.reordered order)[k]? = some p[i] := by
        rw [Program.reordered, List.getElem?_map, hk]
        rfl
      have hs' : p[i.val]? = some p[i] := List.getElem?_eq_getElem i.isLt
      rw [List.getElem?_mapIdx, List.getElem?_mapIdx, hs, hs', Option.map_some, Option.map_some,
        Statement.resultIn_congr (horder.before_eq hk)]
  · intro s w w' hschema
    rw [visit_succeeds_iff hev rfl, visit_succeeds_iff hev rfl, hschema]

namespace Interleaved

def statements : Program :=
  [.insert ⟨"t", none, .array [.string "x"]⟩, .select ⟨"u", [], none, none⟩,
    .insert ⟨"u", none, .array [.boolean true]⟩, .select ⟨"t", ["a"], none, none⟩]

/-- First what is done with `u`, then what is done with `t`. -/
def order : List (Fin statements.length) :=
  [⟨1, by decide⟩, ⟨2, by decide⟩, ⟨0, by decide⟩, ⟨3, by decide⟩]

def start : World Store Unit :=
  ⟨.fresh .race, (Store.empty.create "t" ["a"]).create "u" ["b"], (), #[]⟩

/-- The statements on each table keep their order. -/
theorem reorders_order : statements.Reorders order := ⟨by decide, by decide⟩

/-- Both orders succeed, so that their tables and results are there to be compared. -/
theorem execute_statements_in_order :
    let ev : Evaluator Store Unit := ⟨Store.backend, [], .race⟩
    statements.Reorders order ∧
    (∃ vs w₁ vs' w₂, ev.execute statements start = .ok vs w₁ ∧
      ev.execute (statements.reordered order) start = .ok vs' w₂ ∧
        (∀ name, w₁.state.table? name = w₂.state.table? name) ∧
        w₁.state.tables.names = w₂.state.tables.names ∧
        vs.length = statements.length ∧ vs'.length = statements.length ∧
        ∀ (k : Nat) (i : Fin statements.length), order[k]? = some i → vs'[k]? = vs[i.val]?) ∧
    (∀ (s : Statement) (w w' : World Store Unit), w.state.schema? = w'.state.schema? →
      (Succeeds (ev.visit s.node) w ↔ Succeeds (ev.visit s.node) w')) ∧
    ∀ (q : Program) (w : World Store Unit),
      (worldOf (ev.run q w)).state.schema? = w.state.schema? := by
  intro ev
  obtain ⟨hiff, hsame, hvisit, hschema⟩ := execute_reordered .race reorders_order start
  have hfaultless : ∀ s ∈ statements, s.fault? start.state.schema? = none := by
    simp only [statements, List.forall_mem_cons]
    exact ⟨rfl, rfl, rfl, rfl, List.forall_mem_nil _⟩
  have hsucceeds : Succeeds (ev.execute statements) start :=
    (execute_succeeds_iff rfl rfl).mpr hfaultless
  obtain ⟨vs', w₂, h'⟩ := hiff.mp hsucceeds
  obtain ⟨vs, w₁, h⟩ := hsucceeds
  exact ⟨reorders_order, ⟨vs, w₁, vs', w₂, h, h', hsame vs w₁ vs' w₂ h h'⟩, hvisit, hschema⟩

end Interleaved

end Evaluator

end MiniSql
