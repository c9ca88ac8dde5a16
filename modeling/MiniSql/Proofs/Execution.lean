import Mathlib.Data.List.TakeWhile
import MiniSql.Proofs.Compilation

/-!
# Executing a program on a store

Without extensions a program does to a store what it means. `Reached` is the invariant of a run: the
statements done so far have added their rows, each to its own table, and nothing else has changed.
One statement preserves it (`perform_of_fault`, `perform_of_faultless`), hence so does a run, which
ends at the first fault (`execute_meaning`).
-/

namespace MiniSql

variable {store state : Store} {done : Program} {name : String}

/-- The state of a store behind some statements. -/
structure Reached (store : Store) (done : Program) (state : Store) : Prop where
  tables : ∀ name, state.table? name = (store.table? name).map fun table =>
    { table with rows := table.rows ++ done.rowsInto name table.columns }
  names : state.tables.names = store.tables.names

namespace Reached

/-- At first no statement is done. -/
theorem start (store : Store) : Reached store [] store := by
  refine ⟨fun name => ?_, rfl⟩
  cases store.table? name with
  | none => rfl
  | some table =>
    show some table = some { table with rows := table.rows ++ [] }
    rw [List.append_nil]

/-- Statements done change no columns. -/
theorem schema?_eq (h : Reached store done state) : state.schema? = store.schema? := by
  funext name
  rw [Store.schema?, Store.schema?, h.tables name, Option.map_map]
  rfl

/-- A table has its first rows, and behind them one for each insertion done into it. -/
theorem rows_eq (h : Reached store done state) {table : Table}
    (htable : state.table? name = some table) : table.rows = store.rowsAfter done name := by
  rw [h.tables name] at htable
  rw [Store.rowsAfter]
  obtain ⟨before, hbefore, rfl⟩ := Option.map_eq_some_iff.mp htable
  rw [hbefore]
  rfl

theorem rowsInto_append (p q : Program) (columns : List String) :
    (p ++ q).rowsInto name columns = p.rowsInto name columns ++ q.rowsInto name columns :=
  List.filterMap_append

/-- An insertion makes one row for its own table, and none for others. -/
theorem rowsInto_insert (i : Insert) (columns : List String) :
    Program.rowsInto [.insert i] name columns =
      if i.table = name then [i.rowIn columns] else [] := by
  by_cases hname : i.table = name <;> simp [Program.rowsInto, hname]

theorem select (h : Reached store done state) (s : Select) :
    Reached store (done ++ [.select s]) state := by
  refine ⟨fun name => ?_, h.names⟩
  rw [h.tables name]
  have hnone (columns : List String) : Program.rowsInto [.select s] name columns = [] := rfl
  simp only [rowsInto_append, hnone, List.append_nil]

/-- The inserted row goes to the end of its table, and no other table is touched. -/
theorem insert (h : Reached store done state) {i : Insert} {table : Table}
    (htable : state.table? i.table = some table) :
    Reached store (done ++ [.insert i])
      (state.put i.table (table.push (i.rowIn table.columns))) := by
  refine ⟨fun name => ?_, ?_⟩
  · rw [Store.table?_put]
    simp only [rowsInto_append]
    by_cases hname : i.table = name
    · subst hname
      rw [if_pos rfl]
      rw [h.tables i.table] at htable
      obtain ⟨before, hbefore, rfl⟩ := Option.map_eq_some_iff.mp htable
      rw [hbefore, Option.map_some, rowsInto_insert, if_pos rfl, ← List.append_assoc]
      rfl
    · rw [if_neg hname, h.tables name]
      simp only [rowsInto_insert, if_neg hname, List.append_nil]
  · rw [← h.names]
    exact Store.names_put htable _

end Reached

/-! ## One statement -/

namespace Evaluator

variable {ω : Type} {w : World Store ω} {s : Statement}

theorem reply_select (q : Query) (state : Store) :
    (Store.backend.reply (.select q) state).answer = (state.select q).map .rows ∧
      (Store.backend.reply (.select q) state).state = state := by
  obtain ⟨hanswer, hstate⟩ := Store.backend_select q state
  rw [← hanswer]
  exact ⟨rfl, hstate⟩

/-- An insertion that is refused leaves the store as it is. -/
theorem reply_insert (i : Insertion) (state : Store) :
    (Store.backend.reply (.insert i) state).answer = (state.insert i).map (fun _ => .null) ∧
      (Store.backend.reply (.insert i) state).state = (state.insert i).toOption.getD state := by
  dsimp only [Backend.reply, Store.backend]
  cases state.insert i with
  | ok after => exact ⟨rfl, rfl⟩
  | error e => exact ⟨rfl, rfl⟩

theorem request_select {s : Select} {c? : Option Condition}
    (h : conditionOf s.conditionValue = .ok c?) :
    (Statement.select s).request = .ok (.select (s.query c?)) := by
  rw [Statement.request, h]
  rfl

theorem request_insert {i : Insert} (h : i.unfit? = none) :
    (Statement.insert i).request = .ok (.insert (i.insertion i.scalars)) := by
  rw [Statement.request, rowValues_value, h]
  rfl

/-- The statement makes no request, or the store refuses it. -/
def IsRefused (state : Store) (s : Statement) (error : EvalError) : Prop :=
  s.request = .error error ∨ ∃ r e, s.request = .ok r ∧ error = .backend e ∧
    (Store.backend.reply r state).answer = .error e ∧ (Store.backend.reply r state).state = state

/-- The statement makes a request, which the store answers. -/
def IsAnswered (state : Store) (s : Statement) (v : Value) (after : Store) : Prop :=
  ∃ r, s.request = .ok r ∧ (Store.backend.reply r state).answer = .ok v ∧
    (Store.backend.reply r state).state = after

/-- A selection at fault is refused for its first fault. -/
theorem isRefused_select {s : Select} {error : EvalError}
    (h : s.fault? state.schema? = some error) : IsRefused state (.select s) error := by
  rcases conditionOf_cases s with ⟨c?, hcondition, _, hfault⟩ | ⟨e, hcondition, hfault⟩
  · rw [hfault, Store.schema?, Option.isSome_map] at h
    obtain ⟨hanswer, hstate⟩ := reply_select (s.query c?) state
    rw [Store.select, show (s.query c?).table = s.table from rfl] at hanswer
    -- the condition is sound, so only the table can be missing
    cases htable : state.table? s.table with
    | some table =>
      rw [htable] at h
      nomatch h
    | none =>
      rw [htable] at h hanswer
      obtain rfl := Option.some.inj h
      exact .inr ⟨_, _, request_select hcondition, rfl, hanswer, hstate⟩
  · rw [hfault] at h
    obtain rfl := Option.some.inj h
    refine .inl ?_
    rw [Statement.request, hcondition]
    rfl

theorem isRefused_insert {i : Insert} {error : EvalError}
    (h : i.fault? state.schema? = some error) : IsRefused state (.insert i) error := by
  rw [Insert.fault?, Store.schema?] at h
  cases hunfit : i.unfit? with
  | some e =>
    rw [hunfit] at h
    obtain rfl := Option.some.inj h
    refine .inl ?_
    rw [Statement.request, rowValues_value, hunfit]
    rfl
  | none =>
    -- the values are sound, so the store is asked
    obtain ⟨hanswer, hstate⟩ := reply_insert (i.insertion i.scalars) state
    rw [insert_insertion] at hanswer hstate
    rw [hunfit] at h
    refine .inr ⟨.insert (i.insertion i.scalars), ?_⟩
    cases htable : state.table? i.table with
    | none =>
      rw [htable] at h hanswer hstate
      obtain rfl := Option.some.inj h
      exact ⟨_, request_insert hunfit, rfl, hanswer, hstate⟩
    | some table =>
      rw [htable] at h hanswer hstate
      obtain ⟨e, he, rfl⟩ := Option.map_eq_some_iff.mp h
      simp only [he] at hanswer hstate
      exact ⟨e, request_insert hunfit, rfl, hanswer, hstate⟩

/-- A selection without fault is answered with rows of its table, and changes nothing. -/
theorem isAnswered_select {s : Select} (h : s.fault? state.schema? = none) :
    ∃ table, state.table? s.table = some table ∧
      IsAnswered state (.select s) (.rows (s.answer table.rows)) state := by
  rcases conditionOf_cases s with ⟨c?, hcondition, hadmits, hfault⟩ | ⟨e, _, hfault⟩
  · rw [hfault, Store.schema?, Option.isSome_map] at h
    obtain ⟨hanswer, hstate⟩ := reply_select (s.query c?) state
    cases htable : state.table? s.table with
    | none =>
      rw [htable] at h
      nomatch h
    | some table =>
      rw [Store.select_of_table? (q := s.query c?) htable, answer_query hadmits] at hanswer
      exact ⟨table, rfl, _, request_select hcondition, hanswer, hstate⟩
  · rw [hfault] at h
    nomatch h

theorem isAnswered_insert {i : Insert} (h : i.fault? state.schema? = none) :
    ∃ table, state.table? i.table = some table ∧
      IsAnswered state (.insert i) .null
        (state.put i.table (table.push (i.rowIn table.columns))) := by
  rw [Insert.fault?, Store.schema?] at h
  cases hunfit : i.unfit? with
  | some e =>
    rw [hunfit] at h
    nomatch h
  | none =>
    obtain ⟨hanswer, hstate⟩ := reply_insert (i.insertion i.scalars) state
    rw [insert_insertion] at hanswer hstate
    rw [hunfit] at h
    cases htable : state.table? i.table with
    | none =>
      rw [htable] at h
      nomatch h
    | some table =>
      rw [htable] at h hanswer hstate
      have hnone : i.targetFault? table.columns = none := Option.map_eq_none_iff.mp h
      simp only [hnone] at hanswer hstate
      exact ⟨table, rfl, _, request_insert hunfit, hanswer, hstate⟩

/-- A statement at fault changes nothing but the journal. -/
theorem perform_of_fault {error : EvalError} (h : s.fault? w.state.schema? = some error) :
    ∃ w', perform Store.backend s w = .error error w' ∧ w'.state = w.state ∧
      w'.context = w.context ∧ w'.memory = w.memory := by
  have hrefused : IsRefused w.state s error := by
    cases s with
    | select s => exact isRefused_select h
    | insert i => exact isRefused_insert h
  rcases hrefused with hrequest | ⟨r, e, hrequest, rfl, hanswer, hstate⟩
  · exact ⟨_, perform_of_error hrequest, rfl, rfl, rfl⟩
  · rw [perform_of_ok hrequest, hanswer]
    exact ⟨_, rfl, hstate, rfl, rfl⟩

theorem perform_of_isAnswered {v : Value} {after : Store} (h : IsAnswered w.state s v after) :
    ∃ w', perform Store.backend s w = .ok () w' ∧ w'.state = after ∧
      w'.context = w.context.push v ∧ w'.memory = w.memory := by
  obtain ⟨r, hrequest, hanswer, hstate⟩ := h
  rw [perform_of_ok hrequest, hanswer]
  exact ⟨_, rfl, hstate, rfl, rfl⟩

/-- A statement without fault is done, and its result is the one read off the program text. -/
theorem perform_of_faultless (hreached : Reached store done w.state)
    (h : s.fault? store.schema? = none) :
    ∃ w', perform Store.backend s w = .ok () w' ∧ Reached store (done ++ [s]) w'.state ∧
      w'.context = w.context.push (s.resultIn store done) ∧ w'.memory = w.memory := by
  rw [← hreached.schema?_eq] at h
  cases s with
  | select s =>
    obtain ⟨table, htable, hanswered⟩ := isAnswered_select h
    rw [hreached.rows_eq htable] at hanswered
    obtain ⟨w', hw, hafter, hrest⟩ := perform_of_isAnswered hanswered
    exact ⟨w', hw, hafter ▸ hreached.select s, hrest⟩
  | insert i =>
    obtain ⟨table, htable, hanswered⟩ := isAnswered_insert h
    obtain ⟨w', hw, hafter, hrest⟩ := perform_of_isAnswered hanswered
    exact ⟨w', hw, hafter ▸ hreached.insert htable, hrest⟩

/-! ## A whole program -/

def Faultless (schema? : String → Option (List String)) (s : Statement) : Bool :=
  (s.fault? schema?).isNone

/-- The statements of a program are done up to the first that is at fault. -/
theorem handleProgram_meaning {ev : Evaluator Store ω} (hev : ev.extensions = [])
    (hbackend : ev.backend = Store.backend) (p : Program) (hreached : Reached store done w.state) :
    ∃ w', ev.handleProgram p w = (match p.findSome? (·.fault? store.schema?) with
        | none => .ok .null w'
        | some error => .error error w') ∧
      Reached store (done ++ p.takeWhile (Faultless store.schema?)) w'.state ∧
      w'.context.stack = w.context.stack ++ (p.takeWhile (Faultless store.schema?)).mapIdx
        (fun k s => s.resultIn store (done ++ p.take k)) ∧
      w'.memory = w.memory := by
  -- by induction on the program, behind the statements `done`
  induction p generalizing done w with
  | nil => exact ⟨w, rfl, by rwa [List.takeWhile_nil, List.append_nil], by simp, rfl⟩
  | cons s p ih =>
    have hstep := handleProgram_cons hev w s p
    rw [hbackend] at hstep
    cases hfault : s.fault? store.schema? with
    | some error =>
      -- the run ends here, and nothing behind `s` counts any more
      have hstop : ¬ Faultless store.schema? s = true := by
        rw [Faultless, hfault]
        exact Bool.false_ne_true
      obtain ⟨w', hperform, hstate, hcontext, hmemory⟩ :=
        perform_of_fault (hreached.schema?_eq ▸ hfault)
      rw [hperform] at hstep
      rw [List.findSome?_cons_of_isSome (by rw [hfault]; rfl), List.takeWhile_cons_of_neg hstop]
      refine ⟨w', ?_, ?_, ?_, hmemory⟩
      · rw [hfault]
        exact hstep
      · rw [List.append_nil, hstate]
        exact hreached
      · rw [hcontext, List.mapIdx_nil, List.append_nil]
    | none =>
      have hgo : Faultless store.schema? s = true := by
        rw [Faultless, hfault]
        rfl
      obtain ⟨w₁, hperform, hreached₁, hcontext, hmemory⟩ := perform_of_faultless hreached hfault
      obtain ⟨w', hrest, hreached', hstack, hmemory'⟩ := ih hreached₁
      rw [hperform] at hstep
      rw [List.findSome?_cons_of_isNone (by rw [hfault]; rfl), List.takeWhile_cons_of_pos hgo]
      refine ⟨w', hstep.trans hrest, ?_, ?_, hmemory'.trans hmemory⟩
      · rwa [List.append_assoc, List.singleton_append] at hreached'
      · rw [hstack, hcontext, List.mapIdx_cons, List.take_zero, List.append_nil]
        simp [Context.push]

/-- A run answers the stack that it leaves. -/
theorem run_meaning {ev : Evaluator Store ω} (hev : ev.extensions = [])
    (hbackend : ev.backend = Store.backend) (p : Program) (w : World Store ω) :
    ∃ w', ev.run p w = (match p.findSome? (·.fault? w.state.schema?) with
        | none => .ok w'.context.stack w'
        | some error => .error error w') ∧
      Reached w.state (p.takeWhile (Faultless w.state.schema?)) w'.state ∧
      w'.context.stack = w.context.stack ++ (p.takeWhile (Faultless w.state.schema?)).mapIdx
        (fun k s => s.resultIn w.state (p.take k)) ∧
      w'.memory = w.memory := by
  have hstart : Reached w.state [] (w.log [.entered (.program p)]).state := .start w.state
  obtain ⟨w', hprogram, hreached, hstack, hmemory⟩ :=
    handleProgram_meaning hev hbackend p hstart
  refine ⟨w', ?_, hreached, hstack, hmemory⟩
  rw [run_eq hev, hprogram]
  cases p.findSome? (·.fault? w.state.schema?) <;> rfl

/-- What an execution without extensions does is read off the program text and the tables at its
start: its results, or its first error, and the tables that it leaves. -/
theorem execute_meaning (policy : ClaimPolicy) (p : Program) (w : World Store ω) :
    let ev : Evaluator Store ω := ⟨Store.backend, [], policy⟩
    let done : Program := p.takeWhile fun s => (s.fault? w.state.schema?).isNone
    ∃ w' : World Store ω,
      ev.execute p w = (match p.findSome? (·.fault? w.state.schema?) with
        | none => .ok (p.mapIdx fun k s => s.resultIn w.state (p.take k)) w'
        | some error => .error error w') ∧
      (∀ name, w'.state.table? name = (w.state.table? name).map fun table =>
        { table with rows := table.rows ++ done.rowsInto name table.columns }) ∧
      w'.state.tables.names = w.state.tables.names ∧
      w'.context = w.context ∧ w'.memory = w.memory := by
  intro ev done
  have hev : ev.extensions = [] := rfl
  -- the run starts in a context of its own, and with the program entered
  let fresh : World Store ω := { w with context := .fresh policy }
  have hreached : Reached w.state [] (fresh.log [.entered (.program p)]).state := .start w.state
  obtain ⟨w', hprogram, ⟨htables, hnames⟩, hstack, hmemory⟩ :=
    handleProgram_meaning hev rfl p hreached
  have hrun := run_eq hev fresh p
  rw [hprogram] at hrun
  refine ⟨{ w' with context := w.context }, ?_, htables, hnames, rfl, hmemory⟩
  have hstart : ev.run p { w with context := .fresh ev.policy } = ev.run p fresh := rfl
  rw [execute, hstart, hrun]
  cases hfault : p.findSome? (·.fault? w.state.schema?) with
  | some error => rfl
  | none =>
    have hall : p.takeWhile (Faultless w.state.schema?) = p := by
      rw [List.takeWhile_eq_self_iff]
      intro s hs
      rw [Faultless, List.findSome?_eq_none_iff.mp hfault s hs]
      rfl
    have hresults : w'.context.stack = p.mapIdx fun k s => s.resultIn w.state (p.take k) := by
      rw [hstack, hall]
      rfl
    show EStateM.Result.ok w'.context.stack _ = _
    rw [hresults]

end Evaluator

end MiniSql
