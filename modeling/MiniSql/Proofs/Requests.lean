import MiniSql.Proofs.Filtering

/-!
# What a run asks of the backend

Without extensions a run makes the requests of its statements, in their order, and each of them
once. It ends at the first statement that cannot be made into a request, or whose request the
backend refuses. The backend may answer as it likes, and its state is what the requests so far have
made of it.

`Statement.translation` is read off the statement alone, and so is `Statement.Invalid`, the reason
not to make a request. `Asks` tells how a run may end, and `requests_of_run` that every run ends so.
-/

namespace MiniSql

variable {σ ω α β : Type}

/-! ## Requests made -/

/-- The request that the backend receives, if the event is that. -/
def Event.request? : Event → Option Request
  | requested r => some r
  | _ => none

/-- The requests that the backend has received. -/
def World.requests (w : World σ ω) : List Request := w.journal.toList.filterMap Event.request?

theorem World.requests_log (w : World σ ω) (events : List Event) :
    (w.log events).requests = w.requests ++ events.filterMap Event.request? :=
  filterMap_journal_log w events Event.request?

theorem World.requests_answered (w : World σ ω) (r : Request) (reply : Reply σ α) :
    (w.answered r reply).requests = w.requests ++ [r] :=
  filterMap_journal_answered w (fun _ => rfl) r reply

mutual

/-- Evaluating an expression makes no requests. -/
theorem Expr.request?_entries (e : Expr) : e.entries.filterMap Event.request? = [] := by
  cases e with
  | array es => exact Expr.request?_entriesOfEach es
  | binary left op right =>
    show (left.entries ++ right.entries).filterMap Event.request? = []
    rw [List.filterMap_append, left.request?_entries, right.request?_entries]
    rfl
  | identifier _ => rfl
  | number _ => rfl
  | string _ => rfl
  | boolean _ => rfl

theorem Expr.request?_entriesOfEach (es : List Expr) :
    (Expr.entriesOfEach es).filterMap Event.request? = [] := by
  cases es with
  | nil => rfl
  | cons e es =>
    rw [Expr.entriesOfEach, List.filterMap_append, e.request?_entries,
      Expr.request?_entriesOfEach es]
    rfl

end

theorem Statement.request?_entries (s : Statement) : s.entries.filterMap Event.request? = [] := by
  cases s with
  | select s =>
    show (s.condition?.elim [] Expr.entries).filterMap Event.request? = []
    cases s.condition? with
    | none => rfl
    | some e => exact e.request?_entries
  | insert i => exact i.values.request?_entries

/-! ## The request of a statement -/

namespace Expr

/-- The condition that an operation writes down. -/
def condition? : Expr → Option Condition
  | binary left op right => some ⟨left.value, op.text, right.value⟩
  | _ => none

/-- The expression writes no scalar. -/
def IsCompound (e : Expr) : Prop := (∃ es, e = .array es) ∨ e.IsOperation

/-- An expression is compound exactly if it has no scalar. -/
theorem isCompound_iff (e : Expr) : e.IsCompound ↔ e.scalar? = none := by
  constructor
  · rintro (⟨es, rfl⟩ | ⟨left, op, right, rfl⟩) <;> rfl
  · intro h
    cases e with
    | array es => exact .inl ⟨es, rfl⟩
    | binary left op right => exact .inr ⟨left, op, right, rfl⟩
    | _ => nomatch h

end Expr

namespace Statement

/-- The request that a statement is for. -/
def translation : Statement → Request
  | select s => .select ⟨s.table, s.columns, s.condition?.bind Expr.condition?, s.groupBy?⟩
  | insert i => .insert ⟨i.table, i.columns?.getD [], i.scalars⟩

/-- The error for which a statement is not made into a request. -/
inductive Invalid : Statement → EvalError → Prop
  | condition {s : Select} {e : Expr} (hcondition : s.condition? = some e) (he : ¬ e.IsOperation) :
      Invalid (.select s) (.invalidCondition e.valueKind)
  | values {i : Insert} (hvalues : ∀ es, i.values ≠ .array es) :
      Invalid (.insert i) (.invalidValue i.values.valueKind)
  | element {i : Insert} {before after : List Expr} {e : Expr}
      (hvalues : i.values = .array (before ++ e :: after)) (hbefore : ∀ x ∈ before, ¬ x.IsCompound)
      (he : e.IsCompound) : Invalid (.insert i) (.invalidValue e.valueKind)

/-- The statement can be made into a request. -/
def Valid (s : Statement) : Prop := ∀ error, ¬ s.Invalid error

variable {s : Statement} {error : EvalError}

/-- An invalid statement is refused with its error before a request is made of it. -/
theorem Invalid.request_eq (h : s.Invalid error) : s.request = .error error := by
  cases h with
  | @condition s e hcondition he =>
    rw [request, Select.conditionValue, hcondition]
    cases e with
    | binary left op right => exact absurd ⟨left, op, right, rfl⟩ he
    | _ => rfl
  | @values i hvalues =>
    have hunfit : i.unfit? = some i.values := by
      rw [Insert.unfit?]
      cases hshape : i.values with
      | array es => exact absurd hshape (hvalues es)
      | _ => rfl
    rw [request, rowValues_value, hunfit]
    rfl
  | @element i before after e hvalues hbefore he =>
    have hunfit : i.unfit? = some e := by
      rw [Insert.unfit?, hvalues]
      refine List.find?_eq_some_iff_append.mpr ⟨?_, before, after, rfl, fun x hx => ?_⟩
      · rw [Option.isNone_iff_eq_none]
        exact e.isCompound_iff.mp he
      · rw [Bool.not_eq_true', Option.isNone_eq_false_iff, Option.isSome_iff_ne_none]
        exact fun hnone => hbefore x hx (x.isCompound_iff.mpr hnone)
    rw [request, rowValues_value, hunfit]
    rfl

/-- A statement that a request is made of is valid. -/
theorem Valid.of_request {r : Request} (h : s.request = .ok r) : s.Valid := by
  intro error hinvalid
  rw [hinvalid.request_eq] at h
  nomatch h

/-- An `INSERT` whose values are not all scalars is invalid, and the error is about the first that
is none. -/
theorem invalid_of_unfit {i : Insert} {e : Expr} (h : i.unfit? = some e) :
    Invalid (.insert i) (.invalidValue e.valueKind) := by
  rw [Insert.unfit?] at h
  by_cases harray : ∃ es, i.values = .array es
  · obtain ⟨es, hvalues⟩ := harray
    rw [hvalues] at h
    obtain ⟨he, before, after, rfl, hbefore⟩ := List.find?_eq_some_iff_append.mp h
    refine .element hvalues (fun x hx hcompound => ?_) ?_
    · have hscalar := hbefore x hx
      rw [x.isCompound_iff.mp hcompound] at hscalar
      exact absurd hscalar (by decide)
    · exact e.isCompound_iff.mpr (Option.isNone_iff_eq_none.mp he)
  · -- what is no array is itself unfit
    obtain rfl : i.values = e := by
      cases hvalues : i.values with
      | array es => exact absurd ⟨es, hvalues⟩ harray
      | _ => rw [hvalues] at h; exact Option.some.inj h
    exact .values fun es hvalues => harray ⟨es, hvalues⟩

/-- A statement is made into its request, or there is a reason not to. -/
theorem request_cases (s : Statement) :
    (∃ error, s.Invalid error) ∨ s.request = .ok s.translation := by
  cases s with
  | select s =>
    rw [request, translation, Select.conditionValue]
    cases hcondition : s.condition? with
    | none => exact .inr rfl
    | some e =>
      by_cases he : e.IsOperation
      · obtain ⟨left, op, right, rfl⟩ := he
        exact .inr rfl
      · exact .inl ⟨_, .condition hcondition he⟩
  | insert i =>
    rw [request, translation, rowValues_value]
    cases hunfit : i.unfit? with
    | some e => exact .inl ⟨_, invalid_of_unfit hunfit⟩
    | none => exact .inr rfl

end Statement

/-- The requests that the statements of a program are for. -/
def Program.requests (p : Program) : List Request := p.map Statement.translation

/-! ## A backend that is asked -/

namespace Backend

/-- The state of a backend behind some requests. -/
def after (b : Backend σ) (state : σ) (rs : List Request) : σ :=
  rs.foldl (fun state r => (b.reply r state).state) state

/-- The statements are valid, and the backend answers their requests one after another. -/
def Serves (b : Backend σ) : σ → Program → Prop
  | _, [] => True
  | state, s :: p => s.Valid ∧ (∃ v, (b.reply s.translation state).answer = .ok v) ∧
      b.Serves (b.reply s.translation state).state p

end Backend

namespace Evaluator

/-- How a run of the program ends, and what the backend has been asked by then. -/
inductive Asks (b : Backend σ) (p : Program) (w : World σ ω) :
    EStateM.Result EvalError (World σ ω) α → Prop
  | ok {a : α} {w' : World σ ω} (hserves : b.Serves w.state p)
      (hrequests : w'.requests = w.requests ++ p.requests)
      (hstate : w'.state = b.after w.state p.requests) : Asks b p w (.ok a w')
  | invalid {done later : Program} {s : Statement} {error : EvalError} {w' : World σ ω}
      (hp : p = done ++ s :: later) (hserves : b.Serves w.state done) (hinvalid : s.Invalid error)
      (hrequests : w'.requests = w.requests ++ done.requests)
      (hstate : w'.state = b.after w.state done.requests) : Asks b p w (.error error w')
  | refused {done later : Program} {s : Statement} {e : BackendError} {w' : World σ ω}
      (hp : p = done ++ s :: later) (hserves : b.Serves w.state done) (hvalid : s.Valid)
      (hanswer : (b.reply s.translation (b.after w.state done.requests)).answer = .error e)
      (hrequests : w'.requests = w.requests ++ Program.requests (done ++ [s]))
      (hstate : w'.state = b.after w.state (Program.requests (done ++ [s]))) :
      Asks b p w (.error (.backend e) w')

section Asks

variable {b : Backend σ} {p : Program} {w w₁ : World σ ω}
  {r : EStateM.Result EvalError (World σ ω) α}

/-- Only the requests and the state of the backend matter. -/
theorem Asks.congr (h : Asks b p w₁ r) (hrequests : w₁.requests = w.requests)
    (hstate : w₁.state = w.state) : Asks b p w r := by
  cases h with
  | ok hserves hr hs =>
    rw [hstate] at hserves hs
    exact .ok hserves (hr.trans (by rw [hrequests])) hs
  | invalid hp hserves hinvalid hr hs =>
    rw [hstate] at hserves hs
    exact .invalid hp hserves hinvalid (hr.trans (by rw [hrequests])) hs
  | refused hp hserves hvalid hanswer hr hs =>
    rw [hstate] at hserves hanswer hs
    exact .refused hp hserves hvalid hanswer (hr.trans (by rw [hrequests])) hs

/-- A statement whose request is answered comes before the others. -/
theorem Asks.cons {s : Statement} {v : Value} (h : Asks b p w₁ r) (hvalid : s.Valid)
    (hanswer : (b.reply s.translation w.state).answer = .ok v)
    (hrequests : w₁.requests = w.requests ++ [s.translation])
    (hstate : w₁.state = (b.reply s.translation w.state).state) : Asks b (s :: p) w r := by
  have hfront (done : Program) : w₁.requests ++ done.requests =
      w.requests ++ Program.requests (s :: done) := by
    rw [hrequests, List.append_assoc]
    rfl
  cases h with
  | ok hserves hr hs =>
    rw [hstate] at hserves hs
    exact .ok ⟨hvalid, ⟨v, hanswer⟩, hserves⟩ (hr.trans (hfront _)) hs
  | @invalid done later s' _ _ hp hserves hinvalid hr hs =>
    rw [hstate] at hserves hs
    have hp' : s :: p = (s :: done) ++ s' :: later := congrArg (s :: ·) hp
    exact .invalid hp' ⟨hvalid, ⟨v, hanswer⟩, hserves⟩ hinvalid (hr.trans (hfront _)) hs
  | @refused done later s' _ _ hp hserves hvalid' hanswer' hr hs =>
    rw [hstate] at hserves hanswer' hs
    have hp' : s :: p = (s :: done) ++ s' :: later := congrArg (s :: ·) hp
    exact .refused hp' ⟨hvalid, ⟨v, hanswer⟩, hserves⟩ hvalid' hanswer' (hr.trans (hfront _)) hs

end Asks

/-! ## Whole runs -/

theorem requests_entered (w : World σ ω) (s : Statement) :
    (w.log s.entries).requests = w.requests := by
  rw [World.requests_log, s.request?_entries, List.append_nil]

/-- A statement adds one request, the one that is made of it. -/
theorem requests_asked (w : World σ ω) (s : Statement) (r : Request) (reply : Reply σ α) :
    ((w.log (s.entries ++ [.requesting r])).answered r reply).requests = w.requests ++ [r] := by
  rw [World.requests_answered, ← World.log_log, World.requests_log, requests_entered]
  exact congrArg (· ++ [r]) (List.append_nil _)

section Runs

variable {ev : Evaluator σ ω} (hev : ev.extensions = [])

include hev

/-- The requests of a program, from its first statement on. -/
theorem handleProgram_asks (p : Program) (w : World σ ω) :
    Asks ev.backend p w (ev.handleProgram p w) := by
  -- by induction on the program: its first statement fails, or the others come behind it
  induction p generalizing w with
  | nil => exact .ok trivial (List.append_nil _).symm rfl
  | cons s p ih =>
    have hp : s :: p = [] ++ s :: p := rfl
    rw [handleProgram_cons hev]
    obtain ⟨error, hinvalid⟩ | hrequest := s.request_cases
    · have hnone : (w.log s.entries).requests = w.requests ++ Program.requests [] :=
        (requests_entered w s).trans (List.append_nil _).symm
      rw [perform_of_error hinvalid.request_eq]
      exact .invalid hp trivial hinvalid hnone rfl
    · have hvalid : s.Valid := .of_request hrequest
      have hasked := requests_asked w s s.translation (ev.backend.reply s.translation w.state)
      rw [perform_of_ok hrequest]
      cases hanswer : (ev.backend.reply s.translation w.state).answer with
      | ok v =>
        let answered : World σ ω := (w.log (s.entries ++ [.requesting s.translation])).answered
          s.translation (ev.backend.reply s.translation w.state)
        have hlater := ih { answered with context := w.context.push v }
        exact hlater.cons hvalid hanswer hasked rfl
      | error e => exact .refused hp trivial hvalid hanswer hasked rfl

/-- A run makes one request for each statement, in order, until a statement is invalid or the
backend refuses one. -/
theorem run_asks (p : Program) (w : World σ ω) : Asks ev.backend p w (ev.run p w) := by
  -- entering the program asks nothing
  let entered : World σ ω := w.log [.entered (.program p)]
  have hrequests : entered.requests = w.requests :=
    (World.requests_log w _).trans (List.append_nil _)
  have hprogram := (handleProgram_asks hev p entered).congr hrequests rfl
  rw [run_eq hev]
  generalize ev.handleProgram p entered = result at hprogram
  cases hprogram with
  | ok hserves hr hs => exact .ok hserves hr hs
  | invalid hp hserves hinvalid hr hs => exact .invalid hp hserves hinvalid hr hs
  | refused hp hserves hvalid hanswer hr hs => exact .refused hp hserves hvalid hanswer hr hs

/-- Executing a program makes the same requests as running it. -/
theorem execute_asks (p : Program) (w : World σ ω) : Asks ev.backend p w (ev.execute p w) := by
  -- a context of its own makes no difference to the backend
  let fresh : World σ ω := { w with context := .fresh ev.policy }
  have hrun : Asks ev.backend p w (ev.run p fresh) := (run_asks hev p fresh).congr rfl rfl
  rw [execute, show ({ w with context := .fresh ev.policy } : World σ ω) = fresh from rfl]
  generalize ev.run p fresh = result at hrun
  cases hrun with
  | ok hserves hr hs => exact .ok hserves hr hs
  | invalid hp hserves hinvalid hr hs => exact .invalid hp hserves hinvalid hr hs
  | refused hp hserves hvalid hanswer hr hs => exact .refused hp hserves hvalid hanswer hr hs

/-- Only a statement with no request fails without one. -/
theorem visit_error_iff (s : Statement) (error : EvalError) (w : World σ ω) :
    (∃ w', ev.visit s.node w = .error error w' ∧ w'.requests = w.requests) ↔
      s.Invalid error := by
  rw [visit_statement_eq hev]
  constructor
  · rintro ⟨w', h, hnone⟩
    obtain ⟨found, hinvalid⟩ | hrequest := s.request_cases
    · rw [perform_of_error hinvalid.request_eq] at h
      obtain ⟨rfl, -⟩ := EStateM.Result.error.inj h
      exact hinvalid
    · -- a request that was made is among those received
      rw [perform_of_ok hrequest] at h
      cases hanswer : (ev.backend.reply s.translation w.state).answer with
      | ok v =>
        rw [hanswer] at h
        nomatch h
      | error e =>
        rw [hanswer] at h
        obtain ⟨-, rfl⟩ := EStateM.Result.error.inj h
        rw [requests_asked] at hnone
        exact absurd (List.self_eq_append_right.mp hnone.symm) (List.cons_ne_nil _ _)
  · intro hinvalid
    rw [perform_of_error hinvalid.request_eq]
    exact ⟨_, rfl, requests_entered w s⟩

end Runs

/-- A run makes the requests of its statements up to the first that fails. That one makes its own
request just if it is valid, and then the backend's error is the error of the run. -/
theorem requests_of_run (b : Backend σ) (policy : ClaimPolicy) (p : Program) (w : World σ ω) :
    let ev : Evaluator σ ω := ⟨b, [], policy⟩
    Asks b p w (ev.run p w) ∧ Asks b p w (ev.execute p w) ∧
      ∀ (s : Statement) (error : EvalError),
        (∃ w', ev.visit s.node w = .error error w' ∧ w'.requests = w.requests) ↔
          s.Invalid error := by
  intro ev
  have hev : ev.extensions = [] := rfl
  exact ⟨run_asks hev p w, execute_asks hev p w, fun s error => visit_error_iff hev s error w⟩

end Evaluator

end MiniSql
