import MiniSql.Evaluator
import MiniSql.Extension.Scripted
import MiniSql.Grammar.Statement
import MiniSql.Session.Trace
import MiniSql.Store

/-!
# Sessions

A session is one evaluator over one source of data, used step after step. Programs run in a context
of their own or in named contexts, which live as long as the session; tables can also be reached
directly. Every step has an answer and a trace, and a step that fails does not end the session.
-/

namespace MiniSql

namespace Session

/-! ## Data -/

/-- Where a session's rows come from. -/
inductive Data
  | store (store : Store)
  | dryRun (dryRun : DryRun)

namespace Data

/-- The reply of one kind of data as a reply of any. -/
def lift {σ α : Type} (wrap : σ → Data) (reply : Reply σ α) : Reply Data α :=
  ⟨reply.answer, wrap reply.state, reply.remarks⟩

/-- The data as a backend. -/
def backend : Backend Data where
  select q
    | store s => lift store (Store.backend.select q s)
    | dryRun d => lift dryRun (DryRun.backend.select q d)
  insert i
    | store s => lift store (Store.backend.insert i s)
    | dryRun d => lift dryRun (DryRun.backend.insert i d)

/-- The rows of a table; data without tables has none. -/
def rows? (table : String) : Data → Option (List Row)
  | store s => s.rows? table
  | dryRun _ => none

/-- Makes an empty table, where there are tables. -/
def create (table : String) (columns : List String) : Data → Data
  | store s => store (s.create table columns)
  | dryRun d => dryRun d

/-- Requests show in traces where they leave nothing else behind. -/
def showsRequests : Data → Bool
  | store _ => false
  | dryRun _ => true

end Data

/-! ## Steps and answers -/

/-- A program: a text still to be read, or the program itself. -/
inductive Code
  | text (sql : String)
  | tree (p : Program)

/-- Reads a program, with the events of reading it. -/
def Code.read : Code → Except ParseError (Program × Array Event)
  | text sql => (parse sql).map fun p => (p, #[.parsed p.length])
  | tree p => .ok (p, #[])

/-- One step of a session. -/
inductive Step
  /-- Runs a program in a context of its own. -/
  | execute (code : Code)
  /-- Runs a program in a named context. -/
  | run (context : String) (code : Code)
  /-- Visits a part of a program in a named context. -/
  | visit (context : String) (code : Code) (part : Part) (index : Nat)
  /-- Sets the claim policy of a named context. -/
  | setPolicy (context : String) (policy : ClaimPolicy)
  | createTable (table : String) (columns : List String)
  /-- Shows all rows of a table. -/
  | rows (table : String)
  /-- Asks the backend for rows, past the evaluator. -/
  | select (q : Query)
  /-- Has the backend insert a row, past the evaluator. -/
  | insert (i : Insertion)

/-- What a step comes to. Where a named context took part, its stack is told as it is afterwards. -/
inductive Result
  | executed (results : List Value)
  | ran (results stack : List Value)
  | visited (value : Value) (stack : List Value)
  | policySet (policy : ClaimPolicy)
  | done
  | rows (rows? : Option (List Row))
  | parseError (e : ParseError)
  | evalError (e : EvalError) (stack? : Option (List Value))
  | backendError (e : BackendError)

/-- The answer to a step. -/
structure Answer where
  result : Result
  trace : List String

/-! ## Extensions of a session -/

/-- An extension that is registered with a session. -/
inductive Registration
  /-- An extension that keeps every default. -/
  | plain
  /-- A scripted extension; a shared one is registered twice in a row. -/
  | scripted (s : Script) (shared : Bool)

namespace Registration

/-- The extensions that a registration adds, each with its name in traces if it is recorded. -/
def extensions : Registration → List (Extension Unit × Option String)
  | plain => [({}, none)]
  | scripted s shared =>
    List.replicate (if shared then 2 else 1)
      (s.extension, if s.recorded then some s.name else none)

end Registration

end Session

/-! ## Sessions -/

/-- A session. -/
structure Session where
  evaluator : Evaluator Session.Data Unit
  trace : Trace
  data : Session.Data
  contexts : Entries Context

namespace Session

/-- A session before its first step. -/
def start (data : Data) (policy : ClaimPolicy) (log : Bool) (registrations : List Registration) :
    Session :=
  let registered := registrations.flatMap Registration.extensions
  { evaluator := ⟨Data.backend, registered.map Prod.fst, policy⟩
    trace := ⟨log, data.showsRequests, registered.map Prod.snd⟩
    data
    contexts := [] }

/-- A named context. One that has not been used yet starts with the evaluator's policy. -/
def context (s : Session) (name : String) : Context :=
  (s.contexts.get? name).getD (.fresh s.evaluator.policy)

/-- The session after a step: with the data as the step left it, and the context it ran in. -/
def absorb (s : Session) (name? : Option String) (w : World Data Unit) : Session :=
  { s with
    data := w.state
    contexts := name?.elim s.contexts fun name => s.contexts.set name w.context }

/-- The trace of a step. -/
def lines (s : Session) (w : World Data Unit) : List String := s.trace.lines w.journal.toList

/-- A step that reads a program and acts on it, in a named context if there is one. -/
def onProgram {α : Type} (s : Session) (name? : Option String) (code : Code)
    (action : Program → Action EvalError Data Unit α) (result : α → List Value → Result) :
    Answer × Session :=
  match code.read with
  | .error e => (⟨.parseError e, []⟩, s)
  | .ok (p, events) =>
    match action p ⟨s.context (name?.getD ""), s.data, (), events⟩ with
    | .ok a w => (⟨result a w.context.stack, s.lines w⟩, s.absorb name? w)
    | .error e w =>
      (⟨.evalError e (name?.map fun _ => w.context.stack), s.lines w⟩, s.absorb name? w)

/-- A step that makes a request to the backend. -/
def onBackend {α : Type} (s : Session) (action : Action BackendError Data Unit α)
    (result : α → Result) : Answer × Session :=
  match action ⟨.fresh s.evaluator.policy, s.data, (), #[]⟩ with
  | .ok a w => (⟨result a, s.lines w⟩, s.absorb none w)
  | .error e w => (⟨.backendError e, s.lines w⟩, s.absorb none w)

/-- Takes a step. -/
def step (s : Session) : Step → Answer × Session
  | .execute code => s.onProgram none code s.evaluator.execute fun results _ => .executed results
  | .run name code => s.onProgram (some name) code s.evaluator.run .ran
  | .visit name code part index =>
    s.onProgram (some name) code (fun p => s.evaluator.visit? (p.part? part index)) .visited
  | .setPolicy name policy =>
    (⟨.policySet policy, []⟩,
      { s with contexts := s.contexts.set name { s.context name with policy } })
  | .createTable table columns =>
    (⟨.done, []⟩, { s with data := s.data.create table columns })
  | .rows table => (⟨.rows (s.data.rows? table), []⟩, s)
  | .select q => s.onBackend (s.evaluator.select q) fun rows => .rows (some rows)
  | .insert i => s.onBackend (s.evaluator.insert i) fun _ => .done

/-- Takes steps one after another and answers each. -/
def play (s : Session) : List Step → List Answer
  | [] => []
  | step :: rest => let (answer, s) := s.step step; answer :: s.play rest

end Session

end MiniSql
