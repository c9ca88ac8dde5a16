import MiniSql.Event
import MiniSql.Extension

/-!
# Actions of an evaluator

A run is made of actions. An action may change the context, the backend's state, the memory of the
extensions and the journal, all of them held in a `World`, and it may fail. What was done before a
failure stays done: an action has a world to leave behind either way.

The basic actions enter an event into the journal, put a result on the stack, and have the backend
answer a request.
-/

namespace MiniSql

/-- Why a run ends early. -/
inductive EvalError
  | backend (e : BackendError)
  | extension (e : ExtensionError)
  /-- A `WHERE` expression that evaluates to something else than a condition. -/
  | invalidCondition (found : String)
  /-- An inserted value that a row cannot hold. -/
  | invalidValue (found : String)
  deriving DecidableEq

namespace EvalError

/-- An error as messages show it. -/
def render : EvalError → String
  | backend e => e.render
  | extension e => e.render
  | invalidCondition found => s!"WHERE clause must be a condition, found {found}"
  | invalidValue found => s!"INSERT value must be a scalar, found {found}"

/-- The message of the error behind this one, if it passes another one on. -/
def source? : EvalError → Option String
  | backend e => some e.render
  | extension e => some e.render
  | invalidCondition _ | invalidValue _ => none

end EvalError

/-- All that a run may change: its context, the backend's state, the memory of the extensions, and
the journal of what happened. -/
structure World (σ ω : Type) where
  context : Context
  state : σ
  memory : ω
  journal : Array Event

/-- A part of a run. It may fail, and its changes stay either way. -/
abbrev Action (ε σ ω α : Type) : Type := EStateM ε (World σ ω) α

/-- An evaluator: a backend, the extensions in registration order, and the policy that contexts made
for it start with. -/
structure Evaluator (σ ω : Type) where
  backend : Backend σ
  extensions : List (Extension ω)
  policy : ClaimPolicy

/-- The outcome of visiting a node: its value, and whether an extension claimed it. -/
structure Visit where
  value : Value
  claimed : Bool

namespace Evaluator

variable {σ ω : Type}

/-- Enters an event into the journal. -/
def record {ε : Type} (event : Event) : Action ε σ ω Unit :=
  modify fun w => { w with journal := w.journal.push event }

/-- Enters events into the journal, one after another. -/
def recordAll {ε : Type} (events : List Event) : Action ε σ ω Unit := events.forM record

/-- Puts a result on the stack. -/
def push {ε : Type} (v : Value) : Action ε σ ω Unit :=
  modify fun w => { w with context := w.context.push v }

/-! ## Requests -/

/-- Has the backend answer a request: enters the request, takes over the backend's new state, and
enters its remarks. -/
def request {α : Type} (r : Request) (ask : σ → Reply σ α) : Action BackendError σ ω α := do
  record (.requested r)
  let reply := ask (← get).state
  modify fun w => { w with state := reply.state }
  recordAll (reply.remarks.map .remarked)
  match reply.answer with
  | .ok a => return a
  | .error e => throw e

/-- Asks the backend for rows. -/
def select (ev : Evaluator σ ω) (q : Query) : Action BackendError σ ω (List Row) :=
  request (.select q) (ev.backend.select q)

/-- Has the backend insert a row. -/
def insert (ev : Evaluator σ ω) (i : Insertion) : Action BackendError σ ω Unit :=
  request (.insert i) (ev.backend.insert i)

end Evaluator

end MiniSql
