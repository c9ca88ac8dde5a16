import MiniSql.Backend
import MiniSql.Claim
import MiniSql.Program

/-!
# Events

What happens during a run, one event after another: nodes are visited, hooks of extensions run,
claims settle, and requests go to the backend. The journal of a run is the list of its events; logs
and traces are views of it.
-/

namespace MiniSql

/-- One thing that happens. Extensions are given by their place in the order of registration. -/
inductive Event
  /-- A text was read as a program of so many statements. -/
  | parsed (count : Nat)
  /-- The visit of a node begins. -/
  | entered (node : Node)
  /-- An extension's hook before the node runs, with so many results on the stack. -/
  | before (place : Nat) (node : Node) (depth : Nat)
  /-- An extension has been asked for a claim and makes one. -/
  | asked (place : Nat) (node : Node)
  /-- An extension's claim has settled. -/
  | settled (place : Nat) (node : Node)
  /-- A settled claim has failed. -/
  | rejected (owner : String) (e : ExtensionError)
  /-- The node is claimed by an extension. -/
  | claimed (node : Node)
  /-- A request is made up for the backend. -/
  | requesting (r : Request)
  /-- The backend receives a request. -/
  | requested (r : Request)
  /-- The backend remarks on what it did. -/
  | remarked (text : String)
  /-- An extension's hook after the node runs, with so many results on the stack. -/
  | after (place : Nat) (node : Node) (depth : Nat)

namespace Event

/-- The line that an event leaves in the log, if any. -/
def log? : Event → Option LogLine
  | parsed count => some ⟨.trace, s!"parsed {count} statement(s)"⟩
  | entered node => some ⟨.debug, s!"visit {node.kind}"⟩
  | rejected owner e => some ⟨.warn, s!"claim hook of {owner} rejected: {e.render}"⟩
  | claimed node => some ⟨.debug, s!"{node.kind} claimed by extension"⟩
  | requesting (.select q) => some ⟨.debug, s!"select from {q.table}"⟩
  | requesting (.insert i) => some ⟨.debug, s!"insert into {i.table}"⟩
  | remarked text => some ⟨.debug, text⟩
  | before .. | asked .. | settled .. | requested _ | after .. => none

end Event

end MiniSql
