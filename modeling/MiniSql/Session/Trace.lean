import MiniSql.Event

/-!
# Traces

A trace shows the events of a run as lines of text, in the order in which they happened. It can
show the log, the requests that reach the backend, and the hooks of those extensions that are
recorded; an event that belongs to none of what is shown leaves no line.
-/

namespace MiniSql

/-- What a trace shows. -/
structure Trace where
  log : Bool
  requests : Bool
  /-- For each extension, by its place: the name it is shown under, if it is recorded. -/
  recorded : List (Option String)

namespace Trace

/-- The line of an extension's hook, if the extension is recorded. -/
def hookLine? (trace : Trace) (place : Nat) (what : String) : Option String :=
  (trace.recorded[place]?).join.map fun name => name ++ " " ++ what

/-- The line that a trace shows for an event, if any. -/
def line? (trace : Trace) : Event → Option String
  | .before place node depth => trace.hookLine? place s!"before {node.kind} {depth}"
  | .asked place node => trace.hookLine? place s!"claim {node.kind}"
  | .settled place node => trace.hookLine? place s!"settled {node.kind}"
  | .after place node depth => trace.hookLine? place s!"after {node.kind} {depth}"
  | .requested r => if trace.requests then some r.render else none
  | event => if trace.log then event.log?.map LogLine.render else none

/-- The lines for a run of events. -/
def lines (trace : Trace) (events : List Event) : List String := events.filterMap trace.line?

end Trace

end MiniSql
