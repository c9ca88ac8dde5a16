import MiniSql.Text.Ascii
import MiniSql.Text.Blank
import MiniSql.Value

/-!
# Evaluation contexts

A context is what one run of the evaluator carries along: the stack of the results so far, and the
policy that decides between extensions that claim the same node.

A policy is also a setting, written as text. The text is trimmed of blanks and read ignoring the
case of ASCII letters; without a setting, or with one that names no policy, the policy is `race`.
-/

namespace MiniSql

/-! ## Log lines -/

/-- How important a log line is. -/
inductive LogLevel
  | trace | debug | info | warn
  deriving DecidableEq

/-- A level as log lines show it. -/
def LogLevel.render : LogLevel → String
  | trace => "TRACE"
  | debug => "DEBUG"
  | info => "INFO"
  | warn => "WARN"

/-- A line of the log. -/
structure LogLine where
  level : LogLevel
  message : String
  deriving DecidableEq

/-- A log line as text. -/
def LogLine.render (line : LogLine) : String := line.level.render ++ " " ++ line.message

/-! ## Claim policies -/

/-- How claims of several extensions on one node are decided. -/
inductive ClaimPolicy
  /-- All claims start together, and the first to settle without failing decides. -/
  | race
  /-- Claims are settled one after another in registration order, until one claims the node. -/
  | ordered
  deriving DecidableEq

namespace ClaimPolicy

/-- The policy without a setting. -/
def standard : ClaimPolicy := .race

instance : Inhabited ClaimPolicy := ⟨standard⟩

/-- The name of a policy. -/
def render : ClaimPolicy → String
  | race => "race"
  | ordered => "ordered"

/-- The message about a text that names no policy; it shows the text as it was compared. -/
def unknown (folded : String) : String := s!"unknown claim policy '{folded}'"

/-- The policy that a text names, or the message that it names none. -/
def read (text : String) : Except String ClaimPolicy :=
  let folded := String.ofList (Text.foldCase (Text.trim text.toList))
  if folded = "race" then .ok race
  else if folded = "ordered" then .ok ordered
  else .error (unknown folded)

/-- The environment variable of the setting. -/
def settingName : String := "DSQL_CLAIM_POLICY"

/-- The policy of a setting that may be absent, and the warning about one that names no policy. -/
def ofSetting (setting : Option String) : ClaimPolicy × List LogLine :=
  match setting.map read with
  | none => (standard, [])
  | some (.ok policy) => (policy, [])
  | some (.error message) =>
    (standard, [⟨.warn, s!"{settingName}: {message}, using {standard.render}"⟩])

end ClaimPolicy

/-! ## Contexts -/

/-- What one run carries along. -/
structure Context where
  /-- One result for each statement done, in order, behind what was there before. -/
  stack : List Value
  policy : ClaimPolicy

namespace Context

/-- A context without results. -/
def fresh (policy : ClaimPolicy) : Context := ⟨[], policy⟩

/-- The context with one more result. -/
def push (c : Context) (v : Value) : Context := { c with stack := c.stack ++ [v] }

/-- The context without its last result, if it has one. -/
def pop (c : Context) : Context := { c with stack := c.stack.dropLast }

/-- The number of results. -/
def depth (c : Context) : Nat := c.stack.length

end Context

end MiniSql
