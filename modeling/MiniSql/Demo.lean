import MiniSql.Evaluator
import MiniSql.Grammar.Statement
import MiniSql.Store

/-!
# The demonstration

Runs a small program on a store with one table and reports its results. The claim policy comes from
the settings; without extensions it changes nothing but the log.
-/

namespace MiniSql.Demo

/-- The program: an insertion between two selections that show its effect. -/
def source : String :=
  "SELECT * FROM user;\nINSERT INTO user VALUES ('yvonne', 13, 'fire');\nSELECT * FROM user;\n"

/-- A row of the table of users. -/
def user (name : String) (age : Int) (password : String) : Row :=
  .ofList [("name", .text name), ("age", .number (.ofInt age)), ("password", .text password)]

/-- The store with the table of users. -/
def store : Store :=
  Store.empty.put "user"
    { columns := ["name", "age", "password"]
      rows := [user "brian" 24 "secret1", user "kithinji" 25 "secret2",
        user "mutwiri" 26 "secret3"] }

/-- The report on the result of a statement; statements count from 1. -/
def report (result : Value) (number : Nat) : List String :=
  match result with
  | .rows rows =>
    s!"[{number}] {rows.length} row(s)" :: rows.map fun row => "    " ++ row.render
  | other => [s!"[{number}] {other.render}"]

/-- What the demonstration does: the lines it prints, the lines of its log, and its exit code. -/
structure Outcome where
  lines : List String
  log : List LogLine
  exit : Nat

/-- The results of the program. -/
def results (policy : ClaimPolicy) : Option (List Value) :=
  match parse source with
  | .error _ => none
  | .ok p =>
    let evaluator : Evaluator Store Unit := ⟨Store.backend, [], policy⟩
    match evaluator.execute p ⟨.fresh policy, store, (), #[]⟩ with
    | .ok results _ => some results
    | .error .. => none

/-- Runs the demonstration under a setting of the claim policy. -/
def run (setting : Option String) : Outcome :=
  let (policy, warnings) := ClaimPolicy.ofSetting setting
  let log := warnings ++ [⟨.info, s!"claim policy: {policy.render}"⟩]
  match results policy with
  | none => ⟨[], log, 1⟩
  | some results => ⟨results.zipIdx.flatMap fun (result, i) => report result (i + 1), log, 0⟩

/-- The text that the demonstration prints. -/
def Outcome.text (o : Outcome) : String := String.join (o.lines.map (· ++ "\n"))

end MiniSql.Demo
