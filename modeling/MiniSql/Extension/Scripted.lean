import MiniSql.Extension

/-!
# Scripted extensions

A scripted extension is given by data: for each of its hooks a list of rules, of which the first
that matches the node is applied. It remembers nothing between hooks.

A rule matches by the node's kind, by its label, by both or by neither. What it does depends on the
hook: a rule of a claim hook claims, fails or declines after a delay; a rule of the other hooks
fails or changes the context, and its delay changes nothing.
-/

namespace MiniSql

/-- The label of a node, by which rules tell nodes of one kind apart. -/
def Node.label : Node → String
  | program _ => ""
  | select s => s.table
  | insert i => i.table
  | names items => ",".intercalate items
  | expr (.identifier name) => name
  | expr (.number x) => (Scalar.number x).render
  | expr (.string s) => s
  | expr (.boolean b) => if b then "true" else "false"
  | expr (.array _) => ""
  | expr (.binary _ op _) => op.text

namespace Scripted

/-- What a rule does. -/
inductive Act
  | claim (v : Value)
  /-- Fails; the error names the given extension, or else the one whose rule it is. -/
  | fail (message : String) (owner? : Option String)
  | push (v : Value)
  | setPolicy (p : ClaimPolicy)
  | pop
  /-- Does nothing; as a claim, declines. -/
  | decline

/-- A rule for a hook. -/
structure Rule where
  kind? : Option String
  label? : Option String
  delay : Nat
  act : Act

/-- The rule matches a node. -/
def Rule.appliesTo (rule : Rule) (node : Node) : Bool :=
  rule.kind?.all (· == node.kind) && rule.label?.all (· == node.label)

/-- The first rule that matches a node. -/
def ruleFor? (rules : List Rule) (node : Node) : Option Rule := rules.find? (·.appliesTo node)

/-- The error that a failing rule of an extension raises. -/
def failure (owner : String) (message : String) (owner? : Option String) : ExtensionError :=
  ⟨owner?.getD owner, message⟩

/-- What a rule does in a hook before or after a node. -/
def Act.onContext (owner : String) (act : Act) (c : Context) :
    Except ExtensionError Unit × Context :=
  match act with
  | .fail message owner? => (.error (failure owner message owner?), c)
  | .push v => (.ok (), c.push v)
  | .setPolicy policy => (.ok (), { c with policy })
  | .pop => (.ok (), c.pop)
  | .claim _ | .decline => (.ok (), c)

/-- How a claim by a rule settles. -/
def Act.outcome (owner : String) : Act → Outcome
  | .claim v => .claimed v
  | .fail message owner? => .failed (failure owner message owner?)
  | .push _ | .setPolicy _ | .pop | .decline => .declined

/-- The hook that applies rules. -/
def hook (owner : String) (rules : List Rule) (node : Node) : Hook Unit := fun c memory =>
  match ruleFor? rules node with
  | none => (.ok (), c, memory)
  | some rule => let (answer, c) := rule.act.onContext owner c; (answer, c, memory)

/-- The claim that rules make; none where no rule matches. -/
def claim? (owner : String) (rules : List Rule) (node : Node) : Option Claim :=
  (ruleFor? rules node).map fun rule => ⟨rule.delay, rule.act.outcome owner⟩

end Scripted

/-- A scripted extension. -/
structure Script where
  name : String
  /-- Its hooks are shown in traces. -/
  recorded : Bool
  before : List Scripted.Rule
  claim : List Scripted.Rule
  after : List Scripted.Rule

/-- The extension that a script describes. -/
def Script.extension (s : Script) : Extension Unit where
  name := s.name
  before := Scripted.hook s.name s.before
  claim? node _ memory := (Scripted.claim? s.name s.claim node, memory)
  after := Scripted.hook s.name s.after

end MiniSql
