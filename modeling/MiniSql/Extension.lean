import MiniSql.Claim
import MiniSql.Program

/-!
# Extensions

An extension may watch every visit of a node, change the context, stop the run, or claim the node
and handle it in the evaluator's place. It has a hook before the visit, a claim, and a hook after
it, each of them with a default that does nothing.

Extensions may remember things: their hooks share a memory of type `ω`.
-/

namespace MiniSql

/-- A hook around a visit: it may fail, and it may change the context and the memory. -/
abbrev Hook (ω : Type) : Type := Context → ω → Except ExtensionError Unit × Context × ω

/-- The hook that does nothing. -/
def Hook.pass {ω : Type} : Hook ω := fun context memory => (.ok (), context, memory)

/-- An extension whose hooks share a memory of type `ω`. -/
structure Extension (ω : Type) where
  name : String := "extension"
  /-- Runs before the node is handled. An error stops the run. -/
  before : Node → Hook ω := fun _ => Hook.pass
  /-- Asked whether it has a claim on the node. Asking leaves the context alone. -/
  claim? : Node → Context → ω → Option Claim × ω := fun _ _ memory => (none, memory)
  /-- Runs after the node is handled, claimed or not. An error stops the run. -/
  after : Node → Hook ω := fun _ => Hook.pass

end MiniSql
