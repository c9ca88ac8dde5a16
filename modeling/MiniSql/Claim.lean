import MiniSql.Context

/-!
# Claims on a node

An extension that may handle a node in the evaluator's place makes a claim: after a delay it either
claims the node with a value, or declines, or fails. `resolve` decides between the claims that are
made on one node, by the policy in force.

* Under `race` all claims run side by side, so they settle in the order of their delays, claims of
  equal delay in registration order. A claim that fails is passed over; the first other one decides,
  whether it claims or declines.
* Under `ordered` they settle one after another in registration order, whatever their delays, and
  the first that claims the node decides.

No claim settles once the node is decided.
-/

namespace MiniSql

/-- An error raised by an extension. -/
structure ExtensionError where
  extension : String
  message : String
  deriving DecidableEq

/-- An extension's error as messages show it. -/
def ExtensionError.render (e : ExtensionError) : String :=
  s!"extension \"{e.extension}\": {e.message}"

/-- How a claim settles. -/
inductive Outcome
  | claimed (v : Value)
  | declined
  | failed (e : ExtensionError)

/-- A claim: how it settles, and after how many milliseconds. -/
structure Claim where
  delay : Nat
  outcome : Outcome

/-- A claim with its owner: the owner's place in the order of registration, and its name. -/
structure Offer where
  place : Nat
  owner : String
  claim : Claim

/-- What became of the claims on a node: those that settled, in that order, and the value that the
node was claimed with, if it was. -/
structure Resolution where
  settled : List Offer
  value? : Option Value

/-- The order in which claims would settle. -/
def ClaimPolicy.order (policy : ClaimPolicy) (offers : List Offer) : List Offer :=
  match policy with
  | race => offers.mergeSort fun a b => a.claim.delay ≤ b.claim.delay
  | ordered => offers

/-- Settles claims in the given order until the node is decided. -/
def ClaimPolicy.settle (policy : ClaimPolicy) : List Offer → Resolution
  | [] => ⟨[], none⟩
  | offer :: rest =>
    match offer.claim.outcome with
    | .claimed v => ⟨[offer], some v⟩
    | .failed _ => let later := settle policy rest; ⟨offer :: later.settled, later.value?⟩
    | .declined =>
      if policy = .race then ⟨[offer], none⟩
      else let later := settle policy rest; ⟨offer :: later.settled, later.value?⟩

/-- Decides between the claims on a node. -/
def ClaimPolicy.resolve (policy : ClaimPolicy) (offers : List Offer) : Resolution :=
  policy.settle (policy.order offers)

end MiniSql
