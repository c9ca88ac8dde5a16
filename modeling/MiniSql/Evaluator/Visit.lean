import MiniSql.Evaluator.Action

/-!
# Visits

Around the visit of a node run the hooks of the extensions: first those before the node, in
registration order; then all extensions are asked for a claim, and a claimed node takes the claimed
value and is not handled any further; last the hooks after the node, claimed or not. `around` joins
these to the handling of a node, whatever that is.
-/

namespace MiniSql.Evaluator

variable {σ ω : Type}

/-! ## Hooks -/

/-- Runs a hook of an extension. -/
def runHook (hook : Hook ω) : Action EvalError σ ω Unit := fun w =>
  match hook w.context w.memory with
  | (.ok (), context, memory) => .ok () { w with context, memory }
  | (.error e, context, memory) => .error (.extension e) { w with context, memory }

/-- Runs one hook of each extension, in registration order. -/
def runHooks (hook : Extension ω → Hook ω) (event : Nat → Nat → Event) :
    List (Extension ω × Nat) → Action EvalError σ ω Unit
  | [] => pure ()
  | (extension, place) :: rest => do
    record (event place (← get).context.depth)
    runHook (hook extension)
    runHooks hook event rest

/-! ## Claims -/

/-- Asks each extension for a claim on the node, in registration order. -/
def askAll (node : Node) : List (Extension ω × Nat) → Action EvalError σ ω (List Offer)
  | [] => pure []
  | (extension, place) :: rest => do
    let w ← get
    let (claim?, memory) := extension.claim? node w.context w.memory
    set { w with memory }
    match claim? with
    | none => askAll node rest
    | some claim =>
      record (.asked place node)
      return ⟨place, extension.name, claim⟩ :: (← askAll node rest)

/-- The events of a claim that has settled: a failure is reported. -/
def settledEvents (node : Node) (offer : Offer) : List Event :=
  .settled offer.place node ::
    match offer.claim.outcome with
    | .failed e => [.rejected offer.owner e]
    | .claimed _ | .declined => []

/-- Offers the node to the extensions: the value it is claimed with, if it is. -/
def claim? (ev : Evaluator σ ω) (node : Node) : Action EvalError σ ω (Option Value) := do
  let offers ← askAll node ev.extensions.zipIdx
  let resolution := (← get).context.policy.resolve offers
  recordAll (resolution.settled.flatMap (settledEvents node))
  return resolution.value?

/-- Takes the value that the node is claimed with, or else handles the node. -/
def claimOrHandle (ev : Evaluator σ ω) (node : Node) (handle : Action EvalError σ ω Value) :
    Action EvalError σ ω Visit := do
  match ← ev.claim? node with
  | some value =>
    record (.claimed node)
    return ⟨value, true⟩
  | none => return ⟨← handle, false⟩

/-! ## Around a node -/

/-- Visits a node: the extensions' hooks around it, and its handling unless it is claimed. -/
def around (ev : Evaluator σ ω) (node : Node) (handle : Action EvalError σ ω Value) :
    Action EvalError σ ω Visit := do
  record (.entered node)
  runHooks (·.before node) (.before · node ·) ev.extensions.zipIdx
  let visit ← ev.claimOrHandle node handle
  runHooks (·.after node) (.after · node ·) ev.extensions.zipIdx
  return visit

/-- Visits a node for its value. -/
def valueOf (ev : Evaluator σ ω) (node : Node) (handle : Action EvalError σ ω Value) :
    Action EvalError σ ω Value := do
  return (← ev.around node handle).value

end MiniSql.Evaluator
