import MiniSql.Proofs.Offers

/-!
# What leaves the context alone

An action keeps the context if the world behind it has the context of the world before it, whether
the action succeeds or fails. All of a visit keeps it, as long as the hooks of the extensions do:
only putting a result on the stack is different, and only statements do that.
-/

namespace MiniSql

/-- The hooks of the extension may observe and fail, but they leave the context alone. -/
structure Extension.KeepsContext {ω : Type} (x : Extension ω) : Prop where
  before : ∀ node context memory, (x.before node context memory).2.1 = context
  after : ∀ node context memory, (x.after node context memory).2.1 = context

namespace Evaluator

variable {ε σ ω α β : Type}

/-- The world behind an action, which it leaves either way. -/
def worldOf : EStateM.Result ε (World σ ω) α → World σ ω
  | .ok _ w => w
  | .error _ w => w

def KeepsContext (x : Action ε σ ω α) : Prop := ∀ w, (worldOf (x w)).context = w.context

namespace KeepsContext

variable {x : Action ε σ ω α} {w w' : World σ ω}

/-- The context behind an action that succeeds is the one before it. -/
theorem of_ok (h : KeepsContext x) {a : α} (hx : x w = .ok a w') : w'.context = w.context := by
  have hw := h w
  rwa [hx] at hw

theorem of_error (h : KeepsContext x) {e : ε} (hx : x w = .error e w') :
    w'.context = w.context := by
  have hw := h w
  rwa [hx] at hw

theorem pure (a : α) : KeepsContext (Pure.pure a : Action ε σ ω α) := fun _ => rfl

/-- A sequence keeps the context if its parts do. -/
theorem bind {f : α → Action ε σ ω β} (hx : KeepsContext x) (hf : ∀ a, KeepsContext (f a)) :
    KeepsContext (x >>= f) := by
  intro w
  cases hresult : x w with
  | ok a w' => rw [bind_of_ok hresult, hf a w', hx.of_ok hresult]
  | error e w' =>
    rw [bind_of_error hresult]
    exact hx.of_error hresult

theorem adaptExcept {ε' : Type} {g : ε → ε'} (hx : KeepsContext x) :
    KeepsContext (x.adaptExcept g) := by
  intro w
  cases hresult : x w with
  | ok a w' =>
    rw [adaptExcept_of_ok hresult]
    exact hx.of_ok hresult
  | error e w' =>
    rw [adaptExcept_of_error hresult]
    exact hx.of_error hresult

theorem ofExcept (result : Except ε α) :
    KeepsContext (MonadExcept.ofExcept result : Action ε σ ω α) := by
  intro w
  cases result with
  | ok a => rfl
  | error e => rfl

theorem record (event : Event) : KeepsContext (Evaluator.record event : Action ε σ ω Unit) := by
  intro w
  rw [record_eq]
  rfl

theorem recordAll (events : List Event) :
    KeepsContext (Evaluator.recordAll events : Action ε σ ω Unit) := by
  intro w
  rw [recordAll_eq]
  rfl

theorem request (r : Request) (ask : σ → Reply σ α) :
    KeepsContext (Evaluator.request r ask : Action BackendError σ ω α) := by
  intro w
  rw [request_eq]
  cases (ask w.state).answer with
  | ok a => rfl
  | error e => rfl

/-! ## Hooks and claims -/

theorem runHook {hook : Hook ω} (h : ∀ context memory, (hook context memory).2.1 = context) :
    KeepsContext (Evaluator.runHook hook : Action EvalError σ ω Unit) := by
  intro w
  -- a hook gives its context back with either answer
  have hcontext := h w.context w.memory
  rw [Evaluator.runHook]
  cases hresult : hook w.context w.memory with
  | mk result rest =>
    rw [hresult] at hcontext
    cases result with
    | ok _ => exact hcontext
    | error e => exact hcontext

/-- Hooks keep the context if each of them does. -/
theorem runHooks {hook : Extension ω → Hook ω} {event : Nat → Nat → Event}
    {xs : List (Extension ω × Nat)}
    (h : ∀ x ∈ xs, ∀ context memory, (hook x.1 context memory).2.1 = context) :
    KeepsContext (Evaluator.runHooks hook event xs : Action EvalError σ ω Unit) := by
  -- by induction on the extensions, whose hooks run one after another
  induction xs with
  | nil => exact pure ()
  | cons x xs ih =>
    obtain ⟨x, place⟩ := x
    obtain ⟨hx, hxs⟩ := List.forall_mem_cons.mp h
    intro w
    rw [runHooks_cons]
    exact ((runHook hx).bind fun _ => ih hxs) (w.log [event place w.context.depth])

theorem claim? (ev : Evaluator σ ω) (node : Node) : KeepsContext (ev.claim? node) := by
  intro w
  rw [claim?_eq]
  rfl

end KeepsContext

end Evaluator

end MiniSql
