import Mathlib.Data.List.Forall2
import MiniSql.Proofs.FailedRun
import MiniSql.Proofs.Plain

/-!
# Two evaluators in lockstep

Two evaluators may differ in their extensions and in what these remember, and still make the same of
every program. To show that of whole runs it is enough to relate their worlds so that the relation
survives the visit of a node, given that it survives the handling of that node, and each of the
basic actions (`KeepStep`). It then survives the visit of any part of a program
(`KeepStep.visit`), and the two visits end alike.

The visit of a node is in lockstep if what is done before the node is handled and the hooks after it
are (`Lockstep.around`), and hooks are if those of one extension are (`Lockstep.runHooks`). A node
that never comes to be handled, since a hook before it always fails, may be handled in any way
(`Lockstep.bind_of_fails`).
-/

namespace MiniSql.Evaluator

variable {ε ε' σ σ' ω ω' α β : Type} {R : World σ ω → World σ' ω' → Prop}

/-- Two actions end with the same value or the same error, in related worlds. -/
inductive Alike (R : World σ ω → World σ' ω' → Prop) :
    EStateM.Result ε (World σ ω) α → EStateM.Result ε (World σ' ω') α → Prop
  | ok {a : α} {w : World σ ω} {w' : World σ' ω'} (h : R w w') : Alike R (.ok a w) (.ok a w')
  | error {e : ε} {w : World σ ω} {w' : World σ' ω'} (h : R w w') :
      Alike R (.error e w) (.error e w')

/-- The worlds left behind correspond, whether the results are answers or errors. -/
theorem Alike.worldOf {r : EStateM.Result ε (World σ ω) α} {r' : EStateM.Result ε (World σ' ω') α}
    (h : Alike R r r') : R (worldOf r) (worldOf r') := by
  cases h with
  | ok hw => exact hw
  | error hw => exact hw

theorem Alike.eq {R : World σ ω → World σ ω → Prop} {r r' : EStateM.Result ε (World σ ω) α}
    (h : Alike R r r') (heq : ∀ w w', R w w' → w = w') : r = r' := by
  cases h with
  | ok hw => exact congrArg _ (heq _ _ hw)
  | error hw => exact congrArg _ (heq _ _ hw)

/-- Started in related worlds, two actions end alike. -/
def Lockstep (R : World σ ω → World σ' ω' → Prop) (x : Action ε σ ω α)
    (y : Action ε σ' ω' α) : Prop :=
  ∀ w w', R w w' → Alike R (x w) (y w')

namespace Lockstep

variable {x : Action ε σ ω α} {y : Action ε σ' ω' α}

theorem pure (a : α) :
    Lockstep R (Pure.pure a : Action ε σ ω α) (Pure.pure a : Action ε σ' ω' α) :=
  fun _ _ h => .ok h

/-- Sequences keep in step if their parts do. -/
theorem bind {f : α → Action ε σ ω β} {g : α → Action ε σ' ω' β} (hxy : Lockstep R x y)
    (hfg : ∀ a, Lockstep R (f a) (g a)) : Lockstep R (x >>= f) (y >>= g) := by
  intro w w' h
  have hfirst := hxy w w' h
  rw [bind_eq, bind_eq]
  generalize x w = left, y w' = right at hfirst ⊢
  cases hfirst with
  | ok h₁ => exact hfg _ _ _ h₁
  | error h₁ => exact .error h₁

/-- What would be done behind an action that always fails does not matter. -/
theorem bind_of_fails {f : α → Action ε σ ω β} {g : α → Action ε σ' ω' β} (hxy : Lockstep R x y)
    (hfails : ∀ w, ∃ e w', x w = .error e w') : Lockstep R (x >>= f) (y >>= g) := by
  intro w w' h
  have hfirst := hxy w w' h
  obtain ⟨e, w₁, hx⟩ := hfails w
  rw [bind_eq, bind_eq]
  rw [hx] at hfirst ⊢
  generalize y w' = right at hfirst ⊢
  cases hfirst with
  | error h₁ => exact .error h₁

theorem adaptExcept {g : ε → ε'} (hxy : Lockstep R x y) :
    Lockstep R (x.adaptExcept g) (y.adaptExcept g) := by
  intro w w' h
  have hresult := hxy w w' h
  rw [EStateM.adaptExcept, EStateM.adaptExcept]
  generalize x w = left, y w' = right at hresult ⊢
  cases hresult with
  | ok h₁ => exact .ok h₁
  | error h₁ => exact .error h₁

theorem ofExcept (result : Except ε α) :
    Lockstep R (MonadExcept.ofExcept result : Action ε σ ω α)
      (MonadExcept.ofExcept result : Action ε σ' ω' α) := by
  intro w w' h
  cases result with
  | ok a => exact .ok h
  | error e => exact .error h

/-- A backend that is in the same state gives the same reply. -/
theorem request {R : World σ ω → World σ ω' → Prop} (hstate : ∀ {w w'}, R w w' → w.state = w'.state)
    (r : Request) {ask : σ → Reply σ α} (hanswered : ∀ {w w'}, R w w' →
      R (w.answered r (ask w.state)) (w'.answered r (ask w.state))) :
    Lockstep R (request r ask : Action BackendError σ ω α)
      (request r ask : Action BackendError σ ω' α) := by
  intro w w' h
  rw [request_eq, request_eq, ← hstate h]
  cases (ask w.state).answer with
  | ok a => exact .ok (hanswered h)
  | error e => exact .error (hanswered h)

end Lockstep

/-! ## Visits -/

namespace Lockstep

/-- Hooks keep in step if each of them does, and entering their calls does. -/
theorem runHooks {hook : Extension ω → Hook ω} {hook' : Extension ω' → Hook ω'}
    {event : Nat → Nat → Event} {xs : List (Extension ω × Nat)} {ys : List (Extension ω' × Nat)}
    (hcalled : ∀ {w w'} place, R w w' →
      R (w.log [event place w.context.depth]) (w'.log [event place w'.context.depth]))
    (h : List.Forall₂ (fun x y => x.2 = y.2 ∧
      Lockstep R (runHook (hook x.1)) (runHook (hook' y.1))) xs ys) :
    Lockstep R (runHooks hook event xs : Action EvalError σ ω Unit)
      (runHooks hook' event ys : Action EvalError σ' ω' Unit) := by
  -- by induction on the two lists, whose hooks are called in pairs
  induction h with
  | nil => exact .pure ()
  | @cons x y xs ys hxy _ ih =>
    obtain ⟨x, place⟩ := x
    obtain ⟨y, place'⟩ := y
    obtain ⟨rfl, hhook⟩ := hxy
    intro w w' hw
    rw [runHooks_cons, runHooks_cons]
    exact (hhook.bind fun _ => ih) _ _ (hcalled place hw)

variable {ev : Evaluator σ ω} {ev' : Evaluator σ' ω'}

/-- Visits keep in step if what opens and closes them does, and the handling between. -/
theorem around {node node' : Node} {x : Action EvalError σ ω Value}
    {y : Action EvalError σ' ω' Value}
    (hopening : Lockstep R (ev.opening node) (ev'.opening node'))
    (hclaimed : Lockstep R (record (.claimed node) : Action EvalError σ ω Unit)
      (record (.claimed node') : Action EvalError σ' ω' Unit))
    (hafter : Lockstep R (ev.afterHooks node) (ev'.afterHooks node')) (hxy : Lockstep R x y) :
    Lockstep R (ev.around node x) (ev'.around node' y) := by
  rw [around_eq_opening, around_eq_opening]
  refine hopening.bind fun claimed? => ?_
  cases claimed? with
  | some value => exact hclaimed.bind fun _ => hafter.bind fun _ => .pure _
  | none => exact hxy.bind fun _ => hafter.bind fun _ => .pure _

theorem pushClaimed (hpush : ∀ v, Lockstep R (push v : Action EvalError σ ω Unit)
    (push v : Action EvalError σ' ω' Unit)) (visit : Visit) :
    Lockstep R (pushClaimed visit : Action EvalError σ ω Unit)
      (pushClaimed visit : Action EvalError σ' ω' Unit) := by
  obtain ⟨value, claimed⟩ := visit
  cases claimed with
  | true => exact hpush value
  | false => exact .pure ()

/-- A program that is executed has a context of its own, which is given up behind it. -/
theorem execute {p q : Program} {w : World σ ω} {w' : World σ' ω'}
    (hrun : Lockstep R (ev.run p) (ev'.run q))
    (hfresh : R { w with context := .fresh ev.policy } { w' with context := .fresh ev'.policy })
    (hback : ∀ {v v'}, R v v' →
      R { v with context := w.context } { v' with context := w'.context }) :
    Alike R (ev.execute p w) (ev'.execute q w') := by
  have hresult := hrun _ _ hfresh
  rw [Evaluator.execute, Evaluator.execute]
  generalize ev.run p _ = left, ev'.run q _ = right at hresult ⊢
  cases hresult with
  | ok h => exact .ok (hback h)
  | error h => exact .error (hback h)

end Lockstep

/-! ## Whole evaluators -/

/-- The evaluators keep related worlds related: in the visit of a node, if they do in its handling,
and in each basic action. No other nodes than the ones in `handled` ever come to be handled. -/
structure KeepStep (R : World σ ω → World σ' ω' → Prop) (ev : Evaluator σ ω)
    (ev' : Evaluator σ' ω') (handled : Node → Prop := fun _ => True) : Prop where
  around : ∀ (node : Node) {x : Action EvalError σ ω Value} {y : Action EvalError σ' ω' Value},
    (handled node → Lockstep R x y) → Lockstep R (ev.around node x) (ev'.around node y)
  requesting : ∀ r, Lockstep R (record (.requesting r) : Action EvalError σ ω Unit)
    (record (.requesting r) : Action EvalError σ' ω' Unit)
  push : ∀ v, Lockstep R (push v : Action EvalError σ ω Unit)
    (push v : Action EvalError σ' ω' Unit)
  select : ∀ (s : Select) (c? : Option Condition), handled (.select s) →
    Lockstep R (ev.select (s.query c?)) (ev'.select (s.query c?))
  insert : ∀ (i : Insert) (values : List Scalar), handled (.insert i) →
    Lockstep R (ev.insert (i.insertion values)) (ev'.insert (i.insertion values))

namespace KeepStep

variable {ev : Evaluator σ ω} {ev' : Evaluator σ' ω'} {handled : Node → Prop}

theorem valueOf (h : KeepStep R ev ev' handled) (node : Node) {x : Action EvalError σ ω Value}
    {y : Action EvalError σ' ω' Value} (hxy : handled node → Lockstep R x y) :
    Lockstep R (ev.valueOf node x) (ev'.valueOf node y) :=
  (h.around node hxy).bind fun _ => .pure _

mutual

/-- Expressions are visited in step. -/
theorem visitExpr (h : KeepStep R ev ev' handled) (e : Expr) :
    Lockstep R (ev.visitExpr e) (ev'.visitExpr e) := by
  -- by recursion on the expression, as it is visited
  cases e with
  | identifier name => exact h.valueOf _ fun _ => .pure _
  | number x => exact h.valueOf _ fun _ => .pure _
  | string s => exact h.valueOf _ fun _ => .pure _
  | boolean b => exact h.valueOf _ fun _ => .pure _
  | array elements => exact h.valueOf _ fun _ => (h.visitAll elements).bind fun _ => .pure _
  | binary left op right =>
    refine h.valueOf _ fun _ => ?_
    exact (h.visitExpr left).bind fun _ => (h.visitExpr right).bind fun _ => .pure _

theorem visitAll (h : KeepStep R ev ev' handled) (es : List Expr) :
    Lockstep R (ev.visitAll es) (ev'.visitAll es) := by
  cases es with
  | nil => exact .pure []
  | cons e es => exact (h.visitExpr e).bind fun _ => (h.visitAll es).bind fun _ => .pure _

end

variable (h : KeepStep R ev ev' handled)

include h

theorem visitCondition (condition? : Option Expr) :
    Lockstep R (ev.visitCondition condition?) (ev'.visitCondition condition?) := by
  cases condition? with
  | none => exact .pure _
  | some e => exact h.visitExpr e

/-- Selections are handled in step, from the condition to the answer. -/
theorem handleSelect (s : Select) (hs : handled (.select s)) :
    Lockstep R (ev.handleSelect s) (ev'.handleSelect s) :=
  (h.visitCondition s.condition?).bind fun _ => (Lockstep.ofExcept _).bind fun c? =>
    (h.requesting _).bind fun _ => (h.select s c? hs).adaptExcept.bind fun _ =>
      (h.push _).bind fun _ => .pure _

/-- Insertions are handled in step, from the values to the answer. -/
theorem handleInsert (i : Insert) (hi : handled (.insert i)) :
    Lockstep R (ev.handleInsert i) (ev'.handleInsert i) :=
  (h.visitExpr i.values).bind fun _ => (Lockstep.ofExcept _).bind fun values =>
    (h.requesting _).bind fun _ => (h.insert i values hi).adaptExcept.bind fun _ =>
      (h.push _).bind fun _ => .pure _

theorem handleStatement (s : Statement) (hs : handled s.node) :
    Lockstep R (ev.handleStatement s) (ev'.handleStatement s) := by
  cases s with
  | select s => exact h.handleSelect s hs
  | insert i => exact h.handleInsert i hs

/-- Programs are handled in step, one statement after another. -/
theorem handleProgram (p : Program) : Lockstep R (ev.handleProgram p) (ev'.handleProgram p) := by
  induction p with
  | nil => exact .pure _
  | cons s p ih =>
    refine (h.around s.node (h.handleStatement s)).bind fun visit => ?_
    exact (Lockstep.pushClaimed h.push visit).bind fun _ => ih

theorem visit (node : Node) : Lockstep R (ev.visit node) (ev'.visit node) := by
  cases node with
  | program p => exact h.valueOf _ fun _ => h.handleProgram p
  | select s => exact h.valueOf _ (h.handleSelect s)
  | insert i => exact h.valueOf _ (h.handleInsert i)
  | names items => exact h.valueOf _ fun _ => .pure _
  | expr e => exact h.visitExpr e

/-- Two runs end alike if related worlds have the same stack. -/
theorem run (hstack : ∀ w w', R w w' → w.context.stack = w'.context.stack) (p : Program) :
    Lockstep R (ev.run p) (ev'.run p) := by
  refine (h.visit (.program p)).bind fun _ w w' hw => ?_
  show Alike R (.ok w.context.stack w) (.ok w'.context.stack w')
  rw [hstack w w' hw]
  exact .ok hw

end KeepStep

end MiniSql.Evaluator
