import Mathlib
import MiniSql.Proofs.Calls

/-!
# Runs follow the traversal

What a run enters into its journal about visits and hooks is the traversal of its program from the
scene in which the run starts, and the run ends with that traversal's result and scene
(`hook_protocol`).

`Follows` states this of an action and the nodes that it visits. There is one lemma for actions in
sequence (`Follows.cons`) and one for the visit of a node (`follows_around`), whose handling visits
the node's children and then makes a value of theirs (`Handled`); then each construct of the
language is an instance of these.
-/

namespace MiniSql.Evaluator

variable {σ ω α β : Type}

/-! ## Actions that visit nodes -/

/-- Started in a world, an action with this result has traversed the nodes, and its answer shows
their values. -/
inductive Followed (ev : Evaluator σ ω) (nodes : List Node) (shows : α → List Value → Prop)
    (w : World σ ω) (result : EStateM.Result EvalError (World σ ω) α) : Prop
  | ok {calls : List Call} {vs : List Value} {a : α} {s : Scene σ ω}
      (h : Traverses ev nodes w.scene calls (.ok vs) s) (hyields : Yields w result calls (.ok a) s)
      (hshows : shows a vs)
  | error {calls : List Call} {e : EvalError} {s : Scene σ ω}
      (h : Traverses ev nodes w.scene calls (.error e) s)
      (hyields : Yields w result calls (.error e) s)

/-- From any world the action traverses the nodes. -/
def Follows (ev : Evaluator σ ω) (nodes : List Node) (shows : α → List Value → Prop)
    (x : Action EvalError σ ω α) : Prop := ∀ w, Followed ev nodes shows w (x w)

/-- Started in a world, a handler of a node with this result has traversed the node's children, and
unless one of them failed, has made of their values what the node concludes. -/
inductive Handled (ev : Evaluator σ ω) (node : Node) (w : World σ ω)
    (result : EStateM.Result EvalError (World σ ω) Value) : Prop
  | inside {below : List Call} {e : EvalError} {s : Scene σ ω}
      (hbelow : Traverses ev node.children w.scene below (.error e) s)
      (hyields : Yields w result below (.error e) s)
  | concludes {below : List Call} {vs : List Value} {s s' : Scene σ ω}
      {outcome : Except EvalError Value}
      (hbelow : Traverses ev node.children w.scene below (.ok vs) s)
      (hvalue : node.conclude ev.backend s vs = (outcome, s'))
      (hyields : Yields w result below outcome s')

section Sequence

variable {ev : Evaluator σ ω} {node : Node} {nodes : List Node}
  {x : Action EvalError σ ω α} {f : α → Action EvalError σ ω β}

/-- Actions that visit no node call nothing. -/
theorem follows_nil {shows : α → List Value → Prop} {a : α} (h : shows a []) :
    Follows ev [] shows (pure a) := fun w => .ok .nil (.pure a w) h

/-- One node is visited after another. -/
theorem Follows.cons {first : α → List Value → Prop} {rest : α → β → List Value → Prop}
    {shows : β → List Value → Prop} (hx : Follows ev [node] first x)
    (hf : ∀ a, Follows ev nodes (rest a) (f a))
    (hshows : ∀ {a v b vs}, first a [v] → rest a b vs → shows b (v :: vs)) :
    Follows ev (node :: nodes) shows (x >>= f) := by
  intro w
  cases hx w with
  | error h hfail => exact .error h.cons_of_error hfail.bind_error
  | ok h hok hfirst =>
    obtain ⟨v, rfl⟩ := List.length_eq_one_iff.mp (h.length_eq rfl)
    obtain ⟨w₁, hw₁, hcalls, rfl⟩ := hok.exists_ok
    rw [bind_of_ok hw₁]
    cases hf _ w₁ with
    | error hlater hfail => exact .error (h.cons hlater) (.trans hcalls hfail)
    | ok hlater hok hrest =>
      exact .ok (h.cons hlater) (.trans hcalls hok) (hshows hfirst hrest)

theorem Follows.mono {shows shows' : α → List Value → Prop} (hx : Follows ev nodes shows x)
    (hshows : ∀ {a vs}, shows a vs → shows' a vs) : Follows ev nodes shows' x := by
  intro w
  cases hx w with
  | error h hfail => exact .error h hfail
  | ok h hok hfirst => exact .ok h hok (hshows hfirst)

/-- A result may be turned into another one in the end, with the traversal as it was. -/
theorem Follows.map {shows : α → List Value → Prop} {shows' : β → List Value → Prop} {g : α → β}
    (hx : Follows ev nodes shows x) (hshows : ∀ {a vs}, shows a vs → shows' (g a) vs) :
    Follows ev nodes shows' (x >>= fun a => pure (g a)) := by
  intro w
  cases hx w with
  | error h hfail => exact .error h hfail.bind_error
  | ok h hok hfirst =>
    obtain ⟨w₁, hw₁, hcalls, rfl⟩ := hok.exists_ok
    rw [bind_of_ok hw₁]
    exact .ok h (.ok hcalls) (hshows hfirst)

/-- A node is handled by visiting its children and concluding from what their visits show. -/
theorem Follows.handled {shows : α → List Value → Prop} {conclude : α → Action EvalError σ ω Value}
    (hx : Follows ev node.children shows x)
    (hconclude : ∀ a vs w, shows a vs →
      Yields w (conclude a w) [] (node.conclude ev.backend w.scene vs).1
        (node.conclude ev.backend w.scene vs).2) (w : World σ ω) :
    Handled ev node w ((x >>= conclude) w) := by
  cases hx w with
  | error h hfail => exact .inside h hfail.bind_error
  | ok h hok hshows =>
    obtain ⟨w₁, hw₁, hcalls, rfl⟩ := hok.exists_ok
    have hvalue := Yields.trans hcalls (hconclude _ _ w₁ hshows)
    rw [List.append_nil] at hvalue
    rw [bind_of_ok hw₁]
    exact .concludes h rfl hvalue

end Sequence

section Around

variable {ev : Evaluator σ ω} {node : Node} {handle : Action EvalError σ ω Value}
  {shows : α → List Value → Prop} {answer : Visit → α} {settle : Visit → Action EvalError σ ω α}
  (hsettle : ∀ visit w, Yields w (settle visit w) [] (.ok (answer visit))
    (if visit.claimed then w.scene.settle node visit.value else w.scene))
  (hshows : ∀ visit, shows (answer visit) [visit.value])

include hsettle hshows

/-- A visit that has come to its outcome ends with the hooks after the node. -/
theorem followed_closing {visit : Visit} {w w₁ : World σ ω} {calls : List Call}
    (hcalls : w₁.calls = w.calls ++ calls)
    (hfails : ∀ {closing e s}, ev.closes node w₁.scene = (closing, .error e, s) →
      Traverses ev [node] w.scene (calls ++ closing) (.error (.extension e)) s)
    (hpasses : ∀ {closing s}, ev.closes node w₁.scene = (closing, .ok (), s) →
      Traverses ev [node] w.scene (calls ++ closing) (.ok [visit.value])
        (if visit.claimed then s.settle node visit.value else s)) :
    Followed ev [node] shows w ((ev.afterHooks node >>= fun _ => settle visit) w₁) := by
  cases hclose : ev.closes node w₁.scene with
  | mk closing rest =>
    obtain ⟨outcome, s⟩ := rest
    have hafter := yields_afterHooks hclose
    cases outcome with
    | error e => exact .error (hfails hclose) (.trans hcalls hafter.bind_error)
    | ok _ =>
      obtain ⟨w₂, hw₂, hcalls₂, rfl⟩ := hafter.exists_ok
      have hsettled := Yields.trans hcalls₂ (hsettle visit w₂)
      rw [List.append_nil] at hsettled
      rw [bind_of_ok hw₂]
      exact .ok (hpasses hclose) (.trans hcalls hsettled) (hshows visit)

/-- The visit of a node, and what is done with its outcome: a claimed statement is settled. -/
theorem follows_around (hhandle : ∀ w, Handled ev node w (handle w)) :
    Follows ev [node] shows (ev.around node handle >>= settle) := by
  intro w
  rw [around_eq_opening, bind_assoc]
  cases hopen : ev.opens node w.scene with
  | mk opening rest =>
  obtain ⟨opened, s₁⟩ := rest
  have hopening := yields_opening hopen
  cases opened with
  | error e => exact .error (.barred hopen) hopening.bind_error
  | ok value? =>
  obtain ⟨w₁, hw₁, hcalls₁, rfl⟩ := hopening.exists_ok
  rw [bind_of_ok hw₁]
  cases value? with
  | some v =>
    simp only [bind_assoc, pure_bind]
    rw [bind_of_ok (record_eq w₁ _)]
    have hclaimed : (w₁.log [.claimed node]).calls = w.calls ++ opening := by
      rw [World.calls_log, hcalls₁]
      exact List.append_nil _
    refine followed_closing hsettle hshows hclaimed (.claimedFails hopen) fun hclose => ?_
    have hvisit := Traverses.claimed hopen hclose .nil
    rw [List.append_nil] at hvisit
    exact hvisit
  | none =>
    simp only [bind_assoc, pure_bind]
    cases hhandle w₁ with
    | inside hbelow hfail => exact .error (.inside hopen hbelow) (.trans hcalls₁ hfail.bind_error)
    | @concludes below vs s s' outcome hbelow hvalue hyields =>
      cases outcome with
      | error e => exact .error (.refused hopen hbelow hvalue) (.trans hcalls₁ hyields.bind_error)
      | ok v =>
        obtain ⟨w₂, hw₂, hcalls₂, rfl⟩ := hyields.exists_ok
        rw [hcalls₁, List.append_assoc] at hcalls₂
        rw [bind_of_ok hw₂]
        refine followed_closing hsettle hshows hcalls₂ (.handledFails hopen hbelow hvalue)
          fun hclose => ?_
        have hvisit := Traverses.handled hopen hbelow hvalue hclose .nil
        rw [List.append_nil] at hvisit
        exact hvisit

end Around

section Constructs

variable {ev : Evaluator σ ω} {node : Node} {handle : Action EvalError σ ω Value}

/-- A node shows its value. -/
def Shows (v : Value) (vs : List Value) : Prop := vs = [v]

theorem follows_valueOf (hnode : node.statement? = none)
    (hhandle : ∀ w, Handled ev node w (handle w)) :
    Follows ev [node] Shows (ev.valueOf node handle) := by
  refine follows_around (fun visit w => ?_) (fun _ => rfl) hhandle
  have hsettle : w.scene.settle node visit.value = w.scene := by rw [Scene.settle, hnode]
  rw [hsettle, ite_self]
  exact .pure _ w

/-- A name or a literal has no children. -/
theorem follows_leaf {e : Expr} {v : Value} (hchildren : (Node.expr e).children = [])
    (hvalue : ∀ s : Scene σ ω, (Node.expr e).conclude ev.backend s [] = (.ok v, s)) :
    Follows ev [.expr e] Shows (ev.valueOf (.expr e) (pure v)) := by
  refine follows_valueOf rfl fun w => ?_
  refine .concludes ?_ (hvalue w.scene) (.pure v w)
  rw [hchildren]
  exact .nil

mutual

/-- Expressions are traversed with the lists in them. -/
theorem follows_visitExpr (ev : Evaluator σ ω) (e : Expr) :
    Follows ev [.expr e] Shows (ev.visitExpr e) := by
  -- by recursion on the expression, as it is visited
  cases e with
  | identifier name =>
    rw [visitExpr]
    exact follows_leaf rfl fun _ => rfl
  | number x =>
    rw [visitExpr]
    exact follows_leaf rfl fun _ => rfl
  | string text =>
    rw [visitExpr]
    exact follows_leaf rfl fun _ => rfl
  | boolean value =>
    rw [visitExpr]
    exact follows_leaf rfl fun _ => rfl
  | array elements =>
    rw [visitExpr]
    refine follows_valueOf rfl ((follows_visitAll ev elements).handled ?_)
    rintro values _ w rfl
    exact .pure _ w
  | binary left op right =>
    rw [visitExpr]
    have hoperands : Follows ev [.expr left, .expr right] (fun p vs => vs = [p.1, p.2])
        (ev.visitExpr left >>= fun l => ev.visitExpr right >>= fun r => pure (l, r)) := by
      have hright (l : Value) : Follows ev [.expr right] (fun p vs => p.1 = l ∧ vs = [p.2])
          (ev.visitExpr right >>= fun r => pure (l, r)) :=
        (follows_visitExpr ev right).map fun hr => ⟨rfl, hr⟩
      refine (follows_visitExpr ev left).cons hright ?_
      rintro l v p _ hl ⟨rfl, rfl⟩
      rw [List.singleton_inj.mp hl]
    have hjoin : (ev.visitExpr left >>= fun l => ev.visitExpr right >>= fun r =>
        pure (.condition l op.text r) : Action EvalError σ ω Value) =
          (ev.visitExpr left >>= fun l => ev.visitExpr right >>= fun r => pure (l, r)) >>=
            fun p => pure (.condition p.1 op.text p.2) := by
      simp only [bind_assoc, pure_bind]
    rw [hjoin]
    refine follows_valueOf rfl (hoperands.handled ?_)
    rintro p _ w rfl
    exact .pure _ w

theorem follows_visitAll (ev : Evaluator σ ω) (es : List Expr) :
    Follows ev (es.map .expr) Eq (ev.visitAll es) := by
  cases es with
  | nil =>
    rw [visitAll]
    exact follows_nil rfl
  | cons e es =>
    rw [visitAll]
    have hlater (v : Value) : Follows ev (es.map .expr) (fun values vs => values = v :: vs)
        (ev.visitAll es >>= fun values => pure (v :: values)) :=
      (follows_visitAll ev es).map fun h => h ▸ rfl
    refine (follows_visitExpr ev e).cons hlater ?_
    rintro v _ _ vs hv rfl
    rw [List.singleton_inj.mp hv]

end

/-- How a handler ends that has made up its request. -/
theorem yields_ask {γ : Type} {b : Backend σ} {r : Request} {ask : σ → Reply σ γ}
    {w : World σ ω} (result : γ → Value)
    (hanswer : (b.reply r w.state).answer = (ask w.state).answer.map result)
    (hstate : (b.reply r w.state).state = (ask w.state).state) :
    Yields w ((do
      record (.requesting r)
      let a ← (request r ask).adaptExcept .backend
      push (result a)
      return .null : Action EvalError σ ω Value) w) []
      (w.scene.ask b r).1 (w.scene.ask b r).2 := by
  have hcalls : ((w.log [.requesting r]).answered r (ask w.state)).calls = w.calls ++ [] := by
    rw [World.calls_answered, World.calls_log]
    rfl
  rw [ask_eq, Scene.ask, show w.scene.state = w.state from rfl, hanswer, hstate]
  cases (ask w.state).answer with
  | ok a => exact .ok hcalls
  | error e => exact .error hcalls

/-- A `SELECT` visits its condition and then concludes. -/
theorem handled_handleSelect (ev : Evaluator σ ω) (s : Select) (w : World σ ω) :
    Handled ev (.select s) w (ev.handleSelect s w) := by
  have hcondition : Follows ev (Node.select s).children (fun v vs => vs.headD .null = v)
      (ev.visitCondition s.condition?) := by
    cases hs : s.condition? with
    | none =>
      rw [Node.children, hs]
      exact follows_nil rfl
    | some e =>
      rw [Node.children, hs]
      exact (follows_visitExpr ev e).mono fun h => h ▸ rfl
  refine hcondition.handled (fun value vs w hvalue => ?_) w
  rw [Node.conclude, Scene.perform, Statement.requestFrom, hvalue]
  cases hc : conditionOf value with
  | error e => exact .error (List.append_nil _).symm
  | ok condition? => exact yields_ask .rows rfl rfl

theorem handled_handleInsert (ev : Evaluator σ ω) (i : Insert) (w : World σ ω) :
    Handled ev (.insert i) w (ev.handleInsert i w) := by
  have hvalues : Follows ev (Node.insert i).children Shows (ev.visitExpr i.values) :=
    follows_visitExpr ev i.values
  refine hvalues.handled ?_ w
  rintro value _ w rfl
  rw [Node.conclude, Scene.perform, Statement.requestFrom, List.headD_cons]
  cases hrow : rowValues value with
  | error e => exact .error (List.append_nil _).symm
  | ok row => exact yields_ask (fun _ => .null) rfl rfl

/-- Statements are traversed, whoever their result comes from. -/
theorem follows_visitStatement (ev : Evaluator σ ω) (s : Statement) :
    Follows ev [s.node] (fun _ _ => True) (ev.visitStatement s) := by
  have hsettle (visit : Visit) (w : World σ ω) : Yields w (pushClaimed visit w) [] (.ok ())
      (if visit.claimed then w.scene.settle s.node visit.value else w.scene) := by
    rw [Scene.settle, Statement.statement?_node, pushClaimed]
    split
    · exact .ok (List.append_nil _).symm
    · exact .pure () w
  have hhandle (w : World σ ω) : Handled ev s.node w (ev.handleStatement s w) := by
    cases s with
    | select s => exact handled_handleSelect ev s w
    | insert i => exact handled_handleInsert ev i w
  exact follows_around hsettle (fun _ => trivial) hhandle

/-- Programs are traversed statement by statement. -/
theorem follows_handleProgram (ev : Evaluator σ ω) (p : Program) :
    Follows ev (p.map Statement.node) (fun v _ => v = .null) (ev.handleProgram p) := by
  -- by induction on the program, one statement after another
  induction p with
  | nil => exact follows_nil rfl
  | cons s p ih =>
    rw [handleProgram_cons_eq]
    exact (follows_visitStatement ev s).cons (fun _ => ih) fun _ h => h

/-- A run is a traversal from the root on. -/
theorem follows_visit_program (ev : Evaluator σ ω) (p : Program) :
    Follows ev [.program p] Shows (ev.visit (.program p)) := by
  have hprogram : Follows ev (Node.program p).children (fun v _ => v = .null)
      (ev.handleProgram p) := follows_handleProgram ev p
  rw [visit, ← bind_pure (ev.handleProgram p)]
  refine follows_valueOf rfl (hprogram.handled ?_)
  rintro _ vs w rfl
  exact .pure _ w

/-- What a run does with its extensions is the traversal of its program, the only one from where
the run starts. A run that succeeds has made a complete traversal. A run that fails has made the
beginning of one, up to the step that fails. -/
theorem hook_protocol (ev : Evaluator σ ω) (p : Program) (w : World σ ω) :
    ∃ calls result s,
      (∀ calls' result' s', Traverses ev [.program p] w.scene calls' result' s' ↔
        calls' = calls ∧ result' = result ∧ s' = s) ∧
      (worldOf (ev.run p w)).calls = w.calls ++ calls ∧ (worldOf (ev.run p w)).scene = s ∧
      (∀ vs, result = .ok vs → (∃ w', ev.run p w = .ok s.context.stack w') ∧
        Visits ev.extensions.length [.program p] calls ∧
        ∀ place < ev.extensions.length, Nested place (calls.filter (·.isAround place)) ∧
          calls.filterMap (Call.before? place) = calls.filterMap Call.visited?) ∧
      (∀ e, result = .error e → (∃ w', ev.run p w = .error e w') ∧
        (∃ later, Visits ev.extensions.length [.program p] (calls ++ later)) ∧
        ∀ failure, e = .extension failure → FailsLast ev failure s calls) ∧
      ∀ call ∈ calls, ∀ items, call.node ≠ .names items := by
  have hroot (items : List String) : Node.names items ∉ [Node.program p] := by
    intro h
    cases List.mem_singleton.mp h
  have hunique {calls : List Call} {result : Except EvalError (List Value)} {s : Scene σ ω}
      (h : Traverses ev [.program p] w.scene calls result s) (calls' result' s') :
      Traverses ev [.program p] w.scene calls' result' s' ↔
        calls' = calls ∧ result' = result ∧ s' = s :=
    ⟨h.unique, by rintro ⟨rfl, rfl, rfl⟩; exact h⟩
  cases follows_visit_program ev p w with
  | @error calls e s h hyields =>
    obtain ⟨w', hw', hcalls, hscene⟩ := hyields.exists_error
    have hrun : ev.run p w = .error e w' := bind_of_error hw'
    obtain ⟨later, hvisits⟩ := h.exists_completion
    refine ⟨calls, .error e, s, hunique h, by rw [hrun]; exact hcalls, by rw [hrun]; exact hscene,
      nofun, ?_, fun call hcall items =>
        hvisits.node_ne_names (hroot items) (List.mem_append_left _ hcall)⟩
    rintro _ ⟨⟩
    exact ⟨⟨w', hrun⟩, ⟨later, hvisits⟩, fun failure hfailure => h.failsLast (hfailure ▸ rfl)⟩
  | @ok calls vs v s h hyields _ =>
    obtain ⟨w', hw', hcalls, rfl⟩ := hyields.exists_ok
    have hrun : ev.run p w = .ok w'.context.stack w' := bind_of_ok hw'
    have hvisits := h.visits rfl
    refine ⟨calls, .ok vs, w'.scene, hunique h, by rw [hrun]; exact hcalls, by rw [hrun]; rfl, ?_,
      nofun, fun call hcall items => hvisits.node_ne_names (hroot items) hcall⟩
    exact fun _ _ => ⟨⟨w', hrun⟩, hvisits, fun place hplace =>
      ⟨hvisits.nested hplace, hvisits.filterMap_before? hplace⟩⟩

end Constructs

namespace Watched

/-- Claims names, fails to claim numbers, and declines operators. -/
def claim? : Node → Option Claim
  | .expr (.identifier _) => some ⟨2, .claimed (.name "a")⟩
  | .expr (.number _) => some ⟨0, .failed ⟨"x", "no"⟩⟩
  | .expr (.binary ..) => some ⟨1, .declined⟩
  | _ => none

/-- Makes its claims, and fails behind every insertion. -/
def strict : Extension Unit where
  claim? node _ memory := (claim? node, memory)
  after
    | .insert _ => fun context memory => (.error ⟨"x", "no"⟩, context, memory)
    | _ => Hook.pass

def watched : Evaluator DryRun Unit := ⟨DryRun.backend, [{}, strict], .ordered⟩

def condition : Expr := .binary (.identifier "b") .equal (.boolean true)

def selection : Select := ⟨"t", [], some condition, none⟩

def insertion : Insert := ⟨"t", none, .array []⟩

/-- The second insertion is not reached. -/
def program : Program := [.select selection, .insert insertion, .insert insertion]

def start : World DryRun Unit := ⟨.fresh .ordered, ⟨[]⟩, (), #[]⟩

/-- The calls up to the hook behind the first insertion, which fails. -/
def calls : List Call :=
  enter 2 (.program program) ++ enter 2 (.select selection) ++
    enter 2 (.expr condition) ++ asks [1] (.expr condition) ++
    enter 2 (.expr (.identifier "b")) ++ asks [1] (.expr (.identifier "b")) ++
    leave 2 (.expr (.identifier "b")) ++
    enter 2 (.expr (.boolean true)) ++ leave 2 (.expr (.boolean true)) ++
    leave 2 (.expr condition) ++ leave 2 (.select selection) ++
    enter 2 (.insert insertion) ++ enter 2 (.expr (.array [])) ++ leave 2 (.expr (.array [])) ++
    leave 2 (.insert insertion)

/-- The error that a run ends with, if it does. -/
def error? {α : Type} : EStateM.Result EvalError (World DryRun Unit) α → Option EvalError
  | .ok .. => none
  | .error e _ => some e

/-- The watched run fails at the hook behind the first insertion, the last hook that it calls, and
both results are on the stack by then. -/
theorem traversal_of_watched_run :
    (∃ w', watched.run program start = .error (.extension ⟨"x", "no"⟩) w') ∧
    (worldOf (watched.run program start)).calls = calls ∧
    (worldOf (watched.run program start)).context.stack = [.rows [], .null] ∧
    ∃ s, (∀ calls' result s', Traverses watched [.program program] start.scene calls' result s' ↔
        calls' = calls ∧ result = .error (.extension ⟨"x", "no"⟩) ∧ s' = s) ∧
      (worldOf (watched.run program start)).scene = s ∧ FailsLast watched ⟨"x", "no"⟩ s calls ∧
      ∃ later, Visits 2 [.program program] (calls ++ later) := by
  have hcalls : (worldOf (watched.run program start)).calls = calls := by cbv
  have hstack : (worldOf (watched.run program start)).context.stack = [.rows [], .null] := by cbv
  have hfails : error? (watched.run program start) = some (.extension ⟨"x", "no"⟩) := by cbv
  obtain ⟨calls', result, s, hunique, hcalls', hscene, hok, herror, -⟩ :=
    hook_protocol watched program start
  obtain rfl : calls = calls' := hcalls.symm.trans hcalls'
  cases result with
  | ok vs =>
    obtain ⟨⟨w', hrun⟩, -⟩ := hok vs rfl
    rw [hrun] at hfails
    cases hfails
  | error e =>
    obtain ⟨⟨w', hrun⟩, hvisits, hlast⟩ := herror e rfl
    obtain rfl : e = .extension ⟨"x", "no"⟩ := by
      rw [hrun] at hfails
      exact Option.some.inj hfails
    exact ⟨⟨w', hrun⟩, hcalls, hstack, s, hunique, hscene, hlast _ rfl, hvisits⟩

end Watched

end MiniSql.Evaluator
