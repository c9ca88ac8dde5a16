import MiniSql.Proofs.Offers
import MiniSql.Proofs.Plain
import MiniSql.Proofs.Traversal

/-!
# The protocol of a run

The traversal that a program, its extensions, a backend and a start determine. A `Scene` is what one
step of the protocol leaves to the next: the context, the backend's state and the memory of the
extensions. At each node the hooks before it run (`Evaluator.opens`), the claims that the extensions
make there and then are decided, the children are visited if none claims the node, the node makes a
value of theirs, by a request to the backend if it is a statement (`Node.conclude`), and the hooks
after it run (`Evaluator.closes`). The first step that fails ends it all.

* `Traverses.unique`: no list of nodes is traversed in two ways from one scene.
* `Traverses.visits`: a traversal without failure is complete.
* `Traverses.exists_completion`: any traversal is the beginning of a complete one.
-/

namespace MiniSql

variable {σ ω : Type}

/-! ## Outcomes -/

theorem exists_ok_of_map {ε α β : Type} {f : α → β} {x : Except ε α} {b : β}
    (h : x.map f = .ok b) : ∃ a, x = .ok a ∧ b = f a := by
  cases x with
  | ok a => exact ⟨a, rfl, (Except.ok.inj h).symm⟩
  | error e => nomatch h

theorem error_of_map {ε α β : Type} {f : α → β} {x : Except ε α} {e : ε}
    (h : x.map f = .error e) : x = .error e := by
  cases x with
  | ok a => nomatch h
  | error e' => exact congrArg _ (Except.error.inj h)

/-! ## Scenes -/

/-- What one step of the protocol leaves to the next. -/
structure Scene (σ ω : Type) where
  context : Context
  state : σ
  memory : ω

def World.scene (w : World σ ω) : Scene σ ω := ⟨w.context, w.state, w.memory⟩

@[simp] theorem World.scene_log (w : World σ ω) (events : List Event) :
    (w.log events).scene = w.scene := rfl

/-- Calls hooks one after another, up to the first that fails: how many were called, whether one
failed, and what they leave. -/
def Scene.callHooks : List (Hook ω) → Scene σ ω → Nat × Except ExtensionError Unit × Scene σ ω
  | [], s => (0, .ok (), s)
  | hook :: hooks, s =>
    match hook s.context s.memory with
    | (.error e, context, memory) => (1, .error e, { s with context, memory })
    | (.ok (), context, memory) =>
      let later := callHooks hooks { s with context, memory }
      (later.1 + 1, later.2)

theorem Scene.callHooks_le (hooks : List (Hook ω)) (s : Scene σ ω) :
    (s.callHooks hooks).1 ≤ hooks.length := by
  induction hooks generalizing s with
  | nil => exact Nat.le_refl 0
  | cons hook hooks ih =>
    rw [callHooks, List.length_cons]
    split
    · exact Nat.le_add_left 1 _
    · exact Nat.succ_le_succ (ih _)

/-- If no hook fails, all of them are called. -/
theorem Scene.callHooks_of_ok {hooks : List (Hook ω)} {s : Scene σ ω}
    (h : (s.callHooks hooks).2.1 = .ok ()) : (s.callHooks hooks).1 = hooks.length := by
  induction hooks generalizing s with
  | nil => rfl
  | cons hook hooks ih =>
    rw [callHooks] at h ⊢
    split at h
    · nomatch h
    · exact congrArg (· + 1) (ih h)

/-- The hook that fails is the last to be called, and what it leaves is all that is left. -/
theorem Scene.callHooks_of_error {hooks : List (Hook ω)} {s s' : Scene σ ω} {k : Nat}
    {e : ExtensionError} (h : s.callHooks hooks = (k, .error e, s')) :
    ∃ place hook context memory, k = place + 1 ∧ hooks[place]? = some hook ∧
      hook context memory = (.error e, s'.context, s'.memory) := by
  induction hooks generalizing s k with
  | nil => nomatch h
  | cons hook hooks ih =>
    rw [callHooks] at h
    split at h
    · rename_i hfail
      cases h
      exact ⟨0, hook, _, _, rfl, rfl, hfail⟩
    · obtain ⟨rfl, hlater⟩ := Prod.mk.inj h
      obtain ⟨place, hook', context, memory, hplace, hhook, hfail⟩ := ih (Prod.ext rfl hlater)
      exact ⟨place + 1, hook', context, memory, congrArg (· + 1) hplace, hhook, hfail⟩

/-! ## What a node makes of its children -/

/-- The statement that a node is, if it is one. -/
def Node.statement? : Node → Option Statement
  | .select s => some (.select s)
  | .insert i => some (.insert i)
  | .program _ | .names _ | .expr _ => none

@[simp] theorem Statement.statement?_node (s : Statement) : s.node.statement? = some s := by
  cases s <;> rfl

/-- The request that a statement makes up from the value of its expression. -/
def Statement.requestFrom : Statement → Value → Except EvalError Request
  | .select s, v => (Evaluator.conditionOf v).map fun condition? => .select (s.query condition?)
  | .insert i, v => (Evaluator.rowValues v).map fun row => .insert (i.insertion row)

/-- Has the backend answer a request, and puts the answer on the stack. -/
def Scene.ask (s : Scene σ ω) (b : Backend σ) (r : Request) : Except EvalError Value × Scene σ ω :=
  let reply := b.reply r s.state
  match reply.answer with
  | .ok v => (.ok .null, { s with context := s.context.push v, state := reply.state })
  | .error e => (.error (.backend e), { s with state := reply.state })

/-- Performs a statement whose expression has this value: its request, unless the value is at
fault. -/
def Scene.perform (s : Scene σ ω) (b : Backend σ) (statement : Statement) (v : Value) :
    Except EvalError Value × Scene σ ω :=
  match statement.requestFrom v with
  | .ok r => s.ask b r
  | .error e => (.error e, s)

/-- What a node that nobody claims makes of the values of its children. A selection without a
condition has no children, which is as good as `null`. -/
def Node.conclude (b : Backend σ) (s : Scene σ ω) :
    Node → List Value → Except EvalError Value × Scene σ ω
  | .expr (.identifier name), _ => (.ok (.name name), s)
  | .expr (.number x), _ => (.ok (.scalar (.number x)), s)
  | .expr (.string text), _ => (.ok (.scalar (.text text)), s)
  | .expr (.boolean value), _ => (.ok (.scalar (.boolean value)), s)
  | .expr (.array _), vs => (.ok (.array vs), s)
  | .expr (.binary _ op _), vs =>
    (.ok (.condition (vs.headD .null) op.text (vs.getLastD .null)), s)
  | .names items, _ => (.ok (.names items), s)
  | .program _, _ => (.ok .null, s)
  | .select q, vs => s.perform b (.select q) (vs.headD .null)
  | .insert i, vs => s.perform b (.insert i) (vs.headD .null)

theorem exists_of_conditionOf_error {v : Value} {e : EvalError}
    (h : Evaluator.conditionOf v = .error e) : ∃ found, e = .invalidCondition found := by
  unfold Evaluator.conditionOf at h
  split at h
  · nomatch h
  · nomatch h
  · exact ⟨_, (Except.error.inj h).symm⟩

theorem exists_of_scalarsOf_error {vs : List Value} {e : EvalError}
    (h : Evaluator.scalarsOf vs = .error e) : ∃ found, e = .invalidValue found := by
  induction vs with
  | nil => nomatch h
  | cons v vs ih =>
    rw [Evaluator.scalarsOf] at h
    split at h
    · exact ⟨_, (Except.error.inj h).symm⟩
    · exact ih (error_of_map h)

theorem exists_of_rowValues_error {v : Value} {e : EvalError}
    (h : Evaluator.rowValues v = .error e) : ∃ found, e = .invalidValue found := by
  unfold Evaluator.rowValues at h
  split at h
  · exact exists_of_scalarsOf_error h
  · exact ⟨_, (Except.error.inj h).symm⟩

/-- No statement blames an extension for its own expression. -/
theorem Statement.requestFrom_ne_extension (s : Statement) (v : Value) (e : ExtensionError) :
    s.requestFrom v ≠ .error (.extension e) := by
  intro h
  cases s with
  | select s => nomatch exists_of_conditionOf_error (error_of_map h)
  | insert i => nomatch exists_of_rowValues_error (error_of_map h)

/-- A statement that is performed does not fail with the error of an extension. -/
theorem Scene.perform_ne_extension (s : Scene σ ω) (b : Backend σ) (statement : Statement)
    (v : Value) (e : ExtensionError) : (s.perform b statement v).1 ≠ .error (.extension e) := by
  rw [perform]
  cases hrequest : statement.requestFrom v with
  | error e' =>
    intro h
    have hfail : e' = .extension e := Except.error.inj h
    exact statement.requestFrom_ne_extension v e (hfail ▸ hrequest)
  | ok r =>
    dsimp only
    rw [ask]
    cases (b.reply r s.state).answer <;> nofun

/-- Only hooks fail with errors of extensions. -/
theorem Node.conclude_ne_extension (node : Node) (b : Backend σ) (s : Scene σ ω)
    (vs : List Value) (e : ExtensionError) :
    (node.conclude b s vs).1 ≠ .error (.extension e) := by
  cases node with
  | program _ | names _ => nofun
  | select q => exact s.perform_ne_extension b (.select q) _ e
  | insert i => exact s.perform_ne_extension b (.insert i) _ e
  | expr e => cases e <;> nofun

/-- A claimed statement has the claimed value put on the stack. -/
def Scene.settle (s : Scene σ ω) (node : Node) (v : Value) : Scene σ ω :=
  match node.statement? with
  | some _ => { s with context := s.context.push v }
  | none => s

/-! ## Before and after a node -/

namespace Evaluator

/-- Runs the hooks before a node, and if they pass, decides between the claims that the extensions
then make on it: the calls, the failure or else the value claimed, and what is left. -/
def opens (ev : Evaluator σ ω) (node : Node) (s : Scene σ ω) :
    List Call × Except ExtensionError (Option Value) × Scene σ ω :=
  match s.callHooks (ev.extensions.map (·.before node)) with
  | (k, .error e, s') => (enter k node, .error e, s')
  | (k, .ok (), s') =>
    let asked := offersFrom node s'.context ev.extensions.zipIdx s'.memory
    (enter k node ++ asks (asked.1.map Offer.place) node,
      .ok (s'.context.policy.resolve asked.1).value?, { s' with memory := asked.2 })

/-- Runs the hooks after a node. -/
def closes (ev : Evaluator σ ω) (node : Node) (s : Scene σ ω) :
    List Call × Except ExtensionError Unit × Scene σ ω :=
  let called := s.callHooks (ev.extensions.map (·.after node))
  (leave called.1 node, called.2)

end Evaluator

/-! ## The traversal -/

/-- From a scene, nodes are visited one after another with these calls, to their values or up to the
first step that fails. -/
inductive Traverses (ev : Evaluator σ ω) : List Node → Scene σ ω → List Call →
    Except EvalError (List Value) → Scene σ ω → Prop
  | nil {s : Scene σ ω} : Traverses ev [] s [] (.ok []) s
  /-- A hook before the node fails. -/
  | barred {node : Node} {nodes : List Node} {s s' : Scene σ ω} {opening : List Call}
      {e : ExtensionError} (hopen : ev.opens node s = (opening, .error e, s')) :
      Traverses ev (node :: nodes) s opening (.error (.extension e)) s'
  /-- The node is claimed, and its visit is done. -/
  | claimed {node : Node} {nodes : List Node} {s s₁ s₂ s' : Scene σ ω}
      {opening closing later : List Call} {v : Value} {result : Except EvalError (List Value)}
      (hopen : ev.opens node s = (opening, .ok (some v), s₁))
      (hclose : ev.closes node s₁ = (closing, .ok (), s₂))
      (hrest : Traverses ev nodes (s₂.settle node v) later result s') :
      Traverses ev (node :: nodes) s (opening ++ closing ++ later) (result.map (v :: ·)) s'
  /-- The node is claimed, and a hook after it fails. -/
  | claimedFails {node : Node} {nodes : List Node} {s s₁ s' : Scene σ ω}
      {opening closing : List Call} {v : Value} {e : ExtensionError}
      (hopen : ev.opens node s = (opening, .ok (some v), s₁))
      (hclose : ev.closes node s₁ = (closing, .error e, s')) :
      Traverses ev (node :: nodes) s (opening ++ closing) (.error (.extension e)) s'
  /-- A child of the node fails. -/
  | inside {node : Node} {nodes : List Node} {s s₁ s' : Scene σ ω} {opening below : List Call}
      {e : EvalError} (hopen : ev.opens node s = (opening, .ok none, s₁))
      (hbelow : Traverses ev node.children s₁ below (.error e) s') :
      Traverses ev (node :: nodes) s (opening ++ below) (.error e) s'
  /-- The node itself fails behind its children. -/
  | refused {node : Node} {nodes : List Node} {s s₁ s₂ s' : Scene σ ω} {opening below : List Call}
      {vs : List Value} {e : EvalError} (hopen : ev.opens node s = (opening, .ok none, s₁))
      (hbelow : Traverses ev node.children s₁ below (.ok vs) s₂)
      (hvalue : node.conclude ev.backend s₂ vs = (.error e, s')) :
      Traverses ev (node :: nodes) s (opening ++ below) (.error e) s'
  /-- The node is handled, and its visit is done. -/
  | handled {node : Node} {nodes : List Node} {s s₁ s₂ s₃ s₄ s' : Scene σ ω}
      {opening below closing later : List Call} {vs : List Value} {v : Value}
      {result : Except EvalError (List Value)} (hopen : ev.opens node s = (opening, .ok none, s₁))
      (hbelow : Traverses ev node.children s₁ below (.ok vs) s₂)
      (hvalue : node.conclude ev.backend s₂ vs = (.ok v, s₃))
      (hclose : ev.closes node s₃ = (closing, .ok (), s₄))
      (hrest : Traverses ev nodes s₄ later result s') :
      Traverses ev (node :: nodes) s (opening ++ below ++ closing ++ later)
        (result.map (v :: ·)) s'
  /-- The node is handled, and a hook after it fails. -/
  | handledFails {node : Node} {nodes : List Node} {s s₁ s₂ s₃ s' : Scene σ ω}
      {opening below closing : List Call} {vs : List Value} {v : Value} {e : ExtensionError}
      (hopen : ev.opens node s = (opening, .ok none, s₁))
      (hbelow : Traverses ev node.children s₁ below (.ok vs) s₂)
      (hvalue : node.conclude ev.backend s₂ vs = (.ok v, s₃))
      (hclose : ev.closes node s₃ = (closing, .error e, s')) :
      Traverses ev (node :: nodes) s (opening ++ below ++ closing) (.error (.extension e)) s'

namespace Traverses

variable {ev : Evaluator σ ω} {nodes : List Node} {s s' s'' : Scene σ ω} {calls calls' : List Call}
  {result result' : Except EvalError (List Value)}

/-- The nodes, the scene and the evaluator determine the traversal: each step is decided by what the
steps before it leave. -/
theorem unique (h : Traverses ev nodes s calls result s')
    (h' : Traverses ev nodes s calls' result' s'') :
    calls' = calls ∧ result' = result ∧ s'' = s' := by
  -- by induction on one traversal: the other one takes the same step
  induction h generalizing calls' result' s'' with
  | nil =>
    cases h'
    exact ⟨rfl, rfl, rfl⟩
  | barred hopen =>
    cases h' with
    | barred hopen' =>
      cases hopen.symm.trans hopen'
      exact ⟨rfl, rfl, rfl⟩
    | claimed hopen' | claimedFails hopen' | inside hopen' | refused hopen' | handled hopen'
    | handledFails hopen' => cases hopen.symm.trans hopen'
  | claimed hopen hclose _ ih =>
    cases h' with
    | claimed hopen' hclose' hrest' =>
      cases hopen.symm.trans hopen'
      cases hclose.symm.trans hclose'
      obtain ⟨rfl, rfl, rfl⟩ := ih hrest'
      exact ⟨rfl, rfl, rfl⟩
    | claimedFails hopen' hclose' =>
      cases hopen.symm.trans hopen'
      cases hclose.symm.trans hclose'
    | barred hopen' | inside hopen' | refused hopen' | handled hopen' | handledFails hopen' =>
      cases hopen.symm.trans hopen'
  | claimedFails hopen hclose =>
    cases h' with
    | claimed hopen' hclose' =>
      cases hopen.symm.trans hopen'
      cases hclose.symm.trans hclose'
    | claimedFails hopen' hclose' =>
      cases hopen.symm.trans hopen'
      cases hclose.symm.trans hclose'
      exact ⟨rfl, rfl, rfl⟩
    | barred hopen' | inside hopen' | refused hopen' | handled hopen' | handledFails hopen' =>
      cases hopen.symm.trans hopen'
  | inside hopen _ ih =>
    cases h' with
    | inside hopen' hbelow' =>
      cases hopen.symm.trans hopen'
      obtain ⟨rfl, hresult, rfl⟩ := ih hbelow'
      cases hresult
      exact ⟨rfl, rfl, rfl⟩
    | refused hopen' hbelow' | handled hopen' hbelow' | handledFails hopen' hbelow' =>
      cases hopen.symm.trans hopen'
      nomatch (ih hbelow').2.1
    | barred hopen' | claimed hopen' | claimedFails hopen' => cases hopen.symm.trans hopen'
  | refused hopen _ hvalue ih =>
    cases h' with
    | inside hopen' hbelow' =>
      cases hopen.symm.trans hopen'
      nomatch (ih hbelow').2.1
    | refused hopen' hbelow' hvalue' =>
      cases hopen.symm.trans hopen'
      obtain ⟨rfl, hresult, rfl⟩ := ih hbelow'
      cases hresult
      cases hvalue.symm.trans hvalue'
      exact ⟨rfl, rfl, rfl⟩
    | handled hopen' hbelow' hvalue' | handledFails hopen' hbelow' hvalue' =>
      cases hopen.symm.trans hopen'
      obtain ⟨rfl, hresult, rfl⟩ := ih hbelow'
      cases hresult
      cases hvalue.symm.trans hvalue'
    | barred hopen' | claimed hopen' | claimedFails hopen' => cases hopen.symm.trans hopen'
  | handled hopen _ hvalue hclose _ ihbelow ihrest =>
    cases h' with
    | inside hopen' hbelow' =>
      cases hopen.symm.trans hopen'
      nomatch (ihbelow hbelow').2.1
    | refused hopen' hbelow' hvalue' =>
      cases hopen.symm.trans hopen'
      obtain ⟨rfl, hresult, rfl⟩ := ihbelow hbelow'
      cases hresult
      cases hvalue.symm.trans hvalue'
    | handled hopen' hbelow' hvalue' hclose' hrest' =>
      cases hopen.symm.trans hopen'
      obtain ⟨rfl, hresult, rfl⟩ := ihbelow hbelow'
      cases hresult
      cases hvalue.symm.trans hvalue'
      cases hclose.symm.trans hclose'
      obtain ⟨rfl, rfl, rfl⟩ := ihrest hrest'
      exact ⟨rfl, rfl, rfl⟩
    | handledFails hopen' hbelow' hvalue' hclose' =>
      cases hopen.symm.trans hopen'
      obtain ⟨rfl, hresult, rfl⟩ := ihbelow hbelow'
      cases hresult
      cases hvalue.symm.trans hvalue'
      cases hclose.symm.trans hclose'
    | barred hopen' | claimed hopen' | claimedFails hopen' => cases hopen.symm.trans hopen'
  | handledFails hopen _ hvalue hclose ih =>
    cases h' with
    | inside hopen' hbelow' =>
      cases hopen.symm.trans hopen'
      nomatch (ih hbelow').2.1
    | refused hopen' hbelow' hvalue' =>
      cases hopen.symm.trans hopen'
      obtain ⟨rfl, hresult, rfl⟩ := ih hbelow'
      cases hresult
      cases hvalue.symm.trans hvalue'
    | handled hopen' hbelow' hvalue' hclose' =>
      cases hopen.symm.trans hopen'
      obtain ⟨rfl, hresult, rfl⟩ := ih hbelow'
      cases hresult
      cases hvalue.symm.trans hvalue'
      cases hclose.symm.trans hclose'
    | handledFails hopen' hbelow' hvalue' hclose' =>
      cases hopen.symm.trans hopen'
      obtain ⟨rfl, hresult, rfl⟩ := ih hbelow'
      cases hresult
      cases hvalue.symm.trans hvalue'
      cases hclose.symm.trans hclose'
      exact ⟨rfl, rfl, rfl⟩
    | barred hopen' | claimed hopen' | claimedFails hopen' => cases hopen.symm.trans hopen'

/-! ## One node after another -/

/-- Each node has its value. -/
theorem length_eq (h : Traverses ev nodes s calls result s') {vs : List Value}
    (hok : result = .ok vs) : vs.length = nodes.length := by
  induction h generalizing vs with
  | nil =>
    obtain rfl := Except.ok.inj hok
    rfl
  | claimed _ _ _ ih | handled _ _ _ _ _ _ ih =>
    obtain ⟨vs, hrest, rfl⟩ := exists_ok_of_map hok
    exact congrArg (· + 1) (ih hrest)
  | barred | claimedFails | inside | refused | handledFails => nomatch hok

variable {node : Node}

/-- Behind a node whose visit is done, its next siblings are visited. -/
theorem cons {v : Value} (h : Traverses ev [node] s calls (.ok [v]) s')
    (hmore : Traverses ev nodes s' calls' result s'') :
    Traverses ev (node :: nodes) s (calls ++ calls') (result.map (v :: ·)) s'' := by
  generalize hok : (Except.ok [v] : Except EvalError (List Value)) = first at h
  cases h with
  | claimed hopen hclose hrest =>
    cases hrest
    obtain ⟨rfl, -⟩ := List.cons.inj (Except.ok.inj hok)
    rw [List.append_nil]
    exact .claimed hopen hclose hmore
  | handled hopen hbelow hvalue hclose hrest =>
    cases hrest
    obtain ⟨rfl, -⟩ := List.cons.inj (Except.ok.inj hok)
    rw [List.append_nil]
    exact .handled hopen hbelow hvalue hclose hmore
  | barred | claimedFails | inside | refused | handledFails => nomatch hok

/-- Behind a node whose visit fails, nothing is visited. -/
theorem cons_of_error {e : EvalError} (h : Traverses ev [node] s calls (.error e) s') :
    Traverses ev (node :: nodes) s calls (.error e) s' := by
  generalize hfail : (Except.error e : Except EvalError (List Value)) = first at h
  cases h with
  | barred hopen => exact .barred hopen
  | claimedFails hopen hclose => exact .claimedFails hopen hclose
  | inside hopen hbelow => exact .inside hopen hbelow
  | refused hopen hbelow hvalue => exact .refused hopen hbelow hvalue
  | handledFails hopen hbelow hvalue hclose => exact .handledFails hopen hbelow hvalue hclose
  | claimed _ _ hrest | handled _ _ _ _ hrest =>
    cases hrest
    nomatch hfail

end Traverses

/-! ## Failing hooks -/

/-- The last of the calls is that of a hook, which fails with this error and leaves this scene. -/
inductive FailsLast (ev : Evaluator σ ω) (e : ExtensionError) (s : Scene σ ω) : List Call → Prop
  | before {calls : List Call} {place : Nat} {node : Node} {x : Extension ω} {context : Context}
      {memory : ω} (hx : ev.extensions[place]? = some x)
      (hfail : x.before node context memory = (.error e, s.context, s.memory)) :
      FailsLast ev e s (calls ++ [.before place node])
  | after {calls : List Call} {place : Nat} {node : Node} {x : Extension ω} {context : Context}
      {memory : ω} (hx : ev.extensions[place]? = some x)
      (hfail : x.after node context memory = (.error e, s.context, s.memory)) :
      FailsLast ev e s (calls ++ [.after place node])

section FailsLast

variable {ev : Evaluator σ ω} {node : Node} {nodes : List Node} {s s' : Scene σ ω}
  {calls done : List Call} {e : ExtensionError}

/-- What was called before does not matter for how the last call failed. -/
theorem FailsLast.behind (h : FailsLast ev e s calls) : FailsLast ev e s (done ++ calls) := by
  cases h with
  | before hx hfail =>
    rw [← List.append_assoc]
    exact .before hx hfail
  | after hx hfail =>
    rw [← List.append_assoc]
    exact .after hx hfail

/-- If opening a node fails, it is by the before hook that was called last. -/
theorem failsLast_of_opens (h : ev.opens node s = (calls, .error e, s')) :
    FailsLast ev e s' calls := by
  rw [Evaluator.opens] at h
  split at h
  · rename_i k _ _ hhooks
    cases h
    obtain ⟨place, hook, context, memory, rfl, hhook, hfail⟩ := Scene.callHooks_of_error hhooks
    rw [List.getElem?_map] at hhook
    obtain ⟨x, hx, rfl⟩ := Option.map_eq_some_iff.mp hhook
    rw [enter, List.range_succ, List.map_append, ← List.cons_append]
    exact .before hx hfail
  · cases h

/-- If closing a node fails, it is by the after hook that was called last. -/
theorem failsLast_of_closes (h : ev.closes node s = (calls, .error e, s')) :
    FailsLast ev e s' calls := by
  rw [Evaluator.closes] at h
  cases hcalled : s.callHooks (ev.extensions.map (·.after node)) with
  | mk k rest =>
    rw [hcalled] at h
    cases h
    obtain ⟨place, hook, context, memory, rfl, hhook, hfail⟩ := Scene.callHooks_of_error hcalled
    rw [List.getElem?_map] at hhook
    obtain ⟨x, hx, rfl⟩ := Option.map_eq_some_iff.mp hhook
    rw [leave, List.range_succ, List.map_append]
    exact .after hx hfail

/-- Nothing is called behind a hook that fails. -/
theorem Traverses.failsLast {result : Except EvalError (List Value)}
    (h : Traverses ev nodes s calls result s') (hfail : result = .error (.extension e)) :
    FailsLast ev e s' calls := by
  induction h with
  | nil => nomatch hfail
  | barred hopen =>
    cases hfail
    exact failsLast_of_opens hopen
  | claimedFails _ hclose | handledFails _ _ _ hclose =>
    cases hfail
    exact (failsLast_of_closes hclose).behind
  | claimed _ _ _ ih | handled _ _ _ _ _ _ ih => exact (ih (error_of_map hfail)).behind
  | inside _ _ ih =>
    cases hfail
    exact (ih rfl).behind
  | refused _ _ hvalue =>
    cases hfail
    exact absurd (congrArg Prod.fst hvalue) (Node.conclude_ne_extension _ _ _ _ _)

end FailsLast

/-! ## Traversals and complete traversals -/

section Complete

variable {ev : Evaluator σ ω} {node : Node} {nodes : List Node} {s s' : Scene σ ω}
  {calls : List Call}

/-- What opens a node whose hooks pass: all of them run, and extensions make claims in the order of
registration. There is no value without a claim. -/
theorem calls_of_opens {value? : Option Value} (h : ev.opens node s = (calls, .ok value?, s')) :
    ∃ places : List Nat, places.Sublist (List.range ev.extensions.length) ∧
      (value?.isSome → places ≠ []) ∧
      calls = enter ev.extensions.length node ++ asks places node := by
  rw [Evaluator.opens] at h
  split at h
  · cases h
  · rename_i k s₁ hhooks
    obtain ⟨rfl, hrest⟩ := Prod.mk.inj h
    obtain ⟨hvalue, -⟩ := Prod.mk.inj hrest
    have hplaces := places_offersFrom node s₁.context ev.extensions.zipIdx s₁.memory
    rw [List.zipIdx_map_snd, ← List.range_eq_range'] at hplaces
    refine ⟨_, hplaces, fun hsome hnil => ?_, ?_⟩
    · obtain rfl := Except.ok.inj hvalue
      rw [List.map_eq_nil_iff.mp hnil, ClaimPolicy.resolve_nil] at hsome
      nomatch hsome
    · have hk := Scene.callHooks_of_ok (congrArg (·.2.1) hhooks)
      rw [hhooks, List.length_map] at hk
      rw [← hk]

theorem prefix_of_opens {e : ExtensionError} (h : ev.opens node s = (calls, .error e, s')) :
    calls <+: enter ev.extensions.length node := by
  rw [Evaluator.opens] at h
  split at h
  · rename_i k _ _ hhooks
    obtain ⟨rfl, -⟩ := Prod.mk.inj h
    have hle := Scene.callHooks_le (ev.extensions.map (·.before node)) s
    rw [hhooks, List.length_map] at hle
    exact enter_prefix hle node
  · cases h

theorem calls_of_closes (h : ev.closes node s = (calls, .ok (), s')) :
    calls = leave ev.extensions.length node := by
  obtain ⟨rfl, hrest⟩ := Prod.mk.inj h
  have hk := Scene.callHooks_of_ok (congrArg Prod.fst hrest)
  rw [List.length_map] at hk
  rw [← hk]

theorem prefix_of_closes {outcome : Except ExtensionError Unit}
    (h : ev.closes node s = (calls, outcome, s')) : calls <+: leave ev.extensions.length node := by
  obtain ⟨rfl, -⟩ := Prod.mk.inj h
  have hle := Scene.callHooks_le (ev.extensions.map (·.after node)) s
  rw [List.length_map] at hle
  exact leave_prefix hle node

/-- A claimed node is opened and closed, with nothing below it. -/
theorem visits_of_claimed {v : Value} {later : List Call}
    (hopen : ev.opens node s = (calls, .ok (some v), s'))
    (hrest : Visits ev.extensions.length nodes later) :
    Visits ev.extensions.length (node :: nodes)
      (calls ++ leave ev.extensions.length node ++ later) := by
  obtain ⟨places, hplaces, hclaimed, rfl⟩ := calls_of_opens hopen
  exact .claimed hplaces (hclaimed rfl) hrest

/-- A node that nobody claims is opened, its children are visited, and it is closed. -/
theorem visits_of_handled {below later : List Call}
    (hopen : ev.opens node s = (calls, .ok none, s'))
    (hbelow : Visits ev.extensions.length node.children below)
    (hrest : Visits ev.extensions.length nodes later) :
    Visits ev.extensions.length (node :: nodes)
      (calls ++ below ++ leave ev.extensions.length node ++ later) := by
  obtain ⟨places, hplaces, -, rfl⟩ := calls_of_opens hopen
  exact .handled hplaces hbelow hrest

/-- A traversal without failure is complete. -/
theorem Traverses.visits {result : Except EvalError (List Value)}
    (h : Traverses ev nodes s calls result s') {vs : List Value} (hok : result = .ok vs) :
    Visits ev.extensions.length nodes calls := by
  induction h generalizing vs with
  | nil => exact .nil
  | claimed hopen hclose _ ih =>
    obtain ⟨_, hrest, -⟩ := exists_ok_of_map hok
    rw [calls_of_closes hclose]
    exact visits_of_claimed hopen (ih hrest)
  | handled hopen _ _ hclose _ ihbelow ihrest =>
    obtain ⟨_, hrest, -⟩ := exists_ok_of_map hok
    rw [calls_of_closes hclose]
    exact visits_of_handled hopen (ihbelow rfl) (ihrest hrest)
  | barred | claimedFails | inside | refused | handledFails => nomatch hok

/-- A traversal is the beginning of a complete one, wherever a failure cuts it off. -/
theorem Traverses.exists_completion {result : Except EvalError (List Value)}
    (h : Traverses ev nodes s calls result s') :
    ∃ later, Visits ev.extensions.length nodes (calls ++ later) := by
  have hbehind := exists_visits ev.extensions.length
  -- by induction on the traversal, with any visits of what the failure leaves out
  induction h with
  | nil => exact ⟨[], .nil⟩
  | @barred node nodes _ _ _ _ hopen =>
    obtain ⟨rest, hrest⟩ := prefix_of_opens hopen
    obtain ⟨below, hbelow⟩ := hbehind node.children
    obtain ⟨later, hlater⟩ := hbehind nodes
    refine ⟨rest ++ below ++ leave ev.extensions.length node ++ later, ?_⟩
    have hvisits := Visits.handled (List.nil_sublist _) hbelow hlater
    rw [← hrest] at hvisits
    simpa [asks] using hvisits
  | claimed hopen hclose _ ih =>
    obtain ⟨later, hlater⟩ := ih
    refine ⟨later, ?_⟩
    rw [calls_of_closes hclose, List.append_assoc]
    exact visits_of_claimed hopen hlater
  | @claimedFails node nodes _ _ _ _ _ _ _ hopen hclose =>
    obtain ⟨rest, hrest⟩ := prefix_of_closes hclose
    obtain ⟨later, hlater⟩ := hbehind nodes
    refine ⟨rest ++ later, ?_⟩
    have hvisits := visits_of_claimed hopen hlater
    rw [← hrest] at hvisits
    simpa using hvisits
  | @inside node nodes _ _ _ _ _ _ hopen _ ih =>
    obtain ⟨rest, hbelow⟩ := ih
    obtain ⟨later, hlater⟩ := hbehind nodes
    refine ⟨rest ++ leave ev.extensions.length node ++ later, ?_⟩
    simpa using visits_of_handled hopen hbelow hlater
  | @refused node nodes _ _ _ _ _ _ _ _ hopen hbelow _ _ =>
    obtain ⟨later, hlater⟩ := hbehind nodes
    refine ⟨leave ev.extensions.length node ++ later, ?_⟩
    simpa using visits_of_handled hopen (hbelow.visits rfl) hlater
  | handled hopen hbelow _ hclose _ _ ih =>
    obtain ⟨later, hlater⟩ := ih
    refine ⟨later, ?_⟩
    rw [calls_of_closes hclose, List.append_assoc]
    exact visits_of_handled hopen (hbelow.visits rfl) hlater
  | @handledFails node nodes _ _ _ _ _ _ _ _ _ _ _ hopen hbelow _ hclose _ =>
    obtain ⟨rest, hrest⟩ := prefix_of_closes hclose
    obtain ⟨later, hlater⟩ := hbehind nodes
    refine ⟨rest ++ later, ?_⟩
    have hvisits := visits_of_handled hopen (hbelow.visits rfl) hlater
    rw [← hrest] at hvisits
    simpa using hvisits

end Complete

end MiniSql
