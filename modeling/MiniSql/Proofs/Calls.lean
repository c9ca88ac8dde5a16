import MiniSql.Proofs.FailedRun
import MiniSql.Proofs.Protocol

/-!
# Steps of the protocol in the journal

Which steps of the protocol between a run and its extensions an action enters into the journal, and
which scene it leaves (`Yields`). The hooks of the extensions are called one after another, up to
the last or to the first that fails (`yields_runHooks`), and with the claims that are made behind
them they open a node (`yields_opening`).
-/

namespace MiniSql

variable {σ ω α β : Type}

/-- The steps of the protocol so far. -/
def World.calls (w : World σ ω) : List Call := w.journal.toList.filterMap Event.call?

theorem World.calls_log (w : World σ ω) (events : List Event) :
    (w.log events).calls = w.calls ++ events.filterMap Event.call? :=
  filterMap_journal_log w events Event.call?

theorem World.calls_answered (w : World σ ω) (r : Request) (reply : Reply σ α) :
    (w.answered r reply).calls = w.calls :=
  (w.filterMap_journal_answered (fun _ => rfl) r reply).trans (List.append_nil _)

namespace Evaluator

/-! ## What an action yields -/

/-- Started in a world, an action with this result has taken these steps of the protocol, and leaves
this scene, with its answer or its error. -/
inductive Yields (w : World σ ω) : EStateM.Result EvalError (World σ ω) α → List Call →
    Except EvalError α → Scene σ ω → Prop
  | ok {a : α} {w' : World σ ω} {calls : List Call} (hcalls : w'.calls = w.calls ++ calls) :
      Yields w (.ok a w') calls (.ok a) w'.scene
  | error {e : EvalError} {w' : World σ ω} {calls : List Call}
      (hcalls : w'.calls = w.calls ++ calls) : Yields w (.error e w') calls (.error e) w'.scene

namespace Yields

variable {x : Action EvalError σ ω α} {f : α → Action EvalError σ ω β} {w : World σ ω}
  {s s' : Scene σ ω} {calls later : List Call}

/-- The world of a success, for the actions behind it. -/
theorem exists_ok {a : α} (h : Yields w (x w) calls (.ok a) s) :
    ∃ w', x w = .ok a w' ∧ w'.calls = w.calls ++ calls ∧ w'.scene = s := by
  generalize x w = result at h
  cases h with
  | ok hcalls => exact ⟨_, rfl, hcalls, rfl⟩

theorem exists_error {e : EvalError} (h : Yields w (x w) calls (.error e) s) :
    ∃ w', x w = .error e w' ∧ w'.calls = w.calls ++ calls ∧ w'.scene = s := by
  generalize x w = result at h
  cases h with
  | error hcalls => exact ⟨_, rfl, hcalls, rfl⟩

theorem pure (a : α) (w : World σ ω) :
    Yields w ((Pure.pure a : Action EvalError σ ω α) w) [] (.ok a) w.scene :=
  .ok (List.append_nil _).symm

/-- Steps taken since a world before are taken since an earlier one too. -/
theorem trans {w₁ : World σ ω} {result : EStateM.Result EvalError (World σ ω) β}
    {outcome : Except EvalError β} (hcalls : w₁.calls = w.calls ++ calls)
    (h : Yields w₁ result later outcome s) : Yields w result (calls ++ later) outcome s := by
  cases h with
  | ok hlater => exact .ok (by rw [hlater, hcalls, List.append_assoc])
  | error hlater => exact .error (by rw [hlater, hcalls, List.append_assoc])

/-- Calls of actions in sequence follow one another. -/
theorem bind {a : α} {outcome : Except EvalError β} (hx : Yields w (x w) calls (.ok a) s)
    (hf : ∀ w₁, w₁.scene = s → Yields w₁ (f a w₁) later outcome s') :
    Yields w ((x >>= f) w) (calls ++ later) outcome s' := by
  obtain ⟨w₁, hok, hcalls, hscene⟩ := hx.exists_ok
  rw [bind_of_ok hok]
  exact .trans hcalls (hf w₁ hscene)

/-- A failure ends the sequence: nothing behind it is called. -/
theorem bind_error {e : EvalError} (hx : Yields w (x w) calls (.error e) s) :
    Yields w ((x >>= f) w) calls (.error e) s := by
  obtain ⟨w₁, herror, hcalls, rfl⟩ := hx.exists_error
  rw [bind_of_error herror]
  exact .error hcalls

end Yields

/-! ## Hooks -/

theorem yields_of_pass {hook : Hook ω} {w : World σ ω} {context : Context} {memory : ω}
    (h : hook w.scene.context w.scene.memory = (.ok (), context, memory)) :
    Yields w (runHook hook w) [] (.ok ()) { w.scene with context, memory } := by
  rw [runHook, show hook w.context w.memory = _ from h]
  exact .ok (List.append_nil _).symm

theorem yields_of_fail {hook : Hook ω} {w : World σ ω} {e : ExtensionError} {context : Context}
    {memory : ω} (h : hook w.scene.context w.scene.memory = (.error e, context, memory)) :
    Yields w (runHook hook w) [] (.error (.extension e)) { w.scene with context, memory } := by
  rw [runHook, show hook w.context w.memory = _ from h]
  exact .error (List.append_nil _).symm

section Hooks

variable {hook : Extension ω → Hook ω} {event : Nat → Nat → Event} {call : Nat → Call}
  {w : World σ ω} {k : Nat} {outcome : Except ExtensionError Unit} {s : Scene σ ω}
  (hcall : ∀ place depth, (event place depth).call? = some (call place))

include hcall

theorem calls_log_hook (w : World σ ω) (place depth : Nat) :
    (w.log [event place depth]).calls = w.calls ++ [call place] := by
  rw [World.calls_log, List.filterMap_cons_some (hcall place depth)]
  rfl

/-- The hooks of extensions are called in order, up to the first that fails. -/
theorem yields_runHooks {xs : List (Extension ω × Nat)}
    (h : w.scene.callHooks (xs.map fun x => hook x.1) = (k, outcome, s)) :
    Yields w (runHooks hook event xs w) ((xs.take k).map fun x => call x.2)
      (outcome.mapError .extension) s := by
  -- by induction on the extensions, whose hooks run one after another
  induction xs generalizing w k with
  | nil =>
    cases h
    exact .pure () w
  | cons x xs ih =>
    obtain ⟨x, place⟩ := x
    have hcalls := calls_log_hook hcall w place w.context.depth
    rw [← World.scene_log w [event place w.context.depth]] at h
    rw [runHooks_cons]
    generalize w.log [event place w.context.depth] = entered at h hcalls ⊢
    rw [List.map_cons, Scene.callHooks] at h
    cases hanswer : hook x entered.scene.context entered.scene.memory with
    | mk answer rest =>
      obtain ⟨context, memory⟩ := rest
      rw [hanswer] at h
      cases answer with
      | error e =>
        cases h
        exact .trans hcalls (yields_of_fail hanswer).bind_error
      | ok _ =>
        obtain ⟨rfl, hlater⟩ := Prod.mk.inj h
        refine .trans hcalls ((yields_of_pass hanswer).bind fun w₁ hscene => ih ?_)
        rw [hscene]
        exact Prod.ext rfl hlater

omit hcall in
theorem map_call_zipIdx (call : Nat → Call) (xs : List (Extension ω)) :
    (xs.zipIdx.map fun x => call x.2) = (List.range xs.length).map call := by
  rw [List.range_eq_range', ← List.zipIdx_map_snd, List.map_map]
  rfl

omit hcall in
theorem map_hook_zipIdx (hook : Extension ω → Hook ω) (xs : List (Extension ω)) :
    (xs.zipIdx.map fun x => hook x.1) = xs.map hook := by
  rw [← List.zipIdx_map_fst 0 xs, List.map_map, List.zipIdx_map_fst]
  rfl

/-- Running hooks calls as many extensions as it takes until one fails, in the order of their
places. -/
theorem yields_runHooks_zipIdx {xs : List (Extension ω)}
    (h : w.scene.callHooks (xs.map hook) = (k, outcome, s)) :
    Yields w (runHooks hook event xs.zipIdx w) ((List.range k).map call)
      (outcome.mapError .extension) s := by
  have hle := Scene.callHooks_le (xs.map hook) w.scene
  rw [h, List.length_map] at hle
  rw [← map_hook_zipIdx] at h
  have hyields := yields_runHooks hcall h
  rwa [List.map_take, map_call_zipIdx, ← List.map_take, List.take_range,
    Nat.min_eq_left hle] at hyields

end Hooks

/-! ## Nodes -/

section Nodes

variable {ev : Evaluator σ ω} {node : Node} {w : World σ ω} {calls : List Call} {s : Scene σ ω}

/-- The hooks after a node close it. -/
theorem yields_afterHooks {outcome : Except ExtensionError Unit}
    (h : ev.closes node w.scene = (calls, outcome, s)) :
    Yields w (ev.afterHooks node w) calls (outcome.mapError .extension) s := by
  obtain ⟨rfl, hcalled⟩ := Prod.mk.inj h
  exact yields_runHooks_zipIdx (fun _ _ => rfl) (Prod.ext rfl hcalled)

/-- Resolving the claims on a node calls the claim hooks of those that make an offer. -/
theorem calls_resolved (ev : Evaluator σ ω) (node : Node) (w : World σ ω) :
    (ev.resolved node w).calls =
      w.calls ++ asks ((ev.offersOn node w).map Offer.place) node := by
  have hasked : ((ev.offersOn node w).map fun offer =>
      Event.asked offer.place node).filterMap Event.call? =
        asks ((ev.offersOn node w).map Offer.place) node := by
    rw [List.filterMap_map, asks, List.map_map]
    exact congrFun List.filterMap_eq_map _
  -- no claim that settles is a step of the protocol
  have hsettled : ((ev.resolution node w).settled.flatMap (settledEvents node)).filterMap
      Event.call? = [] := by
    rw [List.filterMap_eq_nil_iff]
    intro event hevent
    obtain ⟨_, rfl⟩ | ⟨_, _, rfl⟩ := settled_or_rejected hevent <;> rfl
  rw [resolved, World.calls_log, List.filterMap_append, hasked, hsettled, List.append_nil]
  rfl

/-- Claims are asked for and settled as the scene tells. -/
theorem yields_claim? (ev : Evaluator σ ω) (node : Node) (h : w.scene = s) :
    let asked := offersFrom node s.context ev.extensions.zipIdx s.memory
    Yields w (ev.claim? node w) (asks (asked.1.map Offer.place) node)
      (.ok (s.context.policy.resolve asked.1).value?) { s with memory := asked.2 } := by
  subst h
  rw [claim?_eq]
  exact .ok (calls_resolved ev node w)

/-- The hooks before a node open it, together with the claims that are made in what they leave. -/
theorem yields_opening {outcome : Except ExtensionError (Option Value)}
    (h : ev.opens node w.scene = (calls, outcome, s)) :
    Yields w (ev.opening node w) calls (outcome.mapError .extension) s := by
  have hentered : (w.log [.entered node]).calls = w.calls ++ [.visit node] :=
    World.calls_log w [.entered node]
  rw [opening, bind_of_ok (record_eq w _)]
  rw [opens] at h
  cases hcalled : w.scene.callHooks (ev.extensions.map (·.before node)) with
  | mk k rest =>
    obtain ⟨passed, s₁⟩ := rest
    have hhooks : Yields (w.log [.entered node]) (ev.beforeHooks node (w.log [.entered node]))
        ((List.range k).map (.before · node)) (passed.mapError .extension) s₁ :=
      yields_runHooks_zipIdx (fun _ _ => rfl) hcalled
    rw [hcalled] at h
    cases passed with
    | error e =>
      cases h
      exact .trans hentered hhooks.bind_error
    | ok _ =>
      cases h
      have hopening := Yields.trans hentered (hhooks.bind (f := fun _ => ev.claim? node)
        fun w₁ hscene => yields_claim? ev node hscene)
      exact hopening

end Nodes

end Evaluator

end MiniSql
