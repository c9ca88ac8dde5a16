import MiniSql.Evaluator

/-!
# Effects of actions

How the basic actions change the world, and how actions in sequence combine their effects. A run
without extensions is computed from these equations.
-/

namespace MiniSql

variable {ε σ ω α β : Type}

/-- The world with more events in its journal. -/
def World.log (w : World σ ω) (events : List Event) : World σ ω :=
  { w with journal := w.journal ++ events.toArray }

namespace World

variable (w : World σ ω) (events more : List Event)

@[simp] theorem log_context : (w.log events).context = w.context := rfl

@[simp] theorem log_state : (w.log events).state = w.state := rfl

theorem log_nil : w.log [] = w := by simp [log]

/-- Events entered in two portions are entered as one. -/
theorem log_log : (w.log events).log more = w.log (events ++ more) := by
  simp [log, Array.append_assoc]

/-- A view of the journal grows by the view of the events entered. -/
theorem filterMap_journal_log (f : Event → Option β) :
    (w.log events).journal.toList.filterMap f =
      w.journal.toList.filterMap f ++ events.filterMap f := by
  rw [log, Array.toList_append, List.filterMap_append]

/-- The world behind a request: the backend's new state, and the request with its remarks. -/
def answered (r : Request) (reply : Reply σ α) : World σ ω :=
  ({ w with state := reply.state } : World σ ω).log
    (.requested r :: reply.remarks.map .remarked)

/-- To a view of the journal without the remarks, the request is all that is new. -/
theorem filterMap_journal_answered {f : Event → Option β} (hf : ∀ text, f (.remarked text) = none)
    (r : Request) (reply : Reply σ α) :
    (w.answered r reply).journal.toList.filterMap f =
      w.journal.toList.filterMap f ++ (f (.requested r)).toList := by
  have hremarks : (reply.remarks.map Event.remarked).filterMap f = [] := by
    rw [List.filterMap_map]
    exact List.filterMap_eq_nil_iff.mpr fun text _ => hf text
  rw [answered, filterMap_journal_log, List.filterMap_cons, hremarks]
  cases f (.requested r) <;> rfl

end World

namespace Evaluator

section Sequence

variable {x : Action ε σ ω α} {f : α → Action ε σ ω β} {w w' : World σ ω}

/-- What is done in sequence is done behind the first part, unless that fails. -/
theorem bind_eq (x : Action ε σ ω α) (f : α → Action ε σ ω β) (w : World σ ω) :
    (x >>= f) w = match x w with
      | .ok a w' => f a w'
      | .error e w' => .error e w' := by
  show EStateM.bind x f w = _
  rw [EStateM.bind]
  cases x w <;> rfl

/-- The second part of a sequence starts in the world that the first one leaves. -/
theorem bind_of_ok {a : α} (h : x w = .ok a w') : (x >>= f) w = f a w' := by
  rw [bind_eq, h]

/-- Behind a failure nothing is done. -/
theorem bind_of_error {e : ε} (h : x w = .error e w') : (x >>= f) w = .error e w' := by
  rw [bind_eq, h]

/-- A sequence that succeeds has both parts succeed. -/
theorem bind_ok {b : β} (h : (x >>= f) w = .ok b w') :
    ∃ a w₁, x w = .ok a w₁ ∧ f a w₁ = .ok b w' := by
  cases hx : x w with
  | ok a w₁ =>
    rw [bind_of_ok hx] at h
    exact ⟨a, w₁, rfl, h⟩
  | error e w₁ =>
    rw [bind_of_error hx] at h
    nomatch h

/-- A sequence that fails has its first part fail, or its second part behind the first. -/
theorem bind_error {e : ε} (h : (x >>= f) w = .error e w') :
    x w = .error e w' ∨ ∃ a w₁, x w = .ok a w₁ ∧ f a w₁ = .error e w' := by
  cases hx : x w with
  | ok a w₁ =>
    rw [bind_of_ok hx] at h
    exact .inr ⟨a, w₁, rfl, h⟩
  | error e' w₁ =>
    rw [bind_of_error hx] at h
    obtain ⟨rfl, rfl⟩ := EStateM.Result.error.inj h
    exact .inl rfl

theorem map_of_ok {g : α → β} {a : α} (h : x w = .ok a w') :
    (x >>= fun a => pure (g a)) w = .ok (g a) w' := bind_of_ok h

theorem adaptExcept_of_ok {ε' : Type} {g : ε → ε'} {a : α} (h : x w = .ok a w') :
    x.adaptExcept g w = .ok a w' := by rw [EStateM.adaptExcept, h]

theorem adaptExcept_of_error {ε' : Type} {g : ε → ε'} {e : ε} (h : x w = .error e w') :
    x.adaptExcept g w = .error (g e) w' := by rw [EStateM.adaptExcept, h]

/-- To translate errors makes no failure a success. -/
theorem adaptExcept_ok {ε' : Type} {g : ε → ε'} {a : α}
    (h : x.adaptExcept g w = .ok a w') : x w = .ok a w' := by
  cases hx : x w with
  | ok a' w₁ =>
    rw [adaptExcept_of_ok hx] at h
    obtain ⟨rfl, rfl⟩ := EStateM.Result.ok.inj h
    rfl
  | error e w₁ =>
    rw [adaptExcept_of_error hx] at h
    nomatch h

end Sequence

section Basic

variable (w : World σ ω)

/-- Entering an event never fails, and changes the journal only. -/
theorem record_eq (event : Event) :
    (record event : Action ε σ ω Unit) w = .ok () (w.log [event]) := by
  show EStateM.Result.ok () { w with journal := w.journal.push event } = _
  rw [World.log, Array.push_eq_append]

theorem recordAll_eq (events : List Event) :
    (recordAll events : Action ε σ ω Unit) w = .ok () (w.log events) := by
  -- by induction on the events, each of which is entered behind those before it
  induction events generalizing w with
  | nil =>
    rw [World.log_nil]
    rfl
  | cons event events ih =>
    show (record event >>= fun _ => recordAll events) w = _
    rw [bind_of_ok (record_eq w event), ih, World.log_log]
    rfl

theorem push_eq (v : Value) :
    (push v : Action ε σ ω Unit) w = .ok () { w with context := w.context.push v } := rfl

theorem ofExcept_ok (a : α) :
    (MonadExcept.ofExcept (.ok a : Except ε α) : Action ε σ ω α) w = .ok a w := rfl

/-- A request is answered, or refused, from the backend's present state. Its new state is taken over
either way. -/
theorem request_eq (r : Request) (ask : σ → Reply σ α) :
    request r ask w = match (ask w.state).answer with
      | .ok a => .ok a (w.answered r (ask w.state))
      | .error e => .error e (w.answered r (ask w.state)) := by
  -- the request is entered before the backend is asked, in the same state
  have hstep : request r ask w = (do
      recordAll ((ask w.state).remarks.map .remarked)
      match (ask w.state).answer with
      | .ok a => return a
      | .error e => throw e : Action BackendError σ ω α)
        { w.log [.requested r] with state := (ask w.state).state } := by
    rw [request, bind_of_ok (record_eq w _)]
    rfl
  rw [hstep, bind_of_ok (recordAll_eq _ _)]
  have hworld : ({ w.log [.requested r] with state := (ask w.state).state } : World σ ω).log
      ((ask w.state).remarks.map .remarked) = w.answered r (ask w.state) :=
    World.log_log ({ w with state := (ask w.state).state } : World σ ω) [.requested r] _
  rw [hworld]
  cases (ask w.state).answer <;> rfl

/-- A hook is called in the world in which it is entered. -/
theorem runHooks_cons {hook : Extension ω → Hook ω} {event : Nat → Nat → Event} (x : Extension ω)
    (place : Nat) (xs : List (Extension ω × Nat)) :
    (runHooks hook event ((x, place) :: xs) : Action EvalError σ ω Unit) w =
      (runHook (hook x) >>= fun _ => runHooks hook event xs : Action EvalError σ ω Unit)
        (w.log [event place w.context.depth]) := by
  have hget : (runHooks hook event ((x, place) :: xs) : Action EvalError σ ω Unit) w =
      (record (event place w.context.depth) >>= fun _ => runHook (hook x) >>= fun _ =>
        runHooks hook event xs : Action EvalError σ ω Unit) w := rfl
  rw [hget, bind_of_ok (record_eq w _)]

end Basic

section Success

variable {w w' : World σ ω} {a : α}

theorem ofExcept_eq_ok {result : Except ε α}
    (h : (MonadExcept.ofExcept result : Action ε σ ω α) w = .ok a w') :
    result = .ok a ∧ w' = w := by
  cases result with
  | ok a' =>
    obtain ⟨rfl, rfl⟩ := EStateM.Result.ok.inj h
    exact ⟨rfl, rfl⟩
  | error e => nomatch h

/-- A request that succeeds has the backend's answer. -/
theorem request_ok {r : Request} {ask : σ → Reply σ α}
    (h : request r ask w = .ok a w') : (ask w.state).answer = .ok a := by
  rw [request_eq] at h
  cases hanswer : (ask w.state).answer with
  | ok a' =>
    rw [hanswer] at h
    rw [(EStateM.Result.ok.inj h).1]
  | error e =>
    rw [hanswer] at h
    nomatch h

end Success

end Evaluator

end MiniSql
