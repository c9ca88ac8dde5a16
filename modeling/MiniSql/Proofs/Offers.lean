import Mathlib.Data.List.Forall2
import MiniSql.Proofs.Effects

/-!
# Claims made on a node

Asking the extensions for claims on a node never fails. `askAll_eq` and `claim?_eq` compute it: the
claims that are made (`Evaluator.offersOn`) are a list in registration order, and the policy in
force decides between them (`Evaluator.resolution`). All else that changes is the memory of the
extensions and the journal.
-/

namespace MiniSql

variable {σ ω : Type}

/-- The world with another memory of the extensions. -/
def World.recall (w : World σ ω) (memory : ω) : World σ ω := { w with memory }

/-- The claims that extensions make on a node when they are asked one after another, and the memory
that they have then. -/
def offersFrom (node : Node) (context : Context) :
    List (Extension ω × Nat) → ω → List Offer × ω
  | [], memory => ([], memory)
  | (x, place) :: rest, memory =>
    let answer := x.claim? node context memory
    let later := offersFrom node context rest answer.2
    (answer.1.elim later.1 (⟨place, x.name, ·⟩ :: later.1), later.2)

/-- Each claim is made by one of the extensions that are asked, and in their order. -/
theorem places_offersFrom (node : Node) (context : Context) (xs : List (Extension ω × Nat))
    (memory : ω) :
    ((offersFrom node context xs memory).1.map Offer.place).Sublist (xs.map Prod.snd) := by
  -- by induction on the extensions, as they are asked
  induction xs generalizing memory with
  | nil => exact .slnil
  | cons x xs ih =>
    obtain ⟨x, place⟩ := x
    have hlater := ih (x.claim? node context memory).2
    dsimp only [offersFrom]
    cases (x.claim? node context memory).1 with
    | none => exact hlater.cons place
    | some claim => exact hlater.cons_cons place

/-- Each claim is an answer of its extension in the present context. -/
theorem exists_of_mem_offersFrom {node : Node} {context : Context} {xs : List (Extension ω × Nat)}
    {memory : ω} {o : Offer} (h : o ∈ (offersFrom node context xs memory).1) :
    ∃ x ∈ xs, ∃ memory, (x.1.claim? node context memory).1 = some o.claim := by
  induction xs generalizing memory with
  | nil => nomatch h
  | cons x xs ih =>
    obtain ⟨x, place⟩ := x
    have hlater (ho : o ∈ (offersFrom node context xs (x.claim? node context memory).2).1) :
        ∃ y ∈ (x, place) :: xs, ∃ memory, (y.1.claim? node context memory).1 = some o.claim := by
      obtain ⟨y, hy, hclaim⟩ := ih ho
      exact ⟨y, List.mem_cons_of_mem _ hy, hclaim⟩
    dsimp only [offersFrom] at h
    cases hclaim : (x.claim? node context memory).1 with
    | none =>
      rw [hclaim] at h
      exact hlater h
    | some claim =>
      rw [hclaim] at h
      rcases List.mem_cons.mp h with rfl | ho
      · exact ⟨(x, place), List.mem_cons_self, memory, hclaim⟩
      · exact hlater ho

/-- What extensions answer, and not which extensions they are, makes the claims on a node. -/
theorem offersFrom_of_forall₂ {node : Node} {context context' : Context}
    {xs ys : List (Extension ω × Nat)}
    (h : List.Forall₂ (fun x y => x.2 = y.2 ∧ x.1.name = y.1.name ∧ ∀ memory,
      x.1.claim? node context memory = y.1.claim? node context' memory) xs ys) (memory : ω) :
    offersFrom node context xs memory = offersFrom node context' ys memory := by
  induction h generalizing memory with
  | nil => rfl
  | @cons x y xs ys hxy _ ih =>
    obtain ⟨x, place⟩ := x
    obtain ⟨y, place'⟩ := y
    obtain ⟨rfl, hname, hclaim⟩ := hxy
    dsimp only at hname hclaim
    rw [offersFrom, offersFrom, hclaim, hname, ih]

/-- Extensions that correspond to each other are registered in the same places. -/
theorem forall₂_zipIdx {P : Extension ω → Extension ω → Prop} {xs ys : List (Extension ω)}
    (h : List.Forall₂ P xs ys) (first : Nat) :
    List.Forall₂ (fun x y => x.2 = y.2 ∧ P x.1 y.1) (xs.zipIdx first) (ys.zipIdx first) := by
  induction h generalizing first with
  | nil => exact .nil
  | cons hxy _ ih => exact .cons ⟨rfl, hxy⟩ (ih (first + 1))

namespace Evaluator

theorem settled_or_rejected {node : Node} {settled : List Offer} {event : Event}
    (h : event ∈ settled.flatMap (settledEvents node)) :
    (∃ place, event = .settled place node) ∨ ∃ owner e, event = .rejected owner e := by
  obtain ⟨offer, -, hevent⟩ := List.mem_flatMap.mp h
  rcases List.mem_cons.mp hevent with rfl | hevent
  · exact .inl ⟨_, rfl⟩
  · cases houtcome : offer.claim.outcome with
    | failed e =>
      rw [houtcome] at hevent
      exact .inr ⟨_, e, List.mem_singleton.mp hevent⟩
    | claimed v => rw [houtcome] at hevent; nomatch hevent
    | declined => rw [houtcome] at hevent; nomatch hevent

variable (ev : Evaluator σ ω) (node : Node) (w : World σ ω)

/-- The claims on a node, in registration order, and the memory behind asking for them. -/
def asking : List Offer × ω := offersFrom node w.context ev.extensions.zipIdx w.memory

/-- The claims that the extensions make on a node, in registration order. -/
def offersOn : List Offer := (ev.asking node w).1

/-- What becomes of the claims on a node. -/
def resolution : Resolution := w.context.policy.resolve (ev.offersOn node w)

/-- The world when the claims on a node are resolved. -/
def resolved : World σ ω :=
  (w.recall (ev.asking node w).2).log
    ((ev.offersOn node w).map (fun offer => .asked offer.place node) ++
      (ev.resolution node w).settled.flatMap (settledEvents node))

variable {ev node w} in
/-- What the resolution of claims leaves in the journal. -/
theorem mem_resolved {event : Event}
    (h : event ∈ (ev.offersOn node w).map (fun offer => .asked offer.place node) ++
      (ev.resolution node w).settled.flatMap (settledEvents node)) :
    (∃ place, event = .asked place node) ∨ (∃ place, event = .settled place node) ∨
      ∃ owner e, event = .rejected owner e := by
  rcases List.mem_append.mp h with hasked | hsettled
  · obtain ⟨offer, -, rfl⟩ := List.mem_map.mp hasked
    exact .inl ⟨_, rfl⟩
  · exact .inr (settled_or_rejected hsettled)

theorem pairwise_place_offersOn : (ev.offersOn node w).Pairwise (·.place < ·.place) := by
  have hplaces := places_offersFrom node w.context ev.extensions.zipIdx w.memory
  rw [List.zipIdx_map_snd] at hplaces
  exact List.pairwise_map.mp ((List.pairwise_lt_range' 1).sublist hplaces)

variable {ev node w} in
/-- Every offer comes from the hook of a registered extension, asked in the context of the
moment. -/
theorem exists_of_mem_offersOn {o : Offer} (h : o ∈ ev.offersOn node w) :
    ∃ x ∈ ev.extensions, ∃ memory, (x.claim? node w.context memory).1 = some o.claim := by
  obtain ⟨x, hx, hclaim⟩ := exists_of_mem_offersFrom h
  exact ⟨x.1, List.fst_mem_of_mem_zipIdx hx, hclaim⟩

/-- Extensions are asked one after another, each with the memory that the last one left. -/
theorem askAll_cons (x : Extension ω) (place : Nat) (xs : List (Extension ω × Nat)) :
    (askAll node ((x, place) :: xs) : Action EvalError σ ω (List Offer)) w =
      match x.claim? node w.context w.memory with
      | (none, memory) => askAll node xs (w.recall memory)
      | (some claim, memory) => (askAll node xs >>= fun later =>
          pure (⟨place, x.name, claim⟩ :: later)) ((w.recall memory).log [.asked place node]) := by
  have hget : (get : Action EvalError σ ω (World σ ω)) w = .ok w w := rfl
  rw [askAll, bind_of_ok hget]
  cases hclaim : x.claim? node w.context w.memory with
  | mk claim? memory =>
    -- the answer is remembered before anything is made of it
    have hset : (set { w with memory } : Action EvalError σ ω PUnit) w = .ok ⟨⟩ (w.recall memory) :=
      rfl
    dsimp only
    rw [bind_of_ok hset]
    cases claim? with
    | none => rfl
    | some claim => exact bind_of_ok (record_eq _ _)

/-- All extensions are asked before any claim settles. -/
theorem askAll_eq (xs : List (Extension ω × Nat)) :
    (askAll node xs : Action EvalError σ ω (List Offer)) w =
      .ok (offersFrom node w.context xs w.memory).1
        ((w.recall (offersFrom node w.context xs w.memory).2).log
          ((offersFrom node w.context xs w.memory).1.map fun offer =>
            .asked offer.place node)) := by
  induction xs generalizing w with
  | nil =>
    show EStateM.Result.ok [] w = .ok [] (w.log [])
    rw [World.log_nil]
  | cons x xs ih =>
    obtain ⟨x, place⟩ := x
    rw [askAll_cons, offersFrom]
    cases x.claim? node w.context w.memory with
    | mk claim? memory =>
      cases claim? with
      | none => exact ih (w.recall memory)
      | some claim =>
        have hlater := ih ((w.recall memory).log [.asked place node])
        refine (map_of_ok hlater).trans ?_
        exact congrArg _ (World.log_log (w.recall _) [.asked place node] _)

/-- Claims are resolved without fail, and nothing changes but the memory and the journal. -/
theorem claim?_eq :
    ev.claim? node w = .ok (ev.resolution node w).value? (ev.resolved node w) := by
  rw [claim?, bind_of_ok (askAll_eq node w _), resolved, ← World.log_log]
  exact map_of_ok (recordAll_eq _ _)

/-- A node takes the value that its claims are resolved to, and is handled if they leave it. -/
theorem claimOrHandle_eq_resolved (handle : Action EvalError σ ω Value) :
    ev.claimOrHandle node handle w = match (ev.resolution node w).value? with
      | some v => .ok ⟨v, true⟩ ((ev.resolved node w).log [.claimed node])
      | none => (handle >>= fun v => pure ⟨v, false⟩ : Action EvalError σ ω Visit)
          (ev.resolved node w) := by
  rw [claimOrHandle, bind_of_ok (claim?_eq ev node w)]
  cases (ev.resolution node w).value? with
  | some v => exact bind_of_ok (record_eq _ _)
  | none => rfl

end Evaluator

end MiniSql
