import MiniSql.Proofs.Lockstep
import MiniSql.Proofs.Results

/-!
# Extensions that only look on

An extension is passive if its hooks succeed and leave the context alone, and it never claims a
node. It may still remember what it sees, and make claims that decline or fail, after any delay. A
run with passive extensions is the run without any, up to their memory and the journal
(`passive_transparent`).

Any two evaluators for one backend whose extensions are passive run in lockstep: at each node the
hooks succeed and no claim has a value, under either policy, so both handle the node.
-/

namespace MiniSql

variable {ε σ σ' ω ω' α β : Type}

/-- The extension only looks on. -/
structure Extension.Passive (x : Extension ω) : Prop where
  before : ∀ node context memory,
    ∃ memory', x.before node context memory = (.ok (), context, memory')
  after : ∀ node context memory,
    ∃ memory', x.after node context memory = (.ok (), context, memory')
  /-- All claims that it makes decline or fail. -/
  claim? : ∀ node v, ¬ x.Claims node v

/-- What a world is apart from the memory of the extensions and the journal. -/
def World.front (w : World σ ω) : Context × σ := (w.context, w.state)

/-- The world with nothing for extensions to remember. -/
def World.bare (w : World σ ω) : World σ Unit := ⟨w.context, w.state, (), w.journal⟩

namespace Evaluator

/-- The evaluator without its extensions. -/
def bare (ev : Evaluator σ ω) : Evaluator σ Unit := ⟨ev.backend, [], ev.policy⟩

/-- How an action ends: its value or error, and the context and the backend's state behind it. -/
def ending : EStateM.Result ε (World σ ω) α → Except ε α × Context × σ
  | .ok a w => (.ok a, w.front)
  | .error e w => (.error e, w.front)

/-- The worlds differ at most in the memory of the extensions and in the journal. -/
def SameFront (w : World σ ω) (w' : World σ ω') : Prop := w.front = w'.front

/-- Runs that are alike end alike, as far as the backend and the context can show. -/
theorem Alike.ending_eq {r : EStateM.Result ε (World σ ω) α} {r' : EStateM.Result ε (World σ ω') α}
    (h : Alike SameFront r r') : ending r = ending r' := by
  cases h with
  | ok hw => exact congrArg (Prod.mk _) hw
  | error hw => exact congrArg (Prod.mk _) hw

/-! ## One node -/

/-- Hooks of passive extensions succeed and change nothing but the memory. -/
theorem runHooks_of_passive {hook : Extension ω → Hook ω} {event : Nat → Nat → Event}
    {xs : List (Extension ω × Nat)}
    (h : ∀ x ∈ xs, ∀ context memory, ∃ memory',
      hook x.1 context memory = (.ok (), context, memory')) (w : World σ ω) :
    ∃ w', (runHooks hook event xs : Action EvalError σ ω Unit) w = .ok () w' ∧
      w'.front = w.front := by
  -- by induction on the extensions, whose hooks run one after another
  induction xs generalizing w with
  | nil => exact ⟨w, rfl, rfl⟩
  | cons x xs ih =>
    obtain ⟨x, place⟩ := x
    obtain ⟨hx, hxs⟩ := List.forall_mem_cons.mp h
    obtain ⟨memory, hmemory⟩ := hx w.context w.memory
    let called : World σ ω := w.log [event place w.context.depth]
    have hfirst : (runHook (hook x) : Action EvalError σ ω Unit) called =
        .ok () (called.recall memory) := by
      rw [runHook, show called.context = w.context from rfl,
        show called.memory = w.memory from rfl, hmemory]
      rfl
    obtain ⟨w', hlater, hfront⟩ := ih hxs (called.recall memory)
    refine ⟨w', ?_, hfront⟩
    rw [runHooks_cons, bind_of_ok hfirst, hlater]

section Passive

variable {ev : Evaluator σ ω} (hev : ∀ x ∈ ev.extensions, x.Passive) (node : Node) (w : World σ ω)

include hev

theorem beforeHooks_of_passive :
    ∃ w', ev.beforeHooks node w = .ok () w' ∧ w'.front = w.front :=
  runHooks_of_passive (fun x hx => (hev x.1 (List.fst_mem_of_mem_zipIdx hx)).before node) w

theorem afterHooks_of_passive :
    ∃ w', ev.afterHooks node w = .ok () w' ∧ w'.front = w.front :=
  runHooks_of_passive (fun x hx => (hev x.1 (List.fst_mem_of_mem_zipIdx hx)).after node) w

/-- Passive extensions leave every node to its handling. -/
theorem opening_of_passive :
    ∃ w', ev.opening node w = .ok none w' ∧ w'.front = w.front := by
  obtain ⟨w₁, hbefore, hfront⟩ := beforeHooks_of_passive hev node (w.log [.entered node])
  have hopening : ev.opening node w = .ok (ev.resolution node w₁).value? (ev.resolved node w₁) := by
    rw [opening, bind_of_ok (record_eq w _), bind_of_ok hbefore, claim?_eq]
  cases hvalue : (ev.resolution node w₁).value? with
  | none =>
    rw [hvalue] at hopening
    exact ⟨_, hopening, hfront⟩
  | some v =>
    -- a claim with a value would be the claim of some extension
    rw [hvalue] at hopening
    obtain ⟨x, hx, hclaims⟩ := opening_ok hopening
    exact absurd hclaims ((hev x hx).claim? node v)

end Passive

/-! ## Whole runs -/

/-- What passive extensions see and remember changes nothing for anyone else: two evaluators with
passive extensions keep any relation of what else their worlds hold, if requests and results do. -/
theorem keepStep_of_front {Q : Context × σ → Context × σ → Prop}
    (hstate : ∀ {front front'}, Q front front' → front.2 = front'.2)
    (hreply : ∀ {c c' : Context} {s s'} state, Q (c, s) (c', s') → Q (c, state) (c', state))
    (hpush : ∀ {c c' : Context} {s s'} v, Q (c, s) (c', s') → Q (c.push v, s) (c'.push v, s'))
    {ev : Evaluator σ ω} {ev' : Evaluator σ ω'} (hbackend : ev.backend = ev'.backend)
    (hev : ∀ x ∈ ev.extensions, x.Passive) (hev' : ∀ x ∈ ev'.extensions, x.Passive) :
    KeepStep (fun w w' => Q w.front w'.front) ev ev' where
  around node x y hxy := by
    refine .around ?_ (fun _ _ hw => .ok hw) ?_ (hxy trivial)
    · intro w w' hw
      obtain ⟨w₁, hopening, hw₁⟩ := opening_of_passive hev node w
      obtain ⟨w₁', hopening', hw₁'⟩ := opening_of_passive hev' node w'
      rw [hopening, hopening']
      exact .ok (by simpa only [hw₁, hw₁'] using hw)
    · intro w w' hw
      obtain ⟨w₁, hhooks, hw₁⟩ := afterHooks_of_passive hev node w
      obtain ⟨w₁', hhooks', hw₁'⟩ := afterHooks_of_passive hev' node w'
      rw [hhooks, hhooks']
      exact .ok (by simpa only [hw₁, hw₁'] using hw)
  requesting r w w' hw := by
    rw [record_eq, record_eq]
    exact .ok hw
  push v w w' hw := by
    rw [push_eq, push_eq]
    exact .ok (hpush v hw)
  select s c? _ := by
    rw [Evaluator.select, Evaluator.select, hbackend]
    exact .request (fun hw => hstate hw) _ fun hw => hreply _ hw
  insert i values _ := by
    rw [Evaluator.insert, Evaluator.insert, hbackend]
    exact .request (fun hw => hstate hw) _ fun hw => hreply _ hw

/-- Evaluators with the same backend and passive extensions go step by step alike. -/
theorem keepStep_of_passive {ev : Evaluator σ ω} {ev' : Evaluator σ ω'}
    (hbackend : ev.backend = ev'.backend) (hev : ∀ x ∈ ev.extensions, x.Passive)
    (hev' : ∀ x ∈ ev'.extensions, x.Passive) : KeepStep SameFront ev ev' :=
  keepStep_of_front (congrArg Prod.snd) (fun _ h => by cases h; rfl) (fun _ h => by cases h; rfl)
    hbackend hev hev'

/-- Without its passive extensions an evaluator does the same. -/
theorem passive_transparent {ev : Evaluator σ ω} (hpassive : ∀ x ∈ ev.extensions, x.Passive)
    (p : Program) (w : World σ ω) :
    ending (ev.run p w) = ending (ev.bare.run p w.bare) ∧
      ending (ev.execute p w) = ending (ev.bare.execute p w.bare) := by
  have hkeep : KeepStep SameFront ev ev.bare :=
    keepStep_of_passive rfl hpassive (List.forall_mem_nil _)
  have hrun : Lockstep SameFront (ev.run p) (ev.bare.run p) :=
    hkeep.run (fun _ _ hw => congrArg Context.stack (Prod.mk.inj hw).1) p
  refine ⟨(hrun w w.bare rfl).ending_eq, ?_⟩
  have hfresh := hrun { w with context := .fresh ev.policy }
    { w.bare with context := .fresh ev.policy } rfl
  rw [execute, execute, show ev.bare.policy = ev.policy from rfl]
  generalize ev.run p _ = left, ev.bare.run p _ = right at hfresh ⊢
  -- the context of the run is given up either way
  cases hfresh with
  | ok h => exact congrArg (fun front => (Except.ok _, w.context, front.2)) h
  | error h => exact congrArg (fun front => (Except.error _, w.context, front.2)) h

namespace Onlookers

/-- Counts its calls, and declines every node. -/
def counter : Extension Nat where
  before _ context seen := (.ok (), context, seen + 1)
  claim? _ _ seen := (some ⟨2, .declined⟩, seen + 1)
  after _ context seen := (.ok (), context, seen + 1)

/-- Fails on every node, the later the more calls were counted. -/
def broken : Extension Nat where
  claim? _ _ seen := (some ⟨seen, .failed ⟨"x", "no"⟩⟩, seen)

def watched : Evaluator DryRun Nat := ⟨DryRun.backend, [counter, broken, {}], .race⟩

def statements : Program := [.select ⟨"t", [], none, none⟩, .insert ⟨"u", none, .array []⟩]

def start : World DryRun Nat := ⟨.fresh .ordered, ⟨[("u", "full")]⟩, 0, #[]⟩

theorem passive_counter : counter.Passive where
  before _ _ seen := ⟨seen + 1, rfl⟩
  after _ _ seen := ⟨seen + 1, rfl⟩
  claim? := by
    rintro node v ⟨context, seen, delay, h⟩
    exact Outcome.noConfusion (Claim.mk.inj (Option.some.inj h)).2

theorem passive_broken : broken.Passive where
  before _ _ seen := ⟨seen, rfl⟩
  after _ _ seen := ⟨seen, rfl⟩
  claim? := by
    rintro node v ⟨context, seen, delay, h⟩
    exact Outcome.noConfusion (Claim.mk.inj (Option.some.inj h)).2

theorem passive_default : ({} : Extension Nat).Passive where
  before _ _ seen := ⟨seen, rfl⟩
  after _ _ seen := ⟨seen, rfl⟩
  claim? := by
    rintro node v ⟨context, seen, delay, h⟩
    nomatch h

/-- The insertion is refused as if nobody had looked on. -/
theorem ending_of_watched_run : (∀ x ∈ watched.extensions, x.Passive) ∧
    ending (watched.run statements start) =
      (.error (.backend (.other "full")), ⟨[.rows []], .ordered⟩, ⟨[("u", "full")]⟩) ∧
    ending (watched.execute statements start) =
      (.error (.backend (.other "full")), ⟨[], .ordered⟩, ⟨[("u", "full")]⟩) := by
  have hpassive : ∀ x ∈ watched.extensions, x.Passive :=
    List.forall_mem_cons.mpr ⟨passive_counter,
      List.forall_mem_cons.mpr ⟨passive_broken, List.forall_mem_singleton.mpr passive_default⟩⟩
  obtain ⟨hrun, hexecute⟩ := passive_transparent hpassive statements start
  exact ⟨hpassive, hrun.trans rfl, hexecute.trans (by with_unfolding_all rfl)⟩

end Onlookers

end Evaluator

end MiniSql
