import MiniSql.Extension.Scripted
import MiniSql.Proofs.Decision
import MiniSql.Proofs.Lockstep

/-!
# Where the claim policies agree

A policy decides between claims that compete. Where no claim on a node has a value, or one has and
all others fail, there is nothing to decide: the node goes to the same claim, or to none, under
either policy and after any delays (`resolve_of_undisputed`). If that holds of every node, a run
does the same under both policies, apart from how the claims settle (`policies_agree`).

The policy must be no concern of the extensions, either: to leave it as it is does not suffice,
because a hook that looks at it may do different things under different policies
(`partisan_policies_differ`). Scripted extensions have no way to look at it (`Script.ignoresPolicy`).
-/

namespace MiniSql

variable {ε σ ω α : Type}

/-! ## Extensions that have no regard to the policy -/

/-- What the hook does depends on the stack of its context only. -/
def Hook.IgnoresPolicy (hook : Hook ω) : Prop :=
  ∀ context context' memory, context.stack = context'.stack →
    (hook context memory).1 = (hook context' memory).1 ∧
    (hook context memory).2.1.stack = (hook context' memory).2.1.stack ∧
    (hook context memory).2.2 = (hook context' memory).2.2

/-- The extension does the same under any policy. -/
structure Extension.IgnoresPolicy (x : Extension ω) : Prop where
  before : ∀ node, (x.before node).IgnoresPolicy
  claim? : ∀ node context context' memory, context.stack = context'.stack →
    x.claim? node context memory = x.claim? node context' memory
  after : ∀ node, (x.after node).IgnoresPolicy

theorem Scripted.hook_ignoresPolicy (owner : String) (rules : List Rule) (node : Node) :
    (hook owner rules node).IgnoresPolicy := by
  intro context context' memory hstack
  rw [hook, hook]
  cases ruleFor? rules node with
  | none => exact ⟨rfl, hstack, rfl⟩
  | some rule =>
    obtain ⟨_, _, _, act⟩ := rule
    cases act with
    | push v => exact ⟨rfl, congrArg (· ++ [v]) hstack, rfl⟩
    | pop => exact ⟨rfl, congrArg List.dropLast hstack, rfl⟩
    | _ => exact ⟨rfl, hstack, rfl⟩

/-- Scripted extensions have no way to look at the policy. -/
theorem Script.ignoresPolicy (s : Script) : s.extension.IgnoresPolicy where
  before node := Scripted.hook_ignoresPolicy s.name s.before node
  claim? _ _ _ _ _ := rfl
  after node := Scripted.hook_ignoresPolicy s.name s.after node

/-! ## Claims that do not compete -/

/-- Of the claims on a node none has a value, or one has and all others fail. -/
def Undisputed (offers : List Offer) : Prop :=
  (∀ o ∈ offers, o.claim.value? = none) ∨
  ∃ d ∈ offers, d.claim.value?.isSome = true ∧
    ∀ o ∈ offers, o.place ≠ d.place → o.claim.fails = true

namespace ClaimPolicy

variable {offers : List Offer}

/-- A claim with a value wins against claims that fail. -/
theorem resolve_of_only_value (hplaces : offers.Pairwise (·.place < ·.place)) {d : Offer}
    (hd : d ∈ offers) (hvalue : d.claim.value?.isSome = true)
    (hothers : ∀ o ∈ offers, o.place ≠ d.place → o.claim.fails = true) (policy : ClaimPolicy) :
    (policy.resolve offers).value? = d.claim.value? := by
  obtain ⟨d', hdecides, hresolve, -⟩ | ⟨hall, -⟩ :=
    @resolve_cases policy offers hplaces
  · -- a claim that fails does not decide
    have hplace : d'.place = d.place := by
      by_contra hne
      have hpass : policy.passesOver d'.claim = true :=
        passesOver_of_fails (hothers d' hdecides.mem hne)
      exact Bool.false_ne_true (hdecides.stands.symm.trans hpass)
    have hinj : (offers.map Offer.place).Nodup :=
      List.pairwise_map.mpr (hplaces.imp Nat.ne_of_lt)
    rw [hresolve, List.inj_on_of_nodup_map hinj hdecides.mem hd hplace]
  · have hpass := hall d hd
    rw [passesOver_of_value? hvalue] at hpass
    nomatch hpass

/-- The policy does not matter for claims that do not compete. -/
theorem resolve_of_undisputed (hplaces : offers.Pairwise (·.place < ·.place))
    (h : Undisputed offers) (policy policy' : ClaimPolicy) :
    (policy.resolve offers).value? = (policy'.resolve offers).value? := by
  obtain hnone | ⟨d, hd, hvalue, hothers⟩ := h
  · rw [resolve_of_no_value hnone, resolve_of_no_value hnone]
  · rw [resolve_of_only_value hplaces hd hvalue hothers,
      resolve_of_only_value hplaces hd hvalue hothers]

end ClaimPolicy

/-! ## Two runs -/

/-- The event tells how a claim has settled. -/
def Event.isSettling : Event → Bool
  | settled .. | rejected .. => true
  | _ => false

namespace World

/-- All that has happened but for how claims have settled: the calls of the hooks before and after
nodes among it. -/
def course (w : World σ ω) : List Event := w.journal.toList.filter (!·.isSettling)

/-- The world with its context under another policy. -/
def under (w : World σ ω) (policy : ClaimPolicy) : World σ ω :=
  { w with context := { w.context with policy } }

/-- Of new events, those that tell how claims settle are left out of the course. -/
theorem course_log (w : World σ ω) (events : List Event) :
    (w.log events).course = w.course ++ events.filter (!·.isSettling) := by
  rw [course, log, Array.toList_append, List.filter_append]
  rfl

end World

namespace Evaluator

/-- The worlds differ at most in the policy, and in how claims have settled. -/
structure SameCourse (w w' : World σ ω) : Prop where
  stack : w.context.stack = w'.context.stack
  state : w.state = w'.state
  memory : w.memory = w'.memory
  course : w.course = w'.course

/-- Two worlds stay alike if the events entered differ only in how claims settle. -/
theorem SameCourse.log {w w' : World σ ω} (h : SameCourse w w') {events events' : List Event}
    (hevents : events.filter (!·.isSettling) = events'.filter (!·.isSettling)) :
    SameCourse (w.log events) (w'.log events') where
  stack := h.stack
  state := h.state
  memory := h.memory
  course := by rw [World.course_log, World.course_log, h.course, hevents]

theorem SameCourse.answered {w w' : World σ ω} (h : SameCourse w w') (r : Request)
    (reply : Reply σ α) : SameCourse (w.answered r reply) (w'.answered r reply) := by
  have hreplied : SameCourse { w with state := reply.state } { w' with state := reply.state } :=
    ⟨h.stack, rfl, h.memory, h.course⟩
  exact hreplied.log rfl

theorem SameCourse.lockstep_record (event : Event) :
    Lockstep SameCourse (record event : Action EvalError σ ω Unit) (record event) := by
  intro w w' hw
  rw [record_eq, record_eq]
  exact .ok (hw.log rfl)

theorem SameCourse.lockstep_runHook {hook : Hook ω} (h : hook.IgnoresPolicy) :
    Lockstep SameCourse (runHook hook : Action EvalError σ ω Unit) (runHook hook) := by
  intro w w' hw
  obtain ⟨hanswer, hstack, hmemory⟩ := h w.context w'.context w.memory hw.stack
  rw [runHook, runHook, ← hw.memory]
  cases hleft : hook w.context w.memory with
  | mk answer rest =>
    cases hright : hook w'.context w.memory with
    | mk answer' rest' =>
      rw [hleft, hright] at hanswer hstack hmemory
      dsimp only at hanswer hstack hmemory
      subst hanswer
      cases answer with
      | ok _ => exact .ok ⟨hstack, hw.state, hmemory, hw.course⟩
      | error e => exact .error ⟨hstack, hw.state, hmemory, hw.course⟩

/-- Hooks that ignore the policy do the same in worlds that differ in the policy. -/
theorem SameCourse.lockstep_hooks {xs : List (Extension ω)} {hook : Extension ω → Hook ω}
    {event : Nat → Nat → Event} (hhook : ∀ x ∈ xs, (hook x).IgnoresPolicy) :
    Lockstep SameCourse (runHooks hook event xs.zipIdx : Action EvalError σ ω Unit)
      (runHooks hook event xs.zipIdx) := by
  refine .runHooks (fun place hw => ?_) (List.forall₂_same.mpr fun x hx => ⟨rfl, ?_⟩)
  · have hdepth := congrArg List.length hw.stack
    rw [Context.depth, Context.depth, hdepth]
    exact hw.log rfl
  · exact SameCourse.lockstep_runHook (hhook x.1 (List.fst_mem_of_mem_zipIdx hx))

section Visits

variable {ev : Evaluator σ ω} (hignore : ∀ x ∈ ev.extensions, x.IgnoresPolicy)

include hignore

/-- Extensions that ignore the policy make the same claims in worlds that differ in it. -/
theorem SameCourse.asking_eq (node : Node) {w w' : World σ ω} (hw : SameCourse w w') :
    ev.asking node w = ev.asking node w' := by
  rw [asking, asking, ← hw.memory]
  refine offersFrom_of_forall₂ (List.forall₂_same.mpr fun x hx => ⟨rfl, rfl, fun memory => ?_⟩) _
  exact (hignore x.1 (List.fst_mem_of_mem_zipIdx hx)).claim? _ _ _ _ hw.stack

/-- Claims that do not compete come to the same value under either policy. -/
theorem SameCourse.lockstep_claim? (node : Node) (hclaims : ∀ w, Undisputed (ev.offersOn node w)) :
    Lockstep SameCourse (ev.claim? node) (ev.claim? node) := by
  intro w w' hw
  have hasking := SameCourse.asking_eq hignore node hw
  have hoffers : ev.offersOn node w = ev.offersOn node w' := congrArg Prod.fst hasking
  have hvalue : (ev.resolution node w).value? = (ev.resolution node w').value? := by
    rw [resolution, resolution, ← hoffers]
    exact ClaimPolicy.resolve_of_undisputed (ev.pairwise_place_offersOn node w) (hclaims w) _ _
  rw [claim?_eq, claim?_eq, hvalue, resolved, resolved, ← hasking, ← hoffers]
  have hrecalled : SameCourse (w.recall (ev.asking node w).2) (w'.recall (ev.asking node w).2) :=
    ⟨hw.stack, hw.state, rfl, hw.course⟩
  refine .ok (hrecalled.log ?_)
  have hsettling (settled : List Offer) :
      (settled.flatMap (settledEvents node)).filter (!·.isSettling) = [] := by
    rw [List.filter_eq_nil_iff]
    intro event hevent
    obtain ⟨_, rfl⟩ | ⟨_, _, rfl⟩ := settled_or_rejected hevent <;> exact Bool.false_ne_true
  rw [List.filter_append, List.filter_append, hsettling, hsettling]

theorem SameCourse.lockstep_opening (node : Node) (hclaims : ∀ w, Undisputed (ev.offersOn node w)) :
    Lockstep SameCourse (ev.opening node) (ev.opening node) :=
  (SameCourse.lockstep_record _).bind fun _ =>
    (SameCourse.lockstep_hooks fun x hx => (hignore x hx).before node).bind fun _ =>
      SameCourse.lockstep_claim? hignore node hclaims

/-- Nor does it matter which policy the evaluator makes its contexts with. -/
theorem keepStep_of_undisputed (hclaims : ∀ node w, Undisputed (ev.offersOn node w))
    (policy : ClaimPolicy) : KeepStep SameCourse ev { ev with policy } where
  around node x y hxy := by
    have hafter : Lockstep SameCourse (ev.afterHooks node) (ev.afterHooks node) :=
      SameCourse.lockstep_hooks fun x hx => (hignore x hx).after node
    have hopening : Lockstep SameCourse (ev.opening node) (ev.opening node) :=
      SameCourse.lockstep_opening hignore node (hclaims node)
    exact .around hopening (SameCourse.lockstep_record _) hafter (hxy trivial)
  requesting r := SameCourse.lockstep_record _
  push v w w' hw := by
    rw [push_eq, push_eq]
    exact .ok ⟨congrArg (· ++ [v]) hw.stack, hw.state, hw.memory, hw.course⟩
  select s c? _ := .request SameCourse.state _ fun hw => hw.answered _ _
  insert i values _ := .request SameCourse.state _ fun hw => hw.answered _ _

end Visits

/-- Where claims do not compete, a run under one policy is the run under the other: it has the same
result or error, and leaves the same stack and the same state of the backend, after the same calls
of hooks. -/
theorem policies_agree {ev : Evaluator σ ω} (hignore : ∀ x ∈ ev.extensions, x.IgnoresPolicy)
    (hclaims : ∀ node w, Undisputed (ev.offersOn node w)) (p : Program) (w : World σ ω) :
    Alike SameCourse (ev.run p (w.under .race)) (ev.run p (w.under .ordered)) ∧
      Alike SameCourse (Evaluator.execute { ev with policy := .race } p w)
        (Evaluator.execute { ev with policy := .ordered } p w) := by
  have hrun (ev' : Evaluator σ ω) (hextensions : ev'.extensions = ev.extensions) (policy) :
      Lockstep SameCourse (ev'.run p) (Evaluator.run { ev' with policy } p) := by
    refine (keepStep_of_undisputed (fun x hx => ?_) (fun node w => ?_) policy).run
      (fun _ _ hw => hw.stack) p
    · exact hignore x (hextensions ▸ hx)
    · rw [offersOn, asking, hextensions]
      exact hclaims node w
  have hexecute : Lockstep SameCourse (Evaluator.run { ev with policy := .race } p)
      (Evaluator.run { ev with policy := .ordered } p) :=
    hrun { ev with policy := .race } rfl .ordered
  refine ⟨hrun ev rfl ev.policy _ _ ⟨rfl, rfl, rfl, rfl⟩, hexecute.execute ⟨rfl, rfl, rfl, rfl⟩ ?_⟩
  exact fun hw => ⟨rfl, hw.state, hw.memory, hw.course⟩

namespace Partisan

/-- Looks at the policy in force, and fails under one of the two. It claims nothing, and leaves the
context alone. -/
def partisan : Extension Unit where
  name := "partisan"
  before _ context memory :=
    (if context.policy = .race then .error ⟨"partisan", "no"⟩ else .ok (), context, memory)

def observed : Evaluator DryRun Unit := ⟨DryRun.backend, [partisan], .race⟩

def program : Program := [.select ⟨"t", [], none, none⟩]

def start : World DryRun Unit := ⟨.fresh .race, ⟨[]⟩, (), #[]⟩

/-- That hooks leave the policy as it is and no claims compete is not enough for the policies to
agree: a hook may still look at the policy. -/
theorem partisan_policies_differ :
    (∀ x ∈ observed.extensions, x.KeepsContext) ∧
    (∀ node w, Undisputed (observed.offersOn node w)) ∧
    (∃ w', observed.run program (start.under .race) =
      .error (.extension ⟨"partisan", "no"⟩) w') ∧
    (∃ w', observed.run program (start.under .ordered) = .ok [.rows []] w') ∧
    ¬ Alike SameCourse (observed.run program (start.under .race))
      (observed.run program (start.under .ordered)) := by
  have hkeeps : ∀ x ∈ observed.extensions, x.KeepsContext :=
    List.forall_mem_singleton.mpr ⟨fun _ _ _ => rfl, fun _ _ _ => rfl⟩
  have hclaims (node : Node) (w : World DryRun Unit) : Undisputed (observed.offersOn node w) :=
    .inl (List.forall_mem_nil _)
  have hrace : ∃ w', observed.run program (start.under .race) =
      .error (.extension ⟨"partisan", "no"⟩) w' := ⟨_, rfl⟩
  have hordered : ∃ w', observed.run program (start.under .ordered) = .ok [.rows []] w' :=
    ⟨_, rfl⟩
  refine ⟨hkeeps, hclaims, hrace, hordered, fun halike => ?_⟩
  obtain ⟨w₁, hrace⟩ := hrace
  obtain ⟨w₂, hordered⟩ := hordered
  rw [hrace, hordered] at halike
  nomatch halike

end Partisan

namespace Contest

/-- Claims every name, after a while. -/
def steady : Script := ⟨"steady", true, [], [⟨some "Identifier", none, 5, .claim (.name "a")⟩], []⟩

/-- Fails to claim anything, in no time. -/
def hasty : Script := ⟨"hasty", true, [], [⟨none, none, 0, .fail "no" none⟩], []⟩

def contested : Evaluator DryRun Unit :=
  ⟨DryRun.backend, [steady.extension, hasty.extension], .race⟩

def program : Program :=
  [.select ⟨"t", [], some (.binary (.identifier "b") .equal (.boolean true)), none⟩,
    .insert ⟨"u", none, .array [.identifier "c"]⟩]

def start : World DryRun Unit := ⟨.fresh .race, ⟨[("u", "full")]⟩, (), #[]⟩

/-- Only one of the two extensions ever claims a node with a value, and the other one
always fails. -/
theorem undisputed_contested (node : Node) (w : World DryRun Unit) :
    Undisputed (contested.offersOn node w) := by
  let refused : Offer := ⟨1, "hasty", 0, .failed ⟨"hasty", "no"⟩⟩
  have hoffers : contested.offersOn node w =
      (Scripted.claim? "steady" steady.claim node).elim [refused]
        fun claim => [⟨0, "steady", claim⟩, refused] := rfl
  rw [hoffers]
  cases hclaim : Scripted.claim? "steady" steady.claim node with
  | none => exact .inl (List.forall_mem_singleton.mpr rfl)
  | some claim =>
    obtain ⟨rule, hrule, rfl⟩ := Option.map_eq_some_iff.mp hclaim
    obtain rfl := List.mem_singleton.mp (List.mem_of_find?_eq_some hrule)
    refine .inr ⟨_, List.mem_cons_self, rfl, List.forall_mem_cons.mpr ⟨fun hne => ?_, ?_⟩⟩
    · exact absurd rfl hne
    · exact List.forall_mem_singleton.mpr fun _ => rfl

/-- The slow claim decides under either policy: the fast one fails. -/
theorem contested_policies_agree :
    (∀ x ∈ contested.extensions, x.IgnoresPolicy) ∧
    (∀ node w, Undisputed (contested.offersOn node w)) ∧
    Alike SameCourse (contested.run program (start.under .race))
      (contested.run program (start.under .ordered)) ∧
    Alike SameCourse (Evaluator.execute { contested with policy := .race } program start)
      (Evaluator.execute { contested with policy := .ordered } program start) := by
  have hignore : ∀ x ∈ contested.extensions, x.IgnoresPolicy :=
    List.forall_mem_cons.mpr ⟨steady.ignoresPolicy,
      List.forall_mem_singleton.mpr hasty.ignoresPolicy⟩
  exact ⟨hignore, undisputed_contested, policies_agree hignore undisputed_contested program start⟩

end Contest

end Evaluator

end MiniSql
