import MiniSql.Proofs.Requests
import MiniSql.Proofs.Transparency

/-!
# Claims on leaves as substitution

The leaves of an expression are its names and literals. An extension that does no more than claim
leaves, each with a name or a literal's value, might as well have been asked before the run: running
the program under it is running, without extensions, the program in which each claimed leaf is
replaced by what it is claimed to be (`substitution`).

What replaces a leaf is not replaced again, just as the value of a claimed node is offered to no
extension.
-/

namespace MiniSql

variable {ε σ ω ω' α : Type}

/-! ## Leaves and their replacement -/

/-- What a leaf of an expression stands for. -/
inductive Atom
  | name (n : String)
  | scalar (s : Scalar)

namespace Atom

def value : Atom → Value
  | name n => .name n
  | scalar s => .scalar s

/-- The leaf that stands for it. -/
def expr : Atom → Expr
  | name n => .identifier n
  | scalar (.number x) => .number x
  | scalar (.text s) => .string s
  | scalar (.boolean b) => .boolean b

theorem value_expr (a : Atom) : a.expr.value = a.value := by
  obtain _ | _ | _ | _ := a <;> rfl

theorem entries_expr (a : Atom) : a.expr.entries = [.entered (.expr a.expr)] := by
  obtain _ | _ | _ | _ := a <;> rfl

/-- What stands in its place when some leaves are replaced. -/
def replace (choose : Atom → Option Atom) (a : Atom) : Atom := (choose a).getD a

end Atom

/-- What the node stands for, if it is a leaf. -/
def Node.atom? : Node → Option Atom
  | .expr (.identifier name) => some (.name name)
  | .expr (.number x) => some (.scalar (.number x))
  | .expr (.string s) => some (.scalar (.text s))
  | .expr (.boolean b) => some (.scalar (.boolean b))
  | _ => none

theorem Atom.atom?_expr (a : Atom) : (Node.expr a.expr).atom? = some a := by
  obtain _ | _ | _ | _ := a <;> rfl

section Replace

variable (choose : Atom → Option Atom)

mutual

/-- The expression with the chosen leaves replaced. -/
def Expr.replace : Expr → Expr
  | .identifier name => ((Atom.name name).replace choose).expr
  | .number x => ((Atom.scalar (.number x)).replace choose).expr
  | .string s => ((Atom.scalar (.text s)).replace choose).expr
  | .boolean b => ((Atom.scalar (.boolean b)).replace choose).expr
  | .array elements => .array (Expr.replaceEach elements)
  | .binary left op right => .binary left.replace op right.replace

def Expr.replaceEach : List Expr → List Expr
  | [] => []
  | e :: es => e.replace :: Expr.replaceEach es

end

/-- The statement with the chosen leaves of its expressions replaced. -/
def Statement.replace : Statement → Statement
  | select s => .select { s with condition? := s.condition?.map (Expr.replace choose) }
  | insert i => .insert { i with values := i.values.replace choose }

/-- The program with the chosen leaves of its expressions replaced. -/
def Program.replace (p : Program) : Program := p.map (Statement.replace choose)

/-- The extension claims the leaves for which something is chosen, with the value of that, and does
nothing else. It may be asked in any context, and remember what it likes. -/
structure Extension.Substitutes (x : Extension ω) : Prop where
  before : ∀ node, x.before node = Hook.pass
  claim? : ∀ node context memory, (x.claim? node context memory).1.bind Claim.value? =
    (node.atom?.bind choose).map Atom.value
  after : ∀ node, x.after node = Hook.pass

end Replace

/-! ## Dealings with the outside -/

namespace Evaluator

/-- The worlds differ at most in the memory of the extensions, and in events that do not reach the
backend. -/
structure SameDealings (w : World σ ω) (w' : World σ ω') : Prop where
  context : w.context = w'.context
  state : w.state = w'.state
  requests : w.requests = w'.requests

namespace SameDealings

section Worlds

variable {w : World σ ω} {w' : World σ ω'} (h : SameDealings w w')

include h

/-- Dealings are the same from both sides. -/
theorem symm : SameDealings w' w := ⟨h.context.symm, h.state.symm, h.requests.symm⟩

/-- Dealings may be compared across a third world. -/
theorem trans {ω'' : Type} {w'' : World σ ω''} (h' : SameDealings w' w'') : SameDealings w w'' :=
  ⟨h.context.trans h'.context, h.state.trans h'.state, h.requests.trans h'.requests⟩

/-- The same request with the same reply keeps dealings the same. -/
theorem answered (r : Request) (reply : Reply σ α) :
    SameDealings (w.answered r reply) (w'.answered r reply) where
  context := h.context
  state := rfl
  requests := by rw [World.requests_answered, World.requests_answered, h.requests]

/-- Events that are no requests, and what is remembered, are not seen from outside. -/
theorem log_left {events : List Event} (hevents : ∀ event ∈ events, event.request? = none) :
    SameDealings (w.log events) w' where
  context := h.context
  state := h.state
  requests := by
    rw [World.requests_log, List.filterMap_eq_nil_iff.mpr hevents, List.append_nil, h.requests]

theorem entry_left {event : Event} (hevent : event.request? = none) :
    SameDealings (w.log [event]) w' := h.log_left (List.forall_mem_singleton.mpr hevent)

theorem entry_right {event : Event} (hevent : event.request? = none) :
    SameDealings w (w'.log [event]) := (h.symm.entry_left hevent).symm

/-- Neither claims nor how they settle reach the backend. -/
theorem resolved (ev : Evaluator σ ω) (node : Node) : SameDealings (ev.resolved node w) w' := by
  have hrecalled : SameDealings (w.recall (ev.asking node w).2) w' :=
    ⟨h.context, h.state, h.requests⟩
  refine hrecalled.log_left fun event hevent => ?_
  obtain ⟨_, rfl⟩ | ⟨_, rfl⟩ | ⟨_, _, rfl⟩ := mem_resolved hevent <;> rfl

end Worlds

theorem lockstep_entry {event event' : Event} (hevent : event.request? = none)
    (hevent' : event'.request? = none) :
    Lockstep SameDealings (record event : Action ε σ ω Unit)
      (record event' : Action ε σ ω' Unit) := by
  intro w w' h
  rw [record_eq, record_eq]
  exact .ok ((h.entry_left hevent).entry_right hevent')

theorem lockstep_ask (r : Request) (ask : σ → Reply σ α) :
    Lockstep SameDealings (request r ask : Action BackendError σ ω α)
      (request r ask : Action BackendError σ ω' α) :=
  .request SameDealings.state r fun h => h.answered r _

theorem lockstep_push (v : Value) :
    Lockstep SameDealings (push v : Action ε σ ω Unit) (push v : Action ε σ ω' Unit) := by
  intro w w' h
  rw [push_eq, push_eq]
  exact .ok ⟨congrArg (·.push v) h.context, h.state, h.requests⟩

/-! ## One node -/

section Visits

variable {choose : Atom → Option Atom} {x : Extension ω} {ev : Evaluator σ ω}

/-- Hooks that pass do nothing but be recorded. -/
theorem runHooks_pass {hook : Extension ω → Hook ω} {event : Nat → Nat → Event}
    (hx : hook x = Hook.pass) (w : World σ ω) :
    runHooks hook event [(x, 0)] w = .ok () (w.log [event 0 w.context.depth]) := by
  rw [runHooks_cons, hx]
  rfl

variable (hx : x.Substitutes choose) (hev : ev.extensions = [x])

include hx hev

theorem beforeHooks_of_substitutes (node : Node) (w : World σ ω) :
    ev.beforeHooks node w = .ok () (w.log [.before 0 node w.context.depth]) := by
  rw [beforeHooks, hev]
  exact runHooks_pass (hx.before node) w

theorem afterHooks_of_substitutes (node : Node) (w : World σ ω) :
    ev.afterHooks node w = .ok () (w.log [.after 0 node w.context.depth]) := by
  rw [afterHooks, hev]
  exact runHooks_pass (hx.after node) w

/-- There is one claim at most, so it does not matter which policy is in force. -/
theorem value?_of_substitutes (node : Node) (w : World σ ω) :
    (ev.resolution node w).value? = (node.atom?.bind choose).map Atom.value := by
  have hoffers : ev.offersOn node w =
      (x.claim? node w.context w.memory).1.elim [] fun claim => [⟨0, x.name, claim⟩] := by
    rw [offersOn, asking, hev]
    rfl
  rw [resolution, hoffers, ← hx.claim? node w.context w.memory]
  cases (x.claim? node w.context w.memory).1 with
  | none => exact ClaimPolicy.resolve_of_no_value (List.forall_mem_nil _) _
  | some claim => exact ClaimPolicy.resolve_of_sole _ _

/-- A leaf that the extension chooses is claimed with the value of its replacement, and no other
node is claimed. -/
theorem opening_of_substitutes (node : Node) (w : World σ ω) :
    ∃ w', ev.opening node w = .ok ((node.atom?.bind choose).map Atom.value) w' ∧
      SameDealings w' w := by
  let called := (w.log [.entered node]).log [.before 0 node w.context.depth]
  have hentered : SameDealings (w.log [.entered node]) w :=
    SameDealings.entry_left ⟨rfl, rfl, rfl⟩ rfl
  have hcalled : SameDealings called w := hentered.entry_left rfl
  refine ⟨ev.resolved node called, ?_, hcalled.resolved ev node⟩
  have hbefore := beforeHooks_of_substitutes hx hev node (w.log [.entered node])
  rw [opening, bind_of_ok (record_eq w _), bind_of_ok hbefore, claim?_eq,
    value?_of_substitutes hx hev]
  rfl

omit hx hev in
theorem bare_opening_eq (node : Node) (w : World σ Unit) :
    ev.bare.opening node w = .ok none (w.log [.entered node]) := by
  rw [opening, bind_of_ok (record_eq w _)]
  exact claim?_eq_none (show ev.bare.extensions = [] from rfl) _ node

/-- A node that is no leaf is handled as without the extension. -/
theorem lockstep_around {node node' : Node} (hnode : node.atom? = none)
    {handle : Action EvalError σ ω Value} {handle' : Action EvalError σ Unit Value}
    (h : Lockstep SameDealings handle handle') :
    Lockstep SameDealings (ev.around node handle) (ev.bare.around node' handle') := by
  refine .around ?_ (lockstep_entry rfl rfl) ?_ h
  · intro w w' hw
    obtain ⟨w₁, hopening, hw₁⟩ := opening_of_substitutes hx hev node w
    rw [hnode] at hopening
    rw [hopening, bare_opening_eq]
    exact .ok ((hw₁.trans hw).entry_right rfl)
  · intro w w' hw
    rw [afterHooks_of_substitutes hx hev]
    exact .ok (hw.entry_left rfl)

theorem lockstep_valueOf {node node' : Node} (hnode : node.atom? = none)
    {handle : Action EvalError σ ω Value} {handle' : Action EvalError σ Unit Value}
    (h : Lockstep SameDealings handle handle') :
    Lockstep SameDealings (ev.valueOf node handle) (ev.bare.valueOf node' handle') :=
  (lockstep_around hx hev hnode h).bind fun _ => .pure _

/-- A leaf has the value of what it is replaced by. -/
theorem valueOf_leaf (a : Atom) (w : World σ ω) :
    ∃ w', ev.valueOf (.expr a.expr) (pure a.value) w = .ok (a.replace choose).value w' ∧
      SameDealings w' w := by
  obtain ⟨w₁, hopening, hw₁⟩ := opening_of_substitutes hx hev (.expr a.expr) w
  rw [a.atom?_expr, Option.bind_some] at hopening
  have hafter := afterHooks_of_substitutes hx hev (.expr a.expr)
  rw [Atom.replace]
  cases hchoose : choose a with
  | none =>
    rw [hchoose] at hopening
    refine ⟨_, map_of_ok (around_of_handled hopening rfl (hafter _)), ?_⟩
    exact hw₁.entry_left rfl
  | some b =>
    rw [hchoose] at hopening
    refine ⟨_, map_of_ok (around_of_claimed hopening (hafter _)), ?_⟩
    have hclaimed : SameDealings (w₁.log [.claimed (.expr a.expr)]) w := hw₁.entry_left rfl
    exact hclaimed.entry_left rfl

/-- A leaf has the value that its replacement has in the bare evaluator. -/
theorem lockstep_leaf (a : Atom) : Lockstep SameDealings
    (ev.valueOf (.expr a.expr) (pure a.value)) (ev.bare.visitExpr (a.replace choose).expr) := by
  intro w w' hw
  obtain ⟨w₁, hvalue, hw₁⟩ := valueOf_leaf hx hev a w
  rw [hvalue, visitExpr_eq (show ev.bare.extensions = [] from rfl), Atom.value_expr,
    Atom.entries_expr]
  exact .ok ((hw₁.trans hw).entry_right rfl)

end Visits

/-! ## Whole runs -/

mutual

/-- An expression has the value of the replaced one. -/
theorem lockstep_visitExpr {choose : Atom → Option Atom} {x : Extension ω} {ev : Evaluator σ ω}
    (hx : x.Substitutes choose) (hev : ev.extensions = [x]) (e : Expr) :
    Lockstep SameDealings (ev.visitExpr e) (ev.bare.visitExpr (e.replace choose)) := by
  -- by recursion on the expression, as it is visited
  cases e with
  | identifier name => exact lockstep_leaf hx hev (.name name)
  | number x => exact lockstep_leaf hx hev (.scalar (.number x))
  | string s => exact lockstep_leaf hx hev (.scalar (.text s))
  | boolean b => exact lockstep_leaf hx hev (.scalar (.boolean b))
  | array elements =>
    exact lockstep_valueOf hx hev rfl ((lockstep_visitAll hx hev elements).bind fun _ => .pure _)
  | binary left op right =>
    refine lockstep_valueOf hx hev rfl ?_
    exact (lockstep_visitExpr hx hev left).bind fun _ =>
      (lockstep_visitExpr hx hev right).bind fun _ => .pure _

theorem lockstep_visitAll {choose : Atom → Option Atom} {x : Extension ω} {ev : Evaluator σ ω}
    (hx : x.Substitutes choose) (hev : ev.extensions = [x]) (es : List Expr) :
    Lockstep SameDealings (ev.visitAll es) (ev.bare.visitAll (Expr.replaceEach choose es)) := by
  cases es with
  | nil => exact .pure []
  | cons e es =>
    exact (lockstep_visitExpr hx hev e).bind fun _ =>
      (lockstep_visitAll hx hev es).bind fun _ => .pure _

end

section Runs

variable {choose : Atom → Option Atom} {x : Extension ω} {ev : Evaluator σ ω}
  (hx : x.Substitutes choose) (hev : ev.extensions = [x])

include hx hev

/-- A `SELECT` goes as the one with the replaced condition. -/
theorem lockstep_handleSelect (s : Select) : Lockstep SameDealings (ev.handleSelect s)
    (ev.bare.handleSelect { s with condition? := s.condition?.map (Expr.replace choose) }) := by
  have hcondition : Lockstep SameDealings (ev.visitCondition s.condition?)
      (ev.bare.visitCondition (s.condition?.map (Expr.replace choose))) := by
    cases s.condition? with
    | none => exact .pure _
    | some e => exact lockstep_visitExpr hx hev e
  exact hcondition.bind fun _ => (Lockstep.ofExcept _).bind fun _ =>
    (lockstep_entry rfl rfl).bind fun _ => (lockstep_ask _ _).adaptExcept.bind fun _ =>
      (lockstep_push _).bind fun _ => .pure _

/-- An `INSERT` goes as the one with replaced values. -/
theorem lockstep_handleInsert (i : Insert) : Lockstep SameDealings (ev.handleInsert i)
    (ev.bare.handleInsert { i with values := i.values.replace choose }) :=
  (lockstep_visitExpr hx hev i.values).bind fun _ => (Lockstep.ofExcept _).bind fun _ =>
    (lockstep_entry rfl rfl).bind fun _ => (lockstep_ask _ _).adaptExcept.bind fun _ =>
      (lockstep_push _).bind fun _ => .pure _

/-- A statement goes as the replaced statement. -/
theorem lockstep_visitStatement (s : Statement) : Lockstep SameDealings (ev.visitStatement s)
    (ev.bare.visitStatement (s.replace choose)) := by
  cases s with
  | select s =>
    exact (lockstep_around hx hev rfl (lockstep_handleSelect hx hev s)).bind
      (.pushClaimed lockstep_push)
  | insert i =>
    exact (lockstep_around hx hev rfl (lockstep_handleInsert hx hev i)).bind
      (.pushClaimed lockstep_push)

/-- A run goes as the run of the replaced program without the extension. -/
theorem lockstep_run (p : Program) :
    Lockstep SameDealings (ev.run p) (ev.bare.run (p.replace choose)) := by
  have hprogram : Lockstep SameDealings (ev.handleProgram p)
      (ev.bare.handleProgram (p.replace choose)) := by
    induction p with
    | nil => exact .pure _
    | cons s p ih =>
      rw [handleProgram_cons_eq, Program.replace, List.map_cons, handleProgram_cons_eq]
      exact (lockstep_visitStatement hx hev s).bind fun _ => ih
  refine (lockstep_valueOf hx hev rfl hprogram).bind fun _ w w' hw => ?_
  show Alike SameDealings (.ok w.context.stack w) (.ok w'.context.stack w')
  rw [hw.context]
  exact .ok hw

end Runs

end SameDealings

/-- An evaluator whose one extension claims leaves runs a program as an evaluator without extensions
runs the program with these leaves replaced: with the same results or error, the same stack, the
same state of the backend and the same requests to it. -/
theorem substitution {choose : Atom → Option Atom} {x : Extension ω} {ev : Evaluator σ ω}
    (hx : x.Substitutes choose) (hev : ev.extensions = [x]) (p : Program) (w : World σ ω) :
    Alike SameDealings (ev.run p w) (ev.bare.run (p.replace choose) w.bare) ∧
      Alike SameDealings (ev.execute p w) (ev.bare.execute (p.replace choose) w.bare) := by
  have hrun := SameDealings.lockstep_run hx hev p
  refine ⟨hrun w w.bare ⟨rfl, rfl, rfl⟩, hrun.execute ⟨rfl, rfl, rfl⟩ fun h => ?_⟩
  exact ⟨rfl, h.state, h.requests⟩

namespace Leaves

/-- Reads one column as another, turns Boolean literals round, and unquotes texts. -/
def chosen : Atom → Option Atom
  | .name "a" => some (.name "b")
  | .scalar (.boolean b) => some (.scalar (.boolean !b))
  | .scalar (.text s) => some (.name s)
  | _ => none

/-- Claims the chosen leaves and declines all other nodes, the later the more it was asked. -/
def claimant : Extension Nat where
  claim? node _ asked :=
    (some ⟨asked, (node.atom?.bind chosen).elim .declined (.claimed ·.value)⟩, asked + 1)

def claiming : Evaluator Store Nat := ⟨Store.backend, [claimant], .race⟩

def statements : Program :=
  [.select ⟨"t", [], some (.binary (.identifier "a") .equal (.string "x")), none⟩,
    .insert ⟨"t", none, .array [.boolean true, .identifier "a"]⟩,
    .insert ⟨"t", some ["b"], .array [.array [.identifier "a", .string "y"]]⟩,
    .select ⟨"t", [], some (.identifier "a"), none⟩]

def replaced : Program :=
  [.select ⟨"t", [], some (.binary (.identifier "b") .equal (.identifier "x")), none⟩,
    .insert ⟨"t", none, .array [.boolean false, .identifier "b"]⟩,
    .insert ⟨"t", some ["b"], .array [.array [.identifier "b", .identifier "y"]]⟩,
    .select ⟨"t", [], some (.identifier "b"), none⟩]

def start : World Store Nat :=
  ⟨.fresh .ordered, Store.empty.create "t" ["b", "c"], 0, #[]⟩

/-- Claiming leaves by kind and content is a substitution of leaves. -/
theorem claimant_substitutes : claimant.Substitutes chosen where
  before _ := rfl
  claim? node context asked := by
    show Claim.value? ⟨asked, (node.atom?.bind chosen).elim .declined (.claimed ·.value)⟩ = _
    cases node.atom?.bind chosen <;> rfl
  after _ := rfl

/-- The array within an array is refused either way. -/
theorem claiming_leaves : claimant.Substitutes chosen ∧ claiming.extensions = [claimant] ∧
    Alike SameDealings (claiming.run statements start) (claiming.bare.run replaced start.bare) ∧
    Alike SameDealings (claiming.execute statements start)
      (claiming.bare.execute replaced start.bare) :=
  ⟨claimant_substitutes, rfl, substitution claimant_substitutes rfl statements start⟩

end Leaves

end Evaluator

end MiniSql
