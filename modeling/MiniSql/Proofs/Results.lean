import MiniSql.Proofs.Decision
import MiniSql.Proofs.FailedRun
import MiniSql.Proofs.Plain

/-!
# Results of a successful run

A run that succeeds leaves one result for each statement, in the order of the statements, if the
hooks keep the context and no extension claims the program itself (`stack_of_successful_run`). The
result of a statement is the value it was claimed with, the backend's answer to a selection, or
`null` for an insertion (`HasResult`). Nothing else is ever put on the stack: neither the claims on
a node nor all that is done below a statement change the context.
-/

namespace MiniSql

variable {σ ω : Type}

/-- The extension may claim the node with the value. -/
def Extension.Claims (x : Extension ω) (node : Node) (v : Value) : Prop :=
  ∃ context memory delay, (x.claim? node context memory).1 = some ⟨delay, .claimed v⟩

namespace Evaluator

variable {ev : Evaluator σ ω} {w w' : World σ ω}

/-! ## Where a claimed value comes from -/

/-- A claim that decides a node was made by one of the extensions. -/
theorem claim?_ok {node : Node} {v : Value} (h : ev.claim? node w = .ok (some v) w') :
    ∃ x ∈ ev.extensions, x.Claims node v := by
  rw [claim?_eq] at h
  obtain ⟨offer, hoffer, hclaimed⟩ :=
    ClaimPolicy.exists_claimed_of_resolve (EStateM.Result.ok.inj h).1
  obtain ⟨x, hx, memory, hclaim⟩ := exists_of_mem_offersOn hoffer
  refine ⟨x, hx, w.context, memory, offer.claim.delay, ?_⟩
  rw [hclaim, ← hclaimed]

/-- So was one that decides it while its hooks run. -/
theorem opening_ok {node : Node} {v : Value} (h : ev.opening node w = .ok (some v) w') :
    ∃ x ∈ ev.extensions, x.Claims node v := by
  obtain ⟨_, w₁, -, h₁⟩ := bind_ok h
  obtain ⟨_, w₂, -, h₂⟩ := bind_ok h₁
  exact claim?_ok h₂

/-! ## The result of one statement -/

/-- What the result of a statement is, when the statement is visited in the world `w`. -/
inductive HasResult (ev : Evaluator σ ω) : Statement → World σ ω → Value → Prop
  | claimed {s : Statement} {w w₁ : World σ ω} {v : Value} {x : Extension ω}
      (hopening : ev.opening s.node w = .ok (some v) w₁) (hx : x ∈ ev.extensions)
      (hclaims : x.Claims s.node v) : HasResult ev s w v
  | rows {s : Select} {w w₁ w₂ : World σ ω} {value : Value} {c? : Option Condition}
      {rows : List Row} (hopening : ev.opening (.select s) w = .ok none w₁)
      (hvalue : ev.visitCondition s.condition? w₁ = .ok value w₂)
      (hcondition : conditionOf value = .ok c?)
      (hanswer : (ev.backend.select (s.query c?) w₂.state).answer = .ok rows) :
      HasResult ev (.select s) w (.rows rows)
  | null {i : Insert} {w w₁ w₂ : World σ ω} {value : Value} {values : List Scalar}
      (hopening : ev.opening (.insert i) w = .ok none w₁)
      (hvalue : ev.visitExpr i.values w₁ = .ok value w₂) (hvalues : rowValues value = .ok values)
      (hanswer : (ev.backend.insert (i.insertion values) w₂.state).answer = .ok ()) :
      HasResult ev (.insert i) w .null

/-- How a statement ends that has made up its request. -/
theorem answer_of_ok {α : Type} {r : Request} {ask : σ → Reply σ α} {result : α → Value} {v : Value}
    (h : (do
      record (.requesting r)
      let a ← (request r ask).adaptExcept .backend
      return result a : Action EvalError σ ω Value) w = .ok v w') :
    ∃ a, (ask w.state).answer = .ok a ∧ v = result a := by
  rw [bind_of_ok (record_eq w _)] at h
  obtain ⟨a, w₁, ha, hresult⟩ := bind_ok h
  have hanswer := request_ok (adaptExcept_ok ha)
  exact ⟨a, hanswer, (EStateM.Result.ok.inj hresult).1.symm⟩

/-- The result of a statement is what it is claimed with, or its own if it is left alone. -/
theorem resultOf_eq_opening (s : Statement) : ev.resultOf s = ev.opening s.node >>= fun
    | some value => record (.claimed s.node) >>= fun _ => pure ⟨value, true⟩
    | none => ev.ownResult s >>= fun value => pure ⟨value, false⟩ := by
  rw [resultOf, opening, bind_assoc]
  refine bind_congr fun _ => ?_
  rw [bind_assoc]
  refine bind_congr fun _ => bind_congr fun claimed? => ?_
  cases claimed? <;> rfl

/-- What a statement pushes is its result. -/
theorem hasResult_of_resultOf {s : Statement} {found : Visit} (h : ev.resultOf s w = .ok found w') :
    ev.HasResult s w found.value := by
  rw [resultOf_eq_opening] at h
  obtain ⟨claimed?, w₁, hopening, h₁⟩ := bind_ok h
  cases claimed? with
  | some value =>
    obtain ⟨_, w₂, -, h₂⟩ := bind_ok h₁
    obtain ⟨rfl, -⟩ := EStateM.Result.ok.inj h₂
    obtain ⟨x, hx, hclaims⟩ := opening_ok hopening
    exact .claimed hopening hx hclaims
  | none =>
    -- the evaluator's own result is what the backend answers
    obtain ⟨v, w₂, hown, h₂⟩ := bind_ok h₁
    obtain ⟨rfl, -⟩ := EStateM.Result.ok.inj h₂
    cases s with
    | select s =>
      obtain ⟨value, w₃, hvalue, h₃⟩ := bind_ok hown
      obtain ⟨c?, w₄, hc, h₄⟩ := bind_ok h₃
      obtain ⟨hcondition, rfl⟩ := ofExcept_eq_ok hc
      obtain ⟨rows, hanswer, rfl⟩ := answer_of_ok h₄
      exact .rows hopening hvalue hcondition hanswer
    | insert i =>
      obtain ⟨value, w₃, hvalue, h₃⟩ := bind_ok hown
      obtain ⟨values, w₄, hv, h₄⟩ := bind_ok h₃
      obtain ⟨hvalues, rfl⟩ := ofExcept_eq_ok hv
      obtain ⟨_, hanswer, rfl⟩ := answer_of_ok h₄
      exact .null hopening hvalue hvalues hanswer

/-! ## The results of a program -/

/-- In a completed program every statement has pushed its result, in its place. -/
theorem Completes.hasResult {p : Program} {vs : List Value} (h : Completes ev p w vs w') {k : Nat}
    {s : Statement} (hs : p[k]? = some s) : ∃ v mid, vs[k]? = some v ∧
      Completes ev (p.take k) w (vs.take k) mid ∧ ev.HasResult s mid v := by
  induction h generalizing k with
  | nil => nomatch hs
  | cons hfound hfinish hlater ih =>
    cases k with
    | zero =>
      obtain rfl := Option.some.inj hs
      exact ⟨_, _, rfl, .nil, hasResult_of_resultOf hfound⟩
    | succ k =>
      obtain ⟨v, mid, hv, hdone, hresult⟩ := ih hs
      exact ⟨v, mid, hv, .cons hfound hfinish hdone, hresult⟩

/-- A visit that succeeds finishes with the hooks after its node, claimed or not. -/
theorem around_ok {node : Node} {handle : Action EvalError σ ω Value} {visit : Visit}
    (h : ev.around node handle w = .ok visit w') :
    (∃ value w₁, ev.opening node w = .ok (some value) w₁) ∨
    ∃ value w₁ w₂, ev.opening node w = .ok none w₁ ∧ handle w₁ = .ok value w₂ ∧
      ev.afterHooks node w₂ = .ok () w' := by
  rw [around_eq_opening] at h
  obtain ⟨claimed?, w₁, hopening, h₁⟩ := bind_ok h
  cases claimed? with
  | some value => exact .inl ⟨value, w₁, hopening⟩
  | none =>
    obtain ⟨value, w₂, hhandle, h₂⟩ := bind_ok h₁
    obtain ⟨_, w₃, hafter, h₃⟩ := bind_ok h₂
    obtain ⟨-, rfl⟩ := EStateM.Result.ok.inj h₃
    exact .inr ⟨value, w₁, w₂, hopening, hhandle, hafter⟩

/-- A run that succeeds is one whose statements have all completed, and it answers with
the stack. -/
theorem run_ok {p : Program} {results : List Value}
    (hroot : ∀ x ∈ ev.extensions, ∀ v, ¬ x.Claims (.program p) v)
    (h : ev.run p w = .ok results w') :
    ∃ vs w₀ w₁, ev.opening (.program p) w = .ok none w₀ ∧ Completes ev p w₀ vs w₁ ∧
      ev.afterHooks (.program p) w₁ = .ok () w' ∧ results = w'.context.stack := by
  rw [run] at h
  obtain ⟨_, w₂, hvisit, hstack⟩ := bind_ok h
  obtain ⟨rfl, rfl⟩ := EStateM.Result.ok.inj hstack
  rw [visit, valueOf] at hvisit
  obtain ⟨_, w₃, haround, hvalue⟩ := bind_ok hvisit
  obtain ⟨-, rfl⟩ := EStateM.Result.ok.inj hvalue
  obtain ⟨v, _, hclaimed⟩ | ⟨_, w₀, w₁, hopening, hhandle, hafter⟩ := around_ok haround
  · obtain ⟨x, hx, hclaims⟩ := opening_ok hclaimed
    exact absurd hclaims (hroot x hx v)
  · obtain ⟨vs, hdone⟩ := handleProgram_ok hhandle
    exact ⟨vs, w₀, w₁, hopening, hdone, hafter, rfl⟩

/-- A run that succeeds leaves one result for each statement behind what was on the stack before,
and claims elsewhere leave the stack as it is. -/
theorem stack_of_successful_run {p : Program} {results : List Value}
    (hkeeps : ∀ x ∈ ev.extensions, x.KeepsContext)
    (hroot : ∀ x ∈ ev.extensions, ∀ v, ¬ x.Claims (.program p) v)
    (hrun : ev.run p w = .ok results w') :
    (∃ vs w₀, results = w.context.stack ++ vs ∧ w'.context.stack = results ∧
      vs.length = p.length ∧ ev.opening (.program p) w = .ok none w₀ ∧
      ∀ k s, p[k]? = some s → ∃ v mid, vs[k]? = some v ∧
        Completes ev (p.take k) w₀ (vs.take k) mid ∧ ev.HasResult s mid v) ∧
    (∀ node, KeepsContext (ev.claim? node)) ∧ ∀ e, KeepsContext (ev.visitExpr e) := by
  obtain ⟨vs, w₀, w₁, hopening, hdone, hafter, rfl⟩ := run_ok hroot hrun
  have hstack : w'.context.stack = w.context.stack ++ vs := by
    rw [(keeps_afterHooks hkeeps _).of_ok hafter, stack_of_completes hkeeps hdone,
      (keeps_opening hkeeps _).of_ok hopening]
  exact ⟨⟨vs, w₀, hstack, rfl, hdone.length_eq, hopening, fun _ _ => hdone.hasResult⟩,
    KeepsContext.claim? ev, keeps_visitExpr hkeeps⟩

namespace ClaimedInsert

/-- Claims insertions and the names in conditions, declines selections, and fails on literals. -/
def claim? : Node → Option Claim
  | .insert _ => some ⟨3, .claimed (.scalar (.boolean true))⟩
  | .select _ => some ⟨2, .declined⟩
  | .expr (.identifier _) => some ⟨1, .claimed (.name "a")⟩
  | .expr (.boolean _) => some ⟨0, .failed ⟨"x", "no"⟩⟩
  | _ => none

def claims : Extension Unit := { claim? := fun node _ memory => (claim? node, memory) }

def claimed : Evaluator Store Unit := ⟨Store.backend, [claims], .ordered⟩

def statements : Program :=
  [.insert ⟨"t", none, .array [.boolean true]⟩,
    .select ⟨"t", [], some (.binary (.identifier "b") .equal (.boolean true)), none⟩]

def start : World Store Unit :=
  ⟨⟨[.null], .ordered⟩, Store.empty.put "t" ⟨["a"], [⟨[("a", .boolean true)]⟩]⟩, (), #[]⟩

def results : List Value :=
  [.null, .scalar (.boolean true), .rows [⟨[("a", .boolean true)]⟩]]

/-- An extension that only claims keeps the context. -/
theorem claims_keepsContext : claims.KeepsContext :=
  ⟨fun _ _ _ => rfl, fun _ _ _ => rfl⟩

theorem not_claims_program (p : Program) (v : Value) :
    ¬ claims.Claims (.program p) v := by
  rintro ⟨context, memory, delay, h⟩
  have hnone : (claims.claim? (.program p) context memory).1 = none := rfl
  rw [hnone] at h
  nomatch h

/-- The run has succeeded with `results`. -/
def hasResults : EStateM.Result EvalError (World Store Unit) (List Value) → Bool
  | .ok [.null, .scalar (.boolean true), .rows rows] _ => rows == [⟨[("a", .boolean true)]⟩]
  | _ => false

theorem run_statements : ∃ w', claimed.run statements start = .ok results w' := by
  have hresults : hasResults (claimed.run statements start) = true := by decide +kernel
  unfold hasResults at hresults
  split at hresults
  · next rows w' hrun =>
    obtain rfl := eq_of_beq hresults
    exact ⟨w', hrun⟩
  · cases hresults

/-- An insertion claimed as a whole, and a name claimed below a statement that keeps its
own result. -/
theorem results_of_claimed_run : ∃ w',
    (∀ x ∈ claimed.extensions, x.KeepsContext) ∧
    (∀ x ∈ claimed.extensions, ∀ v, ¬ x.Claims (.program statements) v) ∧
    claimed.run statements start = .ok results w' ∧
    (∃ vs w₀, results = start.context.stack ++ vs ∧ w'.context.stack = results ∧
      vs.length = statements.length ∧ claimed.opening (.program statements) start = .ok none w₀ ∧
      ∀ k s, statements[k]? = some s → ∃ v mid, vs[k]? = some v ∧
        Completes claimed (statements.take k) w₀ (vs.take k) mid ∧ claimed.HasResult s mid v) ∧
    (∀ node, KeepsContext (claimed.claim? node)) ∧
    ∀ e, KeepsContext (claimed.visitExpr e) := by
  have hkeeps : ∀ x ∈ claimed.extensions, x.KeepsContext :=
    List.forall_mem_singleton.mpr claims_keepsContext
  have hroot : ∀ x ∈ claimed.extensions, ∀ v, ¬ x.Claims (.program statements) v :=
    List.forall_mem_singleton.mpr (not_claims_program statements)
  obtain ⟨w', hrun⟩ := run_statements
  exact ⟨w', hkeeps, hroot, hrun, stack_of_successful_run hkeeps hroot hrun⟩

end ClaimedInsert

end Evaluator

end MiniSql
