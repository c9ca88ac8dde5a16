import MiniSql.Extension.Scripted
import MiniSql.Proofs.Stages
import MiniSql.Store

/-!
# Failed runs

What a failed run leaves on the stack, for extensions whose hooks keep the context. A run fails at
one of its statements (`FailsAt`) or else in the hooks of the program (`FailsAround`). The results
of the statements done are on the stack (`Completes`), and a statement that fails leaves nothing
there, with one exception: when the evaluator itself has found the result of the statement, and a
hook after the statement fails, the result is on the stack already and stays there. A claimed
statement has its value put on the stack only behind those hooks.
-/

namespace MiniSql.Evaluator

variable {σ ω : Type}

/-! ## Statements done -/

/-- All statements of a program are visited and leave these results. -/
inductive Completes (ev : Evaluator σ ω) : Program → World σ ω → List Value → World σ ω → Prop
  | nil {w : World σ ω} : Completes ev [] w [] w
  | cons {s : Statement} {p : Program} {w w₁ w₂ w' : World σ ω} {found : Visit} {vs : List Value}
      (hfound : ev.resultOf s w = .ok found w₁) (hfinish : ev.finish s found w₁ = .ok () w₂)
      (h : Completes ev p w₂ vs w') : Completes ev (s :: p) w (found.value :: vs) w'

variable {ev : Evaluator σ ω} {p : Program} {w w' : World σ ω} {vs : List Value} {e : EvalError}

theorem Completes.length_eq (h : Completes ev p w vs w') : vs.length = p.length := by
  induction h with
  | nil => rfl
  | cons _ _ _ ih => rw [List.length_cons, List.length_cons, ih]

/-- A program that is handled has all its statements done. -/
theorem handleProgram_ok {v : Value} (h : ev.handleProgram p w = .ok v w') :
    ∃ vs, Completes ev p w vs w' := by
  -- by induction on the program, whose statements are done one after another
  induction p generalizing w with
  | nil =>
    obtain ⟨_, rfl⟩ := EStateM.Result.ok.inj h
    exact ⟨[], .nil⟩
  | cons s p ih =>
    rw [handleProgram_cons_eq, visitStatement_eq] at h
    obtain ⟨_, w₂, hvisit, hrest⟩ := bind_ok h
    obtain ⟨found, w₁, hfound, hfinish⟩ := bind_ok hvisit
    obtain ⟨vs, hvs⟩ := ih hrest
    exact ⟨_, .cons hfound hfinish hvs⟩

/-- A program that fails does so at one of its statements, and those before it are done. -/
theorem handleProgram_error (h : ev.handleProgram p w = .error e w') :
    ∃ k s vs mid, Completes ev (p.take k) w vs mid ∧ p[k]? = some s ∧
      ev.visitStatement s mid = .error e w' := by
  -- by induction on the program: the statement that fails is behind those that are done
  induction p generalizing w with
  | nil => nomatch h
  | cons s p ih =>
    rw [handleProgram_cons_eq] at h
    obtain hvisit | ⟨_, w₂, hvisit, hrest⟩ := bind_error h
    · exact ⟨0, s, [], w, .nil, rfl, hvisit⟩
    · rw [visitStatement_eq] at hvisit
      obtain ⟨found, w₁, hfound, hfinish⟩ := bind_ok hvisit
      obtain ⟨k, s', vs, mid, hdone, hs', hfail⟩ := ih hrest
      exact ⟨k + 1, s', _, mid, .cons hfound hfinish hdone, hs', hfail⟩

/-! ## Where a run fails -/

/-- All that is done at a node before it is handled: the hooks before it, and the claims on it. -/
def opening (ev : Evaluator σ ω) (node : Node) : Action EvalError σ ω (Option Value) := do
  record (.entered node)
  ev.beforeHooks node
  ev.claim? node

theorem around_eq_opening (node : Node) (handle : Action EvalError σ ω Value) :
    ev.around node handle = ev.opening node >>= fun
      | some value => record (.claimed node) >>= fun _ => ev.afterHooks node >>= fun _ =>
          pure ⟨value, true⟩
      | none => handle >>= fun value => ev.afterHooks node >>= fun _ => pure ⟨value, false⟩ := by
  rw [around, opening, claimOrHandle]
  simp only [bind_assoc]
  refine bind_congr fun _ => bind_congr fun _ => bind_congr fun claimed? => ?_
  cases claimed? with
  | some value =>
    simp only [bind_assoc, pure_bind]
    rfl
  | none =>
    simp only [bind_assoc, pure_bind]
    rfl

/-- A claimed node is not handled, and its visit ends with the hooks after it. -/
theorem around_of_claimed {node : Node} {handle : Action EvalError σ ω Value} {v : Value}
    {w w₁ w₂ : World σ ω} (hopening : ev.opening node w = .ok (some v) w₁)
    (hafter : ev.afterHooks node (w₁.log [.claimed node]) = .ok () w₂) :
    ev.around node handle w = .ok ⟨v, true⟩ w₂ := by
  rw [around_eq_opening, bind_of_ok hopening]
  exact (bind_of_ok (record_eq w₁ _)).trans (bind_of_ok hafter)

/-- A node that nobody claims is handled between the hooks. -/
theorem around_of_handled {node : Node} {handle : Action EvalError σ ω Value} {v : Value}
    {w w₁ w₂ w₃ : World σ ω} (hopening : ev.opening node w = .ok none w₁)
    (hhandle : handle w₁ = .ok v w₂) (hafter : ev.afterHooks node w₂ = .ok () w₃) :
    ev.around node handle w = .ok ⟨v, false⟩ w₃ := by
  rw [around_eq_opening, bind_of_ok hopening]
  exact (bind_of_ok hhandle).trans (bind_of_ok hafter)

/-- A visit fails before the node is handled, in the handling of it, or in the hooks after it. -/
theorem around_error {node : Node} {handle : Action EvalError σ ω Value}
    (h : ev.around node handle w = .error e w') :
    ev.opening node w = .error e w' ∨
    (∃ value w₀, ev.opening node w = .ok (some value) w₀ ∧
      ev.afterHooks node (w₀.log [.claimed node]) = .error e w') ∨
    ∃ w₀, ev.opening node w = .ok none w₀ ∧
      (handle w₀ = .error e w' ∨
        ∃ value w₁, handle w₀ = .ok value w₁ ∧ ev.afterHooks node w₁ = .error e w') := by
  rw [around_eq_opening] at h
  obtain hopening | ⟨claimed?, w₀, hopening, hrest⟩ := bind_error h
  · exact .inl hopening
  refine .inr ?_
  cases claimed? with
  | some value =>
    -- entering the claim cannot fail, so the hooks after the node did
    have hafter := (bind_of_ok (record_eq w₀ _)).symm.trans hrest
    obtain hhooks | ⟨_, _, _, hpure⟩ := bind_error hafter
    · exact .inl ⟨value, w₀, hopening, hhooks⟩
    · cases hpure
  | none =>
    refine .inr ⟨w₀, hopening, ?_⟩
    obtain hhandled | ⟨value, w₁, hhandled, hafter⟩ := bind_error hrest
    · exact .inl hhandled
    · obtain hhooks | ⟨_, _, _, hpure⟩ := bind_error hafter
      · exact .inr ⟨value, w₁, hhandled, hhooks⟩
      · cases hpure

/-- A run of the program fails at its statement `s`, which is the one in place `k`. The statements
before it are done, leave the results `vs`, and leave the world `mid` for the visit that fails. -/
structure FailsAt (ev : Evaluator σ ω) (p : Program) (w : World σ ω) (k : Nat) (s : Statement)
    (vs : List Value) (mid : World σ ω) (e : EvalError) (w' : World σ ω) : Prop where
  completes : ∃ w₀, ev.opening (.program p) w = .ok none w₀ ∧ Completes ev (p.take k) w₀ vs mid
  statement : p[k]? = some s
  fails : ev.visitStatement s mid = .error e w'

/-- A run of the program fails outside of its statements: before the first of them, behind a claim
on the whole program, or behind the last of them. The statements done leave the results `vs`. -/
inductive FailsAround (ev : Evaluator σ ω) (p : Program) (w : World σ ω) :
    List Value → EvalError → World σ ω → Prop
  | opening {e : EvalError} {w' : World σ ω} (h : ev.opening (.program p) w = .error e w') :
      FailsAround ev p w [] e w'
  | claimed {value : Value} {e : EvalError} {w₀ w' : World σ ω}
      (hopening : ev.opening (.program p) w = .ok (some value) w₀)
      (h : ev.afterHooks (.program p) (w₀.log [.claimed (.program p)]) = .error e w') :
      FailsAround ev p w [] e w'
  | closing {vs : List Value} {e : EvalError} {w₀ w₁ w' : World σ ω}
      (hopening : ev.opening (.program p) w = .ok none w₀) (hdone : Completes ev p w₀ vs w₁)
      (h : ev.afterHooks (.program p) w₁ = .error e w') : FailsAround ev p w vs e w'

/-- A statement behind statements that are done is done too, if all of the program is. -/
theorem Completes.visitStatement_ok {k : Nat} {s : Statement} {mid : World σ ω} {done : List Value}
    (h : Completes ev p w vs w') (hs : p[k]? = some s)
    (hdone : Completes ev (p.take k) w done mid) :
    ∃ w₁, ev.visitStatement s mid = .ok () w₁ := by
  -- by induction on the statements done, which are the same up to the place of this one
  induction h generalizing k done with
  | nil => nomatch hs
  | @cons first p w w₁ w₂ w' found vs hfound hfinish _ ih =>
    cases k with
    | zero =>
      cases hdone
      obtain rfl := Option.some.inj hs
      rw [visitStatement_eq, bind_of_ok hfound]
      exact ⟨w₂, hfinish⟩
    | succ k =>
      cases hdone with
      | cons hfound' hfinish' hdone =>
        rw [hfound] at hfound'
        obtain ⟨rfl, rfl⟩ := EStateM.Result.ok.inj hfound'
        rw [hfinish] at hfinish'
        obtain ⟨-, rfl⟩ := EStateM.Result.ok.inj hfinish'
        exact ih hs hdone

/-- A run that fails at a statement does not fail outside of the statements. -/
theorem FailsAt.not_failsAround {k : Nat} {s : Statement} {mid w'' : World σ ω} {e' : EvalError}
    {vs' : List Value} (h : ev.FailsAt p w k s vs mid e w') :
    ¬ ev.FailsAround p w vs' e' w'' := by
  intro haround
  obtain ⟨⟨w₀, hopening, hdone⟩, hs, hfails⟩ := h
  cases haround with
  | opening hopening' =>
    rw [hopening] at hopening'
    nomatch hopening'
  | claimed hopening' =>
    rw [hopening] at hopening'
    nomatch (EStateM.Result.ok.inj hopening').1
  | closing hopening' hall =>
    rw [hopening] at hopening'
    obtain ⟨-, rfl⟩ := EStateM.Result.ok.inj hopening'
    obtain ⟨w₁, hok⟩ := hall.visitStatement_ok hs hdone
    rw [hok] at hfails
    nomatch hfails

/-- A run fails at one of its statements or outside of all of them. -/
theorem run_error (h : ev.run p w = .error e w') :
    (∃ k s vs mid, ev.FailsAt p w k s vs mid e w') ∨ ∃ vs, ev.FailsAround p w vs e w' := by
  rw [run] at h
  -- only the visit of the program can fail, not what is done with its outcome
  obtain hvisit | ⟨_, _, _, hstack⟩ := bind_error h
  case inr => cases hstack
  rw [visit, valueOf] at hvisit
  obtain haround | ⟨_, _, _, hvalue⟩ := bind_error hvisit
  case inr => cases hvalue
  obtain hopening | ⟨value, w₀, hopening, hafter⟩ | ⟨w₀, hopening, hhandled⟩ :=
    around_error haround
  · exact .inr ⟨[], .opening hopening⟩
  · exact .inr ⟨[], .claimed hopening hafter⟩
  -- the program is handled: one of its statements failed, or they are all done
  obtain hfailed | ⟨v, w₁, hdone, hafter⟩ := hhandled
  · obtain ⟨k, s, vs, mid, hdone, hs, hfail⟩ := handleProgram_error hfailed
    exact .inl ⟨k, s, vs, mid, ⟨w₀, hopening, hdone⟩, hs, hfail⟩
  · obtain ⟨vs, hvs⟩ := handleProgram_ok hdone
    exact .inr ⟨vs, .closing hopening hvs hafter⟩

/-! ## The stack -/

/-- The evaluator itself finds the result of a statement that no extension claims. -/
def Finds (ev : Evaluator σ ω) (s : Statement) (w : World σ ω) (value : Value) : Prop :=
  ∃ w₁, ev.resultOf s w = .ok ⟨value, false⟩ w₁

theorem Finds.unique {s : Statement} {value value' : Value} (h : ev.Finds s w value)
    (h' : ev.Finds s w value') : value = value' := by
  obtain ⟨w₁, hfound⟩ := h
  obtain ⟨w₂, hfound'⟩ := h'
  rw [hfound] at hfound'
  obtain ⟨hvisit, _⟩ := EStateM.Result.ok.inj hfound'
  exact (Visit.mk.inj hvisit).1

section Stack

variable (hkeeps : ∀ x ∈ ev.extensions, x.KeepsContext)

include hkeeps

/-- Each statement done adds its result. -/
theorem stack_of_completes (h : Completes ev p w vs w') :
    w'.context.stack = w.context.stack ++ vs := by
  induction h with
  | nil => rw [List.append_nil]
  | @cons s p w w₁ w₂ w' found vs hfound hfinish _ ih =>
    have hcontext : w₂.context = w.context.push found.value := by
      rw [finish_ok hkeeps hfinish, (keeps_resultOf hkeeps s).of_ok hfound]
    rw [ih, hcontext, Context.push, List.append_assoc, List.singleton_append]

theorem keeps_opening (node : Node) : KeepsContext (ev.opening node) :=
  (KeepsContext.record _).bind fun _ => (keeps_beforeHooks hkeeps node).bind fun _ =>
    .claim? ev node

theorem stack_of_failsAround (h : ev.FailsAround p w vs e w') :
    w'.context.stack = w.context.stack ++ vs := by
  have hafter := keeps_afterHooks hkeeps (.program p)
  have hbefore := keeps_opening hkeeps (.program p)
  cases h with
  | opening h => rw [hbefore.of_error h, List.append_nil]
  | claimed hopening h =>
    rw [hafter.of_error h, World.log_context, hbefore.of_ok hopening, List.append_nil]
  | closing hopening hdone h =>
    rw [hafter.of_error h, stack_of_completes hkeeps hdone, hbefore.of_ok hopening]

/-- A statement that fails leaves nothing on the stack, unless the evaluator has found its result:
then a hook after the statement fails, and the result is there already. -/
theorem stack_of_failing_statement {s : Statement} (h : ev.visitStatement s w = .error e w') :
    (w'.context.stack = w.context.stack ∧ ∀ value, ¬ ev.Finds s w value) ∨
    ∃ value, ev.Finds s w value ∧ w'.context.stack = w.context.stack ++ [value] := by
  have hresult := keeps_resultOf hkeeps s
  rw [visitStatement_eq] at h
  obtain hfail | ⟨⟨value, claimed⟩, w₁, hfound, hfinish⟩ := bind_error h
  · refine .inl ⟨by rw [hresult.of_error hfail], fun value ⟨w₁, hfound⟩ => ?_⟩
    rw [hfound] at hfail
    nomatch hfail
  have hcontext := finish_error hkeeps hfinish
  rw [hresult.of_ok hfound] at hcontext
  -- the hooks after the statement failed: a claimed value is not on the stack yet
  cases claimed with
  | true =>
    refine .inl ⟨by rw [hcontext, if_pos rfl], fun value' ⟨w₂, hfound'⟩ => ?_⟩
    rw [hfound] at hfound'
    nomatch hfound'
  | false => exact .inr ⟨value, ⟨w₁, hfound⟩, by rw [hcontext]; rfl⟩

/-- A failed run leaves the results of the statements done and nothing else, except for the result
that the evaluator has found for the failing statement itself. -/
theorem stack_of_failed_run (hrun : ev.run p w = .error e w') :
    (∃ k s vs mid, ev.FailsAt p w k s vs mid e w' ∧ vs.length = k ∧
      (w'.context.stack = w.context.stack ++ vs ↔ ∀ value, ¬ ev.Finds s mid value) ∧
      ∀ value, ev.Finds s mid value → w'.context.stack = w.context.stack ++ vs ++ [value]) ∨
    ∃ vs, ev.FailsAround p w vs e w' ∧ w'.context.stack = w.context.stack ++ vs := by
  obtain ⟨k, s, vs, mid, hfails⟩ | ⟨vs, hfails⟩ := run_error hrun
  case inr => exact .inr ⟨vs, hfails, stack_of_failsAround hkeeps hfails⟩
  obtain ⟨w₀, hopening, hdone⟩ := hfails.completes
  have hlength : vs.length = k := by
    have hk : k < p.length := (List.getElem?_eq_some_iff.mp hfails.statement).1
    rw [hdone.length_eq, List.length_take, Nat.min_eq_left (Nat.le_of_lt hk)]
  -- the failing visit starts from the results of the statements before it
  have hmid : mid.context.stack = w.context.stack ++ vs := by
    rw [stack_of_completes hkeeps hdone, (keeps_opening hkeeps _).of_ok hopening]
  refine .inl ⟨k, s, vs, mid, hfails, hlength, ?_⟩
  obtain ⟨hstack, hnone⟩ | ⟨value, hfound, hstack⟩ :=
    stack_of_failing_statement hkeeps hfails.fails
  · rw [hmid] at hstack
    exact ⟨⟨fun _ => hnone, fun _ => hstack⟩, fun value hfound => absurd hfound (hnone value)⟩
  · rw [hmid] at hstack
    refine ⟨⟨fun hkept => ?_, fun hnone => absurd hfound (hnone value)⟩, fun value' hfound' => ?_⟩
    · -- the stack is longer by one
      rw [hkept] at hstack
      exact absurd (List.self_eq_append_right.mp hstack) (List.cons_ne_nil _ _)
    · rw [hstack, hfound.unique hfound']

end Stack

/-! ## A refused selection -/

namespace Refusal

/-- Refuses each selection, but only when its rows are found. -/
def refusal : Script := ⟨"x", true, [], [], [⟨some "Select", none, 0, .fail "no" none⟩]⟩

def refused : Evaluator Store Unit := ⟨Store.backend, [refusal.extension], .ordered⟩

def selection : Statement := .select ⟨"t", [], none, none⟩

def start : World Store Unit := ⟨.fresh .ordered, Store.empty.create "t" ["a"], (), #[]⟩

theorem refusal_keepsContext : refusal.extension.KeepsContext := by
  refine ⟨fun _ _ _ => rfl, fun node context memory => ?_⟩
  show (Scripted.hook "x" refusal.after node context memory).2.1 = context
  rw [Scripted.hook]
  cases h : Scripted.ruleFor? refusal.after node with
  | none => rfl
  | some rule =>
    obtain rfl := List.mem_singleton.mp (List.mem_of_find?_eq_some h)
    rfl

/-- The run fails at its only statement, behind no statement done, and the rows that the evaluator
has found for it are on the stack. -/
theorem stack_of_refused_run : ∃ mid w',
    (∀ x ∈ refused.extensions, x.KeepsContext) ∧
    refused.run [selection] start = .error (.extension ⟨"x", "no"⟩) w' ∧
    refused.FailsAt [selection] start 0 selection [] mid (.extension ⟨"x", "no"⟩) w' ∧
    refused.Finds selection mid (.rows []) ∧ start.context.stack = [] ∧
    w'.context.stack = start.context.stack ++ [] ++ [.rows []] := by
  have hkeeps : ∀ x ∈ refused.extensions, x.KeepsContext :=
    List.forall_mem_singleton.mpr refusal_keepsContext
  obtain ⟨mid, w', hrun, hfails, hfinds⟩ : ∃ mid w',
      refused.run [selection] start = .error (.extension ⟨"x", "no"⟩) w' ∧
      refused.FailsAt [selection] start 0 selection [] mid (.extension ⟨"x", "no"⟩) w' ∧
      refused.Finds selection mid (.rows []) :=
    ⟨_, _, rfl, ⟨⟨_, rfl, .nil⟩, rfl, rfl⟩, _, rfl⟩
  refine ⟨mid, w', hkeeps, hrun, hfails, hfinds, rfl, ?_⟩
  obtain ⟨k, s, vs, mid', hfails', hlength, -, hstack⟩ | ⟨_, haround, -⟩ :=
    stack_of_failed_run hkeeps hrun
  case inr => exact absurd haround hfails.not_failsAround
  -- there is no other statement, and no other world behind the opening of the program
  obtain ⟨⟨w₀, hopening, hdone⟩, -, -⟩ := hfails
  obtain ⟨⟨w₀', hopening', hdone'⟩, hs, -⟩ := hfails'
  cases k with
  | succ k => nomatch hs
  | zero =>
    obtain rfl := Option.some.inj hs
    obtain rfl := List.eq_nil_of_length_eq_zero hlength
    cases hdone
    cases hdone'
    rw [hopening] at hopening'
    obtain ⟨-, rfl⟩ := EStateM.Result.ok.inj hopening'
    exact hstack _ hfinds

/-- The first statement fails, no statement is done, and still there is a result on the stack. -/
theorem refused_selection_on_stack : ∃ mid e w',
    (∀ x ∈ refused.extensions, x.KeepsContext) ∧ refused.run [selection] start = .error e w' ∧
    refused.FailsAt [selection] start 0 selection [] mid e w' ∧
    start.context.stack = [] ∧ w'.context.stack = [.rows []] := by
  have hkeeps : ∀ x ∈ refused.extensions, x.KeepsContext :=
    List.forall_mem_singleton.mpr refusal_keepsContext
  exact ⟨_, _, _, hkeeps, rfl, ⟨⟨_, rfl, .nil⟩, rfl, rfl⟩, rfl, rfl⟩

end Refusal

end MiniSql.Evaluator
