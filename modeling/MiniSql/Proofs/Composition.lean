import MiniSql.Proofs.Transparency

/-!
# Programs one after another

Without extensions a program joined of two runs as the first and then the second, and a run behind
earlier results does what an execution does (`run_append`).

The first is the fold law `handleProgram_append`. The journal tells a joined program from separate
ones, so the runs agree up to the journal only. For the second, a run behind the results `s` is in
lockstep with a run in a fresh context, whose stack is the same without `s` (`keepStep_behind`).
-/

namespace MiniSql.Evaluator

variable {σ ω : Type} {ev : Evaluator σ ω}

/-- The statements of a joined program run as those of its first part and then those of
the second. -/
theorem handleProgram_append (ev : Evaluator σ ω) (p q : Program) (w : World σ ω) :
    ev.handleProgram (p ++ q) w = match ev.handleProgram p w with
      | .ok _ w' => ev.handleProgram q w'
      | .error e w' => .error e w' := by
  -- by induction on the first program, whose statements are visited before all others
  induction p generalizing w with
  | nil => rfl
  | cons s p ih =>
    rw [List.cons_append, handleProgram, handleProgram, bind_eq, bind_eq]
    cases ev.around s.node (ev.handleStatement s) w with
    | error e w₁ => rfl
    | ok visit w₁ =>
      simp only [bind_eq]
      cases (pushClaimed visit : Action EvalError σ ω Unit) w₁ with
      | error e w₂ => rfl
      | ok _ w₂ => exact ih w₂

/-! ## From the handling of a program to its run -/

/-- How the run of a program ends that was handled like this. -/
def closing : EStateM.Result EvalError (World σ ω) Value →
    EStateM.Result EvalError (World σ ω) (List Value)
  | .ok _ w => .ok w.context.stack w
  | .error e w => .error e w

/-- Without extensions a run is the handling of its statements, and then its stack is answered. -/
theorem run_eq_closing (hev : ev.extensions = []) (p : Program) (w : World σ ω) :
    ev.run p w = closing (ev.handleProgram p (w.log [.entered (.program p)])) := by
  rw [run_eq hev]
  cases ev.handleProgram p (w.log [.entered (.program p)]) <;> rfl

theorem ending_closing {r r' : EStateM.Result EvalError (World σ ω) Value}
    (h : Alike SameFront r r') : ending (closing r) = ending (closing r') := by
  cases h with
  | error hw => exact congrArg (Prod.mk _) hw
  | @ok v w w' hw =>
    show (Except.ok w.front.1.stack, w.front) = (Except.ok w'.front.1.stack, w'.front)
    rw [show w.front = w'.front from hw]

/-! ## Behind earlier results -/

/-- The same state, with these results before those of the other stack. -/
def Behind (s : List Value) (front front' : Context × σ) : Prop :=
  front.1.stack = s ++ front'.1.stack ∧ front.2 = front'.2

/-- Results that lie on the stack from before do not influence any step. -/
theorem keepStep_behind (hev : ev.extensions = []) (s : List Value) :
    KeepStep (fun w w' => Behind s w.front w'.front) ev ev := by
  refine keepStep_of_front (Q := Behind s) And.right (fun _ h => ⟨h.1, rfl⟩)
    (fun v h => ⟨?_, h.2⟩) rfl ?_ ?_
  · have hstack := congrArg (· ++ [v]) h.1
    simpa [Context.push] using hstack
  · simp [hev]
  · simp [hev]

/-! ## Whole runs -/

section Runs

variable (hev : ev.extensions = [])

include hev

/-- A joined program ends as its second part does behind the first, or as the first part if it
fails. -/
theorem ending_run_append (p q : Program) (w : World σ ω) :
    ending (ev.run (p ++ q) w) = match ev.run p w with
      | .ok _ w' => ending (ev.run q w')
      | .error e w' => ending (.error e w') := by
  have hkeep : KeepStep SameFront ev ev := keepStep_of_passive rfl (by simp [hev]) (by simp [hev])
  have hfirst := hkeep.handleProgram p (w.log [.entered (.program (p ++ q))])
    (w.log [.entered (.program p)]) rfl
  rw [run_eq_closing hev, run_eq_closing hev, handleProgram_append]
  generalize ev.handleProgram p (w.log [.entered (.program (p ++ q))]) = r,
    ev.handleProgram p (w.log [.entered (.program p)]) = r' at hfirst ⊢
  cases hfirst with
  | error h => exact congrArg (Prod.mk _) h
  | @ok v w₁ w₁' h =>
    show ending (closing (ev.handleProgram q w₁)) = ending (ev.run q w₁')
    rw [run_eq_closing hev]
    exact ending_closing (hkeep.handleProgram q _ _ h)

/-- A run in a used context leaves what was on the stack, and behind it what it leaves in a fresh
one. -/
theorem run_behind (p : Program) (w : World σ ω) :
    match ev.execute p w with
    | .ok results w' => ∃ w'', ev.run p w = .ok (w.context.stack ++ results) w'' ∧
        w''.state = w'.state
    | .error e w' => ∃ w'', ev.run p w = .error e w'' ∧ w''.state = w'.state := by
  -- an execution starts in the same state, without the results
  let fresh : World σ ω := { w with context := .fresh ev.policy }
  have hstart : Behind w.context.stack w.front fresh.front := ⟨(List.append_nil _).symm, rfl⟩
  have hresult := (keepStep_behind hev w.context.stack).handleProgram p
    (w.log [.entered (.program p)]) (fresh.log [.entered (.program p)]) hstart
  rw [execute, run_eq_closing hev, run_eq_closing hev]
  generalize ev.handleProgram p (w.log _) = r, ev.handleProgram p (fresh.log _) = r' at hresult ⊢
  cases hresult with
  | error h => exact ⟨_, rfl, h.2⟩
  | ok h => exact ⟨_, congrArg (EStateM.Result.ok · _) h.1, h.2⟩

end Runs

/-- A joined program runs as its parts do one after another: when the first succeeds it ends as the
second does behind it, and else as the first. A run ends as an execution from the same state, with
the results that were there before in front of those of the execution. -/
theorem run_append (b : Backend σ) (policy : ClaimPolicy) (w : World σ ω) :
    let ev : Evaluator σ ω := ⟨b, [], policy⟩
    (∀ p q : Program, ending (ev.run (p ++ q) w) = match ev.run p w with
      | .ok _ w' => ending (ev.run q w')
      | .error e w' => ending (.error e w')) ∧
    ∀ p : Program, match ev.execute p w with
      | .ok results w' => ∃ w'', ev.run p w = .ok (w.context.stack ++ results) w'' ∧
          w''.state = w'.state
      | .error e w' => ∃ w'', ev.run p w = .error e w'' ∧ w''.state = w'.state :=
  ⟨fun p q => ending_run_append rfl p q w, fun p => run_behind rfl p w⟩

end MiniSql.Evaluator
