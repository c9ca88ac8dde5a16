import MiniSql.Proofs.Insertion
import MiniSql.Proofs.Lockstep

/-!
# Guarded tables

An extension guards a table if its hook before each insertion into the table fails. One guard is
enough, in whatever place it is registered: the hooks before a node run to the last before any claim
is asked for, and a node that is not claimed is not handled until then. So no insertion into a
guarded table reaches the backend, and no claim can bring one about (`guarded`).

That no extension is even asked for a claim on such an insertion shows in two ways. The journal has
no claim on one, and a run is the same whatever the extensions would claim there.
-/

namespace MiniSql

variable {ε σ ω τ α : Type}

/-- The node is an insertion into the table. -/
def Node.insertsInto (table : String) : Node → Prop
  | .insert i => i.table = table
  | _ => False

/-- The extension lets no insertion into the table begin. -/
def Extension.Guards (x : Extension ω) (table : String) : Prop :=
  ∀ node : Node, node.insertsInto table → ∀ context memory,
    ∃ e, (x.before node context memory).1 = .error e

/-- The extensions differ at most in their claims on insertions into the table. -/
structure Extension.AgreeApart (table : String) (x x' : Extension ω) : Prop where
  name : x.name = x'.name
  before : x.before = x'.before
  claim? : ∀ node : Node, ¬ node.insertsInto table → x.claim? node = x'.claim? node
  after : x.after = x'.after

/-- The event serves an insertion into the table: an extension claims it, or the backend receives
it. -/
def Event.Serves (table : String) : Event → Prop
  | asked _ node => node.insertsInto table
  | requested (.insert i) => i.table = table
  | _ => False

/-- Only insertions into the table change what is seen of the backend's state. -/
structure Backend.Confines (b : Backend σ) (table : String) (view : σ → τ) : Prop where
  select : ∀ q state, view (b.select q state).state = view state
  insert : ∀ i state, i.table ≠ table → view (b.insert i state).state = view state

theorem Backend.confines_nothing (b : Backend σ) (table : String) :
    b.Confines table fun _ => () := ⟨fun _ _ => rfl, fun _ _ _ => rfl⟩

namespace Store

/-- An insertion into another table leaves this one alone. -/
theorem table?_insert_of_ne {i : Insertion} {name : String} (h : i.table ≠ name) (store : Store) :
    (backend.insert i store).state.table? name = store.table? name := by
  dsimp only [backend]
  cases hinsert : store.insert i with
  | ok after =>
    obtain ⟨table, -, -, -, rfl⟩ := Insertion.insert_ok hinsert
    exact (table?_put store i.table name _).trans (if_neg h)
  | error e => rfl

/-- In a store only insertions into a table change it. -/
theorem confines (table : String) : backend.Confines table (·.table? table) where
  select q store := congrArg (·.table? table) (backend_select q store).2
  insert _ store h := table?_insert_of_ne h store

end Store

namespace Evaluator

/-- Nothing is done towards an insertion into the table, so that what only such insertions change is
kept, and nothing depends on what the extensions would claim there. -/
structure Bars (table : String) (ev : Evaluator σ ω)
    (act : Evaluator σ ω → Action EvalError σ ω α) : Prop where
  unserved : ∀ w, ∃ events, (worldOf (act ev w)).journal = (w.log events).journal ∧
    ∀ event ∈ events, ¬ event.Serves table
  kept : ∀ {τ : Type} {view : σ → τ}, ev.backend.Confines table view →
    ∀ w, view (worldOf (act ev w)).state = view w.state
  unasked : ∀ xs, List.Forall₂ (Extension.AgreeApart table) ev.extensions xs →
    act ev = act { ev with extensions := xs }

/-! ## Worlds on the way -/

/-- The worlds are the same, and nothing has been done towards an insertion into the table since the
world `w₀`. What is to be seen of the table in the backend's state is as it was then. -/
structure Barred (table : String) (view : σ → τ) (w₀ w w' : World σ ω) : Prop where
  eq : w = w'
  unserved : ∃ events, w.journal = (w₀.log events).journal ∧ ∀ event ∈ events, ¬ event.Serves table
  view_eq : view w.state = view w₀.state

namespace Barred

variable {table : String} {view : σ → τ} {w₀ w w' : World σ ω}

theorem refl (w : World σ ω) : Barred table view w w w :=
  ⟨rfl, ⟨[], by rw [World.log_nil], List.forall_mem_nil _⟩, rfl⟩

variable (h : Barred table view w₀ w w')

include h

/-- Events that do not serve the table may be entered in both worlds. -/
theorem log {events : List Event} (hevents : ∀ event ∈ events, ¬ event.Serves table) :
    Barred table view w₀ (w.log events) (w'.log events) := by
  obtain ⟨rfl, ⟨before, hjournal, hbefore⟩, hview⟩ := h
  refine ⟨rfl, ⟨before ++ events, ?_, fun event hevent => ?_⟩, hview⟩
  · rw [← World.log_log, World.log, World.log, hjournal]
  · exact (List.mem_append.mp hevent).elim (hbefore event) (hevents event)

theorem entry {event : Event} (hevent : ¬ event.Serves table) :
    Barred table view w₀ (w.log [event]) (w'.log [event]) :=
  h.log (List.forall_mem_singleton.mpr hevent)

/-- Contexts and the memory of the extensions may change. -/
theorem change (context : Context) (memory : ω) :
    Barred table view w₀ { w with context, memory } { w' with context, memory } := by
  obtain ⟨rfl, hjournal, hview⟩ := h
  exact ⟨rfl, hjournal, hview⟩

/-- A request that does not serve the table leaves the view of it as it is. -/
theorem answered {r : Request} {reply : Reply σ α} (hr : ¬ (Event.requested r).Serves table)
    (hreply : view reply.state = view w.state) :
    Barred table view w₀ (w.answered r reply) (w'.answered r reply) := by
  obtain ⟨rfl, hjournal, hview⟩ := h
  have hreplied : Barred table view w₀ { w with state := reply.state }
      { w with state := reply.state } := ⟨rfl, hjournal, hreply.trans hview⟩
  refine hreplied.log (List.forall_mem_cons.mpr ⟨hr, fun event hevent => ?_⟩)
  obtain ⟨_, -, rfl⟩ := List.mem_map.mp hevent
  exact id

end Barred

section Steps

variable {table : String} {view : σ → τ} {w₀ : World σ ω}

theorem Barred.lockstep_record {event : Event} (hevent : ¬ event.Serves table) :
    Lockstep (Barred table view w₀) (record event : Action ε σ ω Unit) (record event) := by
  intro w w' h
  rw [record_eq, record_eq]
  exact .ok (h.entry hevent)

theorem Barred.lockstep_runHook (hook : Hook ω) :
    Lockstep (Barred table view w₀) (runHook hook : Action EvalError σ ω Unit) (runHook hook) := by
  intro w w' h
  obtain rfl := h.eq
  rw [runHook]
  cases hook w.context w.memory with
  | mk answer rest =>
    cases answer with
    | ok _ => exact .ok (h.change rest.1 rest.2)
    | error e => exact .error (h.change rest.1 rest.2)

/-- Extensions that have the same hooks do the same. -/
theorem Barred.lockstep_runHooks {hook : Extension ω → Hook ω} {event : Nat → Nat → Event}
    (hevent : ∀ place depth, ¬ (event place depth).Serves table) {xs xs' : List (Extension ω)}
    (hxs : List.Forall₂ (fun x x' => hook x = hook x') xs xs') :
    Lockstep (Barred table view w₀)
      (runHooks hook event xs.zipIdx : Action EvalError σ ω Unit)
      (runHooks hook event xs'.zipIdx) := by
  refine .runHooks (fun place h => ?_) ((forall₂_zipIdx hxs 0).imp fun x x' hx => ⟨hx.1, ?_⟩)
  · obtain rfl := h.eq
    exact h.entry (hevent place _)
  · rw [hx.2]
    exact Barred.lockstep_runHook _

theorem runHook_of_error {hook : Hook ω} {w : World σ ω} {e : ExtensionError}
    (h : (hook w.context w.memory).1 = .error e) :
    ∃ w', (runHook hook : Action EvalError σ ω Unit) w = .error (.extension e) w' := by
  rw [runHook]
  cases hresult : hook w.context w.memory with
  | mk answer rest =>
    rw [hresult] at h
    obtain rfl : answer = .error e := h
    exact ⟨_, rfl⟩

/-- One hook that always fails is enough for the hooks to fail. -/
theorem runHooks_fails {hook : Extension ω → Hook ω} {event : Nat → Nat → Event}
    {xs : List (Extension ω × Nat)}
    (h : ∃ x ∈ xs, ∀ context memory, ∃ e, (hook x.1 context memory).1 = .error e)
    (w : World σ ω) :
    ∃ e w', (runHooks hook event xs : Action EvalError σ ω Unit) w = .error e w' := by
  -- by induction on the extensions: the hook that fails is called, unless one before it fails
  induction xs generalizing w with
  | nil =>
    obtain ⟨x, hx, -⟩ := h
    nomatch hx
  | cons y xs ih =>
    obtain ⟨x, hx, hfails⟩ := h
    rw [runHooks_cons]
    rcases List.mem_cons.mp hx with rfl | hx
    · obtain ⟨e, he⟩ := hfails w.context w.memory
      obtain ⟨w', hw'⟩ := runHook_of_error (w := w.log [event x.2 w.context.depth]) he
      exact ⟨_, w', bind_of_error hw'⟩
    · rw [bind_eq]
      cases runHook (hook y.1) (w.log [event y.2 w.context.depth]) with
      | ok _ w' => exact ih ⟨x, hx, hfails⟩ w'
      | error e w' => exact ⟨e, w', rfl⟩

end Steps

/-! ## Evaluators under guard -/

section Guarded

variable {ev ev' : Evaluator σ ω} {table : String} {view : σ → τ} {w₀ : World σ ω}
  (hxs : List.Forall₂ (Extension.AgreeApart table) ev.extensions ev'.extensions)

include hxs

/-- On nodes apart from the table the extensions make the same claims. -/
theorem Barred.lockstep_claim? {node : Node} (hnode : ¬ node.insertsInto table) :
    Lockstep (Barred table view w₀) (ev.claim? node) (ev'.claim? node) := by
  intro w w' h
  obtain rfl := h.eq
  have hasking : ev.asking node w = ev'.asking node w := by
    refine offersFrom_of_forall₂ ((forall₂_zipIdx hxs 0).imp fun x x' hx => ⟨hx.1, hx.2.name, ?_⟩) _
    intro memory
    rw [hx.2.claim? node hnode]
  have hresolved : ev.resolved node w = ev'.resolved node w := by
    rw [resolved, resolved, resolution, resolution, offersOn, offersOn, hasking]
  rw [claim?_eq, claim?_eq, ← hresolved, resolution, resolution, offersOn, offersOn, ← hasking]
  refine .ok ?_
  have hrecalled : Barred table view w₀ (w.recall (ev.asking node w).2)
      (w.recall (ev.asking node w).2) := h.change w.context _
  refine hrecalled.log fun event hevent => ?_
  obtain ⟨_, rfl⟩ | ⟨_, rfl⟩ | ⟨_, _, rfl⟩ := mem_resolved hevent
  · exact hnode
  · exact id
  · exact id

omit hxs in
/-- One guard among the extensions suffices for the hooks before an insertion to fail. -/
theorem beforeHooks_fails (hguard : ∃ x ∈ ev.extensions, x.Guards table) {node : Node}
    (hnode : node.insertsInto table) (w : World σ ω) :
    ∃ e w', ev.beforeHooks node w = .error e w' := by
  obtain ⟨x, hx, hguards⟩ := hguard
  rw [← List.zipIdx_map_fst 0 ev.extensions] at hx
  obtain ⟨y, hy, rfl⟩ := List.mem_map.mp hx
  exact runHooks_fails ⟨y, hy, hguards node hnode⟩ w

theorem Barred.lockstep_beforeHooks (node : Node) :
    Lockstep (Barred table view w₀) (ev.beforeHooks node) (ev'.beforeHooks node) :=
  Barred.lockstep_runHooks (fun _ _ => id) (hxs.imp fun _ _ hx => congrFun hx.before node)

theorem Barred.lockstep_afterHooks (node : Node) :
    Lockstep (Barred table view w₀) (ev.afterHooks node) (ev'.afterHooks node) :=
  Barred.lockstep_runHooks (fun _ _ => id) (hxs.imp fun _ _ hx => congrFun hx.after node)

omit hxs in
/-- So an insertion into a guarded table is not even opened. -/
theorem opening_fails (hguard : ∃ x ∈ ev.extensions, x.Guards table) {node : Node}
    (hnode : node.insertsInto table) (w : World σ ω) :
    ∃ e w', ev.opening node w = .error e w' := by
  obtain ⟨e, w', hbefore⟩ := beforeHooks_fails hguard hnode (w.log [.entered node])
  exact ⟨e, w', (bind_of_ok (record_eq w _)).trans (bind_of_error hbefore)⟩

/-- Nodes are opened alike: those that are different for the extensions fail in the hooks before
them. -/
theorem Barred.lockstep_opening (hguard : ∃ x ∈ ev.extensions, x.Guards table) (node : Node) :
    Lockstep (Barred table view w₀) (ev.opening node) (ev'.opening node) := by
  refine (Barred.lockstep_record id).bind fun _ => ?_
  by_cases hnode : node.insertsInto table
  · -- here the claims may differ, but no extension comes to be asked for one
    exact (Barred.lockstep_beforeHooks hxs node).bind_of_fails (beforeHooks_fails hguard hnode)
  · exact (Barred.lockstep_beforeHooks hxs node).bind fun _ => Barred.lockstep_claim? hxs hnode

/-- Insertions into the table are never handled. -/
theorem keepStep_of_guard (hguard : ∃ x ∈ ev.extensions, x.Guards table)
    (hbackend : ev.backend = ev'.backend) (hview : ev.backend.Confines table view) :
    KeepStep (Barred table view w₀) ev ev' (¬ ·.insertsInto table) where
  around node x y hxy := by
    have hopening : Lockstep (Barred table view w₀) (ev.opening node) (ev'.opening node) :=
      Barred.lockstep_opening hxs hguard node
    by_cases hnode : node.insertsInto table
    · rw [around_eq_opening, around_eq_opening]
      exact hopening.bind_of_fails (opening_fails hguard hnode)
    · exact .around hopening (Barred.lockstep_record id) (Barred.lockstep_afterHooks hxs node)
        (hxy hnode)
  requesting r := Barred.lockstep_record id
  push v w w' h := by
    rw [push_eq, push_eq, ← h.eq]
    exact .ok (h.eq ▸ h.change (w.context.push v) w.memory)
  select s c? _ := by
    rw [Evaluator.select, Evaluator.select, ← hbackend]
    exact .request (fun h => congrArg World.state h.eq) _ fun h => h.answered id (hview.select _ _)
  insert i values hi := by
    rw [Evaluator.insert, Evaluator.insert, ← hbackend]
    exact .request (fun h => congrArg World.state h.eq) _ fun h =>
      h.answered hi (hview.insert _ _ hi)

end Guarded

/-! ## Whole runs -/

section Runs

variable {ev ev' : Evaluator σ ω} {table : String} {view : σ → τ}
  (hguard : ∃ x ∈ ev.extensions, x.Guards table)
  (hxs : List.Forall₂ (Extension.AgreeApart table) ev.extensions ev'.extensions)
  (hbackend : ev.backend = ev'.backend)
  (hview : ev.backend.Confines table view)

include hguard hxs hbackend hview

/-- A run serves no request on the guarded table, whatever is claimed on it. -/
theorem barred_run (p : Program) (w₀ : World σ ω) :
    Lockstep (Barred table view w₀) (ev.run p) (ev'.run p) :=
  (keepStep_of_guard hxs hguard hbackend hview).run (fun _ _ h => h.eq ▸ rfl) p

/-- Nor does an execution. -/
theorem barred_execute (hpolicy : ev.policy = ev'.policy) (p : Program) (w : World σ ω) :
    Alike (Barred table view w) (ev.execute p w) (ev'.execute p w) := by
  refine (barred_run hguard hxs hbackend hview p w).execute ?_ fun {v _} h => ?_
  · rw [← hpolicy]
    exact (Barred.refl w).change _ w.memory
  · exact h.eq ▸ h.change w.context v.memory

theorem barred_visit? (node? : Option Node) (w₀ : World σ ω) :
    Lockstep (Barred table view w₀) (ev.visit? node?) (ev'.visit? node?) := by
  cases node? with
  | none => exact .pure _
  | some node => exact (keepStep_of_guard hxs hguard hbackend hview).visit node

end Runs

theorem agreeApart_refl (table : String) (xs : List (Extension ω)) :
    List.Forall₂ (Extension.AgreeApart table) xs xs :=
  List.forall₂_same.mpr fun _ _ => ⟨rfl, rfl, fun _ _ => rfl, rfl⟩

theorem bars_of_alike {ev : Evaluator σ ω} {table : String}
    {act : Evaluator σ ω → Action EvalError σ ω α}
    (h : ∀ xs, List.Forall₂ (Extension.AgreeApart table) ev.extensions xs →
      ∀ {τ : Type} {view : σ → τ}, ev.backend.Confines table view →
        ∀ w, Alike (Barred table view w) (act ev w) (act { ev with extensions := xs } w)) :
    Bars table ev act where
  unserved w := by
    have hnothing := ev.backend.confines_nothing table
    exact (h _ (agreeApart_refl table ev.extensions) hnothing w).worldOf.unserved
  kept hview w := (h _ (agreeApart_refl table ev.extensions) hview w).worldOf.view_eq
  unasked xs hxs := funext fun w =>
    (h xs hxs (ev.backend.confines_nothing table) w).eq fun _ _ hw => hw.eq

/-- A guarded table is not inserted into, by no run, execution or visit and whatever else is
registered. In a store it stays as it is. -/
theorem guarded {xs : List (Extension ω)} {table : String} (hguard : ∃ x ∈ xs, x.Guards table)
    (policy : ClaimPolicy) (p : Program) (node? : Option Node) :
    (∀ (σ : Type) (b : Backend σ),
      let ev : Evaluator σ ω := ⟨b, xs, policy⟩
      Bars table ev (·.run p) ∧ Bars table ev (·.execute p) ∧ Bars table ev (·.visit? node?)) ∧
    ∀ w : World Store ω,
      let ev : Evaluator Store ω := ⟨Store.backend, xs, policy⟩
      (worldOf (ev.run p w)).state.table? table = w.state.table? table ∧
      (worldOf (ev.execute p w)).state.table? table = w.state.table? table ∧
      (worldOf (ev.visit? node? w)).state.table? table = w.state.table? table := by
  have hbars (σ : Type) (b : Backend σ) :
      let ev : Evaluator σ ω := ⟨b, xs, policy⟩
      Bars table ev (·.run p) ∧ Bars table ev (·.execute p) ∧ Bars table ev (·.visit? node?) := by
    intro ev
    have hbackend (xs' : List (Extension ω)) :
        ev.backend = Evaluator.backend { ev with extensions := xs' } := rfl
    refine ⟨bars_of_alike fun xs' hxs _ _ hview w => ?_,
      bars_of_alike fun xs' hxs _ _ hview w => ?_, bars_of_alike fun xs' hxs _ _ hview w => ?_⟩
    · exact barred_run hguard hxs (hbackend xs') hview p w w w (.refl w)
    · exact barred_execute hguard hxs (hbackend xs') hview rfl p w
    · exact barred_visit? hguard hxs (hbackend xs') hview node? w w w (.refl w)
  obtain ⟨hrun, hexecute, hvisit⟩ := hbars Store Store.backend
  have htable := Store.confines table
  exact ⟨hbars, fun w => ⟨hrun.kept htable w, hexecute.kept htable w, hvisit.kept htable w⟩⟩

namespace Warded

/-- Puts a result on the stack before each node, and claims every insertion. -/
def eager : Script :=
  ⟨"eager", true, [⟨none, none, 0, .push .null⟩], [⟨some "Insert", none, 0, .claim .null⟩], []⟩

/-- Lets nothing be inserted into the table `t`. -/
def warden : Script := ⟨"warden", true, [⟨some "Insert", some "t", 0, .fail "no" none⟩], [], []⟩

def extensions : List (Extension Unit) := [eager.extension, warden.extension]

def statements : Program := [.insert ⟨"u", none, .array []⟩, .insert ⟨"t", none, .array []⟩]

/-- To fail before every insertion into a table is to guard it. -/
theorem warden_guards : warden.extension.Guards "t" := by
  intro node hnode context memory
  cases node with
  | insert i =>
    have hrule : Scripted.ruleFor? warden.before (.insert i) =
        some ⟨some "Insert", some "t", 0, .fail "no" none⟩ := by
      obtain ⟨table, _, _⟩ := i
      obtain rfl : table = "t" := hnode
      rfl
    refine ⟨⟨"warden", "no"⟩, ?_⟩
    show (Scripted.hook "warden" warden.before (.insert i) context memory).1 = _
    rw [Scripted.hook, hrule]
    rfl
  | _ => exact absurd hnode id

/-- The guard is registered last, and still no claim on the insertion is asked for. -/
theorem guarded_statements : (∃ x ∈ extensions, x.Guards "t") ∧
    (∀ (σ : Type) (b : Backend σ),
      let ev : Evaluator σ Unit := ⟨b, extensions, .race⟩
      Bars "t" ev (·.run statements) ∧ Bars "t" ev (·.execute statements) ∧
        Bars "t" ev (·.visit? (some (.program statements)))) ∧
    ∀ w : World Store Unit,
      let ev : Evaluator Store Unit := ⟨Store.backend, extensions, .race⟩
      (worldOf (ev.run statements w)).state.table? "t" = w.state.table? "t" ∧
      (worldOf (ev.execute statements w)).state.table? "t" = w.state.table? "t" ∧
      (worldOf (ev.visit? (some (.program statements)) w)).state.table? "t" =
        w.state.table? "t" := by
  have hguard : ∃ x ∈ extensions, x.Guards "t" :=
    ⟨warden.extension, List.mem_cons_of_mem _ List.mem_cons_self, warden_guards⟩
  exact ⟨hguard, guarded hguard .race statements (some (.program statements))⟩

end Warded

end Evaluator

end MiniSql
