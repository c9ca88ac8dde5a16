import Mathlib.Data.List.Range
import MiniSql.Event

/-!
# Complete traversals

The protocol between a run and its extensions, as the sequences of calls that it allows. Each node
that is visited has the hooks before it called, is offered to the extensions, has its children
visited unless it is claimed, and has the hooks after it called. `Visits` are the sequences of calls
that follow this protocol to the end, whatever the extensions claim.

* `Visits.nested`: in a complete traversal the hooks of each extension enclose each other like
  brackets.
* `Visits.filterMap_before?`: each extension has its hook before each node that is visited.
* `exists_visits`: every list of nodes can be visited to the end.
-/

namespace MiniSql

/-! ## Calls -/

/-- One step of the protocol. Extensions are given by their place in the order of registration. -/
inductive Call
  /-- The visit of a node begins. -/
  | visit (node : Node)
  | before (place : Nat) (node : Node)
  /-- An extension is asked for a claim and makes one. -/
  | ask (place : Nat) (node : Node)
  | after (place : Nat) (node : Node)

namespace Call

def node : Call → Node
  | visit node | before _ node | ask _ node | after _ node => node

/-- The node whose visit begins. -/
def visited? : Call → Option Node
  | visit node => some node
  | _ => none

/-- The node before which the extension's hook runs. -/
def before? (place : Nat) : Call → Option Node
  | before p node => if p = place then some node else none
  | _ => none

/-- The extension's hook runs before or after a node. -/
def isAround (place : Nat) : Call → Bool
  | before p _ | after p _ => p == place
  | visit _ | ask .. => false

end Call

/-- The step of the protocol that an event is, if it is one. -/
def Event.call? : Event → Option Call
  | .entered node => some (.visit node)
  | .before place node _ => some (.before place node)
  | .asked place node => some (.ask place node)
  | .after place node _ => some (.after place node)
  | _ => none

/-- The parts of a node that are visited along with it, from left to right. Lists of column names
are no parts of anything. -/
def Node.children : Node → List Node
  | .program p => p.map Statement.node
  | .select s => s.condition?.toList.map .expr
  | .insert i => [.expr i.values]
  | .expr (.array elements) => elements.map .expr
  | .expr (.binary left _ right) => [.expr left, .expr right]
  | .expr _ | .names _ => []

/-! ## Complete traversals -/

/-- The visit of a node begins, and the hooks before it run. -/
def enter (count : Nat) (node : Node) : List Call :=
  .visit node :: (List.range count).map (.before · node)

/-- The extensions in these places make claims on a node. -/
def asks (places : List Nat) (node : Node) : List Call := places.map (.ask · node)

/-- The hooks after a node run. -/
def leave (count : Nat) (node : Node) : List Call := (List.range count).map (.after · node)

/-- The calls while nodes are visited one after another, each to its end. Claims are made in the
order of registration, and the children of a claimed node are not visited. -/
inductive Visits (count : Nat) : List Node → List Call → Prop
  | nil : Visits count [] []
  | claimed {node : Node} {nodes : List Node} {places : List Nat} {calls : List Call}
      (hplaces : places.Sublist (List.range count)) (hclaimed : places ≠ [])
      (hrest : Visits count nodes calls) :
      Visits count (node :: nodes)
        (enter count node ++ asks places node ++ leave count node ++ calls)
  | handled {node : Node} {nodes : List Node} {places : List Nat} {below calls : List Call}
      (hplaces : places.Sublist (List.range count)) (hbelow : Visits count node.children below)
      (hrest : Visits count nodes calls) :
      Visits count (node :: nodes)
        (enter count node ++ asks places node ++ below ++ leave count node ++ calls)

variable {count : Nat} {nodes more : List Node} {calls later : List Call}

/-- Traversals of two lists of nodes follow one another. -/
theorem Visits.append (h : Visits count nodes calls) (hmore : Visits count more later) :
    Visits count (nodes ++ more) (calls ++ later) := by
  induction h with
  | nil => exact hmore
  | claimed hplaces hclaimed _ ih =>
    rw [List.cons_append, List.append_assoc]
    exact .claimed hplaces hclaimed ih
  | handled hplaces hbelow _ _ ih =>
    rw [List.cons_append, List.append_assoc]
    exact .handled hplaces hbelow ih

/-! ## Every node can be visited -/

mutual

/-- Induction over expressions as nodes: what passes from the children to a node holds of all of
them. -/
theorem Node.induction_expr {motive : Node → Prop}
    (h : ∀ node : Node, (∀ child ∈ node.children, motive child) → motive node) :
    (e : Expr) → motive (.expr e)
  | .identifier _ => h _ (List.forall_mem_nil _)
  | .number _ => h _ (List.forall_mem_nil _)
  | .string _ => h _ (List.forall_mem_nil _)
  | .boolean _ => h _ (List.forall_mem_nil _)
  | .array elements => h _ (induction_exprs h elements)
  | .binary left _ right => h _ (List.forall_mem_cons.mpr
      ⟨induction_expr h left, List.forall_mem_singleton.mpr (induction_expr h right)⟩)

theorem Node.induction_exprs {motive : Node → Prop}
    (h : ∀ node : Node, (∀ child ∈ node.children, motive child) → motive node) :
    (es : List Expr) → ∀ child ∈ es.map Node.expr, motive child
  | [] => List.forall_mem_nil _
  | e :: es => List.forall_mem_cons.mpr ⟨induction_expr h e, induction_exprs h es⟩

end

/-- What holds of a node as soon as it holds of its children holds of every node. -/
theorem Node.induction_children {motive : Node → Prop}
    (h : ∀ node : Node, (∀ child ∈ node.children, motive child) → motive node) (node : Node) :
    motive node := by
  have hstatement (s : Statement) : motive s.node := by
    cases s with
    | select s =>
      apply h
      intro child hchild
      obtain ⟨e, -, rfl⟩ := List.mem_map.mp hchild
      exact Node.induction_expr h e
    | insert i => exact h _ (List.forall_mem_singleton.mpr (Node.induction_expr h i.values))
  cases node with
  | select s => exact hstatement (.select s)
  | insert i => exact hstatement (.insert i)
  | names items => exact h _ (List.forall_mem_nil _)
  | expr e => exact Node.induction_expr h e
  | program p =>
    apply h
    intro child hchild
    obtain ⟨s, -, rfl⟩ := List.mem_map.mp hchild
    exact hstatement s

theorem exists_visits_of_forall (h : ∀ node ∈ nodes, ∃ calls, Visits count [node] calls) :
    ∃ calls, Visits count nodes calls := by
  induction nodes with
  | nil => exact ⟨[], .nil⟩
  | cons node nodes ih =>
    obtain ⟨⟨calls, hnode⟩, hnodes⟩ := List.forall_mem_cons.mp h
    obtain ⟨later, hlater⟩ := ih hnodes
    exact ⟨calls ++ later, hnode.append hlater⟩

/-- Every list of nodes can be visited to the end, for instance without any claim. -/
theorem exists_visits (count : Nat) (nodes : List Node) : ∃ calls, Visits count nodes calls := by
  have hnode (node : Node) : ∃ calls, Visits count [node] calls := by
    induction node using Node.induction_children with
    | h node ih =>
      obtain ⟨below, hbelow⟩ := exists_visits_of_forall ih
      exact ⟨_, .handled (List.nil_sublist _) hbelow .nil⟩
  exact exists_visits_of_forall fun node _ => hnode node

/-- Calling fewer extensions gives the beginning of what all of them give. -/
theorem enter_prefix {k count : Nat} (h : k ≤ count) (node : Node) :
    enter k node <+: enter count node := by
  rw [enter, enter, ← Nat.min_eq_left h, ← List.take_range, List.map_take]
  exact List.cons_prefix_cons.mpr ⟨rfl, List.take_prefix _ _⟩

theorem leave_prefix {k count : Nat} (h : k ≤ count) (node : Node) :
    leave k node <+: leave count node := by
  rw [leave, leave, ← Nat.min_eq_left h, ← List.take_range, List.map_take]
  exact List.take_prefix _ _

/-! ## Brackets -/

/-- The hooks of an extension enclose each other: a hook after a node belongs to the last hook
before a node that is still open. -/
inductive Nested (place : Nat) : List Call → Prop
  | nil : Nested place []
  | cons {node : Node} {inner later : List Call} (hinner : Nested place inner)
      (hlater : Nested place later) :
      Nested place (.before place node :: (inner ++ .after place node :: later))

section Places

variable {place count : Nat} (hplace : place < count) (node : Node)

include hplace

theorem filter_range_beq : (List.range count).filter (· == place) = [place] := by
  rw [List.filter_beq, List.count_range, if_pos hplace]
  rfl

theorem filter_enter : (enter count node).filter (·.isAround place) = [.before place node] := by
  have hbefores : ((List.range count).map (Call.before · node)).filter (·.isAround place) =
      ((List.range count).filter (· == place)).map (Call.before · node) := List.filter_map
  rw [enter, List.filter_cons_of_neg Bool.false_ne_true, hbefores, filter_range_beq hplace]
  rfl

theorem filter_leave : (leave count node).filter (·.isAround place) = [.after place node] := by
  have hafters : ((List.range count).map (Call.after · node)).filter (·.isAround place) =
      ((List.range count).filter (· == place)).map (Call.after · node) := List.filter_map
  rw [leave, hafters, filter_range_beq hplace]
  rfl

end Places

theorem filter_asks (place : Nat) (places : List Nat) (node : Node) :
    (asks places node).filter (·.isAround place) = [] := by
  rw [asks, List.filter_map]
  exact congrArg _ (List.filter_eq_nil_iff.mpr fun _ _ => Bool.false_ne_true)

/-- In a complete traversal the hooks of each extension are nested. -/
theorem Visits.nested {place : Nat} (hplace : place < count) (h : Visits count nodes calls) :
    Nested place (calls.filter (·.isAround place)) := by
  induction h with
  | nil => exact .nil
  | claimed _ _ _ ih =>
    simp only [List.filter_append, filter_enter hplace, filter_leave hplace, filter_asks]
    exact .cons .nil ih
  | handled _ _ _ ihbelow ihrest =>
    simp only [List.filter_append, filter_enter hplace, filter_leave hplace, filter_asks,
      List.append_nil]
    rw [List.append_assoc]
    exact .cons ihbelow ihrest

/-- The nodes that an extension saw are told by its own calls around nodes. -/
theorem filterMap_before?_eq (place : Nat) (calls : List Call) :
    calls.filterMap (Call.before? place) =
      (calls.filter (·.isAround place)).filterMap (Call.before? place) := by
  rw [List.filterMap_filter]
  congr 1
  funext call
  cases call with
  | visit node => rfl
  | before p node => by_cases h : p = place <;> simp [Call.before?, Call.isAround, h]
  | ask p node => rfl
  | after p node => simp [Call.before?]

theorem visited?_enter (count : Nat) (node : Node) :
    (enter count node).filterMap Call.visited? = [node] := by
  show node :: ((List.range count).map (Call.before · node)).filterMap Call.visited? = [node]
  rw [List.filterMap_map]
  exact congrArg _ (List.filterMap_eq_nil_iff.mpr fun _ _ => rfl)

theorem visited?_leave (count : Nat) (node : Node) :
    (leave count node).filterMap Call.visited? = [] := by
  rw [leave, List.filterMap_map]
  exact List.filterMap_eq_nil_iff.mpr fun _ _ => rfl

theorem visited?_asks (places : List Nat) (node : Node) :
    (asks places node).filterMap Call.visited? = [] := by
  rw [asks, List.filterMap_map]
  exact List.filterMap_eq_nil_iff.mpr fun _ _ => rfl

/-- Each extension has its hook before each node that is visited, in the order of the visits. -/
theorem Visits.filterMap_before? {place : Nat} (hplace : place < count)
    (h : Visits count nodes calls) :
    calls.filterMap (Call.before? place) = calls.filterMap Call.visited? := by
  have hbefore (node : Node) :
      [Call.before place node].filterMap (Call.before? place) = [node] := by
    simp [Call.before?]
  have hafter (node : Node) : [Call.after place node].filterMap (Call.before? place) = [] := rfl
  induction h with
  | nil => rfl
  | claimed _ _ _ ih =>
    rw [filterMap_before?_eq] at ih ⊢
    simp only [List.filter_append, List.filterMap_append, filter_enter hplace,
      filter_leave hplace, filter_asks, hbefore, hafter, ih, visited?_enter, visited?_leave,
      visited?_asks]
    rfl
  | handled _ _ _ ihbelow ihrest =>
    rw [filterMap_before?_eq] at ihbelow ihrest ⊢
    simp only [List.filter_append, List.filterMap_append, filter_enter hplace,
      filter_leave hplace, filter_asks, hbefore, hafter, ihbelow, ihrest, visited?_enter,
      visited?_leave, visited?_asks]
    rfl

/-! ## Nodes that are visited -/

/-- Lists of names are below no node. -/
theorem Node.names_notMem_children (node : Node) (items : List String) :
    Node.names items ∉ node.children := by
  intro h
  cases node with
  | program p =>
    obtain ⟨s, -, hs⟩ := List.mem_map.mp h
    cases s <;> nomatch hs
  | select s =>
    obtain ⟨e, -, he⟩ := List.mem_map.mp h
    nomatch he
  | insert i =>
    nomatch List.mem_singleton.mp h
  | names _ => nomatch h
  | expr e =>
    cases e with
    | array elements =>
      obtain ⟨e, -, he⟩ := List.mem_map.mp h
      nomatch he
    | binary left op right => simp [Node.children] at h
    | _ => nomatch h

theorem node_of_mem_enter {count : Nat} {node : Node} {call : Call} (h : call ∈ enter count node) :
    call.node = node := by
  rcases List.mem_cons.mp h with rfl | h
  · rfl
  · obtain ⟨_, -, rfl⟩ := List.mem_map.mp h
    rfl

theorem node_of_mem_leave {count : Nat} {node : Node} {call : Call} (h : call ∈ leave count node) :
    call.node = node := by
  obtain ⟨_, -, rfl⟩ := List.mem_map.mp h
  rfl

theorem node_of_mem_asks {places : List Nat} {node : Node} {call : Call}
    (h : call ∈ asks places node) : call.node = node := by
  obtain ⟨_, -, rfl⟩ := List.mem_map.mp h
  rfl

/-- No list of column names is visited below other nodes. -/
theorem Visits.node_ne_names {items : List String} (hnodes : Node.names items ∉ nodes)
    (h : Visits count nodes calls) {call : Call} (hcall : call ∈ calls) :
    call.node ≠ .names items := by
  induction h with
  | nil => nomatch hcall
  | claimed _ _ _ ih =>
    rw [List.mem_cons, not_or] at hnodes
    obtain ⟨hnode, hrest⟩ := hnodes
    simp only [List.mem_append] at hcall
    obtain ((hcall | hcall) | hcall) | hcall := hcall
    · exact node_of_mem_enter hcall ▸ Ne.symm hnode
    · exact node_of_mem_asks hcall ▸ Ne.symm hnode
    · exact node_of_mem_leave hcall ▸ Ne.symm hnode
    · exact ih hrest hcall
  | handled _ _ _ ihbelow ihrest =>
    rw [List.mem_cons, not_or] at hnodes
    obtain ⟨hnode, hrest⟩ := hnodes
    simp only [List.mem_append] at hcall
    obtain (((hcall | hcall) | hcall) | hcall) | hcall := hcall
    · exact node_of_mem_enter hcall ▸ Ne.symm hnode
    · exact node_of_mem_asks hcall ▸ Ne.symm hnode
    · exact ihbelow (Node.names_notMem_children _ items) hcall
    · exact node_of_mem_leave hcall ▸ Ne.symm hnode
    · exact ihrest hrest hcall

end MiniSql
