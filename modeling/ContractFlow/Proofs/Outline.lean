import ContractFlow.Proofs.Layout
import ContractFlow.Proofs.Execution

/-!
What paths through a control flow graph read. `FlowGraph.Trail` is the events along a path: those of
the statements of each node, and the outcome on each edge that has one. It depends on little of the
graph, its `Outline`: the number of nodes, and the events and the ways out of each. A graph that is
the layout of a function has an outline that the layout is drawn into
(`FlowGraph.LaidOut.outline_eq`), so that what is built can be followed on outlines alone.
-/

namespace ContractFlow

/-- The events of the statements of a node. -/
def FlowNode.events (n : FlowNode) : List Event :=
  n.statements.map fun s => .statement s.kind s.node

/-- The events along a path from one node to another. -/
inductive FlowGraph.Trail (g : FlowGraph) : Nat → Nat → List Event → Prop
  | stop : g.node i = .ok n → g.Trail i i n.events
  | step : g.node e.head = .ok n → e ∈ g.edges → g.Trail e.tail j t →
    g.Trail e.head j (n.events ++ e.label.toList.map .outcome ++ t)

@[ext]
structure Outline where
  size : Nat
  events : Nat → List Event
  /-- The outcomes and the ends of the edges that leave a node. -/
  exits : Nat → List (Option Branch × Nat)

namespace Outline

variable (o : Outline)

def grow : Outline := { o with size := o.size + 1 }

def connect (head tail : Nat) (outcome : Option Branch) : Outline :=
  { o with exits := fun k => if k = head then o.exits k ++ [(outcome, tail)] else o.exits k }

def link (current : Option Nat) (tail : Nat) (outcome : Option Branch) : Outline :=
  match current with
  | some head => o.connect head tail outcome
  | none => o

def push (index : Nat) (events : List Event) : Outline :=
  { o with events := fun k => if k = index then o.events k ++ events else o.events k }

variable {o} {head tail index k : Nat} {outcome : Option Branch} {current : Option Nat}
  {events : List Event}

@[simp] theorem grow_size : o.grow.size = o.size + 1 := rfl
@[simp] theorem grow_events : o.grow.events = o.events := rfl
@[simp] theorem grow_exits : o.grow.exits = o.exits := rfl
@[simp] theorem connect_size : (o.connect head tail outcome).size = o.size := rfl
@[simp] theorem connect_events : (o.connect head tail outcome).events = o.events := rfl
@[simp] theorem push_size : (o.push index events).size = o.size := rfl
@[simp] theorem push_exits : (o.push index events).exits = o.exits := rfl

@[simp] theorem connect_exits : (o.connect head tail outcome).exits k =
    if k = head then o.exits k ++ [(outcome, tail)] else o.exits k := rfl

@[simp] theorem push_events : (o.push index events).events k =
    if k = index then o.events k ++ events else o.events k := rfl

@[simp] theorem link_size : (o.link current tail outcome).size = o.size := by
  cases current <;> rfl

@[simp] theorem link_events : (o.link current tail outcome).events = o.events := by
  cases current <;> rfl

@[simp] theorem link_exits : (o.link current tail outcome).exits k =
    if current = some k then o.exits k ++ [(outcome, tail)] else o.exits k := by
  cases current with
  | none => rfl
  | some head => simp [link, eq_comm]

/-- Nothing is known of nodes that do not exist. -/
def Fresh (o : Outline) : Prop :=
  ∀ k, o.size ≤ k → o.events k = [] ∧ o.exits k = []

/-- Connects each of some nodes to a node. -/
def connectAll (o : Outline) (ends : List (Nat × Option Branch)) (tail : Nat) : Outline :=
  ends.foldl (fun o e => o.connect e.1 tail e.2) o

/-! ## Drawing a layout -/

/-- Adds nodes, edges and what is recorded. -/
def extend (o : Outline) (count : Nat) (edges : List FlowEdge)
    (records : List Record) : Outline where
  size := o.size + count
  events k := o.events k ++ (records.filter (·.index = k)).map fun x => .statement x.kind x.node
  exits k := o.exits k ++ (edges.filter (·.head = k)).map fun e => (e.label, e.tail)

@[simp] theorem extend_size {count : Nat} {edges : List FlowEdge} {records : List Record} :
    (o.extend count edges records).size = o.size + count := rfl

theorem extend_extend (o : Outline) (count count' : Nat) (edges edges' : List FlowEdge)
    (records records' : List Record) :
    (o.extend count edges records).extend count' edges' records' =
      o.extend (count + count') (edges ++ edges') (records ++ records') := by
  simp only [extend, List.filter_append, List.map_append, List.append_assoc, Nat.add_assoc]

theorem extend_nil (o : Outline) : o.extend 0 [] [] = o := by
  simp only [extend, List.filter_nil, List.map_nil, List.append_nil, Nat.add_zero]

theorem grow_eq_extend (o : Outline) : o.grow = o.extend 1 [] [] := by
  simp only [extend, List.filter_nil, List.map_nil, List.append_nil, grow]

theorem connect_eq_extend (o : Outline) (head tail : Nat) (outcome : Option Branch) :
    o.connect head tail outcome = o.extend 0 [⟨head, tail, outcome⟩] [] := by
  refine Outline.ext rfl (funext fun k => ?_) (funext fun k => ?_)
  · simp [extend]
  · by_cases hk : head = k <;> simp [extend, hk, Ne.symm]

theorem link_eq_extend (o : Outline) (current : Option Nat) (tail : Nat) (outcome : Option Branch) :
    o.link current tail outcome = o.extend 0 (Build.linkEdges current tail outcome) [] := by
  cases current with
  | none => exact o.extend_nil.symm
  | some head => exact o.connect_eq_extend head tail outcome

theorem push_eq_extend (o : Outline) (index : Nat) (l : List (StatementKind × Node)) :
    o.push index (l.map fun x => .statement x.1 x.2) =
      o.extend 0 [] (l.map fun x => ⟨index, x.1, x.2⟩) := by
  refine Outline.ext rfl (funext fun k => ?_) (funext fun k => ?_)
  · by_cases hk : k = index
    · simp [extend, hk, List.filter_map, Function.comp_def]
    · simp [extend, hk, List.filter_map, Function.comp_def, Ne.symm hk]
  · simp [extend]

theorem connectAll_eq_extend (o : Outline) (ends : List (Nat × Option Branch)) (tail : Nat) :
    o.connectAll ends tail = o.extend 0 (ends.map fun e => ⟨e.1, tail, e.2⟩) [] := by
  induction ends generalizing o with
  | nil => exact o.extend_nil.symm
  | cons e ends ih =>
    refine (ih (o.connect e.1 tail e.2)).trans ?_
    rw [connect_eq_extend, extend_extend]
    rfl

end Outline

namespace FlowGraph

variable {g g' : FlowGraph}

def outline (g : FlowGraph) : Outline where
  size := g.graph.vertexCount
  events i := ((g.node i).toOption.map FlowNode.events).getD []
  exits i := (g.edges.filter (·.head = i)).map fun e => (e.label, e.tail)

theorem outline_events {i : Nat} {n : FlowNode} (h : g.node i = .ok n) :
    g.outline.events i = n.events := by
  simp [outline, h, Except.toOption]

theorem mem_outline_exits {i j : Nat} {outcome : Option Branch} :
    (outcome, j) ∈ g.outline.exits i ↔
      ∃ e ∈ g.edges, e.head = i ∧ e.tail = j ∧ e.label = outcome := by
  simp only [outline, List.mem_map, List.mem_filter, decide_eq_true_eq, Prod.mk.injEq]
  exact ⟨fun ⟨e, ⟨he, hh⟩, hl, ht⟩ => ⟨e, he, hh, ht, hl⟩,
    fun ⟨e, he, hh, ht, hl⟩ => ⟨e, ⟨he, hh⟩, hl, ht⟩⟩

theorem outline_events_eq (g : FlowGraph) (i : Nat) :
    g.outline.events i = (g.contentsAt i).map fun x => .statement x.1 x.2 := by
  cases hn : g.node i with
  | error err => simp [outline, contentsAt, hn, Except.toOption]
  | ok n =>
    rw [outline_events hn, contentsAt_of_node hn, FlowNode.contents, List.map_map]
    rfl

/-- The outline of a function without a body before its nodes are connected. -/
def ends : Outline := ⟨2, fun _ => [], fun _ => []⟩

/-- The outline of a graph that is the layout of a function. -/
theorem LaidOut.outline_eq {id : UInt64} {name : String} {body : Option Node}
    (L : g.LaidOut id name body) :
    g.outline = ends.extend (functionLayout body).tags.length (functionLayout body).edges
      (bodyRecords body) := by
  refine Outline.ext ?_ (funext fun k => ?_) (funext fun k => ?_)
  · rw [outline, ← length_headers, L.headers, List.length_append, List.length_map]
    rfl
  · rw [outline_events_eq, L.contentsAt, List.map_map]
    rfl
  · rw [outline, L.edges]
    rfl

end FlowGraph

end ContractFlow
