import ContractFlow.Flow.Graph

/-!
Data flow analyses and the facts they yield. An analysis says which way facts flow, how a node
changes a state and how states that meet are joined. Facts are stable if one more round of all nodes
changes nothing.
-/

namespace ContractFlow

inductive Direction where
  /-- From predecessors to successors. -/
  | forward
  /-- From successors to predecessors. -/
  | backward
  deriving DecidableEq, Repr

namespace Direction

def name : Direction → String
  | forward => "Forward"
  | backward => "Backward"

/-- The nodes that facts flow to a node from, each once. -/
def sources (d : Direction) (g : FlowGraph) (index : Nat) : List Nat :=
  match d with
  | forward => g.graph.predecessorList index
  | backward => g.graph.successorList index

/-- The nodes that facts flow to from a node, each once. -/
def sinks (d : Direction) (g : FlowGraph) (index : Nat) : List Nat :=
  match d with
  | forward => g.graph.successorList index
  | backward => g.graph.predecessorList index

/-- The order that nodes are first visited in, given the order that a search from the entry leaves
them in: sources before sinks where that is possible, and what the entry does not reach at the
end. -/
def orderAfter (d : Direction) (g : FlowGraph) (left : List Nat) : List Nat :=
  let reached :=
    match d with
    | forward => left.reverse
    | backward => left
  reached ++ g.graph.indices.filter (· ∉ reached)

/-- The order that nodes are first visited in. The neighbors of all nodes are looked up with it, so
that there is no order where a lookup fails. -/
def order (d : Direction) (g : FlowGraph) : Except Error (List Nat) := do
  (List.range g.graph.vertexCount).forM fun index => do
    discard (g.graph.predecessors index)
    discard (g.graph.successors index)
  return d.orderAfter g (← g.graph.postOrder FlowGraph.entry)

end Direction

structure Analysis (σ : Type) where
  direction : Direction
  /-- The state of nodes that no state reaches. -/
  bottom : σ
  /-- The state that flows out of a node, given the state that flows into it, if any has yet. -/
  transfer : FlowNode → Option σ → Except Error σ
  join : σ → σ → Except Error σ

/-- The states before and after each node, by the ids of the nodes. -/
structure Facts (σ : Type) where
  before : Std.ExtTreeMap String σ
  after : Std.ExtTreeMap String σ
  /-- The state of nodes that are not known. -/
  bottom : σ

namespace Facts

variable {σ : Type}

def stateBefore (f : Facts σ) (id : String) : σ := f.before.getD id f.bottom

def stateAfter (f : Facts σ) (id : String) : σ := f.after.getD id f.bottom

/-- The state that flows into a node. -/
def input (f : Facts σ) : Direction → String → σ
  | .forward => f.stateBefore
  | .backward => f.stateAfter

/-- The state that flows out of a node. -/
def output (f : Facts σ) : Direction → String → σ
  | .forward => f.stateAfter
  | .backward => f.stateBefore

def record (write : σ → Json) (f : Facts σ) : Json :=
  let table (states : Std.ExtTreeMap String σ) : Json :=
    .object (states.toList.map fun (id, state) => (id, write state))
  .object [("in_facts", table f.before), ("out_facts", table f.after)]

end Facts

namespace Analysis

variable {σ : Type}

/-- Joins states from the left. There is nothing to join if there are none. -/
def joinAll (a : Analysis σ) : List σ → Except Error (Option σ)
  | [] => .ok none
  | state :: rest => some <$> rest.foldlM a.join state

/-- Whether a node has the right states: its input is what flows to it from the given outputs, and
its output is what it makes of its input. -/
def isStableAt [DecidableEq σ] (a : Analysis σ) (facts : Facts σ) (arriving : List σ)
    (n : FlowNode) : Except Error Bool := do
  let input ← a.joinAll arriving
  if input.getD a.bottom = facts.input a.direction n.id then
    return (← a.transfer n input) = facts.output a.direction n.id
  else return false

/-- Whether one more round of all nodes, in the order they were created, changes nothing. -/
def isStable [DecidableEq σ] (a : Analysis σ) (g : FlowGraph) (facts : Facts σ) :
    Except Error Bool := do
  discard (a.direction.order g)
  g.graph.indices.allM fun index => do
    let sources ← (a.direction.sources g index).mapM g.node
    a.isStableAt facts (sources.map fun source => facts.output a.direction source.id)
      (← g.node index)

end Analysis

end ContractFlow
