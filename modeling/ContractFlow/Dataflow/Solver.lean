import ContractFlow.Dataflow.Analysis

/-!
Solving data flow analyses. Every node is visited, and is visited again while what flows into it may
have changed. How long that takes depends on the analysis, so a solver is given a limit: of visits
if it keeps a worklist, of sweeps if it goes round all nodes.
-/

namespace ContractFlow

inductive Strategy where
  /-- Visits again only the nodes that a changed state flows to. -/
  | worklist
  /-- Sweeps over all nodes until a sweep changes nothing. -/
  | roundRobin
  deriving DecidableEq, Repr

def Strategy.name : Strategy → String
  | .worklist => "Worklist"
  | .roundRobin => "RoundRobin"

/-- A visit of a node, with the number of states that had reached it. -/
structure Visit where
  index : Nat
  arrived : Nat

/-- How many joins a visit took. -/
def Visit.joins (v : Visit) : Nat := v.arrived - 1

/-- The states found so far, by the indices of the nodes. -/
structure Progress (σ : Type) where
  /-- What last flowed into a node. -/
  inputs : Std.ExtTreeMap Nat (Option σ) := ∅
  /-- What last flowed out of a node. -/
  outputs : Std.ExtTreeMap Nat σ := ∅
  /-- The visits so far, the last one first. -/
  visits : List Visit := []

/-- Puts nodes at the end of a queue that does not hold them. -/
def enqueue (queue : List Nat) (indices : List Nat) : List Nat :=
  indices.foldl (fun queue index => if index ∈ queue then queue else queue ++ [index]) queue

namespace Analysis

variable {σ : Type} [DecidableEq σ]

/-- Visits a node, and says whether what flows out of it has changed. -/
def visit (a : Analysis σ) (g : FlowGraph) (index : Nat) (p : Progress σ) :
    Except Error (Bool × Progress σ) := do
  let arrived := (a.direction.sources g index).filterMap (p.outputs[·]?)
  let input ← a.joinAll arrived
  let output ← a.transfer (← g.node index) input
  let changed := p.outputs[index]? ≠ some output
  return (changed, {
    inputs := p.inputs.insert index input
    outputs := if changed then p.outputs.insert index output else p.outputs
    visits := ⟨index, arrived.length⟩ :: p.visits })

/-- Visits the queued nodes in turn and queues those that a changed state flows to. -/
def runWorklist (a : Analysis σ) (g : FlowGraph) (limit : Nat) :
    Nat → List Nat → Progress σ → Except Error (Progress σ)
  | _, [], p => .ok p
  | 0, _ :: _, _ => .error (.unsettled limit)
  | fuel + 1, index :: queue, p => do
    let (changed, p) ← a.visit g index p
    let queue := if changed then enqueue queue (a.direction.sinks g index) else queue
    a.runWorklist g limit fuel queue p

/-- Visits nodes in turn, and says whether anything has changed. -/
def sweep (a : Analysis σ) (g : FlowGraph) :
    List Nat → Progress σ → Except Error (Bool × Progress σ)
  | [], p => .ok (false, p)
  | index :: rest, p => do
    let (changed, p) ← a.visit g index p
    let (changedLater, p) ← a.sweep g rest p
    return (changed || changedLater, p)

/-- Sweeps until nothing changes. -/
def runRoundRobin (a : Analysis σ) (g : FlowGraph) (limit : Nat) (order : List Nat) :
    Nat → Progress σ → Except Error (Progress σ)
  | 0, _ => .error (.unsettled limit)
  | fuel + 1, p => do
    let (changed, p) ← a.sweep g order p
    if changed then a.runRoundRobin g limit order fuel p else return p

/-- Runs a solver until nothing changes any more, or it runs into its limit. -/
def run (a : Analysis σ) (g : FlowGraph) (strategy : Strategy) (limit : Nat) :
    Except Error (Progress σ) := do
  let order ← a.direction.order g
  match strategy with
  | .worklist => a.runWorklist g limit limit order {}
  | .roundRobin => a.runRoundRobin g limit order limit {}

/-- The facts that a solver has found. -/
def facts (a : Analysis σ) (g : FlowGraph) (p : Progress σ) : Facts σ :=
  let table (state : Nat → σ) : Std.ExtTreeMap String σ :=
    .ofList (g.graph.vertexAt.toList.map fun (index, n) => (n.id, state index))
  let inputs := table fun index => (p.inputs.getD index none).getD a.bottom
  let outputs := table fun index => p.outputs.getD index a.bottom
  match a.direction with
  | .forward => ⟨inputs, outputs, a.bottom⟩
  | .backward => ⟨outputs, inputs, a.bottom⟩

/-- The facts of an analysis on a control flow graph. -/
def fixedPoint (a : Analysis σ) (g : FlowGraph) (strategy : Strategy) (limit : Nat) :
    Except Error (Facts σ) :=
  a.facts g <$> a.run g strategy limit

end Analysis

/-- A limit that is enough for states that can grow at most `height` times: a node is visited once,
and again whenever one of its sources has grown. -/
def FlowGraph.visitLimit (g : FlowGraph) (height : Nat) : Nat :=
  let count := g.graph.vertexCount
  1 + count + count * count * (height + 1)

end ContractFlow
