import ContractFlow.Digraph.Drawing
import ContractFlow.Digraph.Search
import ContractFlow.Flow.Role
import ContractFlow.Flow.Statement

/-!
Control flow graphs of functions. The nodes are numbered in the order they were created, the entry
first and the exit second, and are known by an id as well, which is made from the id of the syntax
node they stand for and their role.
-/

namespace ContractFlow

structure FlowNode where
  id : String
  role : Role
  statements : List Statement := []

namespace FlowNode

/-- What the statements define and use, one after another. -/
def effects (n : FlowNode) : Effects :=
  n.statements.foldl (fun total s => total.andThen s.effects) .none

/-- The variables that are assigned in this node. -/
def defs (n : FlowNode) : Names := n.effects.defs

/-- The variables that are read in this node before any assignment in it. -/
def uses (n : FlowNode) : Names := n.effects.uses

def push (n : FlowNode) (s : Statement) : FlowNode :=
  { n with statements := n.statements ++ [s] }

/-- The role and the label of each statement, on lines of their own. -/
def label (n : FlowNode) : String :=
  "\n".intercalate (n.role.name :: n.statements.map Statement.label)

def record (index : Nat) (n : FlowNode) : Json :=
  .object [
    ("index", .ofNat index),
    ("id", .string n.id),
    ("kind", .string n.role.name),
    ("statements", .array (n.statements.map Statement.record)),
    ("defs", n.defs.record),
    ("uses", n.uses.record)]

end FlowNode

/-- An edge, with the outcome of the condition under which it is taken. -/
abbrev FlowEdge : Type := Digraph.Edge (Option Branch)

structure FlowGraph where
  functionId : UInt64
  functionName : String
  graph : Digraph FlowNode (Option Branch) := .empty

namespace FlowGraph

/-- The index of the node that control enters by. -/
def entry : Nat := 0

/-- The index of the node that control leaves by. -/
def exit : Nat := 1

/-- Every node, in the order they were created. -/
def nodes (g : FlowGraph) : List FlowNode := g.graph.vertices

/-- Every edge, in the order they were inserted. -/
def edges (g : FlowGraph) : List FlowEdge := g.graph.edges.toList

def node (g : FlowGraph) (index : Nat) : Except Error FlowNode := g.graph.vertex index

/-- The index of the node with the given id. -/
def indexOf (g : FlowGraph) (id : String) : Except Error Nat :=
  match g.graph.vertexAt.toList.find? (·.2.id = id) with
  | some (index, _) => .ok index
  | none => .error (.nodeNotFound id)

def contains (g : FlowGraph) (id : String) : Bool := g.nodes.any (·.id = id)

/-- The ids of the nodes with the given indices. -/
def idsOf (g : FlowGraph) (indices : List Nat) : List String :=
  indices.filterMap fun index => (g.node index).toOption.map (·.id)

/-- The nodes that no path from the entry leads to, in the order they were created. -/
def unreachable (g : FlowGraph) : Except Error (List FlowNode) := do
  (← g.graph.unreachable entry).mapM g.node

/-- Whether a path from the entry leads to a cycle. -/
def hasLoops (g : FlowGraph) : Bool := !g.graph.isAcyclic entry

def style : Digraph.Style FlowNode (Option Branch) where
  name _ n := n.id
  label _ n := n.label
  fillColor n := n.role.fillColor
  annotation outcome := (outcome.map Branch.name).getD ""

def draw (g : FlowGraph) : Drawing := g.graph.draw style

/-- The lines of a node: its id and role, then its statements. -/
def nodeLines (n : FlowNode) : List String :=
  ("[ " ++ n.id ++ " ] " ++ n.role.name) :: n.statements.map ("    " ++ ·.label)

def edgeLine (g : FlowGraph) (e : FlowEdge) : String :=
  let arrow := g.graph.nameOf style e.head ++ " -> " ++ g.graph.nameOf style e.tail
  match e.label with
  | some outcome => arrow ++ " (" ++ outcome.name ++ ")"
  | none => arrow

/-- The nodes and then the edges, line by line. -/
def display (g : FlowGraph) : String :=
  String.join ((g.nodes.flatMap nodeLines ++ g.edges.map g.edgeLine).map (· ++ "\n"))

def edgeRecord (e : FlowEdge) : Json :=
  .object [
    ("head", .ofNat e.head),
    ("tail", .ofNat e.tail),
    ("annotation", .ofOption (.string ·.name) e.label)]

def graphRecord (g : FlowGraph) : Json :=
  let vertices := g.graph.vertexAt.toList.map fun (index, n) => (toString index, n.record index)
  let table (numbers : Digraph.Numbers) : Json :=
    .object (numbers.toList.map fun (index, l) => (toString index, .array (l.toList.map .ofNat)))
  .object [
    ("vertices", .object vertices),
    ("edges", .array (g.edges.map edgeRecord)),
    ("successors", table g.graph.outgoing),
    ("predecessors", table g.graph.incoming)]

def record (g : FlowGraph) : Json :=
  .object [
    ("graph", g.graphRecord),
    ("function_id", .ofNat g.functionId.toNat),
    ("function_name", .string g.functionName),
    ("entry", .ofNat entry),
    ("exit", .ofNat exit)]

end FlowGraph

end ContractFlow
