import ContractFlow.Digraph.Basic
import ContractFlow.Search

/-!
Searches from a vertex of a directed graph: what it reaches, the post-order of the depth-first
search from it, and whether it reaches a cycle.
-/

namespace ContractFlow.Digraph

variable {V E : Type}

/-- The predecessors of a vertex; there are none outside the graph. -/
def predecessorList (g : Digraph V E) (index : Nat) : List Nat :=
  (g.predecessors index).toOption.getD []

/-- The vertices that can be reached from a vertex, itself included, in increasing order. -/
def reachable (g : Digraph V E) (root : Nat) : Except Error (List Nat) :=
  if g.hasVertex root then
    let met := Search.explore g.indices g.successorList [] [root]
    .ok (g.indices.filter (· ∈ met))
  else .error (.vertexNotFound root)

/-- The other vertices, in increasing order. -/
def unreachable (g : Digraph V E) (root : Nat) : Except Error (List Nat) := do
  let reached ← g.reachable root
  return g.indices.filter (· ∉ reached)

/-- The reachable vertices in the order the depth-first search leaves them. -/
def postOrder (g : Digraph V E) (root : Nat) : Except Error (List Nat) :=
  if g.hasVertex root then .ok (Search.postOrder g.indices g.successorList root)
  else .error (.vertexNotFound root)

def reversePostOrder (g : Digraph V E) (root : Nat) : Except Error (List Nat) :=
  List.reverse <$> g.postOrder root

/-- Whether no cycle can be reached from a vertex: the search leaves every successor of a reachable
vertex before the vertex itself. -/
def isAcyclic (g : Digraph V E) (root : Nat) : Bool :=
  match g.postOrder root with
  | .ok order => order.all fun v => (g.successorList v).all fun w => order.idxOf w < order.idxOf v
  | .error _ => true

end ContractFlow.Digraph
