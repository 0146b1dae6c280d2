import ContractFlow.Digraph.Basic
import ContractFlow.Drawing

/-!
Drawing a directed graph: one node for each vertex and one edge for each edge, in their order.
-/

namespace ContractFlow.Digraph

/-- How vertices and edges of a graph are drawn. -/
structure Style (V E : Type) where
  name : Nat → V → String
  label : Nat → V → String
  fillColor : V → Option String := fun _ => none
  /-- An empty text is no annotation. -/
  annotation : E → String

variable {V E : Type}

def drawNode (style : Style V E) (index : Nat) (v : V) : Drawing.Node :=
  ⟨style.name index v, style.label index v, style.fillColor v⟩

/-- The name of a vertex by its index. -/
def nameOf (g : Digraph V E) (style : Style V E) (index : Nat) : String :=
  match g.vertex index with
  | .ok v => style.name index v
  | .error _ => ""

def drawEdge (g : Digraph V E) (style : Style V E) (e : Edge E) : Drawing.Edge :=
  let annotation := style.annotation e.label
  ⟨g.nameOf style e.head, g.nameOf style e.tail,
    if annotation.isEmpty then none else some annotation⟩

def draw (g : Digraph V E) (style : Style V E) : Drawing where
  nodes := g.vertexAt.toList.map fun (index, v) => drawNode style index v
  edges := g.edges.toList.map (g.drawEdge style)

end ContractFlow.Digraph
