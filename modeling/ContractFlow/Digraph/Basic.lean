import ContractFlow.Error
import Std.Data.ExtTreeMap

/-!
Directed multigraphs. Vertices are known by an index, edges by their number, which is the order they
were inserted in. Parallel edges and loops are allowed. Beside its vertices and edges a graph keeps
two tables, of the numbers of the edges that leave a vertex and of those that enter it; the edges of
a vertex and its neighbours are looked up there.

Graphs are changed in place. `Digraph.Update` is a change that answers something or fails, and that
leaves a graph either way.
-/

namespace ContractFlow

namespace Digraph

/-- An edge, which leads from `head` to `tail`. -/
structure Edge (E : Type) where
  head : Nat
  tail : Nat
  label : E

/-- Numbers of edges, by the index of a vertex. -/
abbrev Numbers := Std.ExtTreeMap Nat (Array Nat)

end Digraph

structure Digraph (V E : Type) where
  vertexAt : Std.ExtTreeMap Nat V
  edges : Array (Digraph.Edge E)
  /-- The edges that leave a vertex. -/
  outgoing : Digraph.Numbers
  /-- The edges that enter a vertex. -/
  incoming : Digraph.Numbers

namespace Digraph

variable {V E : Type}

def empty : Digraph V E := ⟨∅, #[], ∅, ∅⟩

instance : Inhabited (Digraph V E) := ⟨empty⟩

def vertexCount (g : Digraph V E) : Nat := g.vertexAt.size

def edgeCount (g : Digraph V E) : Nat := g.edges.size

def hasVertex (g : Digraph V E) (index : Nat) : Bool := g.vertexAt.contains index

/-- What a table has under the index of a vertex. -/
def lookup {α : Type} (table : Std.ExtTreeMap Nat α) (index : Nat) : Except Error α :=
  match table[index]? with
  | some a => .ok a
  | none => .error (.vertexNotFound index)

def vertex (g : Digraph V E) (index : Nat) : Except Error V := lookup g.vertexAt index

/-- The indices of the vertices, in increasing order. -/
def indices (g : Digraph V E) : List Nat := g.vertexAt.keys

/-- The vertices, in the order of their indices. -/
def vertices (g : Digraph V E) : List V := g.vertexAt.toList.map (·.2)

/-! ## Changes -/

/-- A change of a graph in place. What it has done before it fails is not undone. -/
abbrev Update (V E α : Type) := ExceptT Error (StateM (Digraph V E)) α

/-- Appends a number to the list under an index, or to an empty one. -/
def Numbers.register (table : Numbers) (index number : Nat) : Numbers :=
  table.alter index fun numbers => some ((numbers.getD #[]).push number)

namespace Update

def insertVertex (index : Nat) (v : V) : Update V E Unit := do
  if (← get).hasVertex index then throw .duplicateVertex
  modify fun g => { g with outgoing := g.outgoing.insert index #[] }
  modify fun g => { g with incoming := g.incoming.insert index #[] }
  modify fun g => { g with vertexAt := g.vertexAt.insert index v }

/-- Inserts an edge and answers its number, which is the number of edges before. -/
def insertEdge (e : Edge E) : Update V E Nat := do
  if !(← get).hasVertex e.head then throw (.vertexNotFound e.head)
  if !(← get).hasVertex e.tail then throw (.vertexNotFound e.tail)
  let number := (← get).edges.size
  modify fun g => { g with outgoing := g.outgoing.register e.head number }
  modify fun g => { g with incoming := g.incoming.register e.tail number }
  modify fun g => { g with edges := g.edges.push e }
  return number

def modifyVertex (index : Nat) (f : V → V) : Update V E Unit := do
  if !(← get).hasVertex index then throw (.vertexNotFound index)
  modify fun g => { g with vertexAt := g.vertexAt.modify index f }

end Update

/-- The graph after a change that succeeds. -/
def after {α : Type} (g : Digraph V E) (update : Update V E α) : Except Error (Digraph V E) :=
  match update.run g with
  | (.ok _, g') => .ok g'
  | (.error err, _) => .error err

def insertVertex (g : Digraph V E) (index : Nat) (v : V) : Except Error (Digraph V E) :=
  g.after (.insertVertex index v)

def insertEdge (g : Digraph V E) (e : Edge E) : Except Error (Digraph V E) :=
  g.after (.insertEdge e)

def modifyVertex (g : Digraph V E) (index : Nat) (f : V → V) : Except Error (Digraph V E) :=
  g.after (.modifyVertex index f)

/-! ## Edges and neighbours of a vertex -/

/-- The edges with the given numbers. -/
def edgesAt (g : Digraph V E) (numbers : Array Nat) : List (Edge E) :=
  numbers.toList.filterMap (g.edges[·]?)

/-- The edges that leave a vertex, in the order they were inserted. -/
def edgesOut (g : Digraph V E) (index : Nat) : Except Error (List (Edge E)) :=
  g.edgesAt <$> lookup g.outgoing index

/-- The edges that enter a vertex, in the order they were inserted. -/
def edgesIn (g : Digraph V E) (index : Nat) : Except Error (List (Edge E)) :=
  g.edgesAt <$> lookup g.incoming index

/-- The vertices that edges from an index lead to, each once, in the order of the edges. -/
def successorList (g : Digraph V E) (index : Nat) : List Nat :=
  ((g.edgesAt (g.outgoing.getD index #[])).map (·.tail)).eraseDups

/-- The successors of a vertex. -/
def successors (g : Digraph V E) (index : Nat) : Except Error (List Nat) :=
  if g.hasVertex index then .ok (g.successorList index) else .error (.vertexNotFound index)

/-- The vertices that edges to a vertex come from, each once, in the order of the edges. -/
def predecessors (g : Digraph V E) (index : Nat) : Except Error (List Nat) := do
  return ((← g.edgesIn index).map (·.head)).eraseDups

/-- Whether an edge leads from `head` to `tail`. -/
def hasEdge (g : Digraph V E) (head tail : Nat) : Bool :=
  match g.outgoing[head]? with
  | some numbers => (g.edgesAt numbers).any (·.tail = tail)
  | none => false

end Digraph

end ContractFlow
