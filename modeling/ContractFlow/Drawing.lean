import ContractFlow.Json.Writer

/-!
Drawings of graphs: labelled nodes and annotated edges, to be rendered elsewhere. A drawing is
handed over as JSON (`Drawing.json`) or in the DOT language (`Drawing.dot`).
-/

namespace ContractFlow

namespace Drawing

structure Node where
  id : String
  label : String
  fillColor : Option String
  deriving DecidableEq, Repr

structure Edge where
  source : String
  target : String
  annotation : Option String
  deriving DecidableEq, Repr

end Drawing

structure Drawing where
  nodes : List Drawing.Node := []
  edges : List Drawing.Edge := []
  deriving DecidableEq, Repr

namespace Drawing

def Node.record (n : Node) : Json :=
  .object [
    ("id", .string n.id),
    ("label", .string n.label),
    ("fill_color", .ofOption .string n.fillColor)]

def Edge.record (e : Edge) : Json :=
  .object [
    ("from", .string e.source),
    ("to", .string e.target),
    ("annotation", .ofOption .string e.annotation)]

def record (d : Drawing) : Json :=
  .object [
    ("nodes", .array (d.nodes.map Node.record)),
    ("edges", .array (d.edges.map Edge.record))]

def json (d : Drawing) : String := d.record.pretty

def addNode (d : Drawing) (n : Node) : Drawing := { d with nodes := d.nodes ++ [n] }

def addEdge (d : Drawing) (e : Edge) : Drawing := { d with edges := d.edges ++ [e] }

/-- The first node with the given id. -/
def node? (d : Drawing) (id : String) : Option Node := d.nodes.find? (·.id = id)

/-- Inside quotes, a backslash is put before backslashes and quotes. -/
def escape (s : List Char) : List Char :=
  s.flatMap fun c => if c = '\\' ∨ c = '"' then ['\\', c] else [c]

/-- The line break of a label is a backslash and `l`, which also aligns the line to the left. -/
def breakLines (s : List Char) : List Char :=
  s.flatMap fun c => if c = '\n' then ['\\', 'l'] else [c]

def quote (s : List Char) : String := String.ofList ('"' :: s ++ ['"'])

def quoteText (s : String) : String := quote (escape s.toList)

def Node.dot (n : Node) : String :=
  quoteText n.id ++ " [shape=\"box\", label=" ++ quote (breakLines (escape n.label.toList)) ++
    ", style=\"filled\", fillcolor=\"" ++ n.fillColor.getD "white" ++ "\"];"

def Edge.dot (e : Edge) : String :=
  quoteText e.source ++ " -> " ++ quoteText e.target ++
    match e.annotation with
    | some annotation => " [label=" ++ quoteText annotation ++ "];"
    | none => ";"

/-- The attributes that every drawing sets. -/
def attributes : List String := [
  "graph [fontname = \"Courier New\", splines=\"polyline\"]",
  "node [fontname = \"Courier New\"]",
  "edge [fontname = \"Courier New\"]"]

def lines (l : List String) : String := "\n".intercalate l

def dot (d : Drawing) : String :=
  "digraph G \x7b\n" ++ lines attributes ++ "\n\n" ++ lines (d.nodes.map Node.dot) ++ "\n" ++
    lines (d.edges.map Edge.dot) ++ "\n\x7d"

end Drawing

end ContractFlow
