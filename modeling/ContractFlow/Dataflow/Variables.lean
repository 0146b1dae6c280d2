import ContractFlow.Dataflow.Solver

/-!
What is known about variables. Reaching definitions are the assignments that may have given a
variable the value it has; live variables are those whose value may still be read.
-/

namespace ContractFlow

/-- An assignment to a variable in a node. -/
structure Definition where
  name : String
  /-- The id of the node. -/
  node : String
  deriving DecidableEq, Repr

namespace Definition

/-- Definitions are ordered by variable, then by node. -/
instance : Ord Definition := ⟨compareLex (compareOn Definition.name) (compareOn Definition.node)⟩

instance : Std.TransOrd Definition :=
  inferInstanceAs
    (Std.TransCmp (compareLex (compareOn Definition.name) (compareOn Definition.node)))

instance : Std.LawfulEqOrd Definition where
  eq_of_compare {a b} h := by
    obtain ⟨hname, hnode⟩ := compareLex_eq_eq.mp h
    cases a
    cases b
    simp_all [compareOn]

def display (d : Definition) : String := d.name ++ "@" ++ d.node

def record (d : Definition) : Json :=
  .object [("variable", .string d.name), ("node", .string d.node)]

end Definition

abbrev Definitions : Type := Std.ExtTreeSet Definition

namespace Definitions

/-- The definitions of variables outside a set. -/
def except (s : Definitions) (names : Names) : Definitions :=
  s.filter fun d => !names.contains d.name

/-- The definitions of some variables in a node. -/
def ofNames (names : Names) (node : String) : Definitions :=
  .ofList (names.toList.map fun name => Definition.mk name node)

def record (s : Definitions) : Json := .array (s.toList.map Definition.record)

end Definitions

namespace FlowNode

/-- The definitions that a node makes. -/
def definitions (n : FlowNode) : Definitions := .ofNames n.defs n.id

end FlowNode

/-- The definitions that reach each node. A node makes its own definitions and ends the others of
the same variables. -/
def Analysis.reaching : Analysis Definitions where
  direction := .forward
  bottom := ∅
  transfer n state := .ok ((state.getD ∅).except n.defs ∪ n.definitions)
  join a b := .ok (a ∪ b)

namespace FlowGraph

/-- Every definition that a node of the graph makes. -/
def definitions (g : FlowGraph) : Definitions :=
  g.nodes.foldl (fun total n => total ∪ n.definitions) ∅

def reachingDefinitions (g : FlowGraph) (strategy : Strategy) : Except Error (Facts Definitions) :=
  Analysis.reaching.fixedPoint g strategy (g.visitLimit g.definitions.size)

end FlowGraph

/-- The variables that are live at each node: those it uses, and those that are live after it and
that it does not define. -/
def Analysis.live : Analysis Names where
  direction := .backward
  bottom := ∅
  transfer n state := .ok (n.uses ∪ (state.getD ∅ \ n.defs))
  join a b := .ok (a ∪ b)

namespace FlowGraph

/-- Every variable that a node of the graph uses. -/
def usedNames (g : FlowGraph) : Names := g.nodes.foldl (fun total n => total ∪ n.uses) ∅

def liveVariables (g : FlowGraph) (strategy : Strategy) : Except Error (Facts Names) :=
  Analysis.live.fixedPoint g strategy (g.visitLimit g.usedNames.size)

end FlowGraph

end ContractFlow
