import ContractFlow.Hierarchy
import ContractFlow.Syntax.Traversal

/-!
Call graphs. A call is resolved by its name: it may reach every contract that declares a function of
this name. Rapid type analysis keeps only the contracts that are created somewhere in the program.
-/

namespace ContractFlow

inductive Algorithm where
  /-- Class hierarchy analysis. -/
  | classHierarchy
  /-- Rapid type analysis. -/
  | rapidType
  deriving DecidableEq, Repr

namespace Algorithm

def name : Algorithm → String
  | classHierarchy => "ClassHierarchy"
  | rapidType => "RapidType"

def acronym : Algorithm → String
  | classHierarchy => "CHA"
  | rapidType => "RTA"

def ofAcronym : String → Except Error Algorithm
  | "CHA" => .ok classHierarchy
  | "RTA" => .ok rapidType
  | other => .error (.unknownAlgorithm other)

end Algorithm

/-- Which bases of a contract are looked at for the target of a call. -/
inductive BaseResolution where
  | transitive | direct
  deriving DecidableEq, Repr

def BaseResolution.name : BaseResolution → String
  | .transitive => "Transitive"
  | .direct => "Direct"

namespace Node

/-- The name that a callee goes by: of a function or of a member, also under call options. -/
def calleeName? : Node → Option String
  | ⟨_, _, .identifier name _⟩ => some name
  | ⟨_, _, .memberAccess _ member⟩ => some member
  | ⟨_, _, .functionCallOptions callee _⟩ => callee.calleeName?
  | _ => none

/-- The name that a node calls, if it is a call by name. -/
def callTarget? (n : Node) : Option String :=
  match n.kind with
  | .functionCall callee _ => callee.calleeName?
  | _ => none

/-- The contract that a node creates, if it creates one. -/
def createdContract? (n : Node) : Option String :=
  match n.kind with
  | .newExpression ⟨_, _, .userDefinedTypeName name⟩ => some name
  | _ => none

/-- The names called anywhere in a tree, outer calls first. -/
def callSites (n : Node) : List String := n.descendants.filterMap callTarget?

/-- The contracts created anywhere in a tree. -/
def createdContracts (n : Node) : Names := .ofList (n.descendants.filterMap createdContract?)

end Node

namespace Hierarchy

def bases (h : Hierarchy) : BaseResolution → String → List String
  | .transitive => h.transitiveBases
  | .direct => h.directBases

/-- The contracts that a call of a function may reach: those that declare it, found from each
contract among itself and its bases. -/
def declarers (h : Hierarchy) (resolution : BaseResolution) (function : String) : List String :=
  h.names.flatMap fun contract =>
    (contract :: h.bases resolution contract).filter (h.declares · function)

end Hierarchy

/-- The contract part of a qualified name: what comes before the first point. -/
def contractPart (qualified : String) : String :=
  String.ofList (qualified.toList.takeWhile (· ≠ '.'))

structure CallGraph where
  algorithm : Algorithm
  /-- The possible callees of each function. -/
  edges : Std.ExtTreeMap String Names

namespace CallGraph

/-- The qualified names that a call of a function may reach. -/
def targets (h : Hierarchy) (resolution : BaseResolution) (function : String) : Names :=
  .ofList ((h.declarers resolution function).map fun contract =>
    qualifiedName (some contract) function)

/-- The callees of a body. -/
def calleesOf (h : Hierarchy) (resolution : BaseResolution) (keep : String → Bool) (body : Node) :
    Names :=
  body.callSites.foldl (fun total name => total ∪ (targets h resolution name).filter keep) ∅

/-- The functions that are callers: those of contracts that are not constructors. -/
def callers (u : SourceUnit) : List DeclaredFunction :=
  u.functions.filter fun f => f.contract.isSome && !f.definition.isConstructor

/-- The targets that an algorithm keeps. -/
def keeps (u : SourceUnit) : Algorithm → String → Bool
  | .classHierarchy => fun _ => true
  | .rapidType =>
    let created := u.root.createdContracts
    fun target => created.contains (contractPart target)

/-- The call graph of a program. Overloaded functions are one caller. -/
def ofUnit (u : SourceUnit) (h : Hierarchy) (algorithm : Algorithm) (resolution : BaseResolution) :
    CallGraph :=
  let keep := keeps u algorithm
  ⟨algorithm, (callers u).foldl (fun edges f =>
    let callees := (f.definition.body.map (calleesOf h resolution keep)).getD ∅
    edges.alter f.qualifiedName fun known => some (known.getD ∅ ∪ callees)) ∅⟩

/-- The possible callees of a caller, if it is one. -/
def callees? (g : CallGraph) (caller : String) : Option Names := g.edges[caller]?

def hasEdge (g : CallGraph) (caller callee : String) : Bool :=
  (g.callees? caller).any (·.contains callee)

/-- The edges, ordered by caller and then by callee. -/
def edgeList (g : CallGraph) : List (String × String) :=
  g.edges.toList.flatMap fun (caller, callees) => callees.toList.map (caller, ·)

def edgeCount (g : CallGraph) : Nat := g.edges.foldl (fun total _ callees => total + callees.size) 0

/-- Whether every edge of `g` is an edge of `other`. -/
def isSubgraphOf (g other : CallGraph) : Bool :=
  g.edgeList.all fun (caller, callee) => other.hasEdge caller callee

/-- The callers and callees. -/
def names (g : CallGraph) : Names :=
  g.edges.toList.foldl (fun total (caller, callees) => total.insert caller ∪ callees) ∅

def draw (g : CallGraph) : Drawing where
  nodes := g.names.toList.map fun name => ⟨name, name, none⟩
  edges := g.edgeList.map fun (caller, callee) => ⟨caller, callee, none⟩

def edgesRecord (g : CallGraph) : Json :=
  .object (g.edges.toList.map fun (caller, callees) => (caller, callees.record))

def record (g : CallGraph) : Json :=
  .object [("algorithm", .string g.algorithm.name), ("edges", g.edgesRecord)]

end CallGraph

end ContractFlow
