import ContractFlow.Syntax.Reading

/-!
A source file as a syntax tree: its contracts and functions, and what could not be read of it.
-/

namespace ContractFlow

structure SourceUnit where
  id : UInt64
  src : Span
  nodes : List Node
  /-- The members that could not be read. -/
  failures : List Failure

/-- A function definition, and the contract that declares it. -/
structure DeclaredFunction where
  /-- None for functions at file level. -/
  contract : Option (ContractDefinition Node)
  node : Node
  definition : FunctionDefinition Node

namespace DeclaredFunction

def id (f : DeclaredFunction) : UInt64 := f.node.id

def name (f : DeclaredFunction) : String := f.definition.displayName

def contractName (f : DeclaredFunction) : Option String := f.contract.map (·.name)

/-- `Contract.function`, or the bare name at file level. -/
def qualifiedName (f : DeclaredFunction) : String :=
  ContractFlow.qualifiedName f.contractName f.name

end DeclaredFunction

/-- The functions among some members. -/
def functionsAmong (contract : Option (ContractDefinition Node)) (members : List Node) :
    List DeclaredFunction :=
  members.filterMap fun node => node.function?.map (⟨contract, node, ·⟩)

/-- The functions that a contract itself declares. -/
def ContractDefinition.functions (c : ContractDefinition Node) : List DeclaredFunction :=
  functionsAmong (some c) c.nodes

namespace SourceUnit

/-- The syntax tree of the file. -/
def root (u : SourceUnit) : Node := ⟨u.id, u.src, .sourceUnit u.nodes⟩

/-- Reads a file from the compiler's JSON. The value must be a source unit. -/
def read (strict : Bool) (v : Json) : Except Error SourceUnit :=
  let reading := Node.read { strict := strict } v
  match reading.result with
  | .ok ⟨id, src, .sourceUnit nodes⟩ => .ok ⟨id, src, nodes, reading.failures⟩
  | .ok node => .error (.invalidField node.type.name node.id "nodeType")
  | .error error => .error error

/-- Reads a file leniently: members that cannot be read are recorded as failures. -/
def ofJson (v : Json) : Except Error SourceUnit := read false v

/-- Reads a file strictly: nothing in it may fail. -/
def ofJsonStrict (v : Json) : Except Error SourceUnit := read true v

/-- Contracts, interfaces and libraries, in source order. -/
def contracts (u : SourceUnit) : List (ContractDefinition Node) :=
  u.nodes.filterMap Node.contract?

/-- The first contract with the given name. -/
def contract? (u : SourceUnit) (name : String) : Option (ContractDefinition Node) :=
  u.contracts.find? (·.name = name)

/-- The functions at file level, then those of each contract, in source order. -/
def functions (u : SourceUnit) : List DeclaredFunction :=
  functionsAmong none u.nodes ++ u.contracts.flatMap (·.functions)

end SourceUnit

end ContractFlow
