import ContractFlow.Flow.Build
import ContractFlow.Json.Reader
import ContractFlow.Syntax.SourceUnit

/-!
A program: the syntax tree of a source file together with its text.
-/

namespace ContractFlow

/-- The failure to analyze a function. -/
def DeclaredFunction.failure (f : DeclaredFunction) (error : Error) : Failure :=
  ⟨f.contractName, f.name, f.id, error⟩

structure Program where
  unit : SourceUnit
  source : String

namespace Program

/-- Reads a program leniently: functions that cannot be read are recorded as failures. -/
def ofJson (tree : Json) (source : String) : Except Error Program := do
  return ⟨← SourceUnit.ofJson tree, source⟩

/-- Reads a program, all of whose members must be readable. -/
def ofJsonStrict (tree : Json) (source : String) : Except Error Program := do
  return ⟨← SourceUnit.ofJsonStrict tree, source⟩

/-- Reads a program leniently from the text of its tree. -/
def ofText (tree source : String) : Except Error Program :=
  match Json.parse? (some Json.depthLimit) tree with
  | some tree => ofJson tree source
  | none => .error .malformedJson

/-- The functions that could not be read. -/
def failures (p : Program) : List Failure := p.unit.failures

def functions (p : Program) : List DeclaredFunction := p.unit.functions

/-- The functions that were read with their body. Failures hold the others already. -/
def readFunctions (p : Program) : List DeclaredFunction :=
  p.functions.filter (!·.definition.malformedBody)

def flowGraph (p : Program) (f : DeclaredFunction) : Except Error FlowGraph :=
  FlowGraph.ofFunction f.node p.source

/-- The control flow graphs of the functions. -/
def flowGraphs (p : Program) : List FlowGraph :=
  p.readFunctions.filterMap fun f => (p.flowGraph f).toOption

/-- The functions that have no control flow graph, apart from those that could not be read. -/
def flowFailures (p : Program) : List Failure :=
  p.readFunctions.filterMap fun f =>
    match p.flowGraph f with
    | .ok _ => none
    | .error error => some (f.failure error)

end Program

end ContractFlow
