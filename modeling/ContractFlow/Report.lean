import ContractFlow.Dataflow.Variables
import ContractFlow.Options
import ContractFlow.Program

/-!
The analysis of a whole program: its hierarchy, its call graph, and the control flow graph of each
function with the facts on it. Functions that cannot be analyzed are recorded as failures, or end
the analysis if the options say so.
-/

namespace ContractFlow

structure FunctionReport where
  contract : Option String
  function : String
  functionId : UInt64
  graph : FlowGraph
  reachingDefinitions : Facts Definitions
  liveVariables : Facts Names

namespace FunctionReport

/-- `Contract.function`, or the bare name at file level. -/
def qualifiedName (r : FunctionReport) : String :=
  ContractFlow.qualifiedName r.contract r.function

def record (r : FunctionReport) : Json :=
  .object [
    ("contract", .ofOption .string r.contract),
    ("function", .string r.function),
    ("function_id", .ofNat r.functionId.toNat),
    ("control_flow_graph", r.graph.record),
    ("reaching_definitions", r.reachingDefinitions.record Definitions.record),
    ("live_variables", r.liveVariables.record Names.record)]

end FunctionReport

structure Report where
  hierarchy : Hierarchy
  callGraph : CallGraph
  /-- The functions that were analyzed, in source order. -/
  functions : List FunctionReport
  failures : List Failure

namespace Report

/-- The first function with the given qualified name. -/
def function? (r : Report) (qualifiedName : String) : Option FunctionReport :=
  r.functions.find? (·.qualifiedName = qualifiedName)

def record (r : Report) : Json :=
  .object [
    ("class_hierarchy", r.hierarchy.record),
    ("call_graph", r.callGraph.record),
    ("functions", .array (r.functions.map FunctionReport.record)),
    ("failures", .array (r.failures.map Failure.record))]

end Report

namespace Program

def hierarchy (p : Program) : Hierarchy := .ofUnit p.unit

def callGraph (p : Program) (algorithm : Algorithm) (resolution : BaseResolution := .transitive) :
    CallGraph :=
  .ofUnit p.unit p.hierarchy algorithm resolution

def analyzeFunction (p : Program) (strategy : Strategy) (f : DeclaredFunction) :
    Except Error FunctionReport := do
  let graph ← p.flowGraph f
  return {
    contract := f.contractName
    function := f.name
    functionId := f.id
    graph := graph
    reachingDefinitions := ← graph.reachingDefinitions strategy
    liveVariables := ← graph.liveVariables strategy }

/-- Analyzes functions in turn, up to the first that cannot be analyzed. -/
def analyzeAll (p : Program) (o : Options) : Except Error Report := do
  return {
    hierarchy := p.hierarchy
    callGraph := p.callGraph o.algorithm o.baseResolution
    functions := ← p.readFunctions.mapM (p.analyzeFunction o.strategy)
    failures := [] }

/-- Analyzes the functions that can be analyzed and records the others. -/
def analyzeEach (p : Program) (o : Options) : Report :=
  let attempts := p.readFunctions.map fun f => (f, p.analyzeFunction o.strategy f)
  {
    hierarchy := p.hierarchy
    callGraph := p.callGraph o.algorithm o.baseResolution
    functions := attempts.filterMap fun (_, attempt) => attempt.toOption
    failures := p.failures ++ attempts.filterMap fun (f, attempt) =>
      match attempt with
      | .ok _ => none
      | .error error => some (f.failure error) }

def analyze (p : Program) (o : Options) : Except Error Report :=
  if o.failFast then
    match p.failures with
    | failure :: _ => .error (.custom failure.message)
    | [] => p.analyzeAll o
  else .ok (p.analyzeEach o)

end Program

end ContractFlow
