import ContractFlow.CallGraph
import ContractFlow.Dataflow.Solver

/-!
What can be chosen about an analysis and about the compiler that reads the sources.
-/

namespace ContractFlow

structure Options where
  algorithm : Algorithm := .classHierarchy
  baseResolution : BaseResolution := .transitive
  strategy : Strategy := .worklist
  /-- Whether the first failure ends the analysis. Otherwise failures are recorded. -/
  failFast : Bool := false
  /-- The program that is run to compile a source file. -/
  compilerPath : String := "solc"
  /-- The directory that the compiler writes to. -/
  outputDirectory : String := "output"
  deriving DecidableEq, Repr

/-- One choice. -/
inductive Setting where
  | algorithm (value : Algorithm)
  | baseResolution (value : BaseResolution)
  | strategy (value : Strategy)
  | failFast (value : Bool)
  | compilerPath (value : String)
  | outputDirectory (value : String)
  deriving DecidableEq, Repr

namespace Options

def set (o : Options) : Setting → Options
  | .algorithm value => { o with algorithm := value }
  | .baseResolution value => { o with baseResolution := value }
  | .strategy value => { o with strategy := value }
  | .failFast value => { o with failFast := value }
  | .compilerPath value => { o with compilerPath := value }
  | .outputDirectory value => { o with outputDirectory := value }

/-- The defaults with the given choices; of two choices about one thing the later one counts. -/
def ofSettings (settings : List Setting) : Options := settings.foldl set {}

end Options

end ContractFlow
