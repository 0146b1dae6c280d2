/-!
Everything that can go wrong, by cause. `Error.message` is the one place that words an error.
-/

namespace ContractFlow

/-- Why a file could not be read, or a program not be started. -/
inductive FileError where
  | notFound
  | notUtf8
  deriving DecidableEq, Repr

inductive Error where
  /-- A syntax tree has a node whose type is not known. -/
  | unknownNodeType (kind : String) (id : UInt64)
  | missingField (kind : String) (id : UInt64) (field : String)
  | invalidField (kind : String) (id : UInt64) (field : String)
  /-- A source location is not of the form `offset:length:file`. -/
  | invalidLocation (text : String)
  /-- A node that control flow graphs cannot represent. -/
  | unsupportedConstruct (kind : String) (id : UInt64)
  /-- The control flow graph of a function whose body could not be read. -/
  | malformedBody (function : String) (id : UInt64)
  | unknownAlgorithm (name : String)
  | compilerFailed (status : Int) (stderr : String)
  /-- The compiler wrote no syntax tree at this path. -/
  | missingTree (path : String)
  | nodeNotFound (id : String)
  | duplicateNode (id : String)
  | vertexNotFound (index : Nat)
  | duplicateVertex
  /-- An analysis did not settle within the given number of steps. -/
  | unsettled (limit : Nat)
  | custom (text : String)
  | malformedJson
  | file (cause : FileError)
  deriving DecidableEq, Repr

def FileError.message : FileError → String
  | .notFound => "file not found"
  | .notUtf8 => "file is not valid UTF-8"

def Error.message : Error → String
  | .unknownNodeType kind id => s!"Unknown node type {kind} (node id {id})"
  | .missingField kind id field => s!"{kind} (node id {id}) is missing required field `{field}`"
  | .invalidField kind id field => s!"{kind} (node id {id}) has an invalid `{field}` field"
  | .invalidLocation text => s!"Invalid source location `{text}`"
  | .unsupportedConstruct kind id => s!"Unsupported construct {kind} (node id {id})"
  | .malformedBody function id => s!"The body of {function} (node id {id}) failed to convert"
  | .unknownAlgorithm name => s!"Invalid call graph algorithm `{name}`, expected CHA or RTA"
  | .compilerFailed status stderr => s!"The compiler exited with status {status}: {stderr}"
  | .missingTree path => s!"The compiler produced no AST in {path}"
  | .nodeNotFound id => s!"Node {id} does not exist in the control flow graph"
  | .duplicateNode id => s!"Node {id} already exists in the control flow graph"
  | .vertexNotFound index => s!"The vertex id {index} does not exist in the graph"
  | .duplicateVertex => "duplicate vertex index"
  | .unsettled limit => s!"The analysis did not settle within {limit} steps"
  | .custom text => text
  | .malformedJson => "the text is not a JSON value"
  | .file cause => cause.message

end ContractFlow
