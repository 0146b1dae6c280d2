import ContractFlow.Failure
import ContractFlow.Syntax.Node

/-!
Reading syntax trees from the compiler's JSON. Errors name the type and id of the node they are
about, and the fields of a node are read in a fixed order, so of two faults the first one counts.

The members of a file or contract are read independently of each other. Leniently, a member that
cannot be read is recorded as a failure and left out; a function is kept without its body if the
rest of it can be read. Strictly, the first member that cannot be read is an error.

How a node is put together from its parts does not depend on what becomes of failures, so it is
written for every monad that errors can be raised in (`readNode`).
-/

namespace ContractFlow

/-- The result of reading something, with the failures recorded on the way. Failures are kept also
when the reading ends in an error. -/
structure Reading (α : Type) where
  failures : List Failure
  result : Except Error α

namespace Reading

variable {α β : Type}

protected def pure (a : α) : Reading α := ⟨[], .ok a⟩

protected def bind (r : Reading α) (next : α → Reading β) : Reading β :=
  match r.result with
  | .ok a => ⟨r.failures ++ (next a).failures, (next a).result⟩
  | .error error => ⟨r.failures, .error error⟩

instance : Monad Reading where
  pure := Reading.pure
  bind := Reading.bind

instance : MonadLift (Except Error) Reading where
  monadLift result := ⟨[], result⟩

def fail (error : Error) : Reading α := ⟨[], .error error⟩

def record (failure : Failure) : Reading Unit := ⟨[failure], .ok ()⟩

/-- Reads something that may fail without failing itself. -/
def attempt (r : Reading α) : Reading (Except Error α) := ⟨r.failures, .ok r.result⟩

end Reading

/-- How members are read, and the contract whose members these are. -/
structure ReadingContext where
  strict : Bool
  contract : Option String := none

/-- A JSON value that is known to be a node, by its type name and id. -/
structure NodeFields (v : Json) where
  type : String
  id : UInt64

namespace NodeFields

variable {v : Json}

def ofJson (v : Json) : Except Error (NodeFields v) :=
  let id := (v.get? "id").bind Json.toUInt64?
  match v.stringAt? "nodeType", id with
  | none, id => .error (.missingField "<unknown>" (id.getD 0) "nodeType")
  | some type, none => .error (.missingField type 0 "id")
  | some type, some id => .ok ⟨type, id⟩

def missing (f : NodeFields v) (name : String) : Error := .missingField f.type f.id name

def invalid (f : NodeFields v) (name : String) : Error := .invalidField f.type f.id name

/-- A field that may be absent; `null` counts as absent. -/
def optional (_ : NodeFields v) (name : String) : Option v.Inside :=
  (v.inside? name).filter (!·.val.isNull)

def required (f : NodeFields v) (name : String) : Except Error v.Inside :=
  match f.optional name with
  | some w => .ok w
  | none => .error (f.missing name)

def string (f : NodeFields v) (name : String) : Except Error String := do
  match (← f.required name).val with
  | .string s => return s
  | _ => throw (f.invalid name)

def string? (f : NodeFields v) (name : String) : Except Error (Option String) :=
  match f.optional name with
  | none => .ok none
  | some ⟨.string s, _⟩ => .ok (some s)
  | some _ => .error (f.invalid name)

/-- A flag is set only by the value `true`. -/
def flag (_ : NodeFields v) (name : String) : Bool :=
  ((v.get? name).bind Json.toBool?).getD false

def array (f : NodeFields v) (name : String) : Except Error (List v.Inside) := do
  match (← f.required name).elements? with
  | some elements => return elements
  | none => throw (f.invalid name)

def src (f : NodeFields v) : Except Error Span := do
  Span.parse (← f.string "src")

/-- A list of names, each taken from an element of an array. -/
def names (f : NodeFields v) (field : String) (name? : Json → Option String) :
    Except Error (List String) := do
  (← f.array field).mapM fun w =>
    match name? w.val with
    | some name => .ok name
    | none => .error (f.invalid field)

/-- The name of a base contract, directly or in a path. -/
def baseName? (specifier : Json) : Option String :=
  ((specifier.path? ["baseName", "name"]).bind Json.toString?).or
    ((specifier.path? ["baseName", "pathNode", "name"]).bind Json.toString?)

def functionKind (f : NodeFields v) : Except Error FunctionKind := do
  match ← f.string? "kind" with
  | some word =>
    match FunctionKind.ofWord? word with
    | some kind => return kind
    | none => throw (f.invalid "kind")
  | none => return if f.flag "isConstructor" then .constructor else .function

/-- The name of a user defined type, directly or in a path. -/
def typeName (f : NodeFields v) : Except Error String := do
  match ← f.string? "name" with
  | some name => return name
  | none =>
    match (v.path? ["pathNode", "name"]).bind Json.toString? with
    | some name => return name
    | none => throw (f.missing "name")

/-- The name of an elementary type, given as a string or as a node with a name. -/
def elementaryType (f : NodeFields v) : Except Error String := do
  match (← f.required "typeName").val with
  | .string name => return name
  | type =>
    match type.stringAt? "name" with
    | some name => return name
    | none => throw (f.invalid "typeName")

section Parts

variable {m : Type → Type} [Monad m] [MonadLift (Except Error) m]
variable (f : NodeFields v) (read : v.Inside → m Node)

def node (name : String) : m Node := do
  read (← f.required name)

def node? (name : String) : m (Option Node) :=
  match f.optional name with
  | some w => some <$> read w
  | none => return none

def nodes (name : String) : m (List Node) := do
  (← f.array name).mapM read

/-- A list with gaps, which are written `null`. -/
def slots (name : String) : m (List (Option Node)) := do
  (← f.array name).mapM fun w =>
    if w.val.isNull then return none else some <$> read w

/-- The nodes in a parameter list, which is itself a node inside `v`. -/
def parametersIn (list : v.Inside) : m (List Node) := do
  let inner ← NodeFields.ofJson list.val
  (← inner.array "parameters").mapM fun w => read (list.lift w)

def parameters (name : String) : m (List Node) := do
  parametersIn read (← f.required name)

def parameters? (name : String) : m (List Node) :=
  match f.optional name with
  | some list => parametersIn read list
  | none => return []

/-- Everything about a function but its body. -/
def functionHeader : m (FunctionDefinition Node) := do
  let kind ← f.functionKind
  let name ← f.string? "name"
  let visibility ← f.string? "visibility"
  let stateMutability ← f.string? "stateMutability"
  let parameters ← f.parameters read "parameters"
  let returnParameters ← f.parameters? read "returnParameters"
  return ⟨name.getD "", kind, visibility, stateMutability, parameters,
    returnParameters, none, false⟩

def function : m (FunctionDefinition Node) := do
  let header ← f.functionHeader read
  return { header with body := ← f.node? read "body" }

/-- The kind of a node of a known type. Its parts are read by `read`. The members of a file are read
by `members`, and those of a contract with a given name by `membersOf`. -/
def kind (members : List v.Inside → m (List Node))
    (membersOf : String → List v.Inside → m (List Node)) : NodeType → m (Kind Node)
  | .sourceUnit => do
    return .sourceUnit (← members (← f.array "nodes"))
  | .pragmaDirective => do
    return .pragmaDirective (← f.names "literals" Json.toString?)
  | .importDirective => do
    return .importDirective (← f.string "file")
  | .contractDefinition => do
    let name ← f.string "name"
    let contractKind ← f.string? "contractKind"
    let baseContracts ← f.names "baseContracts" NodeFields.baseName?
    let nodes ← membersOf name (← f.array "nodes")
    return .contractDefinition ⟨name, contractKind.getD "contract", baseContracts, nodes⟩
  | .functionDefinition => do
    return .functionDefinition (← f.function read)
  | .modifierDefinition => do
    let name ← f.string "name"
    let parameters ← f.parameters read "parameters"
    return .modifierDefinition name parameters (← f.node? read "body")
  | .eventDefinition => do
    let name ← f.string "name"
    return .eventDefinition name (← f.parameters read "parameters")
  | .errorDefinition => do
    let name ← f.string "name"
    return .errorDefinition name (← f.parameters read "parameters")
  | .structDefinition => do
    let name ← f.string "name"
    return .structDefinition name (← f.nodes read "members")
  | .enumDefinition => do
    let name ← f.string "name"
    return .enumDefinition name (← f.names "members" (·.stringAt? "name"))
  | .userDefinedValueTypeDefinition => do
    return .userDefinedValueTypeDefinition (← f.string "name")
  | .usingForDirective => return .usingForDirective
  | .variableDeclaration => do
    let name ← f.string "name"
    let typeName ← f.node? read "typeName"
    let value ← f.node? read "value"
    return .variableDeclaration name typeName value (f.flag "stateVariable")
  | .block => do
    return .block (← f.nodes read "statements")
  | .uncheckedBlock => do
    return .uncheckedBlock (← f.nodes read "statements")
  | .variableDeclarationStatement => do
    let declarations ← f.slots read "declarations"
    return .variableDeclarationStatement declarations (← f.node? read "initialValue")
  | .expressionStatement => do
    return .expressionStatement (← f.node read "expression")
  | .ifStatement => do
    let condition ← f.node read "condition"
    let trueBody ← f.node? read "trueBody"
    return .ifStatement condition trueBody (← f.node? read "falseBody")
  | .whileStatement => do
    let condition ← f.node read "condition"
    return .whileStatement condition (← f.node read "body")
  | .doWhileStatement => do
    let condition ← f.node read "condition"
    return .doWhileStatement condition (← f.node read "body")
  | .forStatement => do
    let initialization ← f.node? read "initializationExpression"
    let condition ← f.node? read "condition"
    let step ← f.node? read "loopExpression"
    return .forStatement initialization condition step (← f.node read "body")
  | .returnStatement => do
    return .returnStatement (← f.node? read "expression")
  | .breakStatement => return .breakStatement
  | .continueStatement => return .continueStatement
  | .placeholderStatement => return .placeholderStatement
  | .emitStatement => do
    return .emitStatement (← f.node read "eventCall")
  | .revertStatement => do
    return .revertStatement (← f.node read "errorCall")
  | .inlineAssembly => return .inlineAssembly
  | .tryStatement => do
    let call ← f.node read "externalCall"
    return .tryStatement call (← f.nodes read "clauses")
  | .tryCatchClause => do
    let errorName ← f.string? "errorName"
    let parameters ← f.parameters? read "parameters"
    return .tryCatchClause (errorName.getD "") parameters (← f.node read "block")
  | .binaryOperation => do
    let operator ← f.string "operator"
    let left ← f.node read "leftExpression"
    return .binaryOperation operator left (← f.node read "rightExpression")
  | .unaryOperation => do
    let operator ← f.string "operator"
    return .unaryOperation operator (f.flag "prefix") (← f.node read "subExpression")
  | .assignment => do
    let operator ← f.string "operator"
    let target ← f.node read "leftHandSide"
    return .assignment operator target (← f.node read "rightHandSide")
  | .identifier => do
    let name ← f.string "name"
    return .identifier name ((v.get? "referencedDeclaration").bind Json.toInt64?)
  | .literal => do
    let kind ← f.string "kind"
    return .literal kind (← f.string? "value")
  | .functionCall => do
    let callee ← f.node read "expression"
    return .functionCall callee (← f.nodes read "arguments")
  | .functionCallOptions => do
    let callee ← f.node read "expression"
    return .functionCallOptions callee (← f.nodes read "options")
  | .newExpression => do
    return .newExpression (← f.node read "typeName")
  | .memberAccess => do
    let object ← f.node read "expression"
    return .memberAccess object (← f.string "memberName")
  | .indexAccess => do
    let base ← f.node read "baseExpression"
    return .indexAccess base (← f.node? read "indexExpression")
  | .indexRangeAccess => do
    let base ← f.node read "baseExpression"
    let start ← f.node? read "startExpression"
    return .indexRangeAccess base start (← f.node? read "endExpression")
  | .tupleExpression => do
    return .tupleExpression (← f.slots read "components") (f.flag "isInlineArray")
  | .conditional => do
    let condition ← f.node read "condition"
    let onTrue ← f.node read "trueExpression"
    return .conditional condition onTrue (← f.node read "falseExpression")
  | .elementaryTypeNameExpression => do
    return .elementaryTypeNameExpression (← f.elementaryType)
  | .elementaryTypeName => do
    return .elementaryTypeName (← f.string "name")
  | .userDefinedTypeName => do
    return .userDefinedTypeName (← f.typeName)
  | .mapping => do
    let key ← f.node read "keyType"
    return .mapping key (← f.node read "valueType")
  | .arrayTypeName => do
    let element ← f.node read "baseType"
    return .arrayTypeName element (← f.node? read "length")
  | .functionTypeName => return .functionTypeName

end Parts

end NodeFields

section Nodes

variable {m : Type → Type} [Monad m] [MonadLift (Except Error) m]

/-- A function whose body could not be read. -/
def readMalformedFunction {v : Json} (read : v.Inside → m Node) (w : v.Inside) : m Node := do
  let f ← NodeFields.ofJson w.val
  let header ← f.functionHeader fun u => read (w.lift u)
  return ⟨f.id, ← f.src, .functionDefinition { header with malformedBody := true }⟩

/-- Reads a node: its type and id, then its location, then its parts. -/
def readNode (v : Json) (read : v.Inside → m Node) (members : List v.Inside → m (List Node))
    (membersOf : String → List v.Inside → m (List Node)) : m Node := do
  let f ← NodeFields.ofJson v
  let src ← f.src
  match NodeType.ofName? f.type with
  | none => liftM (Except.error (Error.unknownNodeType f.type f.id))
  | some type => return ⟨f.id, src, ← f.kind read members membersOf type⟩

end Nodes

/-- The name under which a member that could not be read is recorded. -/
def memberName (v : Json) : String :=
  match v.stringAt? "name" with
  | some name => if name.isEmpty then fallback else name
  | none => fallback
where
  fallback : String := ((v.stringAt? "kind").or (v.stringAt? "nodeType")).getD "<unknown>"

def memberFailure (contract : Option String) (v : Json) (error : Error) : Failure :=
  ⟨contract, memberName v, ((v.get? "id").bind Json.toUInt64?).getD 0, error⟩

section Members

variable {v : Json} (context : ReadingContext) (read : v.Inside → Reading Node)

/-- One member of a file or contract, if it can be kept. -/
def readMember (w : v.Inside) : Reading (Option Node) := do
  match ← (read w).attempt with
  | .ok node => return some node
  | .error error =>
    if context.strict then Reading.fail error
    else
      Reading.record (memberFailure context.contract w.val error)
      if w.val.stringAt? "nodeType" = some NodeType.functionDefinition.name then
        return (← (readMalformedFunction read w).attempt).toOption
      else return none

def readMembers (members : List v.Inside) : Reading (List Node) := do
  return (← members.mapM (readMember context read)).filterMap id

end Members

/-- Reads a node in a context, which its parts are read in too. -/
def Node.read (context : ReadingContext) (v : Json) : Reading Node :=
  readNode v (fun w => Node.read context w.val)
    (readMembers context fun w => Node.read context w.val)
    fun name => readMembers { context with contract := some name } fun w =>
      Node.read { context with contract := some name } w.val
termination_by sizeOf v
decreasing_by all_goals exact w.property

end ContractFlow
