import ContractFlow.Source.Span
import ContractFlow.Syntax.NodeType

/-!
The syntax tree. A node has the compiler's id, a source location and a kind; the kind says what the
node is and holds its parts. `Kind` takes the type of its parts as a parameter, so that what only
looks at one level of the tree (`Kind.type`, `Kind.children`) is stated for any parts.
-/

namespace ContractFlow

structure ContractDefinition (α : Type) where
  name : String
  /-- One of `contract`, `interface` and `library`. -/
  contractKind : String
  /-- The listed bases, in the order they are written. -/
  baseContracts : List String
  nodes : List α

inductive FunctionKind where
  | function | constructor | fallback | receive | freeFunction
  deriving DecidableEq, Repr

/-- The word the compiler uses for a kind of function. -/
def FunctionKind.word : FunctionKind → String
  | .function => "function"
  | .constructor => "constructor"
  | .fallback => "fallback"
  | .receive => "receive"
  | .freeFunction => "freeFunction"

def FunctionKind.ofWord? : String → Option FunctionKind
  | "function" => some .function
  | "constructor" => some .constructor
  | "fallback" => some .fallback
  | "receive" => some .receive
  | "freeFunction" => some .freeFunction
  | _ => none

structure FunctionDefinition (α : Type) where
  /-- The written name, empty for constructors, fallback and receive functions. -/
  name : String
  kind : FunctionKind
  visibility : Option String
  stateMutability : Option String
  parameters : List α
  returnParameters : List α
  body : Option α
  /-- The body could not be read. Such a function has no `body` and no control flow graph. -/
  malformedBody : Bool

namespace FunctionDefinition

variable {α : Type}

/-- The name of a function; one without a name is called by its kind. -/
def displayName (f : FunctionDefinition α) : String :=
  if f.name.isEmpty then f.kind.word else f.name

def isConstructor (f : FunctionDefinition α) : Bool := f.kind = .constructor

end FunctionDefinition

/-- What a node is, with parts of type `α`. -/
inductive Kind (α : Type) where
  | sourceUnit (nodes : List α)
  | pragmaDirective (literals : List String)
  | importDirective (file : String)
  | contractDefinition (contract : ContractDefinition α)
  | functionDefinition (function : FunctionDefinition α)
  | modifierDefinition (name : String) (parameters : List α) (body : Option α)
  | eventDefinition (name : String) (parameters : List α)
  | errorDefinition (name : String) (parameters : List α)
  | structDefinition (name : String) (members : List α)
  | enumDefinition (name : String) (members : List String)
  | userDefinedValueTypeDefinition (name : String)
  | usingForDirective
  | variableDeclaration (name : String) (typeName value : Option α) (stateVariable : Bool)
  | block (statements : List α)
  | uncheckedBlock (statements : List α)
  /-- A gap in the declarations is a component that is not bound, as in `(, b) = f();`. -/
  | variableDeclarationStatement (declarations : List (Option α)) (initialValue : Option α)
  | expressionStatement (expression : α)
  | ifStatement (condition : α) (trueBody falseBody : Option α)
  | whileStatement (condition body : α)
  | doWhileStatement (condition body : α)
  | forStatement (initialization condition step : Option α) (body : α)
  | returnStatement (expression : Option α)
  | breakStatement
  | continueStatement
  | placeholderStatement
  | emitStatement (call : α)
  | revertStatement (call : α)
  | inlineAssembly
  | tryStatement (call : α) (clauses : List α)
  | tryCatchClause (errorName : String) (parameters : List α) (handler : α)
  | binaryOperation (operator : String) (left right : α)
  | unaryOperation (operator : String) (prefixed : Bool) (operand : α)
  | assignment (operator : String) (target value : α)
  /-- The declaration is the id of the declaring node, negative for what is built in. -/
  | identifier (name : String) (declaration : Option Int64)
  | literal (kind : String) (value : Option String)
  | functionCall (callee : α) (arguments : List α)
  | functionCallOptions (callee : α) (options : List α)
  | newExpression (typeName : α)
  | memberAccess (object : α) (member : String)
  | indexAccess (base : α) (index : Option α)
  | indexRangeAccess (base : α) (start stop : Option α)
  | tupleExpression (components : List (Option α)) (isInlineArray : Bool)
  | conditional (condition onTrue onFalse : α)
  | elementaryTypeNameExpression (typeName : String)
  | elementaryTypeName (name : String)
  | userDefinedTypeName (name : String)
  | mapping (key value : α)
  | arrayTypeName (element : α) (length : Option α)
  | functionTypeName

structure Node where
  id : UInt64
  src : Span
  kind : Kind Node

namespace Kind

variable {α : Type}

def type : Kind α → NodeType
  | sourceUnit .. => .sourceUnit
  | pragmaDirective .. => .pragmaDirective
  | importDirective .. => .importDirective
  | contractDefinition .. => .contractDefinition
  | functionDefinition .. => .functionDefinition
  | modifierDefinition .. => .modifierDefinition
  | eventDefinition .. => .eventDefinition
  | errorDefinition .. => .errorDefinition
  | structDefinition .. => .structDefinition
  | enumDefinition .. => .enumDefinition
  | userDefinedValueTypeDefinition .. => .userDefinedValueTypeDefinition
  | usingForDirective => .usingForDirective
  | variableDeclaration .. => .variableDeclaration
  | block .. => .block
  | uncheckedBlock .. => .uncheckedBlock
  | variableDeclarationStatement .. => .variableDeclarationStatement
  | expressionStatement .. => .expressionStatement
  | ifStatement .. => .ifStatement
  | whileStatement .. => .whileStatement
  | doWhileStatement .. => .doWhileStatement
  | forStatement .. => .forStatement
  | returnStatement .. => .returnStatement
  | breakStatement => .breakStatement
  | continueStatement => .continueStatement
  | placeholderStatement => .placeholderStatement
  | emitStatement .. => .emitStatement
  | revertStatement .. => .revertStatement
  | inlineAssembly => .inlineAssembly
  | tryStatement .. => .tryStatement
  | tryCatchClause .. => .tryCatchClause
  | binaryOperation .. => .binaryOperation
  | unaryOperation .. => .unaryOperation
  | assignment .. => .assignment
  | identifier .. => .identifier
  | literal .. => .literal
  | functionCall .. => .functionCall
  | functionCallOptions .. => .functionCallOptions
  | newExpression .. => .newExpression
  | memberAccess .. => .memberAccess
  | indexAccess .. => .indexAccess
  | indexRangeAccess .. => .indexRangeAccess
  | tupleExpression .. => .tupleExpression
  | conditional .. => .conditional
  | elementaryTypeNameExpression .. => .elementaryTypeNameExpression
  | elementaryTypeName .. => .elementaryTypeName
  | userDefinedTypeName .. => .userDefinedTypeName
  | mapping .. => .mapping
  | arrayTypeName .. => .arrayTypeName
  | functionTypeName => .functionTypeName

/-- The parts of a node, in source order. -/
def children : Kind α → List α
  | sourceUnit nodes => nodes
  | contractDefinition c => c.nodes
  | functionDefinition f => f.parameters ++ f.returnParameters ++ f.body.toList
  | modifierDefinition _ parameters body => parameters ++ body.toList
  | eventDefinition _ parameters => parameters
  | errorDefinition _ parameters => parameters
  | structDefinition _ members => members
  | variableDeclaration _ typeName value _ => typeName.toList ++ value.toList
  | block statements => statements
  | uncheckedBlock statements => statements
  | variableDeclarationStatement declarations value => declarations.filterMap id ++ value.toList
  | expressionStatement expression => [expression]
  | ifStatement condition trueBody falseBody =>
    condition :: (trueBody.toList ++ falseBody.toList)
  | whileStatement condition body => [condition, body]
  | doWhileStatement condition body => [body, condition]
  | forStatement initialization condition step body =>
    initialization.toList ++ condition.toList ++ step.toList ++ [body]
  | returnStatement expression => expression.toList
  | emitStatement call => [call]
  | revertStatement call => [call]
  | tryStatement call clauses => call :: clauses
  | tryCatchClause _ parameters handler => parameters ++ [handler]
  | binaryOperation _ left right => [left, right]
  | unaryOperation _ _ operand => [operand]
  | assignment _ target value => [target, value]
  | functionCall callee arguments => callee :: arguments
  | functionCallOptions callee options => callee :: options
  | newExpression typeName => [typeName]
  | memberAccess object _ => [object]
  | indexAccess base index => base :: index.toList
  | indexRangeAccess base start stop => base :: (start.toList ++ stop.toList)
  | tupleExpression components _ => components.filterMap id
  | conditional condition onTrue onFalse => [condition, onTrue, onFalse]
  | mapping key value => [key, value]
  | arrayTypeName element length => element :: length.toList
  | pragmaDirective _ | importDirective _ | enumDefinition .. | userDefinedValueTypeDefinition _
  | usingForDirective | breakStatement | continueStatement | placeholderStatement | inlineAssembly
  | identifier .. | literal .. | elementaryTypeNameExpression _ | elementaryTypeName _
  | userDefinedTypeName _ | functionTypeName => []

end Kind

inductive LogicalOperator where
  | and | or
  deriving DecidableEq, Repr

def LogicalOperator.ofSymbol? : String → Option LogicalOperator
  | "&&" => some .and
  | "||" => some .or
  | _ => none

namespace Node

def type (n : Node) : NodeType := n.kind.type

/-- The parts of a node, in source order. -/
def children (n : Node) : List Node := n.kind.children

/-- The source text of a node, or its type and id where its location has no text. -/
def text (n : Node) (source : String) : String :=
  (n.src.text? source).getD (n.type.name ++ "#" ++ toString n.id)

def contract? (n : Node) : Option (ContractDefinition Node) :=
  match n.kind with
  | .contractDefinition c => some c
  | _ => none

def function? (n : Node) : Option (FunctionDefinition Node) :=
  match n.kind with
  | .functionDefinition f => some f
  | _ => none

/-- A node without the parentheses around it. The tree has `(e)` as a tuple of one component. -/
def unparenthesized : Node → Node
  | ⟨_, _, .tupleExpression [some inner] false⟩ => inner.unparenthesized
  | n => n

/-- The operator and operands of a short-circuit operation, possibly in parentheses. -/
def logical? (n : Node) : Option (LogicalOperator × Node × Node) :=
  match n.unparenthesized.kind with
  | .binaryOperation operator left right =>
    (LogicalOperator.ofSymbol? operator).map (·, left, right)
  | _ => none

end Node

end ContractFlow
