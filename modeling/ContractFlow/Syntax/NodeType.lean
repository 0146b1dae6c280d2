/-!
The types of syntax tree nodes, by the names the compiler gives them.
-/

namespace ContractFlow

inductive NodeType where
  | sourceUnit | pragmaDirective | importDirective | contractDefinition | functionDefinition
  | modifierDefinition | eventDefinition | errorDefinition | structDefinition | enumDefinition
  | userDefinedValueTypeDefinition | usingForDirective | variableDeclaration
  | block | uncheckedBlock | variableDeclarationStatement | expressionStatement | ifStatement
  | whileStatement | doWhileStatement | forStatement | returnStatement | breakStatement
  | continueStatement | placeholderStatement | emitStatement | revertStatement | inlineAssembly
  | tryStatement | tryCatchClause
  | binaryOperation | unaryOperation | assignment | identifier | literal | functionCall
  | functionCallOptions | newExpression | memberAccess | indexAccess | indexRangeAccess
  | tupleExpression | conditional | elementaryTypeNameExpression
  | elementaryTypeName | userDefinedTypeName | mapping | arrayTypeName | functionTypeName
  deriving DecidableEq, Repr

namespace NodeType

def name : NodeType → String
  | sourceUnit => "SourceUnit"
  | pragmaDirective => "PragmaDirective"
  | importDirective => "ImportDirective"
  | contractDefinition => "ContractDefinition"
  | functionDefinition => "FunctionDefinition"
  | modifierDefinition => "ModifierDefinition"
  | eventDefinition => "EventDefinition"
  | errorDefinition => "ErrorDefinition"
  | structDefinition => "StructDefinition"
  | enumDefinition => "EnumDefinition"
  | userDefinedValueTypeDefinition => "UserDefinedValueTypeDefinition"
  | usingForDirective => "UsingForDirective"
  | variableDeclaration => "VariableDeclaration"
  | block => "Block"
  | uncheckedBlock => "UncheckedBlock"
  | variableDeclarationStatement => "VariableDeclarationStatement"
  | expressionStatement => "ExpressionStatement"
  | ifStatement => "IfStatement"
  | whileStatement => "WhileStatement"
  | doWhileStatement => "DoWhileStatement"
  | forStatement => "ForStatement"
  | returnStatement => "Return"
  | breakStatement => "Break"
  | continueStatement => "Continue"
  | placeholderStatement => "PlaceholderStatement"
  | emitStatement => "EmitStatement"
  | revertStatement => "RevertStatement"
  | inlineAssembly => "InlineAssembly"
  | tryStatement => "TryStatement"
  | tryCatchClause => "TryCatchClause"
  | binaryOperation => "BinaryOperation"
  | unaryOperation => "UnaryOperation"
  | assignment => "Assignment"
  | identifier => "Identifier"
  | literal => "Literal"
  | functionCall => "FunctionCall"
  | functionCallOptions => "FunctionCallOptions"
  | newExpression => "NewExpression"
  | memberAccess => "MemberAccess"
  | indexAccess => "IndexAccess"
  | indexRangeAccess => "IndexRangeAccess"
  | tupleExpression => "TupleExpression"
  | conditional => "Conditional"
  | elementaryTypeNameExpression => "ElementaryTypeNameExpression"
  | elementaryTypeName => "ElementaryTypeName"
  | userDefinedTypeName => "UserDefinedTypeName"
  | mapping => "Mapping"
  | arrayTypeName => "ArrayTypeName"
  | functionTypeName => "FunctionTypeName"

def all : List NodeType :=
  [sourceUnit, pragmaDirective, importDirective, contractDefinition, functionDefinition,
    modifierDefinition, eventDefinition, errorDefinition, structDefinition, enumDefinition,
    userDefinedValueTypeDefinition, usingForDirective, variableDeclaration,
    block, uncheckedBlock, variableDeclarationStatement, expressionStatement, ifStatement,
    whileStatement, doWhileStatement, forStatement, returnStatement, breakStatement,
    continueStatement, placeholderStatement, emitStatement, revertStatement, inlineAssembly,
    tryStatement, tryCatchClause,
    binaryOperation, unaryOperation, assignment, identifier, literal, functionCall,
    functionCallOptions, newExpression, memberAccess, indexAccess, indexRangeAccess,
    tupleExpression, conditional, elementaryTypeNameExpression,
    elementaryTypeName, userDefinedTypeName, mapping, arrayTypeName, functionTypeName]

/-- The node type with the given name. -/
def ofName? (name : String) : Option NodeType :=
  all.find? (·.name = name)

end NodeType

end ContractFlow
