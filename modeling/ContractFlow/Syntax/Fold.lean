import ContractFlow.Syntax.Node

/-!
Folding a syntax tree: `Node.fold f` computes a value for each node from its id, its location and
its kind with the values of the parts in their places.
-/

namespace ContractFlow

variable {β : Type} (f : UInt64 → Span → Kind β → β)

mutual
def Node.fold : Node → β
  | ⟨id, src, kind⟩ => f id src (foldKind kind)
def foldAll : List Node → List β
  | [] => []
  | n :: rest => n.fold :: foldAll rest
def foldOption : Option Node → Option β
  | none => none
  | some n => some n.fold
def foldSlots : List (Option Node) → List (Option β)
  | [] => []
  | slot :: rest => foldOption slot :: foldSlots rest
def foldKind : Kind Node → Kind β
  | .sourceUnit nodes => .sourceUnit (foldAll nodes)
  | .pragmaDirective literals => .pragmaDirective literals
  | .importDirective file => .importDirective file
  | .contractDefinition ⟨name, contractKind, baseContracts, nodes⟩ =>
    .contractDefinition ⟨name, contractKind, baseContracts, foldAll nodes⟩
  | .functionDefinition ⟨name, kind, visibility, stateMutability, parameters, returns, body, bad⟩ =>
    .functionDefinition ⟨name, kind, visibility, stateMutability, foldAll parameters,
      foldAll returns, foldOption body, bad⟩
  | .modifierDefinition name parameters body =>
    .modifierDefinition name (foldAll parameters) (foldOption body)
  | .eventDefinition name parameters => .eventDefinition name (foldAll parameters)
  | .errorDefinition name parameters => .errorDefinition name (foldAll parameters)
  | .structDefinition name members => .structDefinition name (foldAll members)
  | .enumDefinition name members => .enumDefinition name members
  | .userDefinedValueTypeDefinition name => .userDefinedValueTypeDefinition name
  | .usingForDirective => .usingForDirective
  | .variableDeclaration name typeName value stateVariable =>
    .variableDeclaration name (foldOption typeName) (foldOption value) stateVariable
  | .block statements => .block (foldAll statements)
  | .uncheckedBlock statements => .uncheckedBlock (foldAll statements)
  | .variableDeclarationStatement declarations initialValue =>
    .variableDeclarationStatement (foldSlots declarations) (foldOption initialValue)
  | .expressionStatement expression => .expressionStatement expression.fold
  | .ifStatement condition trueBody falseBody =>
    .ifStatement condition.fold (foldOption trueBody) (foldOption falseBody)
  | .whileStatement condition body => .whileStatement condition.fold body.fold
  | .doWhileStatement condition body => .doWhileStatement condition.fold body.fold
  | .forStatement initialization condition step body =>
    .forStatement (foldOption initialization) (foldOption condition) (foldOption step) body.fold
  | .returnStatement expression => .returnStatement (foldOption expression)
  | .breakStatement => .breakStatement
  | .continueStatement => .continueStatement
  | .placeholderStatement => .placeholderStatement
  | .emitStatement call => .emitStatement call.fold
  | .revertStatement call => .revertStatement call.fold
  | .inlineAssembly => .inlineAssembly
  | .tryStatement call clauses => .tryStatement call.fold (foldAll clauses)
  | .tryCatchClause errorName parameters handler =>
    .tryCatchClause errorName (foldAll parameters) handler.fold
  | .binaryOperation operator left right => .binaryOperation operator left.fold right.fold
  | .unaryOperation operator prefixed operand => .unaryOperation operator prefixed operand.fold
  | .assignment operator target value => .assignment operator target.fold value.fold
  | .identifier name declaration => .identifier name declaration
  | .literal kind value => .literal kind value
  | .functionCall callee arguments => .functionCall callee.fold (foldAll arguments)
  | .functionCallOptions callee options => .functionCallOptions callee.fold (foldAll options)
  | .newExpression typeName => .newExpression typeName.fold
  | .memberAccess object member => .memberAccess object.fold member
  | .indexAccess base index => .indexAccess base.fold (foldOption index)
  | .indexRangeAccess base start stop =>
    .indexRangeAccess base.fold (foldOption start) (foldOption stop)
  | .tupleExpression components isInlineArray =>
    .tupleExpression (foldSlots components) isInlineArray
  | .conditional condition onTrue onFalse =>
    .conditional condition.fold onTrue.fold onFalse.fold
  | .elementaryTypeNameExpression typeName => .elementaryTypeNameExpression typeName
  | .elementaryTypeName name => .elementaryTypeName name
  | .userDefinedTypeName name => .userDefinedTypeName name
  | .mapping key value => .mapping key.fold value.fold
  | .arrayTypeName element length => .arrayTypeName element.fold (foldOption length)
  | .functionTypeName => .functionTypeName
end

end ContractFlow
