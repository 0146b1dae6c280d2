import ContractFlow.Json.Value
import ContractFlow.Syntax.Fold

/-!
Syntax trees as they appear in reports. A node is an object with its id, location and kind; a kind
without parts is its type's name, any other kind an object with that name as its only key.
-/

namespace ContractFlow

def Span.record (s : Span) : Json :=
  .object [
    ("offset", .ofNat s.offset.toNat),
    ("length", .ofNat s.length.toNat),
    ("file_index", .integer s.fileIndex.toInt)]

/-- The name of a kind of function in reports. -/
def FunctionKind.recordName : FunctionKind → String
  | .function => "Function"
  | .constructor => "Constructor"
  | .fallback => "Fallback"
  | .receive => "Receive"
  | .freeFunction => "FreeFunction"

namespace Kind

/-- The parts of a kind by name, or none if a kind has no parts to name. -/
def recordFields : Kind Json → Option (List (String × Json))
  | sourceUnit nodes => some [("nodes", .array nodes)]
  | pragmaDirective literals => some [("literals", .strings literals)]
  | importDirective file => some [("file", .string file)]
  | contractDefinition c => some [
      ("name", .string c.name),
      ("contract_kind", .string c.contractKind),
      ("base_contracts", .strings c.baseContracts),
      ("nodes", .array c.nodes)]
  | functionDefinition f => some [
      ("name", .string f.name),
      ("kind", .string f.kind.recordName),
      ("visibility", .ofOption .string f.visibility),
      ("state_mutability", .ofOption .string f.stateMutability),
      ("parameters", .array f.parameters),
      ("return_parameters", .array f.returnParameters),
      ("body", .ofOption id f.body),
      ("malformed_body", .bool f.malformedBody)]
  | modifierDefinition name parameters body => some [
      ("name", .string name), ("parameters", .array parameters), ("body", .ofOption id body)]
  | eventDefinition name parameters => some [
      ("name", .string name), ("parameters", .array parameters)]
  | errorDefinition name parameters => some [
      ("name", .string name), ("parameters", .array parameters)]
  | structDefinition name members => some [("name", .string name), ("members", .array members)]
  | enumDefinition name members => some [("name", .string name), ("members", .strings members)]
  | userDefinedValueTypeDefinition name => some [("name", .string name)]
  | variableDeclaration name typeName value stateVariable => some [
      ("name", .string name),
      ("type_name", .ofOption id typeName),
      ("value", .ofOption id value),
      ("state_variable", .bool stateVariable)]
  | block statements => some [("statements", .array statements)]
  | uncheckedBlock statements => some [("statements", .array statements)]
  | variableDeclarationStatement declarations initialValue => some [
      ("declarations", .array (declarations.map (.ofOption id))),
      ("initial_value", .ofOption id initialValue)]
  | expressionStatement expression => some [("expression", expression)]
  | ifStatement condition trueBody falseBody => some [
      ("condition", condition),
      ("true_body", .ofOption id trueBody),
      ("false_body", .ofOption id falseBody)]
  | whileStatement condition body => some [("condition", condition), ("body", body)]
  | doWhileStatement condition body => some [("condition", condition), ("body", body)]
  | forStatement initialization condition step body => some [
      ("initialization_expression", .ofOption id initialization),
      ("condition", .ofOption id condition),
      ("loop_expression", .ofOption id step),
      ("body", body)]
  | returnStatement expression => some [("expression", .ofOption id expression)]
  | emitStatement call => some [("event_call", call)]
  | revertStatement call => some [("error_call", call)]
  | tryStatement call clauses => some [("external_call", call), ("clauses", .array clauses)]
  | tryCatchClause errorName parameters handler => some [
      ("error_name", .string errorName), ("parameters", .array parameters), ("block", handler)]
  | binaryOperation operator left right => some [
      ("operator", .string operator), ("left_expression", left), ("right_expression", right)]
  | unaryOperation operator prefixed operand => some [
      ("operator", .string operator), ("prefix", .bool prefixed), ("sub_expression", operand)]
  | assignment operator target value => some [
      ("operator", .string operator), ("left_hand_side", target), ("right_hand_side", value)]
  | identifier name declaration => some [
      ("name", .string name),
      ("referenced_declaration", .ofOption (fun d => .integer d.toInt) declaration)]
  | literal kind value => some [("kind", .string kind), ("value", .ofOption .string value)]
  | functionCall callee arguments => some [
      ("expression", callee), ("arguments", .array arguments)]
  | functionCallOptions callee options => some [
      ("expression", callee), ("options", .array options)]
  | newExpression typeName => some [("type_name", typeName)]
  | memberAccess object member => some [("expression", object), ("member_name", .string member)]
  | indexAccess base index => some [
      ("base_expression", base), ("index_expression", .ofOption id index)]
  | indexRangeAccess base start stop => some [
      ("base_expression", base),
      ("start_expression", .ofOption id start),
      ("end_expression", .ofOption id stop)]
  | tupleExpression components isInlineArray => some [
      ("components", .array (components.map (.ofOption id))),
      ("is_inline_array", .bool isInlineArray)]
  | conditional condition onTrue onFalse => some [
      ("condition", condition), ("true_expression", onTrue), ("false_expression", onFalse)]
  | elementaryTypeNameExpression typeName => some [("type_name", .string typeName)]
  | elementaryTypeName name => some [("name", .string name)]
  | userDefinedTypeName name => some [("name", .string name)]
  | mapping key value => some [("key_type", key), ("value_type", value)]
  | arrayTypeName element length => some [
      ("base_type", element), ("length", .ofOption id length)]
  | usingForDirective | breakStatement | continueStatement | placeholderStatement | inlineAssembly
  | functionTypeName => none

def record (k : Kind Json) : Json :=
  match k.recordFields with
  | some fields => .object [(k.type.name, .object fields)]
  | none => .string k.type.name

end Kind

def Node.record : Node → Json :=
  Node.fold fun id src kind => .object [
    ("id", .ofNat id.toNat), ("src", src.record), ("kind", kind.record)]

end ContractFlow
