import ContractFlow.Flow.Statement

/-!
The body of a function as a structured program: what of its syntax decides where control goes. A
condition is seen without its parentheses and down to the operands of its short-circuit operations;
a block is the sequence of its statements.
-/

namespace ContractFlow

/-- A condition. A plain one is evaluated as a whole. -/
inductive Condition where
  | plain (node : Node)
  | logical (node : Node) (operator : LogicalOperator) (left right : Condition)

namespace Condition

/-- The expression, which has no parentheses around it. -/
def node : Condition → Node
  | plain node => node
  | logical node .. => node

def ofNode : Node → Condition
  | ⟨_, _, .tupleExpression [some inner] false⟩ => ofNode inner
  | ⟨id, src, .binaryOperation symbol left right⟩ =>
    let node : Node := ⟨id, src, .binaryOperation symbol left right⟩
    match LogicalOperator.ofSymbol? symbol with
    | some operator => logical node operator (ofNode left) (ofNode right)
    | none => plain node
  | node => plain node

end Condition

/-- A clause in the header of a `for` loop. -/
inductive Clause where
  | simple (kind : StatementKind) (node : Node)
  | unsupported (node : Node)

def Clause.ofNode (n : Node) : Clause :=
  match n.kind with
  | .variableDeclarationStatement .. => simple .declaration n
  | .expressionStatement expression => simple .expression expression
  | _ => unsupported n

/-- The two ways to leave the body of a loop early. -/
inductive Jump where
  | break | continue
  deriving DecidableEq, Repr

def Jump.statement : Jump → StatementKind
  | .break => .break
  | .continue => .continue

/-- A structured program. Ids are those of the statements that the parts stand for. -/
inductive Command where
  | skip
  | seq (first second : Command)
  /-- A statement that control falls through, which may evaluate only a part of the statement. -/
  | simple (id : UInt64) (kind : StatementKind) (node : Node)
  | branch (id : UInt64) (condition : Condition) (onTrue onFalse : Option Command)
  | whileLoop (id : UInt64) (condition : Node) (body : Command)
  | doWhileLoop (id : UInt64) (condition : Node) (body : Command)
  | forLoop (id : UInt64) (initialization : Option Clause) (condition : Option Node)
    (step : Option Clause) (body : Command)
  | return (node : Node)
  | jump (way : Jump) (node : Node)
  | unsupported (node : Node)

namespace Command

mutual

/-- The program that a statement stands for. -/
def ofNode : Node → Command
  | ⟨_, _, .block statements⟩ => ofNodes statements
  | ⟨_, _, .uncheckedBlock statements⟩ => ofNodes statements
  | ⟨id, src, .variableDeclarationStatement declarations value⟩ =>
    simple id .declaration ⟨id, src, .variableDeclarationStatement declarations value⟩
  | ⟨id, _, .expressionStatement expression⟩ => simple id .expression expression
  | ⟨id, src, .emitStatement call⟩ => simple id .emit ⟨id, src, .emitStatement call⟩
  | ⟨id, src, .revertStatement call⟩ => simple id .revert ⟨id, src, .revertStatement call⟩
  | ⟨id, src, .placeholderStatement⟩ => simple id .placeholder ⟨id, src, .placeholderStatement⟩
  | ⟨id, _, .ifStatement condition trueBody falseBody⟩ =>
    branch id (.ofNode condition) (ofNode? trueBody) (ofNode? falseBody)
  | ⟨id, _, .whileStatement condition body⟩ => whileLoop id condition (ofNode body)
  | ⟨id, _, .doWhileStatement condition body⟩ => doWhileLoop id condition (ofNode body)
  | ⟨id, _, .forStatement initialization condition step body⟩ =>
    forLoop id (initialization.map .ofNode) condition (step.map .ofNode) (ofNode body)
  | ⟨id, src, .returnStatement expression⟩ => .return ⟨id, src, .returnStatement expression⟩
  | ⟨id, src, .breakStatement⟩ => jump .break ⟨id, src, .breakStatement⟩
  | ⟨id, src, .continueStatement⟩ => jump .continue ⟨id, src, .continueStatement⟩
  | node => unsupported node

def ofNodes : List Node → Command
  | [] => skip
  | node :: rest => seq (ofNode node) (ofNodes rest)

def ofNode? : Option Node → Option Command
  | some node => some (ofNode node)
  | none => none

end

end Command

end ContractFlow
