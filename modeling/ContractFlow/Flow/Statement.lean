import ContractFlow.Flow.Access
import ContractFlow.Syntax.Record

/-!
The statements that the nodes of a control flow graph hold.
-/

namespace ContractFlow

inductive StatementKind where
  | declaration
  | expression
  | condition
  /-- One operand of a short-circuit operation. -/
  | operand
  /-- The value of a short-circuit operation, whose operands are evaluated in nodes of their own. -/
  | shortCircuitResult
  | «return»
  | «break»
  | «continue»
  | emit
  | revert
  | placeholder
  deriving DecidableEq, Repr

namespace StatementKind

def name : StatementKind → String
  | declaration => "Declaration"
  | expression => "Expression"
  | condition => "Condition"
  | operand => "Operand"
  | shortCircuitResult => "ShortCircuitResult"
  | .return => "Return"
  | .break => "Break"
  | .continue => "Continue"
  | emit => "Emit"
  | revert => "Revert"
  | placeholder => "Placeholder"

/-- The word that labels start with. -/
def word : StatementKind → String
  | declaration => "Declare"
  | expression => "Expr"
  | condition => "If"
  | operand => "Operand"
  | shortCircuitResult => "Result"
  | .return => "Return"
  | .break => "Break"
  | .continue => "Continue"
  | emit => "Emit"
  | revert => "Revert"
  | placeholder => "Placeholder"

/-- Statements that neither define nor use anything themselves. -/
def isInert : StatementKind → Bool
  | shortCircuitResult | .break | .continue | placeholder => true
  | _ => false

end StatementKind

structure Statement where
  kind : StatementKind
  node : Node
  /-- The source text of the node. -/
  text : String
  effects : Effects

namespace Statement

def make (source : String) (kind : StatementKind) (node : Node) : Statement where
  kind := kind
  node := node
  text := node.text source
  effects := if kind.isInert then .none else node.effects

def defs (s : Statement) : Names := s.effects.defs

def uses (s : Statement) : Names := s.effects.uses

def label (s : Statement) : String := s.kind.word ++ ": " ++ s.text

def record (s : Statement) : Json :=
  .object [
    ("kind", .string s.kind.name),
    ("node", s.node.record),
    ("text", .string s.text),
    ("defs", s.defs.record),
    ("uses", s.uses.record)]

end Statement

end ContractFlow
