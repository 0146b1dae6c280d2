/-!
The parts that nodes play in a control flow graph, and the outcomes of conditions that edges carry.
-/

namespace ContractFlow

inductive Role where
  | functionEntry
  | functionExit
  | basicBlock
  | branchCondition
  | branchTrue
  | branchFalse
  | convergence
  | loopInit
  | loopCondition
  | loopBody
  | loopIncrement
  | afterLoop
  | shortCircuitLeft
  | shortCircuitRight
  | shortCircuitBypass
  | return
  deriving DecidableEq, Repr

namespace Role

def name : Role → String
  | functionEntry => "FunctionEntry"
  | functionExit => "FunctionExit"
  | basicBlock => "BasicBlock"
  | branchCondition => "BranchCondition"
  | branchTrue => "BranchTrue"
  | branchFalse => "BranchFalse"
  | convergence => "Convergence"
  | loopInit => "LoopInit"
  | loopCondition => "LoopCondition"
  | loopBody => "LoopBody"
  | loopIncrement => "LoopIncrement"
  | afterLoop => "AfterLoop"
  | shortCircuitLeft => "ShortCircuitLeft"
  | shortCircuitRight => "ShortCircuitRight"
  | shortCircuitBypass => "ShortCircuitBypass"
  | .return => "Return"

/-- The end of the id of a node that plays this part. -/
def suffix : Role → String
  | functionEntry => "entry"
  | functionExit => "exit"
  | basicBlock => "block"
  | branchCondition => "if"
  | branchTrue => "true"
  | branchFalse => "false"
  | convergence => "convergent"
  | loopInit => "init"
  | loopCondition => "condition"
  | loopBody => "body"
  | loopIncrement => "increment"
  | afterLoop => "after"
  | shortCircuitLeft => "left"
  | shortCircuitRight => "right"
  | shortCircuitBypass => "bypass"
  | .return => "return"

/-- The color that nodes are drawn in. -/
def fillColor : Role → Option String
  | functionEntry | functionExit => some "lightblue"
  | branchCondition | branchTrue | branchFalse | convergence => some "yellow"
  | loopCondition | loopBody | afterLoop => some "orange"
  | loopInit | loopIncrement => some "green"
  | basicBlock | shortCircuitLeft | shortCircuitRight | shortCircuitBypass | .return => none

/-- Whether the statements that follow a node may be put into it. -/
def isOpen : Role → Bool
  | basicBlock | branchTrue | branchFalse | convergence | loopBody | afterLoop => true
  | _ => false

end Role

/-- The outcome of a condition. -/
inductive Branch where
  | onTrue | onFalse
  deriving DecidableEq, Repr

namespace Branch

def name : Branch → String
  | onTrue => "True"
  | onFalse => "False"

/-- The role of the node that an arm of a branch begins with. -/
def arm : Branch → Role
  | onTrue => .branchTrue
  | onFalse => .branchFalse

end Branch

end ContractFlow
