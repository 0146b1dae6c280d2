import ContractFlow.Flow.Command
import ContractFlow.Flow.Graph

/-!
Building the control flow graph of a function. A command is built after the node that control comes
from, if any, and yields the node that it falls through to, if any. Statements that follow a node
that is not open to them, or that nothing falls through to, begin a basic block of their own.
-/

namespace ContractFlow

/-- Steps that extend a control flow graph. -/
abbrev Build : Type → Type := StateT FlowGraph (Except Error)

namespace Build

/-- Creates a node, whose index is the number of nodes before. Ids are not used twice. -/
def insertNode (id : String) (role : Role) : Build Nat := fun g =>
  if g.contains id then .error (.duplicateNode id)
  else do
    let index := g.graph.vertexCount
    let graph ← g.graph.insertVertex index { id := id, role := role }
    return (index, { g with graph := graph })

/-- Creates a node that plays a part for a syntax node. -/
def addNode (id : UInt64) (role : Role) : Build Nat :=
  insertNode (toString id ++ "_" ++ role.suffix) role

def connect (head tail : Nat) (outcome : Option Branch) : Build Unit := fun g => do
  return ((), { g with graph := ← g.graph.insertEdge ⟨head, tail, outcome⟩ })

/-- Connects what control comes from, if anything, to a node. -/
def link (current : Option Nat) (index : Nat) (outcome : Option Branch) : Build Unit :=
  match current with
  | some current => connect current index outcome
  | none => return ()

def push (source : String) (index : Nat) (kind : StatementKind) (node : Node) : Build Unit :=
  fun g => do
    return ((), { g with
      graph := ← g.graph.modifyVertex index (·.push (.make source kind node)) })

def unsupported {α : Type} (node : Node) : Build α :=
  throw (.unsupportedConstruct node.type.name node.id)

def pushClause (source : String) (index : Nat) : Option Clause → Build Unit
  | some (.simple kind node) => push source index kind node
  | some (.unsupported node) => unsupported node
  | none => return ()

/-- Begins a basic block for the statement with the given id. -/
def beginBlock (current : Option Nat) (id : UInt64) : Build Nat := do
  let block ← addNode id .basicBlock
  link current block none
  return block

/-- The node that the statement with the given id goes into. -/
def blockFor (current : Option Nat) (id : UInt64) : Build Nat := do
  match current with
  | none => beginBlock current id
  | some index =>
    let node ← (← get).node index
    if node.role.isOpen then return index else beginBlock current id

/-- Creates the node that holds the value of an operand. -/
def addOperand (parent : Node) (role : Role) : Condition → Build Nat
  | .plain _ => addNode parent.id role
  | .logical node .. => addNode node.id .convergence

end Build

/-- The outcome of the left operand that settles a short-circuit operation. -/
def LogicalOperator.settling : LogicalOperator → Branch
  | .and => .onFalse
  | .or => .onTrue

/-- The outcome of the left operand on which the right operand is evaluated. -/
def LogicalOperator.continuing : LogicalOperator → Branch
  | .and => .onTrue
  | .or => .onFalse

open Build

/-- Evaluates a condition, coming from `current` with the given outcome, into the node `holder`. The
left operand of a short-circuit operation is evaluated first; its outcome leads past the right
operand or into it, and both ways lead to the holder. -/
def Condition.build (source : String) (kind : StatementKind) (current : Option Nat)
    (outcome : Option Branch) (holder : Nat) : Condition → Build Unit
  | plain node => do
    link current holder outcome
    push source holder kind node
  | logical node operator left right => do
    let leftHolder ← addOperand node .shortCircuitLeft left
    left.build source .operand current outcome leftHolder
    let bypass ← addNode node.id .shortCircuitBypass
    connect leftHolder bypass operator.settling
    let rightHolder ← addOperand node .shortCircuitRight right
    right.build source .operand leftHolder operator.continuing rightHolder
    connect bypass holder none
    connect rightHolder holder none
    push source holder .shortCircuitResult node

/-- Where `break` and `continue` lead. -/
structure LoopTargets where
  continueTo : Nat
  breakTo : Nat

def LoopTargets.target (targets : LoopTargets) : Jump → Nat
  | .break => targets.breakTo
  | .continue => targets.continueTo

namespace Command

mutual

/-- Builds a command inside the innermost loop with the given targets, coming from `current`. -/
def build (source : String) (targets : Option LoopTargets) (current : Option Nat) :
    Command → Build (Option Nat)
  | skip => return current
  | seq first second => do
    let middle ← first.build source targets current
    second.build source targets middle
  | simple id kind node => do
    let index ← blockFor current id
    push source index kind node
    return some index
  | branch id condition onTrue onFalse => do
    let head ← addNode id .branchCondition
    condition.build source .condition current none head
    let trueEnds ← buildArm source targets id head .onTrue onTrue
    let falseEnds ← buildArm source targets id head .onFalse onFalse
    let ends := trueEnds ++ falseEnds
    if ends.isEmpty then return none
    else
      let convergence ← addNode id .convergence
      ends.forM fun (last, outcome) => connect last convergence outcome
      return some convergence
  | whileLoop id condition body => do
    let head ← addNode id .loopCondition
    link current head none
    push source head .condition condition
    let first ← addNode id .loopBody
    connect head first (some .onTrue)
    let after ← addNode id .afterLoop
    let last ← body.build source (some ⟨head, after⟩) (some first)
    link last head none
    connect head after (some .onFalse)
    return some after
  | doWhileLoop id condition body => do
    let first ← addNode id .loopBody
    link current first none
    let head ← addNode id .loopCondition
    let after ← addNode id .afterLoop
    let last ← body.build source (some ⟨head, after⟩) (some first)
    link last head none
    push source head .condition condition
    connect head first (some .onTrue)
    connect head after (some .onFalse)
    return some after
  | forLoop id initialization condition step body => do
    let start ← addNode id .loopInit
    link current start none
    pushClause source start initialization
    let head ← addNode id .loopCondition
    connect start head none
    pushClause source head (condition.map (.simple .condition))
    let first ← addNode id .loopBody
    connect head first (condition.map fun _ => .onTrue)
    let increment ← addNode id .loopIncrement
    pushClause source increment step
    let after ← addNode id .afterLoop
    let last ← body.build source (some ⟨increment, after⟩) (some first)
    link last increment none
    connect increment head none
    if condition.isSome then connect head after (some .onFalse)
    return some after
  | .return node => do
    let index ← addNode node.id .return
    link current index none
    push source index .return node
    connect index FlowGraph.exit none
    return none
  | jump way node =>
    match targets with
    | none => Build.unsupported node
    | some targets => do
      let index ← blockFor current node.id
      push source index way.statement node
      connect index (targets.target way) none
      return none
  | unsupported node => Build.unsupported node

/-- Builds an arm of a branch, which may be missing, and yields the edges that lead out of it. -/
def buildArm (source : String) (targets : Option LoopTargets) (id : UInt64) (head : Nat)
    (outcome : Branch) : Option Command → Build (List (Nat × Option Branch))
  | none => return [(head, some outcome)]
  | some arm => do
    let first ← addNode id outcome.arm
    connect head first (some outcome)
    let last ← arm.build source targets (some first)
    return last.toList.map (·, none)

end

end Command

namespace FlowGraph

/-- Builds the graph of a function: its entry and exit, and its body between them. -/
def buildFunction (source : String) (id : UInt64) (name : String) (body : Option Node) :
    Build Unit := do
  let entry ← insertNode ("entry_" ++ toString id ++ "_" ++ name) .functionEntry
  let exit ← insertNode ("exit_" ++ toString id ++ "_" ++ name) .functionExit
  match body with
  | none => connect entry exit none
  | some body =>
    let block ← addNode body.id .basicBlock
    connect entry block none
    let last ← (Command.ofNode body).build source none (some block)
    link last exit none

/-- The control flow graph of a function definition. -/
def ofFunction (function : Node) (source : String) : Except Error FlowGraph :=
  match function.function? with
  | none => .error (.unsupportedConstruct function.type.name function.id)
  | some definition =>
    let name := definition.displayName
    if definition.malformedBody then .error (.malformedBody name function.id)
    else do
      let ((), g) ← (buildFunction source function.id name definition.body).run
        { functionId := function.id, functionName := name }
      return g

end FlowGraph

end ContractFlow
