import ContractFlow.Flow.Command
import ContractFlow.Flow.Role

/-!
Structured execution. What a statement does is given by rules over the syntax tree, without a graph:
`Execution task events ending` says that a run of a task may be observed as a sequence of events and
end in a given way. Conditions have no values, so every outcome of a condition may be chosen.

* `Evaluation kind n events`: the evaluation of a condition, which follows the short-circuit
  operations that it is made of;
* `Execution (.statement n)`, `Execution (.sequence l)`, `Execution (.optional o)`: runs of one
  statement, of statements one after another and of one that may be missing;
* `Execution (.loop condition step body)`: the rounds of a loop that tests its condition first.
-/

namespace ContractFlow

/-- What can be observed of an execution. -/
inductive Event where
  | statement (kind : StatementKind) (node : Node)
  | outcome (branch : Branch)

/-- How the execution of a statement ends. -/
inductive Ending where
  /-- Control falls through to what follows. -/
  | normal
  | returned
  | jumped (way : Jump)

/-- How a loop ends when its body has ended in the given way; `none` is another round. -/
def Ending.ofBody : Ending → Option Ending
  | .normal | .jumped .continue => none
  | .jumped .break => some .normal
  | .returned => some .returned

/-- Whether the outcome of the left operand settles a short-circuit operation. -/
def LogicalOperator.SettledBy : LogicalOperator → Branch → Prop
  | .and, outcome => outcome = .onFalse
  | .or, outcome => outcome = .onTrue

/-- Evaluations of a condition, which is recorded as a statement of the given kind unless it is a
short-circuit operation. Then the left operand is evaluated, its outcome is chosen, the right
operand is evaluated unless the outcome settles the operation, and the result is recorded. -/
inductive Evaluation : StatementKind → Node → List Event → Prop
  | whole : n.logical? = none → Evaluation kind n [.statement kind n.unparenthesized]
  | settled : n.logical? = some (operator, left, right) → operator.SettledBy outcome →
    Evaluation .operand left t →
    Evaluation kind n
      (t ++ [.outcome outcome] ++ [.statement .shortCircuitResult n.unparenthesized])
  | continued : n.logical? = some (operator, left, right) → ¬operator.SettledBy outcome →
    Evaluation .operand left t → Evaluation .operand right t' →
    Evaluation kind n
      (t ++ [.outcome outcome] ++ t' ++ [.statement .shortCircuitResult n.unparenthesized])

/-- What can be executed. -/
inductive Task where
  | statement (n : Node)
  | sequence (l : List Node)
  | optional (o : Option Node)
  | loop (condition step : Option Node) (body : Node)

/-- The events of entering a round of a loop. A loop without a condition is entered silently. -/
def entering : Option Node → List Event
  | some condition => [.statement .condition condition, .outcome .onTrue]
  | none => []

/-- The events of leaving a loop by its condition. -/
def leaving (condition : Node) : List Event :=
  [.statement .condition condition, .outcome .onFalse]

inductive Execution : Task → List Event → Ending → Prop
  | block : Execution (.sequence l) t e → Execution (.statement ⟨i, s, .block l⟩) t e
  | uncheckedBlock :
    Execution (.sequence l) t e → Execution (.statement ⟨i, s, .uncheckedBlock l⟩) t e
  | declaration : Execution (.statement ⟨i, s, .variableDeclarationStatement l v⟩)
      [.statement .declaration ⟨i, s, .variableDeclarationStatement l v⟩] .normal
  | expression : Execution (.statement ⟨i, s, .expressionStatement x⟩)
      [.statement .expression x] .normal
  | emit : Execution (.statement ⟨i, s, .emitStatement x⟩)
      [.statement .emit ⟨i, s, .emitStatement x⟩] .normal
  | revert : Execution (.statement ⟨i, s, .revertStatement x⟩)
      [.statement .revert ⟨i, s, .revertStatement x⟩] .normal
  | placeholder : Execution (.statement ⟨i, s, .placeholderStatement⟩)
      [.statement .placeholder ⟨i, s, .placeholderStatement⟩] .normal
  | return : Execution (.statement ⟨i, s, .returnStatement o⟩)
      [.statement .return ⟨i, s, .returnStatement o⟩] .returned
  | break : Execution (.statement ⟨i, s, .breakStatement⟩)
      [.statement .break ⟨i, s, .breakStatement⟩] (.jumped .break)
  | continue : Execution (.statement ⟨i, s, .continueStatement⟩)
      [.statement .continue ⟨i, s, .continueStatement⟩] (.jumped .continue)
  | ifTrue : Evaluation .condition c t → Execution (.optional onTrue) t' e →
    Execution (.statement ⟨i, s, .ifStatement c onTrue onFalse⟩)
      (t ++ [.outcome .onTrue] ++ t') e
  | ifFalse : Evaluation .condition c t → Execution (.optional onFalse) t' e →
    Execution (.statement ⟨i, s, .ifStatement c onTrue onFalse⟩)
      (t ++ [.outcome .onFalse] ++ t') e
  | whileLoop : Execution (.loop (some c) none body) t e →
    Execution (.statement ⟨i, s, .whileStatement c body⟩) t e
  | forLoop : Execution (.optional initialization) t .normal →
    Execution (.loop condition step body) t' e →
    Execution (.statement ⟨i, s, .forStatement initialization condition step body⟩)
      (t ++ t') e
  -- the body of a `do` loop comes before its condition
  | doLeft : Execution (.statement body) t e' → e'.ofBody = some e →
    Execution (.statement ⟨i, s, .doWhileStatement c body⟩) t e
  | doDone : Execution (.statement body) t e' → e'.ofBody = none →
    Execution (.statement ⟨i, s, .doWhileStatement c body⟩) (t ++ leaving c) .normal
  | doAgain : Execution (.statement body) t e' → e'.ofBody = none →
    Execution (.statement ⟨i, s, .doWhileStatement c body⟩) t' e →
    Execution (.statement ⟨i, s, .doWhileStatement c body⟩) (t ++ entering (some c) ++ t') e
  | nil : Execution (.sequence []) [] .normal
  | next : Execution (.statement n) t .normal → Execution (.sequence l) t' e →
    Execution (.sequence (n :: l)) (t ++ t') e
  | stop : Execution (.statement n) t e → e ≠ .normal → Execution (.sequence (n :: l)) t e
  | absent : Execution (.optional none) [] .normal
  | present : Execution (.statement n) t e → Execution (.optional (some n)) t e
  | loopDone : Execution (.loop (some c) step body) (leaving c) .normal
  | loopLeft : Execution (.statement body) t e' → e'.ofBody = some e →
    Execution (.loop condition step body) (entering condition ++ t) e
  | loopAgain : Execution (.statement body) t e' → e'.ofBody = none →
    Execution (.optional step) t' .normal → Execution (.loop condition step body) t'' e →
    Execution (.loop condition step body) (entering condition ++ t ++ t' ++ t'') e

/-- Complete executions of a function: its body, if there is one, falls through or returns. -/
def FunctionDefinition.Completes (f : FunctionDefinition Node) (events : List Event) : Prop :=
  Execution (.optional f.body) events .normal ∨ Execution (.optional f.body) events .returned

end ContractFlow
