import ContractFlow.Proofs.Layout

/-!
Every statement is recorded once. `Node.statements` are the statements that a body is made of and
`Node.holds` what each of them is recorded as; the rest of it is syntax that is not looked into or
the statements inside of it. The nodes of a graph that is the layout of a function hold its records,
and the records of a command are what its statements hold, with a lemma for each kind of command.
Main statement: `FlowGraph.ofFunction_recorded`, the nodes of the graph of a function hold what its
statements are recorded as, each as often as it is there.
-/

namespace ContractFlow

namespace Node

mutual

/-- A statement and the statements inside of it, those in the header of a `for` loop included. -/
def statements : Node → List Node
  | ⟨id, src, .block statements⟩ => ⟨id, src, .block statements⟩ :: statementsAll statements
  | ⟨id, src, .uncheckedBlock statements⟩ =>
    ⟨id, src, .uncheckedBlock statements⟩ :: statementsAll statements
  | ⟨id, src, .ifStatement condition trueBody falseBody⟩ =>
    ⟨id, src, .ifStatement condition trueBody falseBody⟩ ::
      (statements? trueBody ++ statements? falseBody)
  | ⟨id, src, .whileStatement condition body⟩ =>
    ⟨id, src, .whileStatement condition body⟩ :: body.statements
  | ⟨id, src, .doWhileStatement condition body⟩ =>
    ⟨id, src, .doWhileStatement condition body⟩ :: body.statements
  | ⟨id, src, .forStatement initialization condition step body⟩ =>
    ⟨id, src, .forStatement initialization condition step body⟩ ::
      (initialization.toList ++ (step.toList ++ body.statements))
  | n => [n]

def statementsAll : List Node → List Node
  | [] => []
  | n :: rest => n.statements ++ statementsAll rest

def statements? : Option Node → List Node
  | some n => n.statements
  | none => []

end

/-- What the evaluation of a condition is recorded as: the results of its short-circuit operations
and their operands, or the condition as a whole. Parentheses are not recorded. -/
def evaluated (kind : StatementKind) : Node → List (StatementKind × Node)
  | ⟨_, _, .tupleExpression [some inner] false⟩ => inner.evaluated kind
  | ⟨id, src, .binaryOperation symbol left right⟩ =>
    if (LogicalOperator.ofSymbol? symbol).isSome then
      (.shortCircuitResult, ⟨id, src, .binaryOperation symbol left right⟩) ::
        (left.evaluated .operand ++ right.evaluated .operand)
    else [(kind, ⟨id, src, .binaryOperation symbol left right⟩)]
  | n => [(kind, n)]

/-- What a statement is recorded as, apart from the statements inside of it. -/
def holds (n : Node) : List (StatementKind × Node) :=
  match n.kind with
  | .variableDeclarationStatement .. => [(.declaration, n)]
  | .expressionStatement expression => [(.expression, expression)]
  | .emitStatement _ => [(.emit, n)]
  | .revertStatement _ => [(.revert, n)]
  | .placeholderStatement => [(.placeholder, n)]
  | .returnStatement _ => [(.return, n)]
  | .breakStatement => [(.break, n)]
  | .continueStatement => [(.continue, n)]
  | .ifStatement condition _ _ => condition.evaluated .condition
  | .whileStatement condition _ => [(.condition, condition)]
  | .doWhileStatement condition _ => [(.condition, condition)]
  | .forStatement _ condition _ _ => condition.toList.map (.condition, ·)
  | _ => []

end Node

namespace FlowGraph

variable {g : FlowGraph} {id : UInt64} {name : String} {body : Option Node}

/-- What the nodes of a graph hold all together. -/
def recorded (g : FlowGraph) : Multiset (StatementKind × Node) :=
  (g.nodes.flatMap FlowNode.contents : List _)

theorem WellFormed.recorded_eq (H : g.WellFormed) :
    g.recorded = ((List.range g.graph.vertexCount).flatMap g.contentsAt : List _) := by
  rw [recorded, List.flatMap_def, List.flatMap_def]
  congr 2
  apply List.ext_getElem?
  intro i
  rw [List.getElem?_map, List.getElem?_map, H.getElem?_nodes]
  by_cases hi : i < g.graph.vertexCount
  · obtain ⟨n, hn⟩ := Digraph.hasVertex_iff.mp ((H.dense i).mpr hi)
    rw [List.getElem?_range hi, Option.map_some, contentsAt, node, hn]
    rfl
  · rw [List.getElem?_eq_none (by rw [List.length_range]; omega), ← H.getElem?_nodes,
      List.getElem?_eq_none (by rw [length_nodes]; omega)]
    rfl

theorem flatMap_range_single {size index : Nat} {x : StatementKind × Node} (h : index < size) :
    ((List.range size).flatMap fun i => if i = index then [x] else []) = [x] := by
  induction size with
  | zero => exact absurd h (Nat.not_lt_zero index)
  | succ size ih =>
    rw [List.range_succ, List.flatMap_append, List.flatMap_singleton]
    rcases Nat.lt_succ_iff_lt_or_eq.mp h with hlt | rfl
    · rw [ih hlt, if_neg (Nat.ne_of_gt hlt), List.append_nil]
    · rw [if_pos rfl, List.flatMap_eq_nil_iff.mpr, List.nil_append]
      exact fun i hi => if_neg (Nat.ne_of_lt (List.mem_range.mp hi))

/-- Records that are sorted into the nodes they go into are all there. -/
theorem flatMap_records_perm {size : Nat} {records : List Record}
    (h : ∀ x ∈ records, x.index < size) :
    ((List.range size).flatMap fun i =>
      (records.filter (·.index = i)).map Record.content).Perm (records.map Record.content) := by
  induction records with
  | nil => simp
  | cons x records ih =>
    have hsplit : ∀ i, ((x :: records).filter (·.index = i)).map Record.content =
        (if i = x.index then [x.content] else []) ++
          (records.filter (·.index = i)).map Record.content := by
      intro i
      by_cases hi : x.index = i <;> simp [hi, Ne.symm]
    simp only [hsplit]
    refine (List.flatMap_append_perm ..).symm.trans ?_
    rw [flatMap_range_single (h x List.mem_cons_self)]
    exact (ih fun y hy => h y (List.mem_cons_of_mem x hy)).append_left [x.content]

/-- A graph that is the layout of a function holds its records. -/
theorem LaidOut.recorded (L : g.LaidOut id name body) :
    g.recorded = ((bodyRecords body).map Record.content : List _) := by
  rw [L.wellFormed.recorded_eq, funext L.contentsAt]
  exact Multiset.coe_eq_coe.mpr (flatMap_records_perm L.inRange)

end FlowGraph

/-! ## The records of a command -/

/-- The evaluation of a condition is recorded down to the operands of its operations. -/
theorem Condition.records_ofNode (n : Node) : ∀ kind current outcome holder base,
    (((ofNode n).records kind current outcome holder base).map Record.content).Perm
      (n.evaluated kind) := by
  refine ofNode.induct (fun n => ∀ kind current outcome holder base,
    (((ofNode n).records kind current outcome holder base).map Record.content).Perm
      (n.evaluated kind)) ?parenthesized ?logical ?operation ?plain n
  case parenthesized => exact fun id src inner ih => ih
  case logical =>
    intro id src symbol left right operator hoperator ihl ihr kind current outcome holder base
    simp only [ofNode, hoperator, Node.evaluated, Option.isSome_some, if_true, records,
      List.map_append]
    rw [← List.append_assoc]
    exact List.perm_append_comm.trans (((ihl ..).append (ihr ..)).cons _)
  case operation =>
    intro id src symbol left right hoperator kind current outcome holder base
    simp only [ofNode, hoperator, Node.evaluated, Option.isSome_none]
    exact .refl _
  case plain =>
    intro node h₁ h₂ kind current outcome holder base
    have hnode : ofNode node = plain node := by
      simp only [ofNode]
    have hevaluated : node.evaluated kind = [(kind, node)] := by
      simp only [Node.evaluated]
    rw [hnode, hevaluated]
    exact .refl _

/-- A clause in the header of a `for` loop is recorded as a statement. -/
theorem Clause.records_ofNode {clause : Option Node} (index : Nat)
    (h : (clause.map ofNode).toList.flatMap offences = []) :
    ((clause.map ofNode).toList.flatMap (records index)).map Record.content =
      clause.toList.flatMap Node.holds := by
  rcases clause with _ | ⟨id, src, kind⟩
  · rfl
  · cases kind with
    | variableDeclarationStatement declarations value => rfl
    | expressionStatement expression => rfl
    | _ => cases h

namespace Command

/-- What a command that holds no offence is recorded as, wherever it is built. -/
def Holds (c : Command) (contents : List (StatementKind × Node)) : Prop :=
  ∀ targets current base, c.offences targets.isSome = [] →
    ((c.records targets current base).map Record.content).Perm contents

/-- The same for an arm of a branch. -/
def ArmHolds (arm : Option Command) (contents : List (StatementKind × Node)) : Prop :=
  ∀ targets base, offencesArm targets.isSome arm = [] →
    ((recordsArm targets base arm).map Record.content).Perm contents

section

variable {first second body : Command} {onTrue onFalse : Option Command}
  {contents contents' : List (StatementKind × Node)}

theorem holds_simple (id : UInt64) (kind : StatementKind) (node : Node) :
    (simple id kind node).Holds [(kind, node)] :=
  fun _ _ _ _ => .refl _

theorem holds_return (node : Node) : (Command.return node).Holds [(.return, node)] :=
  fun _ _ _ _ => .refl _

theorem holds_jump (way : Jump) (node : Node) : (jump way node).Holds [(way.statement, node)] := by
  intro targets current base h
  cases targets with
  | none => cases h
  | some loop => exact .refl _

theorem Holds.seq (hfirst : first.Holds contents) (hsecond : second.Holds contents') :
    (first.seq second).Holds (contents ++ contents') := by
  intro targets current base h
  obtain ⟨h₁, h₂⟩ := List.append_eq_nil_iff.mp h
  rw [records, List.map_append]
  exact (hfirst _ _ _ h₁).append (hsecond _ _ _ h₂)

theorem holds_branch (id : UInt64) (condition : Node) (ht : ArmHolds onTrue contents)
    (hf : ArmHolds onFalse contents') :
    (branch id (.ofNode condition) onTrue onFalse).Holds
      (condition.evaluated .condition ++ (contents ++ contents')) := by
  intro targets current base h
  obtain ⟨h₁, h₂⟩ := List.append_eq_nil_iff.mp h
  rw [records, List.map_append, List.map_append]
  exact (Condition.records_ofNode condition _ _ _ _ _).append ((ht _ _ h₁).append (hf _ _ h₂))

theorem Holds.whileLoop (hbody : body.Holds contents) (id : UInt64) (condition : Node) :
    (whileLoop id condition body).Holds ((.condition, condition) :: contents) :=
  fun _ _ _ h => (hbody _ _ _ h).cons _

theorem Holds.doWhileLoop (hbody : body.Holds contents) (id : UInt64) (condition : Node) :
    (doWhileLoop id condition body).Holds ((.condition, condition) :: contents) := by
  intro targets current base h
  rw [records, List.map_append]
  exact List.perm_append_comm.trans ((hbody _ _ _ h).cons _)

theorem Holds.forLoop (hbody : body.Holds contents) (id : UInt64) (initialization : Option Node)
    (condition : Option Node) (step : Option Node) :
    (forLoop id (initialization.map .ofNode) condition (step.map .ofNode) body).Holds
      (condition.toList.map (.condition, ·) ++ (initialization.toList.flatMap Node.holds ++
        (step.toList.flatMap Node.holds ++ contents))) := by
  intro targets current base h
  obtain ⟨h₁, h⟩ := List.append_eq_nil_iff.mp h
  obtain ⟨h₂, h₃⟩ := List.append_eq_nil_iff.mp h
  rw [records, List.map_append, List.map_append, List.map_append, Clause.records_ofNode _ h₁,
    Clause.records_ofNode _ h₂, List.map_map]
  refine List.perm_append_comm_assoc .. |>.trans ?_
  exact (((hbody (some _) _ _ h₃).append_left _).append_left _).append_left _

end

/-- A statement is recorded with the statements inside of it. -/
theorem holds_ofNode (n : Node) : (ofNode n).Holds (n.statements.flatMap Node.holds) := by
  refine ofNode.induct (fun n => (ofNode n).Holds (n.statements.flatMap Node.holds))
    (fun o => ArmHolds (ofNode? o) ((Node.statements? o).flatMap Node.holds))
    (fun l => (ofNodes l).Holds ((Node.statementsAll l).flatMap Node.holds))
    ?block ?uncheckedBlock ?declaration ?expression ?emit ?revert ?placeholder ?branch ?whileLoop
    ?doWhileLoop ?forLoop ?returning ?breaking ?continuing ?unsupported ?nil ?cons ?some ?none n
  case block => exact fun id src statements ih => ih
  case uncheckedBlock => exact fun id src statements ih => ih
  case declaration => exact fun id src declarations value => holds_simple _ _ _
  case expression => exact fun id src expression => holds_simple _ _ _
  case emit => exact fun id src call => holds_simple _ _ _
  case revert => exact fun id src call => holds_simple _ _ _
  case placeholder => exact fun id src => holds_simple _ _ _
  case branch =>
    intro id src condition trueBody falseBody iht ihf
    rw [Node.statements, List.flatMap_cons, List.flatMap_append]
    exact holds_branch id condition iht ihf
  case whileLoop => exact fun id src condition body ih => ih.whileLoop id condition
  case doWhileLoop => exact fun id src condition body ih => ih.doWhileLoop id condition
  case forLoop =>
    intro id src initialization condition step body ih
    rw [Node.statements, List.flatMap_cons, List.flatMap_append, List.flatMap_append]
    exact ih.forLoop id initialization condition step
  case returning => exact fun id src expression => holds_return _
  case breaking => exact fun id src => holds_jump _ _
  case continuing => exact fun id src => holds_jump _ _
  case unsupported =>
    intro node h₁ h₂ h₃ h₄ h₅ h₆ h₇ h₈ h₉ h₁₀ h₁₁ h₁₂ h₁₃ h₁₄ targets current base h
    have hnode : ofNode node = unsupported node := by
      simp only [ofNode]
    rw [hnode] at h
    cases h
  case nil => exact fun _ _ _ _ => .refl _
  case cons =>
    intro node rest ih ihs
    rw [Node.statementsAll, List.flatMap_append]
    exact ih.seq ihs
  case some => exact fun node ih targets base h => ih targets _ _ h
  case none => exact fun _ _ _ => .refl _

end Command

namespace FlowGraph

variable {function : Node} {source : String} {g : FlowGraph}

theorem bodyRecords_perm {body : Option Node} (h : bodyOffences body = []) :
    ((bodyRecords body).map Record.content).Perm ((Node.statements? body).flatMap Node.holds) := by
  cases body with
  | none => exact .refl _
  | some body =>
    rw [bodyOffences, Option.toList_some, List.flatMap_singleton] at h
    rw [bodyRecords, Option.toList_some, List.flatMap_singleton]
    exact Command.holds_ofNode body none _ _ h

/-- **Inventory.** The nodes of the graph of a function, reachable or not, hold what the statements
of its body are recorded as: none is lost and none is there twice. -/
theorem ofFunction_recorded (h : ofFunction function source = .ok g) :
    ∃ definition, function.function? = some definition ∧
      g.recorded = ((Node.statements? definition.body).flatMap Node.holds : List _) := by
  obtain ⟨definition, hdefinition, L⟩ := ofFunction_laidOut h
  refine ⟨definition, hdefinition, ?_⟩
  rw [L.recorded]
  exact Multiset.coe_eq_coe.mpr (bodyRecords_perm L.offences)

theorem ofFunction_recorded_countdown : ∃ g, ofFunction countdown "" = .ok g ∧
    g.recorded.map Prod.fst = ([.condition, .shortCircuitResult, .operand, .operand, .break,
      .expression, .return] : List StatementKind) := by
  obtain ⟨g, hg⟩ := countdown_builds
  obtain ⟨definition, hdefinition, hrecorded⟩ := ofFunction_recorded hg
  cases hdefinition
  exact ⟨g, hg, by rw [hrecorded]; rfl⟩

end FlowGraph

end ContractFlow
