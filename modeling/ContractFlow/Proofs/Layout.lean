import ContractFlow.Proofs.Extension

/-!
The layout of a command: which nodes and edges it is built as, and which statements go into which
nodes (`Command.records`). It depends on the number of nodes that are there already, on the node
that control comes from and on the targets of the innermost loop, and on nothing else of the graph.
Main statement: `Command.addsLayout`, building a command adds its layout, unless the command holds a
statement that has no place in a control flow graph or an id is used twice. There is a lemma for
each kind of command, and whatever else is known of the construction follows from the layout.
-/

namespace ContractFlow

open Build

/-- Nodes and edges to be added to a graph, with what is left to build on. -/
structure Layout (α : Type) where
  tags : List Tag
  edges : List FlowEdge
  result : α

namespace Condition

/-- The node that holds the value of an operand. -/
def operandTag (parent : Node) (role : Role) : Condition → Tag
  | plain _ => ⟨parent.id, role⟩
  | logical node .. => ⟨node.id, .convergence⟩

/-- The layout of a condition that is evaluated into a node, where `base` nodes are there
already. -/
def layout (current : Option Nat) (outcome : Option Branch) (holder base : Nat) :
    Condition → Layout Unit
  | plain _ => ⟨[], linkEdges current holder outcome, ()⟩
  | logical node operator left right =>
    let l := left.layout current outcome base (base + 1)
    let bypass := base + 1 + l.tags.length
    let r := right.layout (some base) (some operator.continuing) (bypass + 1) (bypass + 2)
    { tags := left.operandTag node .shortCircuitLeft :: (l.tags ++ ⟨node.id, .shortCircuitBypass⟩ ::
        right.operandTag node .shortCircuitRight :: r.tags)
      edges := l.edges ++ ⟨base, bypass, some operator.settling⟩ ::
        (r.edges ++ [⟨bypass, holder, none⟩, ⟨bypass + 1, holder, none⟩])
      result := () }

/-- What the evaluation of a condition is recorded as. -/
def records (kind : StatementKind) (current : Option Nat) (outcome : Option Branch)
    (holder base : Nat) : Condition → List Record
  | plain node => [⟨holder, kind, node⟩]
  | logical node operator left right =>
    let bypass := base + 1 + (left.layout current outcome base (base + 1)).tags.length
    left.records .operand current outcome base (base + 1) ++
      (right.records .operand (some base) (some operator.continuing) (bypass + 1) (bypass + 2) ++
        [⟨holder, .shortCircuitResult, node⟩])

end Condition

/-- What a clause in the header of a `for` loop is recorded as. -/
def Clause.records (index : Nat) : Clause → List Record
  | simple kind node => [⟨index, kind, node⟩]
  | unsupported _ => []

namespace Command

/-- A statement goes into the node that control comes from, and begins a block where there is
none. -/
def blockLayout (current : Option Nat) (base : Nat) (id : UInt64) : Layout Nat :=
  match current with
  | some index => ⟨[], [], index⟩
  | none => ⟨[⟨id, .basicBlock⟩], [], base⟩

/-- The layout of a loop with nodes of its own, around that of its body, whose end leads back. -/
def loopLayout (own : List Tag) (entering leaving : List FlowEdge) (back after : Nat)
    (body : Layout (Option Nat)) : Layout (Option Nat) where
  tags := own ++ body.tags
  edges := entering ++ (body.edges ++ (linkEdges body.result back none ++ leaving))
  result := some after

/-- Where the arms of a branch meet: in a node of its own, unless nothing leads out of them. -/
def meetingLayout (id : UInt64) (ends : List (Nat × Option Branch)) (base : Nat) :
    Layout (Option Nat) :=
  if ends.isEmpty then ⟨[], [], none⟩
  else ⟨[⟨id, .convergence⟩], ends.map fun (last, outcome) => ⟨last, base, outcome⟩, some base⟩

mutual

/-- The layout of a command, where `base` nodes are there already. -/
def layout (targets : Option LoopTargets) (current : Option Nat) (base : Nat) :
    Command → Layout (Option Nat)
  | skip => ⟨[], [], current⟩
  | seq first second =>
    let p := first.layout targets current base
    let q := second.layout targets p.result (base + p.tags.length)
    ⟨p.tags ++ q.tags, p.edges ++ q.edges, q.result⟩
  | simple id _ _ =>
    let p := blockLayout current base id
    ⟨p.tags, p.edges, some p.result⟩
  | branch id condition onTrue onFalse =>
    let c := condition.layout current none base (base + 1)
    let t := layoutArm targets id base .onTrue (base + 1 + c.tags.length) onTrue
    let f := layoutArm targets id base .onFalse (base + 1 + c.tags.length + t.tags.length) onFalse
    let m := meetingLayout id (t.result ++ f.result)
      (base + 1 + c.tags.length + t.tags.length + f.tags.length)
    { tags := ⟨id, .branchCondition⟩ :: (c.tags ++ (t.tags ++ (f.tags ++ m.tags)))
      edges := c.edges ++ (t.edges ++ (f.edges ++ m.edges))
      result := m.result }
  | whileLoop id _ body =>
    loopLayout [⟨id, .loopCondition⟩, ⟨id, .loopBody⟩, ⟨id, .afterLoop⟩]
      (linkEdges current base none ++ [⟨base, base + 1, some .onTrue⟩])
      [⟨base, base + 2, some .onFalse⟩] base (base + 2)
      (body.layout (some ⟨base, base + 2⟩) (some (base + 1)) (base + 3))
  | doWhileLoop id _ body =>
    loopLayout [⟨id, .loopBody⟩, ⟨id, .loopCondition⟩, ⟨id, .afterLoop⟩]
      (linkEdges current base none)
      [⟨base + 1, base, some .onTrue⟩, ⟨base + 1, base + 2, some .onFalse⟩] (base + 1) (base + 2)
      (body.layout (some ⟨base + 1, base + 2⟩) (some base) (base + 3))
  | forLoop id _ condition _ body =>
    loopLayout [⟨id, .loopInit⟩, ⟨id, .loopCondition⟩, ⟨id, .loopBody⟩, ⟨id, .loopIncrement⟩,
        ⟨id, .afterLoop⟩]
      (linkEdges current base none ++
        [⟨base, base + 1, none⟩, ⟨base + 1, base + 2, condition.map fun _ => .onTrue⟩])
      (⟨base + 3, base + 1, none⟩ ::
        linkEdges (condition.map fun _ => base + 1) (base + 4) (some .onFalse))
      (base + 3) (base + 4) (body.layout (some ⟨base + 3, base + 4⟩) (some (base + 2)) (base + 5))
  | .return node =>
    ⟨[⟨node.id, .return⟩], linkEdges current base none ++ [⟨base, FlowGraph.exit, none⟩], none⟩
  | jump way node =>
    match targets with
    | none => ⟨[], [], none⟩
    | some loop =>
      let p := blockLayout current base node.id
      ⟨p.tags, p.edges ++ [⟨p.result, loop.target way, none⟩], none⟩
  | unsupported _ => ⟨[], [], none⟩

/-- The layout of an arm of a branch, with the edges that lead out of it. -/
def layoutArm (targets : Option LoopTargets) (id : UInt64) (head : Nat) (outcome : Branch)
    (base : Nat) : Option Command → Layout (List (Nat × Option Branch))
  | none => ⟨[], [], [(head, some outcome)]⟩
  | some arm =>
    let p := arm.layout targets (some base) (base + 1)
    { tags := ⟨id, outcome.arm⟩ :: p.tags
      edges := ⟨head, base, some outcome⟩ :: p.edges
      result := p.result.toList.map (·, none) }

end

mutual

/-- What the statements of a command are recorded as, and in which nodes, in the order they are. -/
def records (targets : Option LoopTargets) (current : Option Nat) (base : Nat) :
    Command → List Record
  | skip => []
  | seq first second =>
    let p := first.layout targets current base
    first.records targets current base ++ second.records targets p.result (base + p.tags.length)
  | simple id kind node => [⟨(blockLayout current base id).result, kind, node⟩]
  | branch id condition onTrue onFalse =>
    let c := (condition.layout current none base (base + 1)).tags.length
    let t := (layoutArm targets id base .onTrue (base + 1 + c) onTrue).tags.length
    condition.records .condition current none base (base + 1) ++
      (recordsArm targets (base + 1 + c) onTrue ++ recordsArm targets (base + 1 + c + t) onFalse)
  | whileLoop _ condition body =>
    ⟨base, .condition, condition⟩ ::
      body.records (some ⟨base, base + 2⟩) (some (base + 1)) (base + 3)
  | doWhileLoop _ condition body =>
    body.records (some ⟨base + 1, base + 2⟩) (some base) (base + 3) ++
      [⟨base + 1, .condition, condition⟩]
  | forLoop _ initialization condition step body =>
    initialization.toList.flatMap (Clause.records base) ++
      (condition.toList.map (⟨base + 1, .condition, ·⟩) ++
        (step.toList.flatMap (Clause.records (base + 3)) ++
          body.records (some ⟨base + 3, base + 4⟩) (some (base + 2)) (base + 5)))
  | .return node => [⟨base, .return, node⟩]
  | jump way node =>
    match targets with
    | none => []
    | some _ => [⟨(blockLayout current base node.id).result, way.statement, node⟩]
  | unsupported _ => []

def recordsArm (targets : Option LoopTargets) (base : Nat) : Option Command → List Record
  | none => []
  | some arm => arm.records targets (some base) (base + 1)

end

theorem meetingLayout_result {id : UInt64} {ends : List (Nat × Option Branch)} {base j : Nat}
    (h : (meetingLayout id ends base).result = some j) :
    ∃ t, (t, j) ∈ (meetingLayout id ends base).tags.zipIdx base ∧ t.role.isOpen = true := by
  unfold meetingLayout at h ⊢
  split at h
  · cases h
  · next hends =>
    cases h
    rw [if_neg hends]
    exact ⟨⟨id, .convergence⟩, List.mem_singleton_self _, rfl⟩

/-- What is left to build on is what control came from, or a new node that is open to statements. -/
theorem layout_result : ∀ (c : Command) {targets : Option LoopTargets} {current : Option Nat}
    {base j : Nat}, (c.layout targets current base).result = some j → current = some j ∨
      ∃ t, (t, j) ∈ (c.layout targets current base).tags.zipIdx base ∧ t.role.isOpen = true
  | skip, targets, current, base, j, h => .inl h
  | seq first second, targets, current, base, j, h => by
    simp only [layout, List.zipIdx_append, List.mem_append] at h ⊢
    rcases second.layout_result h with hmiddle | ⟨t, hmem, ht⟩
    · rcases first.layout_result hmiddle with hcurrent | ⟨t, hmem, ht⟩
      · exact .inl hcurrent
      · exact .inr ⟨t, .inl hmem, ht⟩
    · exact .inr ⟨t, .inr hmem, ht⟩
  | simple id _ _, targets, current, base, j, h => by
    cases current with
    | some i => exact .inl h
    | none =>
      cases h
      exact .inr ⟨⟨id, .basicBlock⟩, List.mem_singleton_self _, rfl⟩
  | branch id condition onTrue onFalse, targets, current, base, j, h => by
    simp only [layout, List.zipIdx_cons, List.zipIdx_append, List.mem_cons, List.mem_append] at h ⊢
    obtain ⟨t, hmem, ht⟩ := meetingLayout_result h
    exact .inr ⟨t, .inr (.inr (.inr (.inr hmem))), ht⟩
  | whileLoop id _ body, targets, current, base, j, h => by
    cases h
    exact .inr ⟨⟨id, .afterLoop⟩, by simp [layout, loopLayout], rfl⟩
  | doWhileLoop id _ body, targets, current, base, j, h => by
    cases h
    exact .inr ⟨⟨id, .afterLoop⟩, by simp [layout, loopLayout], rfl⟩
  | forLoop id _ condition _ body, targets, current, base, j, h => by
    cases h
    exact .inr ⟨⟨id, .afterLoop⟩, by simp [layout, loopLayout], rfl⟩
  | .return node, targets, current, base, j, h => by cases h
  | jump way node, targets, current, base, j, h => by cases targets <;> cases h
  | unsupported node, targets, current, base, j, h => by cases h

theorem layout_result_bounds (c : Command) {targets : Option LoopTargets} {current : Option Nat}
    {base j : Nat} (h : (c.layout targets current base).result = some j) :
    current = some j ∨ base ≤ j ∧ j < base + (c.layout targets current base).tags.length := by
  rcases c.layout_result h with hcurrent | ⟨t, hmem, -⟩
  · exact .inl hcurrent
  · obtain ⟨hle, ht⟩ := List.mem_zipIdx_iff_le_and_getElem?_sub.mp hmem
    have := (List.getElem?_eq_some_iff.mp ht).1
    exact .inr (by omega)

end Command

/-! ## Offences -/

def Clause.offences : Clause → List Node
  | simple .. => []
  | unsupported node => [node]

namespace Command

mutual

/-- The statements that have no place in a control flow graph, in the order they are met. -/
def offences (inLoop : Bool) : Command → List Node
  | skip => []
  | seq first second => first.offences inLoop ++ second.offences inLoop
  | simple .. => []
  | branch _ _ onTrue onFalse => offencesArm inLoop onTrue ++ offencesArm inLoop onFalse
  | whileLoop _ _ body => body.offences true
  | doWhileLoop _ _ body => body.offences true
  | forLoop _ initialization _ step body =>
    initialization.toList.flatMap Clause.offences ++
      (step.toList.flatMap Clause.offences ++ body.offences true)
  | .return _ => []
  | jump _ node => if inLoop then [] else [node]
  | unsupported node => [node]

def offencesArm (inLoop : Bool) : Option Command → List Node
  | none => []
  | some arm => arm.offences inLoop

end

end Command

/-! ## Building adds the layout -/

variable {source : String} {g g₁ : FlowGraph} {created₀ : List (String × Role)}
  {edges₀ : List FlowEdge} {records₀ : List Record}

theorem Build.Does.pushClause {β : Type} {f : Unit → Build β} {created : List (String × Role)}
    {edges : List FlowEdge} {records : List Record} {offences : List Node} {b : β} {index : Nat}
    {clause : Option Clause} (E : g.Extends created₀ edges₀ records₀ g₁)
    (hindex : index < g₁.graph.vertexCount)
    (hf : ∀ {g₂},
      g.Extends created₀ edges₀ (records₀ ++ clause.toList.flatMap (Clause.records index)) g₂ →
        Does (f ()) g₂ created edges records offences b) :
    Does (Build.pushClause source index clause >>= f) g₁ created edges
      (clause.toList.flatMap (Clause.records index) ++ records)
      (clause.toList.flatMap Clause.offences ++ offences) b := by
  have hclause : Does (Build.pushClause source index clause) g₁ [] []
      (clause.toList.flatMap (Clause.records index))
        (clause.toList.flatMap Clause.offences) () := by
    rcases clause with _ | ⟨kind, node⟩ | ⟨node⟩
    · exact .pure E.wellFormed ()
    · exact push_does E.wellFormed hindex source kind node
    · exact .unsupported node [] [] [] ()
  refine hclause.bind fun {g₂} E₂ => hf ?_
  simpa using E.trans E₂

theorem Command.blockLayout_result_lt {current : Option Nat} {edges : List FlowEdge}
    {records : List Record} {g' : FlowGraph} {id : UInt64}
    (E : g.Extends
      ((blockLayout current g.graph.vertexCount id).tags.map Tag.header) edges records g')
    (hopen : g.Open current) :
    (blockLayout current g.graph.vertexCount id).result < g'.graph.vertexCount := by
  cases current with
  | none => exact E.lt_of_lt_length (Nat.lt_succ_self _)
  | some i => exact E.lt_vertexCount (hopen.lt_vertexCount i rfl)

theorem Build.blockFor_does {current : Option Nat} {base : Nat} (H : g.WellFormed)
    (hbase : g.graph.vertexCount = base) (hopen : g.Open current) (id : UInt64) :
    Does (blockFor current id) g ((Command.blockLayout current base id).tags.map Tag.header)
      (Command.blockLayout current base id).edges [] []
      (Command.blockLayout current base id).result := by
  cases current with
  | none =>
    refine Does.addNode (.refl H) hbase ⟨id, .basicBlock⟩ fun {g₂} E₂ => ?_
    exact Does.link E₂ nofun (by simp [E₂.vertexCount, hbase]) fun E₃ => .pure E₃.wellFormed _
  | some i =>
    obtain ⟨_, role, hi, hrole⟩ := hopen i rfl
    rw [H.getElem?_headers] at hi
    cases hn : g.node i with
    | error err => simp [hn, Except.toOption] at hi
    | ok n =>
      have hn' : n.role = role := by
        simpa [hn, Except.toOption, FlowNode.header] using congrArg (·.map Prod.snd) hi
      have hchoice : blockFor (some i) id g = (liftM (g.node i) >>= fun node : FlowNode =>
          if node.role.isOpen then pure i else beginBlock (some i) id : Build Nat) g := rfl
      refine Does.of_eq_ok ?_ (.refl H)
      rw [hchoice, hn]
      change (if n.role.isOpen then pure i else beginBlock (some i) id : Build Nat) g = _
      rw [hn', if_pos hrole]
      rfl

/-- The node that holds the value of an operand is created for its tag. -/
theorem Build.addOperand_eq (parent : Node) (role : Role) (c : Condition) :
    addOperand parent role c =
      addNode (c.operandTag parent role).owner (c.operandTag parent role).role := by
  cases c <;> rfl

namespace Condition

/-- Building a condition adds its layout. -/
theorem build_does (c : Condition) : ∀ {g : FlowGraph} {kind : StatementKind} {current : Option Nat}
    {outcome : Option Branch} {holder base : Nat}, g.WellFormed → g.graph.vertexCount = base →
    (∀ i, current = some i → i < base) → holder < base →
    Does (c.build source kind current outcome holder) g
      ((c.layout current outcome holder base).tags.map Tag.header)
      (c.layout current outcome holder base).edges (c.records kind current outcome holder base) []
      () := by
  induction c with
  | plain node =>
    intro g kind current outcome holder base H hbase hcurrent hholder
    subst hbase
    rw [layout, ← List.append_nil (linkEdges current holder outcome)]
    exact Does.link (.refl H) hcurrent hholder fun E₁ =>
      push_does E₁.wellFormed (E₁.lt_vertexCount hholder) source kind node
  | logical node operator left right ihl ihr =>
    intro g kind current outcome holder base H hbase hcurrent hholder
    simp only [Condition.build, addOperand_eq, layout, records, List.map_cons, List.map_append]
    refine Does.addNode (k := base) (.refl H) hbase _ fun E₁ => ?_
    refine Does.andThen E₁ (ihl E₁.wellFormed ?_ ?_ (Nat.lt_succ_self base)) fun E₂ => ?_
    · simp [E₁.vertexCount, hbase]
    · exact fun i hi => Nat.lt_succ_of_lt (hcurrent i hi)
    refine Does.addNode
      (k := base + 1 + (left.layout current outcome base (base + 1)).tags.length) E₂
      (by grind) ⟨node.id, .shortCircuitBypass⟩ fun E₃ => ?_
    refine Does.connect E₃ (E₃.lt_of_lt_length (by grind)) (E₃.lt_of_lt_length (by grind))
      fun E₄ => ?_
    refine Does.addNode
      (k := base + 1 + (left.layout current outcome base (base + 1)).tags.length + 1)
      E₄ (by grind) _ fun E₅ => ?_
    refine Does.thenEdges E₅ (ihr E₅.wellFormed ?_ ?_ ?_) fun E₆ => ?_
    · rw [E₅.vertexCount]
      grind
    · grind
    · exact Nat.lt_succ_self _
    refine Does.connect E₆ (E₆.lt_of_lt_length (by grind)) (E₆.lt_of_lt_length (by grind))
      fun E₇ => ?_
    refine Does.connect E₇ (E₇.lt_of_lt_length (by grind)) (E₇.lt_of_lt_length (by grind))
      fun E₈ => ?_
    exact push_does E₈.wellFormed (E₈.lt_of_lt_length (by grind)) source .shortCircuitResult node

end Condition

namespace Command

/-- What an arm leaves to be connected is the head of the branch, or a node of the arm. -/
theorem layoutArm_result {targets : Option LoopTargets} {id : UInt64} {head : Nat}
    {outcome : Branch} {base : Nat} {arm : Option Command} {e : Nat × Option Branch}
    (h : e ∈ (layoutArm targets id head outcome base arm).result) :
    e.1 = head ∨ base ≤ e.1 ∧
      e.1 < base + (layoutArm targets id head outcome base arm).tags.length := by
  cases arm with
  | none => exact .inl (congrArg Prod.fst (List.mem_singleton.mp h))
  | some arm =>
    simp only [layoutArm, List.mem_map, Option.mem_toList, List.length_cons] at h ⊢
    obtain ⟨j, hj, rfl⟩ := h
    rcases arm.layout_result_bounds hj with hj | hj
    · cases hj
      omega
    · omega

/-- What a command leaves to build on is open to statements. -/
theorem open_layout_result {c : Command} {targets : Option LoopTargets} {current : Option Nat}
    {edges : List FlowEdge} {records : List Record} {g' : FlowGraph}
    (E : g.Extends
      ((c.layout targets current g.graph.vertexCount).tags.map Tag.header) edges records g')
    (hopen : g.Open current) : g'.Open (c.layout targets current g.graph.vertexCount).result := by
  intro j hj
  rcases c.layout_result hj with hcurrent | ⟨t, hmem, ht⟩
  · exact E.open_of_open hopen j hcurrent
  · refine E.open_of_mem (x := t.header) ?_ ht j rfl
    rw [List.zipIdx_map]
    exact List.mem_map.mpr ⟨(t, j), hmem, rfl⟩

theorem meetingLayout_does {id : UInt64} {ends : List (Nat × Option Branch)} {base : Nat}
    (H : g.WellFormed) (hbase : g.graph.vertexCount = base) (hends : ∀ e ∈ ends, e.1 < base) :
    Does (if ends.isEmpty then return none
      else do
        let convergence ← addNode id .convergence
        ends.forM fun (last, outcome) => connect last convergence outcome
        return some convergence) g ((meetingLayout id ends base).tags.map Tag.header)
      (meetingLayout id ends base).edges [] [] (meetingLayout id ends base).result := by
  subst hbase
  unfold meetingLayout
  split
  · exact .pure H none
  · rw [← List.append_nil (List.map _ _ : List FlowEdge)]
    refine Does.addNode (.refl H) rfl ⟨id, .convergence⟩ fun E₁ => ?_
    refine Does.thenEdges E₁ (connectAll_does E₁.wellFormed ?_ ?_) fun E₂ => .pure E₂.wellFormed _
    · exact fun e he => E₁.lt_vertexCount (hends e he)
    · exact E₁.lt_of_lt_length (by simp)

/-- A graph that a command can be built on, where `base` nodes are there already. -/
structure Ready (targets : Option LoopTargets) (current : Option Nat) (base : Nat) (g : FlowGraph) :
    Prop where
  wellFormed : g.WellFormed
  vertexCount : g.graph.vertexCount = base
  exit_lt : FlowGraph.exit < base
  target_lt : ∀ loop way, targets = some loop → loop.target way < base
  isOpen : g.Open current

namespace Ready

variable {targets : Option LoopTargets} {current current' : Option Nat} {base : Nat}
  {g' : FlowGraph}
  {created : List (String × Role)} {edges : List FlowEdge} {records : List Record}

theorem lt_of_current (R : Ready targets current base g) (i : Nat) (hi : current = some i) :
    i < base :=
  R.vertexCount ▸ R.isOpen.lt_vertexCount i hi

theorem extend (R : Ready targets current base g) (E : g.Extends created edges records g')
    (hopen : g'.Open current') {base' : Nat} (hbase : base + created.length = base') :
    Ready targets current' base' g' where
  wellFormed := E.wellFormed
  vertexCount := by rw [E.vertexCount, R.vertexCount, hbase]
  exit_lt := hbase ▸ Nat.lt_add_right _ R.exit_lt
  target_lt loop way hloop := hbase ▸ Nat.lt_add_right _ (R.target_lt loop way hloop)
  isOpen := hopen

/-- The body of a loop is built with other targets, which have been created for it. -/
theorem enter (R : Ready targets current base g) (E : g.Extends created edges records g')
    (hopen : g'.Open current') {loop : LoopTargets}
    (hcontinue : loop.continueTo < base + created.length)
    (hbreak : loop.breakTo < base + created.length) :
    Ready (some loop) current' (base + created.length) g' where
  __ := R.extend E hopen rfl
  target_lt := by
    rintro _ (_ | _) ⟨⟩
    · exact hbreak
    · exact hcontinue

end Ready

/-- Building a command adds its layout, unless there is an offence or an id is used twice. -/
def AddsLayout (source : String) (c : Command) : Prop :=
  ∀ ⦃g : FlowGraph⦄ ⦃targets : Option LoopTargets⦄ ⦃current : Option Nat⦄ ⦃base : Nat⦄,
    Ready targets current base g →
    Does (c.build source targets current) g ((c.layout targets current base).tags.map Tag.header)
      (c.layout targets current base).edges (c.records targets current base)
      (c.offences targets.isSome) (c.layout targets current base).result

/-- The same for an arm of a branch. -/
def ArmAddsLayout (source : String) (arm : Option Command) : Prop :=
  ∀ ⦃g : FlowGraph⦄ ⦃targets : Option LoopTargets⦄ ⦃id : UInt64⦄ ⦃head : Nat⦄ ⦃outcome : Branch⦄
    ⦃base : Nat⦄, Ready targets none base g → head < base →
    Does (buildArm source targets id head outcome arm) g
      ((layoutArm targets id head outcome base arm).tags.map Tag.header)
      (layoutArm targets id head outcome base arm).edges (recordsArm targets base arm)
      (offencesArm targets.isSome arm) (layoutArm targets id head outcome base arm).result

theorem addsLayout_skip : skip.AddsLayout source :=
  fun _ _ _ _ R => .pure R.wellFormed _

theorem addsLayout_unsupported (node : Node) : (unsupported node).AddsLayout source :=
  fun _ _ _ _ _ => .unsupported node [] [] [] none

theorem AddsLayout.seq {first second : Command} (hfirst : first.AddsLayout source)
    (hsecond : second.AddsLayout source) : (first.seq second).AddsLayout source := by
  intro g targets current base R
  obtain rfl := R.vertexCount
  simp only [layout, List.map_append]
  refine (hfirst R).bind fun E => hsecond (R.extend E (open_layout_result E R.isOpen) ?_)
  rw [List.length_map]

theorem addsLayout_simple (id : UInt64) (kind : StatementKind) (node : Node) :
    (simple id kind node).AddsLayout source := by
  intro g targets current base R
  obtain rfl := R.vertexCount
  rw [layout, ← List.append_nil (blockLayout current g.graph.vertexCount id).edges, records]
  refine Does.thenEdges (.refl R.wellFormed) (blockFor_does R.wellFormed rfl R.isOpen id)
    fun E₁ => ?_
  exact Does.push E₁ (blockLayout_result_lt E₁ R.isOpen) fun E₂ => .pure E₂.wellFormed _

theorem addsLayout_jump (way : Jump) (node : Node) : (jump way node).AddsLayout source := by
  intro g targets current base R
  cases targets with
  | none => exact .unsupported node [] [] [] none
  | some loop =>
    obtain rfl := R.vertexCount
    refine Does.thenEdges (.refl R.wellFormed) (blockFor_does R.wellFormed rfl R.isOpen node.id)
      fun E₁ => ?_
    refine Does.push E₁ (blockLayout_result_lt E₁ R.isOpen) fun E₂ => ?_
    refine Does.connect E₂ (blockLayout_result_lt E₂ R.isOpen) ?_ fun E₃ => .pure E₃.wellFormed _
    exact E₂.lt_vertexCount (R.target_lt loop way rfl)

theorem addsLayout_return (node : Node) : (Command.return node).AddsLayout source := by
  intro g targets current base R
  obtain rfl := R.vertexCount
  refine Does.addNode (.refl R.wellFormed) rfl ⟨node.id, .return⟩ fun E₁ => ?_
  refine Does.link E₁ ?_ (E₁.lt_of_lt_length (by simp)) fun E₂ => ?_
  · exact fun i hi => E₁.lt_vertexCount (R.lt_of_current i hi)
  refine Does.push E₂ (E₂.lt_of_lt_length (by simp)) fun E₃ => ?_
  exact Does.connect E₃ (E₃.lt_of_lt_length (by simp)) (E₃.lt_vertexCount R.exit_lt) fun E₄ =>
    .pure E₄.wellFormed _

/-! ### Loops -/

theorem AddsLayout.whileLoop {body : Command} (hbody : body.AddsLayout source) (id : UInt64)
    (condition : Node) : (whileLoop id condition body).AddsLayout source := by
  intro g targets current base R
  obtain rfl := R.vertexCount
  simp only [layout, loopLayout, List.append_assoc, List.cons_append, List.nil_append,
    List.map_cons]
  rw [records, ← List.append_nil (body.records ..)]
  refine Does.addNode (.refl R.wellFormed) rfl ⟨id, .loopCondition⟩ fun E₁ => ?_
  refine Does.link E₁ ?_ (E₁.lt_of_lt_length (by simp)) fun E₂ => ?_
  · exact fun i hi => E₁.lt_vertexCount (R.lt_of_current i hi)
  refine Does.push E₂ (E₂.lt_of_lt_length (by simp)) fun E₃ => ?_
  refine Does.addNode E₃ rfl ⟨id, .loopBody⟩ fun E₄ => ?_
  refine Does.connect E₄ (E₄.lt_of_lt_length (by simp)) (E₄.lt_of_lt_length (by simp)) fun E₅ => ?_
  refine Does.addNode E₅ rfl ⟨id, .afterLoop⟩ fun E₆ => ?_
  refine Does.thenEdges E₆ (hbody (R.enter E₆ ?_ (by simp) (by simp))) fun E₇ => ?_
  · exact E₆.open_of_mem (x := Tag.header ⟨id, .loopBody⟩) (by simp) rfl
  refine Does.link E₇ ?_ (E₇.lt_of_lt_length (by simp)) fun E₈ => ?_
  · exact fun j hj => E₇.lt_of_lt_length (by grind [body.layout_result_bounds hj])
  exact Does.connect E₈ (E₈.lt_of_lt_length (by simp)) (E₈.lt_of_lt_length (by simp)) fun E₉ =>
    .pure E₉.wellFormed _

theorem AddsLayout.doWhileLoop {body : Command} (hbody : body.AddsLayout source) (id : UInt64)
    (condition : Node) : (doWhileLoop id condition body).AddsLayout source := by
  intro g targets current base R
  obtain rfl := R.vertexCount
  simp only [layout, loopLayout, List.cons_append, List.nil_append, List.map_cons]
  refine Does.addNode (.refl R.wellFormed) rfl ⟨id, .loopBody⟩ fun E₁ => ?_
  refine Does.link E₁ ?_ (E₁.lt_of_lt_length (by simp)) fun E₂ => ?_
  · exact fun i hi => E₁.lt_vertexCount (R.lt_of_current i hi)
  refine Does.addNode E₂ rfl ⟨id, .loopCondition⟩ fun E₃ => ?_
  refine Does.addNode E₃ rfl ⟨id, .afterLoop⟩ fun E₄ => ?_
  refine Does.thenEdges E₄ (hbody (R.enter E₄ ?_ (by simp) (by simp))) fun E₅ => ?_
  · exact E₄.open_of_mem (x := Tag.header ⟨id, .loopBody⟩) (by simp) rfl
  refine Does.link E₅ ?_ (E₅.lt_of_lt_length (by simp)) fun E₆ => ?_
  · exact fun j hj => E₅.lt_of_lt_length (by grind [body.layout_result_bounds hj])
  refine Does.push E₆ (E₆.lt_of_lt_length (by simp)) fun E₇ => ?_
  refine Does.connect E₇ (E₇.lt_of_lt_length (by simp)) (E₇.lt_of_lt_length (by simp)) fun E₈ => ?_
  exact Does.connect E₈ (E₈.lt_of_lt_length (by simp)) (E₈.lt_of_lt_length (by simp)) fun E₉ =>
    .pure E₉.wellFormed _

/-- The condition in the header of a `for` loop is no offence, and is recorded if there is one. -/
theorem clause_condition (condition : Option Node) (index : Nat) :
    (condition.map (Clause.simple .condition)).toList.flatMap Clause.offences = [] ∧
      (condition.map (Clause.simple .condition)).toList.flatMap (Clause.records index) =
        condition.toList.map (⟨index, .condition, ·⟩) := by
  cases condition <;> exact ⟨rfl, rfl⟩

theorem AddsLayout.forLoop {body : Command} (hbody : body.AddsLayout source) (id : UInt64)
    (initialization : Option Clause) (condition : Option Node) (step : Option Clause) :
    (forLoop id initialization condition step body).AddsLayout source := by
  intro g targets current base R
  obtain rfl := R.vertexCount
  obtain ⟨hoffences, hrecords⟩ := clause_condition condition (g.graph.vertexCount + 1)
  simp only [layout, loopLayout, List.append_assoc, List.cons_append, List.nil_append,
    List.map_cons]
  rw [records, ← hrecords, ← List.append_nil (body.records ..), offences,
    ← List.nil_append (step.toList.flatMap Clause.offences ++ _), ← hoffences]
  refine Does.addNode (.refl R.wellFormed) rfl ⟨id, .loopInit⟩ fun E₁ => ?_
  refine Does.link E₁ ?_ (E₁.lt_of_lt_length (by simp)) fun E₂ => ?_
  · exact fun i hi => E₁.lt_vertexCount (R.lt_of_current i hi)
  refine Does.pushClause E₂ (E₂.lt_of_lt_length (by simp)) fun E₃ => ?_
  refine Does.addNode E₃ rfl ⟨id, .loopCondition⟩ fun E₄ => ?_
  refine Does.connect E₄ (E₄.lt_of_lt_length (by simp)) (E₄.lt_of_lt_length (by simp)) fun E₅ => ?_
  refine Does.pushClause E₅ (E₅.lt_of_lt_length (by simp)) fun E₆ => ?_
  refine Does.addNode E₆ rfl ⟨id, .loopBody⟩ fun E₇ => ?_
  refine Does.connect E₇ (E₇.lt_of_lt_length (by simp)) (E₇.lt_of_lt_length (by simp)) fun E₈ => ?_
  refine Does.addNode E₈ rfl ⟨id, .loopIncrement⟩ fun E₉ => ?_
  refine Does.pushClause E₉ (E₉.lt_of_lt_length (by simp)) fun E₁₀ => ?_
  refine Does.addNode E₁₀ rfl ⟨id, .afterLoop⟩ fun E₁₁ => ?_
  refine Does.thenEdges E₁₁ (hbody (R.enter E₁₁ ?_ (by simp) (by simp))) fun E₁₂ => ?_
  · exact E₁₁.open_of_mem (x := Tag.header ⟨id, .loopBody⟩) (by simp) rfl
  refine Does.link E₁₂ ?_ (E₁₂.lt_of_lt_length (by simp)) fun E₁₃ => ?_
  · exact fun j hj => E₁₂.lt_of_lt_length (by grind [body.layout_result_bounds hj])
  refine Does.connect E₁₃ (E₁₃.lt_of_lt_length (by simp)) (E₁₃.lt_of_lt_length (by simp))
    fun E₁₄ => ?_
  cases condition with
  | none => exact .pure E₁₄.wellFormed _
  | some condition =>
    exact Does.connect E₁₄ (E₁₄.lt_of_lt_length (by simp)) (E₁₄.lt_of_lt_length (by simp))
      fun E₁₅ =>
      .pure E₁₅.wellFormed _

/-! ### Branches -/

theorem armAddsLayout_none : ArmAddsLayout source none :=
  fun _ _ _ _ _ _ R _ => .pure R.wellFormed _

theorem AddsLayout.arm {arm : Command} (harm : arm.AddsLayout source) :
    ArmAddsLayout source (some arm) := by
  intro g targets id head outcome base R hhead
  obtain rfl := R.vertexCount
  simp only [layoutArm, List.map_cons]
  rw [recordsArm, ← List.append_nil (arm.layout ..).edges, ← List.append_nil (arm.records ..)]
  refine Does.addNode (.refl R.wellFormed) rfl ⟨id, outcome.arm⟩ fun E₁ => ?_
  refine Does.connect E₁ (E₁.lt_vertexCount hhead) (E₁.lt_of_lt_length (by simp)) fun E₂ => ?_
  refine Does.thenEdges E₂ (harm (R.extend E₂ ?_ rfl)) fun E₃ => .pure E₃.wellFormed _
  exact E₂.open_of_mem (x := Tag.header ⟨id, outcome.arm⟩) (by simp) (by cases outcome <;> rfl)

theorem AddsLayout.branch {onTrue onFalse : Option Command} (ht : ArmAddsLayout source onTrue)
    (hf : ArmAddsLayout source onFalse) (id : UInt64) (condition : Condition) :
    (branch id condition onTrue onFalse).AddsLayout source := by
  intro g targets current base R
  obtain rfl := R.vertexCount
  have hlt := R.lt_of_current
  simp only [layout, List.map_cons, List.map_append]
  rw [records, offences, ← List.append_nil (recordsArm _ _ onFalse),
    ← List.append_nil (offencesArm targets.isSome onFalse),
    ← List.nil_append (offencesArm targets.isSome onTrue ++ _)]
  refine Does.addNode (.refl R.wellFormed) rfl ⟨id, .branchCondition⟩ fun E₁ => ?_
  refine Does.andThen E₁ (condition.build_does E₁.wellFormed E₁.vertexCount ?_ ?_) fun E₂ => ?_
  · exact fun i hi => Nat.lt_succ_of_lt (hlt i hi)
  · exact Nat.lt_succ_self _
  refine Does.andThen E₂ (ht (R.extend E₂ (FlowGraph.open_none _) (by grind)) (by grind))
    fun E₃ => ?_
  refine Does.andThen E₃ (hf (R.extend E₃ (FlowGraph.open_none _) (by grind)) (by grind))
    fun E₄ => ?_
  refine meetingLayout_does E₄.wellFormed ?_ fun e he => ?_
  · rw [E₄.vertexCount]
    grind
  · rcases List.mem_append.mp he with he | he
    · rcases layoutArm_result he with he | he <;> grind
    · rcases layoutArm_result he with he | he <;> grind

mutual

/-- **Building adds the layout**, unless there is an offence or an id is used twice. -/
theorem addsLayout : ∀ c : Command, c.AddsLayout source
  | skip => addsLayout_skip
  | seq first second => first.addsLayout.seq second.addsLayout
  | simple id kind node => addsLayout_simple id kind node
  | branch id condition onTrue onFalse =>
    .branch (armAddsLayout onTrue) (armAddsLayout onFalse) id condition
  | whileLoop id condition body => body.addsLayout.whileLoop id condition
  | doWhileLoop id condition body => body.addsLayout.doWhileLoop id condition
  | forLoop id initialization condition step body =>
    body.addsLayout.forLoop id initialization condition step
  | .return node => addsLayout_return node
  | jump way node => addsLayout_jump way node
  | unsupported node => addsLayout_unsupported node

theorem armAddsLayout : ∀ arm : Option Command, ArmAddsLayout source arm
  | none => armAddsLayout_none
  | some arm => arm.addsLayout.arm

end

end Command

/-! ## Functions -/

namespace FlowGraph

/-- The layout of a function, after its entry and its exit. -/
def functionLayout : Option Node → Layout Unit
  | none => ⟨[], [⟨entry, exit, none⟩], ()⟩
  | some body =>
    let p := (Command.ofNode body).layout none (some 2) 3
    { tags := ⟨body.id, .basicBlock⟩ :: p.tags
      edges := ⟨entry, 2, none⟩ :: (p.edges ++ linkEdges p.result exit none)
      result := () }

/-- The entry and the exit of a function. -/
def endHeaders (id : UInt64) (name : String) : List (String × Role) :=
  [("entry_" ++ toString id ++ "_" ++ name, .functionEntry),
    ("exit_" ++ toString id ++ "_" ++ name, .functionExit)]

def bodyOffences (body : Option Node) : List Node :=
  body.toList.flatMap fun body => (Command.ofNode body).offences false

/-- What the statements of a function are recorded as. -/
def bodyRecords (body : Option Node) : List Record :=
  body.toList.flatMap fun body => (Command.ofNode body).records none (some 2) 3

/-- A graph that is the layout of a function. -/
structure LaidOut (g : FlowGraph) (id : UInt64) (name : String) (body : Option Node) : Prop where
  offences : bodyOffences body = []
  wellFormed : g.WellFormed
  headers : g.headers = endHeaders id name ++ (functionLayout body).tags.map Tag.header
  edges : g.edges = (functionLayout body).edges
  contentsAt : ∀ i, g.contentsAt i =
    ((bodyRecords body).filter (·.index = i)).map Record.content
  inRange : ∀ x ∈ bodyRecords body, x.index < g.graph.vertexCount

theorem buildFunction_does (hg : g.graph = .empty) (id : UInt64) (name : String)
    (body : Option Node) :
    Does (buildFunction source id name body) g
      (endHeaders id name ++ (functionLayout body).tags.map Tag.header) (functionLayout body).edges
      (bodyRecords body) (bodyOffences body) () := by
  have H := WellFormed.empty hg
  have hcount : g.graph.vertexCount = 0 := by simp [hg, Digraph.vertexCount, Digraph.empty]
  rw [← List.nil_append (bodyOffences body), ← List.nil_append (bodyRecords body)]
  refine Does.andThen (.refl H) (insertNode_does H _ _) fun E₁ => ?_
  rw [← List.nil_append (bodyOffences body), ← List.nil_append (bodyRecords body)]
  refine Does.andThen E₁ (insertNode_does E₁.wellFormed _ _) fun E₂ => ?_
  simp only [E₁.vertexCount, hcount]
  cases body with
  | none =>
    exact connect_does E₂.wellFormed (E₂.lt_of_lt_length (by simp))
      (E₂.lt_of_lt_length (by simp)) none
  | some body =>
    rw [bodyOffences, bodyRecords, Option.toList_some, List.flatMap_singleton,
      List.flatMap_singleton, ← List.append_nil ((Command.ofNode body).records ..)]
    refine Does.addNode (k := 2) E₂ (by grind) ⟨body.id, .basicBlock⟩ fun E₃ => ?_
    refine Does.connect E₃ (E₃.lt_of_lt_length (by simp)) (E₃.lt_of_lt_length (by simp))
      fun E₄ => ?_
    refine Does.thenEdges E₄ ((Command.ofNode body).addsLayout ⟨E₄.wellFormed, ?_, ?_, ?_, ?_⟩)
      fun E₅ => ?_
    · rw [E₄.vertexCount]
      grind
    · decide
    · intro loop way hloop
      cases hloop
    · exact E₄.open_of_mem (x := Tag.header ⟨body.id, .basicBlock⟩) (by simp [hcount]) rfl
    refine link_does E₅.wellFormed (fun j hj => E₅.lt_of_lt_length ?_) (E₅.lt_of_lt_length ?_) none
    · have := (Command.ofNode body).layout_result_bounds hj
      grind
    · grind

variable {function : Node} {definition : FunctionDefinition Node}

/-- What the construction of a graph comes to: the layout of the function is added to nothing,
unless there is an offence or an id is used twice. -/
theorem ofFunction_cases (source : String) (hdefinition : function.function? = some definition)
    (hbody : definition.malformedBody = false) :
    (∃ g, ofFunction function source = .ok g ∧
      g.LaidOut function.id definition.displayName definition.body) ∨
    (∃ err, ofFunction function source = .error err ∧
      ((∃ o, (bodyOffences definition.body).head? = some o ∧ err = refusal o) ∨
        (∃ id, err = .duplicateNode id) ∧
          ¬((endHeaders function.id definition.displayName ++
            (functionLayout definition.body).tags.map Tag.header).map Prod.fst).Nodup)) := by
  let g₀ : FlowGraph := { functionId := function.id, functionName := definition.displayName }
  have hrun : ofFunction function source =
      (buildFunction source function.id definition.displayName definition.body g₀).map
        Prod.snd := by
    simp only [ofFunction, hdefinition, hbody]
    rfl
  have hdoes : Does (buildFunction source function.id definition.displayName definition.body) g₀
      _ _ _ _ _ :=
    buildFunction_does rfl function.id definition.displayName definition.body
  rw [hrun]
  rw [Does] at hdoes
  cases h : buildFunction source function.id definition.displayName definition.body g₀ with
  | ok p =>
    rw [h] at hdoes
    obtain ⟨-, hoffences, E⟩ := hdoes
    exact .inl ⟨p.2, rfl, hoffences, E.wellFormed, E.headers, E.edges, E.contentsAt, E.inRange⟩
  | error err =>
    rw [h] at hdoes
    exact .inr ⟨err, rfl, hdoes⟩

/-- The graph of a function is its layout. -/
theorem ofFunction_laidOut {source : String} (h : ofFunction function source = .ok g) :
    ∃ definition, function.function? = some definition ∧
      g.LaidOut function.id definition.displayName definition.body := by
  cases hdefinition : function.function? with
  | none => simp [ofFunction, hdefinition] at h
  | some definition =>
    cases hbody : definition.malformedBody with
    | true => simp [ofFunction, hdefinition, hbody] at h
    | false =>
      rcases ofFunction_cases source hdefinition hbody with ⟨g', hok, L⟩ | ⟨err, herr, -⟩
      · obtain rfl : g = g' := Except.ok.inj (h.symm.trans hok)
        exact ⟨definition, rfl, L⟩
      · rw [h] at herr
        cases herr

end FlowGraph

end ContractFlow
