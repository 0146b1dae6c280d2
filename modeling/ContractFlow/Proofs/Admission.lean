import ContractFlow.Proofs.Layout

/-!
Which functions have a control flow graph. `Node.Supported` says which statements have a place in
one, and `Node.offences` lists those that have none in the order they are met. The ids of the nodes
never clash where the ids of the syntax nodes are distinct (`Owned`, `Tag.id_injective`). Main
statement: `FlowGraph.ofFunction_admission`, a function has a graph exactly if its body is
supported, and the error is the first offence otherwise.
-/

namespace ContractFlow

namespace Node

/-! ## Supported statements -/

/-- What may stand in the header of a `for` loop beside its condition. -/
def IsClause (n : Node) : Prop :=
  n.type = .variableDeclarationStatement ∨ n.type = .expressionStatement

instance (n : Node) : Decidable n.IsClause := inferInstanceAs (Decidable (_ ∨ _))

/-- The statements that have a place in a control flow graph, inside of a loop or not. -/
inductive Supported : Bool → Node → Prop
  | block {inLoop id src statements} (h : ∀ s ∈ statements, Supported inLoop s) :
    Supported inLoop ⟨id, src, .block statements⟩
  | uncheckedBlock {inLoop id src statements} (h : ∀ s ∈ statements, Supported inLoop s) :
    Supported inLoop ⟨id, src, .uncheckedBlock statements⟩
  | declaration {inLoop id src declarations value} :
    Supported inLoop ⟨id, src, .variableDeclarationStatement declarations value⟩
  | expression {inLoop id src expression} :
    Supported inLoop ⟨id, src, .expressionStatement expression⟩
  | emit {inLoop id src call} : Supported inLoop ⟨id, src, .emitStatement call⟩
  | revert {inLoop id src call} : Supported inLoop ⟨id, src, .revertStatement call⟩
  | placeholder {inLoop id src} : Supported inLoop ⟨id, src, .placeholderStatement⟩
  | return {inLoop id src expression} : Supported inLoop ⟨id, src, .returnStatement expression⟩
  | branch {inLoop id src condition trueBody falseBody} (ht : ∀ s ∈ trueBody, Supported inLoop s)
    (hf : ∀ s ∈ falseBody, Supported inLoop s) :
    Supported inLoop ⟨id, src, .ifStatement condition trueBody falseBody⟩
  | whileLoop {inLoop id src condition body} (h : Supported true body) :
    Supported inLoop ⟨id, src, .whileStatement condition body⟩
  | doWhileLoop {inLoop id src condition body} (h : Supported true body) :
    Supported inLoop ⟨id, src, .doWhileStatement condition body⟩
  | forLoop {inLoop id src initialization condition step body}
    (hi : ∀ clause ∈ initialization, clause.IsClause) (hs : ∀ clause ∈ step, clause.IsClause)
    (h : Supported true body) :
    Supported inLoop ⟨id, src, .forStatement initialization condition step body⟩
  | break {id src} : Supported true ⟨id, src, .breakStatement⟩
  | continue {id src} : Supported true ⟨id, src, .continueStatement⟩

mutual

/-- The statements that have no place in a control flow graph, in source order. Those in the header
of a `for` loop come before those in its body. -/
def offences (inLoop : Bool) : Node → List Node
  | ⟨_, _, .block statements⟩ => offencesAll inLoop statements
  | ⟨_, _, .uncheckedBlock statements⟩ => offencesAll inLoop statements
  | ⟨_, _, .variableDeclarationStatement _ _⟩ => []
  | ⟨_, _, .expressionStatement _⟩ => []
  | ⟨_, _, .emitStatement _⟩ => []
  | ⟨_, _, .revertStatement _⟩ => []
  | ⟨_, _, .placeholderStatement⟩ => []
  | ⟨_, _, .ifStatement _ trueBody falseBody⟩ =>
    offences? inLoop trueBody ++ offences? inLoop falseBody
  | ⟨_, _, .whileStatement _ body⟩ => body.offences true
  | ⟨_, _, .doWhileStatement _ body⟩ => body.offences true
  | ⟨_, _, .forStatement initialization _ step body⟩ =>
    (initialization.toList ++ step.toList).filter (¬ ·.IsClause) ++ body.offences true
  | ⟨_, _, .returnStatement _⟩ => []
  | ⟨id, src, .breakStatement⟩ => if inLoop then [] else [⟨id, src, .breakStatement⟩]
  | ⟨id, src, .continueStatement⟩ => if inLoop then [] else [⟨id, src, .continueStatement⟩]
  | n => [n]

def offencesAll (inLoop : Bool) : List Node → List Node
  | [] => []
  | n :: rest => n.offences inLoop ++ offencesAll inLoop rest

def offences? (inLoop : Bool) : Option Node → List Node
  | some n => n.offences inLoop
  | none => []

end

/-- A clause is built in a header or is an offence. -/
theorem offences_clause (n : Node) :
    (Clause.ofNode n).offences = if n.IsClause then [] else [n] := by
  obtain ⟨id, src, kind⟩ := n
  cases kind <;> rfl

theorem offences_clauses (o : Option Node) :
    (o.map Clause.ofNode).toList.flatMap Clause.offences = o.toList.filter (¬ ·.IsClause) := by
  cases o with
  | none => rfl
  | some n => by_cases h : n.IsClause <;> simp [offences_clause, h]

/-- The offences of a statement are those of its command. -/
theorem offences_ofNode (n : Node) :
    ∀ inLoop, (Command.ofNode n).offences inLoop = n.offences inLoop := by
  refine Command.ofNode.induct
    (fun n => ∀ inLoop, (Command.ofNode n).offences inLoop = n.offences inLoop)
    (fun o => ∀ inLoop, Command.offencesArm inLoop (Command.ofNode? o) = offences? inLoop o)
    (fun l => ∀ inLoop, (Command.ofNodes l).offences inLoop = offencesAll inLoop l)
    ?block ?uncheckedBlock ?declaration ?expression ?emit ?revert ?placeholder ?branch ?whileLoop
    ?doWhileLoop ?forLoop ?returning ?breaking ?continuing ?unsupported ?nil ?cons ?some ?none n
  case block => exact fun id src statements ih => ih
  case uncheckedBlock => exact fun id src statements ih => ih
  case declaration | expression | emit | revert | placeholder | returning =>
    intros
    rfl
  case branch =>
    intro id src condition trueBody falseBody iht ihf inLoop
    rw [Command.ofNode, Command.offences, offences, iht, ihf]
  case whileLoop => exact fun id src condition body ih inLoop => ih true
  case doWhileLoop => exact fun id src condition body ih inLoop => ih true
  case forLoop =>
    intro id src initialization condition step body ih inLoop
    rw [Command.ofNode, Command.offences, offences, offences_clauses, offences_clauses, ih,
      List.filter_append, List.append_assoc]
  case breaking | continuing =>
    intros
    rfl
  case unsupported =>
    intro node h₁ h₂ h₃ h₄ h₅ h₆ h₇ h₈ h₉ h₁₀ h₁₁ h₁₂ h₁₃ h₁₄ inLoop
    have hnode : Command.ofNode node = .unsupported node := by
      simp only [Command.ofNode]
    have hoffences : node.offences inLoop = [node] := by
      simp only [offences]
    rw [hnode, hoffences]
    rfl
  case nil => exact fun inLoop => rfl
  case cons =>
    intro node rest ih ihs inLoop
    rw [Command.ofNodes, Command.offences, offencesAll, ih, ihs]
  case some => exact fun node ih => ih
  case none => exact fun inLoop => rfl

theorem offencesAll_eq_nil {inLoop : Bool} {l : List Node} :
    offencesAll inLoop l = [] ↔ ∀ s ∈ l, s.offences inLoop = [] := by
  induction l with
  | nil => simp [offencesAll]
  | cons n rest ih => rw [offencesAll, List.append_eq_nil_iff, ih, List.forall_mem_cons]

theorem offences?_eq_nil {inLoop : Bool} {o : Option Node} :
    offences? inLoop o = [] ↔ ∀ s ∈ o, s.offences inLoop = [] := by
  cases o <;> simp [offences?]

theorem Supported.offences_eq_nil {inLoop : Bool} {n : Node} (h : Supported inLoop n) :
    n.offences inLoop = [] := by
  induction h with
  | block _ ih => exact offencesAll_eq_nil.mpr ih
  | uncheckedBlock _ ih => exact offencesAll_eq_nil.mpr ih
  | branch _ _ iht ihf =>
    rw [offences, offences?_eq_nil.mpr iht, offences?_eq_nil.mpr ihf, List.append_nil]
  | whileLoop _ ih => exact ih
  | doWhileLoop _ ih => exact ih
  | forLoop hi hs _ ih =>
    rw [offences, ih, List.append_nil]
    simpa using And.intro hi hs
  | declaration | expression | emit | revert | placeholder | «return» | «break» | «continue» => rfl

theorem supported_of_offences (n : Node) :
    ∀ inLoop, n.offences inLoop = [] → Supported inLoop n := by
  refine Command.ofNode.induct (fun n => ∀ inLoop, n.offences inLoop = [] → Supported inLoop n)
    (fun o => ∀ inLoop, offences? inLoop o = [] → ∀ s ∈ o, Supported inLoop s)
    (fun l => ∀ inLoop, offencesAll inLoop l = [] → ∀ s ∈ l, Supported inLoop s)
    ?block ?uncheckedBlock ?declaration ?expression ?emit ?revert ?placeholder ?branch ?whileLoop
    ?doWhileLoop ?forLoop ?returning ?breaking ?continuing ?unsupported ?nil ?cons ?some ?none n
  case block => exact fun id src statements ih inLoop h => .block (ih inLoop h)
  case uncheckedBlock => exact fun id src statements ih inLoop h => .uncheckedBlock (ih inLoop h)
  case declaration => exact fun id src declarations value inLoop _ => .declaration
  case expression => exact fun id src expression inLoop _ => .expression
  case emit => exact fun id src call inLoop _ => .emit
  case revert => exact fun id src call inLoop _ => .revert
  case placeholder => exact fun id src inLoop _ => .placeholder
  case branch =>
    intro id src condition trueBody falseBody iht ihf inLoop h
    obtain ⟨ht, hf⟩ := List.append_eq_nil_iff.mp h
    exact .branch (iht inLoop ht) (ihf inLoop hf)
  case whileLoop => exact fun id src condition body ih inLoop h => .whileLoop (ih true h)
  case doWhileLoop => exact fun id src condition body ih inLoop h => .doWhileLoop (ih true h)
  case forLoop =>
    intro id src initialization condition step body ih inLoop h
    obtain ⟨hclauses, hbody⟩ := List.append_eq_nil_iff.mp h
    obtain ⟨hi, hs⟩ : (∀ clause ∈ initialization, clause.IsClause) ∧
        ∀ clause ∈ step, clause.IsClause := by
      simpa using hclauses
    exact .forLoop hi hs (ih true hbody)
  case returning => exact fun id src expression inLoop _ => .return
  case breaking =>
    intro id src inLoop h
    cases inLoop with
    | false => cases h
    | true => exact .break
  case continuing =>
    intro id src inLoop h
    cases inLoop with
    | false => cases h
    | true => exact .continue
  case unsupported =>
    intro node h₁ h₂ h₃ h₄ h₅ h₆ h₇ h₈ h₉ h₁₀ h₁₁ h₁₂ h₁₃ h₁₄ inLoop h
    have hoffences : node.offences inLoop = [node] := by
      simp only [offences]
    rw [hoffences] at h
    cases h
  case nil => exact fun inLoop _ => nofun
  case cons =>
    intro node rest ih ihs inLoop h
    obtain ⟨hnode, hrest⟩ := List.append_eq_nil_iff.mp h
    exact List.forall_mem_cons.mpr ⟨ih inLoop hnode, ihs inLoop hrest⟩
  case some =>
    rintro node ih inLoop h _ ⟨⟩
    exact ih inLoop h
  case none => exact fun inLoop _ => nofun

/-- A statement is supported exactly if there is no offence in it. -/
theorem supported_iff {inLoop : Bool} {n : Node} : Supported inLoop n ↔ n.offences inLoop = [] :=
  ⟨Supported.offences_eq_nil, supported_of_offences n inLoop⟩

end Node

/-! ## Distinct ids -/

namespace Role

theorem suffix_injective {a b : Role} (h : a.suffix = b.suffix) : a = b := by
  revert h
  cases a <;> cases b <;> decide

theorem underscore_notMem_suffix (r : Role) : '_' ∉ r.suffix.toList := by
  cases r <;> decide

end Role

namespace Tag

theorem toList_id (t : Tag) :
    t.id.toList = Nat.toDigits 10 t.owner.toNat ++ '_' :: t.role.suffix.toList := by
  rw [id, String.toList_append, String.toList_append, List.append_assoc]
  congr 1
  exact Nat.toList_repr

theorem isDigit_of_mem {n : Nat} {c : Char} (h : c ∈ Nat.toDigits 10 n) : c.isDigit = true :=
  Nat.isDigit_of_mem_toDigits (by decide) (by decide) h

theorem isDigit_of_head {t : Tag} {c : Char} (h : t.id.toList.head? = some c) :
    c.isDigit = true := by
  rw [toList_id, List.head?_append_of_ne_nil _ Nat.toDigits_ne_nil] at h
  exact isDigit_of_mem (List.mem_of_head? h)

theorem id_injective {t t' : Tag} (h : t.id = t'.id) : t = t' := by
  have hlist := congrArg String.toList h
  rw [toList_id, toList_id] at hlist
  have hdigits : '_' ∉ Nat.toDigits 10 t.owner.toNat := fun hc => by
    cases isDigit_of_mem hc
  obtain ⟨howner, -, hrole⟩ :=
    (List.append_cons_inj_of_notMem hdigits t.role.underscore_notMem_suffix).mp hlist
  have howner : t.owner = t'.owner :=
    UInt64.toNat_inj.mp (Nat.repr_inj.mp (congrArg String.ofList howner))
  have hrole : t.role = t'.role := Role.suffix_injective (String.toList_inj.mp hrole)
  cases t
  cases t'
  simp_all

end Tag

/-! ## One tag of each role for each syntax node -/

/-- The ids of all the nodes of a tree. -/
def Node.ids (n : Node) : List UInt64 := n.descendants.map Node.id

theorem Node.ids_eq (n : Node) : n.ids = n.id :: n.children.flatMap Node.ids := by
  rw [ids, descendants_eq, List.map_cons, List.map_flatMap]
  rfl

/-- Every tag is for one of the given ids, and with each role there are no more tags than ids. -/
def Owned (tags : List Tag) (ids : List UInt64) : Prop :=
  ∀ t, tags.count t ≤ ids.count t.owner

namespace Owned

theorem nodup {tags : List Tag} {ids : List UInt64} (h : Owned tags ids) (hids : ids.Nodup) :
    tags.Nodup := by
  rw [List.nodup_iff_count_le_one] at hids ⊢
  exact fun t => (h t).trans (hids t.owner)

/-- A syntax node has tags of its own with different roles. -/
theorem own (id : UInt64) (roles : List Role) (h : roles.Nodup) :
    Owned (roles.map (Tag.mk id)) [id] := by
  intro t
  by_cases ht : t.owner = id
  · have hnodup : (roles.map (Tag.mk id)).Nodup :=
      h.map fun a b hab => congrArg Tag.role hab
    simpa [ht] using List.nodup_iff_count_le_one.mp hnodup t
  · rw [List.count_eq_zero_of_not_mem]
    · exact Nat.zero_le _
    · intro hmem
      obtain ⟨role, -, rfl⟩ := List.mem_map.mp hmem
      exact ht rfl

theorem of_append_right {tags tags' : List Tag} {ids : List UInt64}
    (h : Owned (tags ++ tags') ids) :
    Owned tags' ids :=
  fun t => ((List.sublist_append_right tags tags').count_le t).trans (h t)

end Owned

theorem Node.count_ids_le {n part : Node} (h : part ∈ n.children) (id : UInt64) :
    part.ids.count id ≤ (n.children.flatMap Node.ids).count id :=
  (List.sublist_flatten_of_mem (List.mem_map_of_mem h)).count_le id

namespace Condition

/-- The node that holds a short-circuit operation where it is an operand itself. -/
def holderTags : Condition → List Tag
  | plain _ => []
  | logical node .. => [⟨node.id, .convergence⟩]

theorem count_operandTag_le (parent : Node) (role : Role) (c : Condition) (t : Tag) :
    [c.operandTag parent role].count t ≤
      [Tag.mk parent.id role].count t + c.holderTags.count t := by
  cases c with
  | plain node => exact Nat.le_add_right _ _
  | logical node operator left right => exact Nat.le_add_left _ _

theorem owned_layout (n : Node) : ∀ current outcome holder base,
    Owned ((ofNode n).holderTags ++ ((ofNode n).layout current outcome holder base).tags)
      n.ids := by
  refine ofNode.induct (fun n => ∀ current outcome holder base,
    Owned ((ofNode n).holderTags ++ ((ofNode n).layout current outcome holder base).tags) n.ids)
    ?parenthesized ?logical ?operation ?plain n
  case parenthesized =>
    intro id src inner ih current outcome holder base t
    have hinner := ih current outcome holder base t
    rw [ofNode, Node.ids_eq]
    simp only [Node.children, Kind.children, List.filterMap_cons, List.filterMap_nil, id_eq,
      List.flatMap_cons, List.flatMap_nil, List.append_nil, List.count_cons]
    omega
  case logical =>
    intro id src symbol left right operator hoperator ihl ihr current outcome holder base t
    rw [Node.ids_eq]
    simp only [ofNode, hoperator, holderTags, layout, Node.children, Kind.children]
    generalize hnode : Node.mk id src (.binaryOperation symbol left right) = node
    generalize base + 1 + _ = bypass
    have hown :=
      Owned.own id [.convergence, .shortCircuitLeft, .shortCircuitBypass, .shortCircuitRight]
      (by decide) t
    have hl := ihl current outcome base (base + 1) t
    have hr := ihr (some base) (some operator.continuing) (bypass + 1) (bypass + 2) t
    have hlt := count_operandTag_le node .shortCircuitLeft (ofNode left) t
    have hrt := count_operandTag_le node .shortCircuitRight (ofNode right) t
    subst hnode
    simp only [List.count_append, List.count_cons, List.count_nil, List.map_cons, List.map_nil,
      List.flatMap_cons, List.flatMap_nil] at *
    omega
  case operation =>
    intro id src symbol left right hoperator current outcome holder base t
    simp [ofNode, hoperator, holderTags, layout]
  case plain =>
    intro node h₁ h₂ current outcome holder base t
    have hnode : ofNode node = plain node := by
      simp only [ofNode]
    simp [hnode, holderTags, layout]

end Condition

namespace Command

variable {targets : Option LoopTargets} {current : Option Nat} {base : Nat}

/-- The block that a statement may have begun already, where control comes from somewhere. -/
def reservedTags (current : Option Nat) (id : UInt64) : List Tag :=
  current.toList.map fun _ => ⟨id, .basicBlock⟩

theorem count_reservedTags_le (current : Option Nat) (id : UInt64) (t : Tag) :
    (reservedTags current id).count t ≤ [Tag.mk id .basicBlock].count t := by
  cases current with
  | none => exact Nat.zero_le _
  | some i => exact Nat.le_refl _

/-- A statement begins at most one block of its own. -/
theorem owned_blockLayout (n : Node) (current : Option Nat) (base : Nat) :
    Owned (reservedTags current n.id ++ (blockLayout current base n.id).tags) n.ids := by
  have htags : reservedTags current n.id ++ (blockLayout current base n.id).tags =
      [⟨n.id, .basicBlock⟩] := by
    cases current <;> rfl
  rw [htags, Node.ids_eq]
  have hsublist : List.Sublist [n.id] (n.id :: n.children.flatMap Node.ids) :=
    List.singleton_sublist.mpr List.mem_cons_self
  exact fun t => (Owned.own n.id [.basicBlock] (by decide) t).trans (hsublist.count_le t.owner)

/-- The nodes of a construct are its own and those of its parts. -/
theorem owned_construct {n : Node} {tags : List Tag} (roles : List Role)
    (hroles : (Role.basicBlock :: roles).Nodup)
    (htags : ∀ t, tags.count t ≤ (roles.map (Tag.mk n.id)).count t +
      (n.children.flatMap Node.ids).count t.owner) :
    Owned (reservedTags current n.id ++ tags) n.ids := by
  intro t
  have hown := Owned.own n.id (.basicBlock :: roles) hroles t
  have hreserved := count_reservedTags_le current n.id t
  have := htags t
  rw [Node.ids_eq]
  simp only [List.count_append, List.count_cons, List.count_nil, List.map_cons] at *
  omega

theorem owned_loop {n body : Node} {tags : List Tag} {current' : Option Nat} (roles : List Role)
    (hroles : (Role.basicBlock :: roles).Nodup) (hbody : body ∈ n.children)
    (h : Owned (reservedTags current' body.id ++ tags) body.ids) :
    Owned (reservedTags current n.id ++ (roles.map (Tag.mk n.id) ++ tags)) n.ids := by
  refine owned_construct roles hroles fun t => ?_
  rw [List.count_append]
  exact Nat.add_le_add_left ((h.of_append_right t).trans (Node.count_ids_le hbody t.owner)) _

theorem count_meetingLayout_le (id : UInt64) (ends : List (Nat × Option Branch))
    (base : Nat) (t : Tag) :
    (meetingLayout id ends base).tags.count t ≤ [Tag.mk id .convergence].count t := by
  unfold meetingLayout
  split
  · exact Nat.zero_le _
  · exact Nat.le_refl _

/-- The nodes of a statement are created for it or for what is inside of it. -/
def OwnsLayout (n : Node) : Prop :=
  ∀ targets current base,
    Owned (reservedTags current n.id ++ ((ofNode n).layout targets current base).tags) n.ids

/-- The same for an arm of a branch, whose first node is created for the branch. -/
def OwnsArm (o : Option Node) : Prop :=
  ∀ targets id head outcome base t,
    (layoutArm targets id head outcome base (ofNode? o)).tags.count t ≤
      [Tag.mk id outcome.arm].count t + (o.toList.flatMap Node.ids).count t.owner

/-- The same for the statements of a block. -/
def OwnsAll (l : List Node) : Prop :=
  ∀ targets current base, Owned ((ofNodes l).layout targets current base).tags (l.flatMap Node.ids)

section

variable {id : UInt64} {src : Span} {n body : Node} {l : List Node}

theorem OwnsAll.block (h : OwnsAll l) : OwnsLayout ⟨id, src, .block l⟩ :=
  fun targets current base =>
  owned_construct [] (by decide) fun t => (h targets current base t).trans (Nat.le_add_left _ _)

theorem OwnsAll.uncheckedBlock (h : OwnsAll l) : OwnsLayout ⟨id, src, .uncheckedBlock l⟩ :=
  fun targets current base =>
    owned_construct [] (by decide) fun t => (h targets current base t).trans (Nat.le_add_left _ _)

theorem OwnsLayout.cons (h : OwnsLayout n) (hl : OwnsAll l) : OwnsAll (n :: l) := by
  intro targets current base t
  rw [ofNodes, layout, List.flatMap_cons, List.count_append, List.count_append]
  exact Nat.add_le_add ((h _ _ _).of_append_right t) (hl _ _ _ t)

theorem OwnsLayout.whileLoop (h : OwnsLayout body) (condition : Node) :
    OwnsLayout ⟨id, src, .whileStatement condition body⟩ := fun _ _ _ =>
  owned_loop [.loopCondition, .loopBody, .afterLoop] (by decide) (by simp [Node.children,
    Kind.children]) (h _ _ _)

theorem OwnsLayout.doWhileLoop (h : OwnsLayout body) (condition : Node) :
    OwnsLayout ⟨id, src, .doWhileStatement condition body⟩ := fun _ _ _ =>
  owned_loop [.loopBody, .loopCondition, .afterLoop] (by decide) (by simp [Node.children,
    Kind.children]) (h _ _ _)

theorem OwnsLayout.forLoop (h : OwnsLayout body) (initialization condition step : Option Node) :
    OwnsLayout ⟨id, src, .forStatement initialization condition step body⟩ := fun _ _ _ =>
  owned_loop [.loopInit, .loopCondition, .loopBody, .loopIncrement, .afterLoop] (by decide)
    (by simp [Node.children, Kind.children]) (h _ _ _)

/-- A jump goes into a block, or nowhere outside of loops. -/
theorem ownsLayout_jump {way : Jump} (h : ofNode n = jump way n) : OwnsLayout n := by
  intro targets current base
  rw [h]
  cases targets with
  | none => exact owned_construct [] (by decide) fun t => Nat.zero_le _
  | some loop => exact owned_blockLayout n current base

theorem OwnsLayout.arm (h : OwnsLayout n) : OwnsArm (some n) := by
  intro targets id head outcome base t
  have hnode := (h targets (some base) (base + 1)).of_append_right t
  simp only [ofNode?, layoutArm, List.count_cons, List.count_nil, Option.toList_some,
    List.flatMap_singleton]
  omega

theorem OwnsArm.branch {trueBody falseBody : Option Node} (htrue : OwnsArm trueBody)
    (hfalse : OwnsArm falseBody) (condition : Node) :
    OwnsLayout ⟨id, src, .ifStatement condition trueBody falseBody⟩ := by
  intro targets current base
  refine owned_construct [.branchCondition, .branchTrue, .branchFalse, .convergence] (by decide)
    fun t => ?_
  rw [ofNode, layout]
  generalize hc : (Condition.ofNode condition).layout current none base (base + 1) = c
  generalize base + 1 + c.tags.length = base'
  generalize ht : layoutArm targets id base .onTrue base' (ofNode? trueBody) = arm
  generalize hf : layoutArm targets id base .onFalse (base' + arm.tags.length) (ofNode? falseBody) =
    arm'
  have hcount := (Condition.owned_layout condition current none base (base + 1)).of_append_right t
  have htrue := htrue targets id base .onTrue base' t
  have hfalse := hfalse targets id base .onFalse (base' + arm.tags.length) t
  have hmeet := count_meetingLayout_le id (arm.result ++ arm'.result)
    (base' + arm.tags.length + arm'.tags.length) t
  rw [hc] at hcount
  rw [ht] at htrue
  rw [hf] at hfalse
  simp only [Node.children, Kind.children, List.flatMap_cons, List.flatMap_append,
    List.count_append, List.count_cons, List.count_nil, List.map_cons, List.map_nil,
    Branch.arm] at *
  omega

end

theorem ownsLayout (n : Node) : OwnsLayout n := by
  refine ofNode.induct OwnsLayout OwnsArm OwnsAll
    ?block ?uncheckedBlock ?declaration ?expression ?emit ?revert ?placeholder ?branch ?whileLoop
    ?doWhileLoop ?forLoop ?returning ?breaking ?continuing ?unsupported ?nil ?cons ?some ?none n
  case block => exact fun id src statements ih => ih.block
  case uncheckedBlock => exact fun id src statements ih => ih.uncheckedBlock
  case declaration => exact fun id src declarations value targets => owned_blockLayout _
  case expression => exact fun id src expression targets => owned_blockLayout ⟨_, _, _⟩
  case emit => exact fun id src call targets => owned_blockLayout _
  case revert => exact fun id src call targets => owned_blockLayout _
  case placeholder => exact fun id src targets => owned_blockLayout _
  case branch => exact fun id src condition _ _ iht ihf => iht.branch ihf condition
  case whileLoop => exact fun id src condition body ih => ih.whileLoop condition
  case doWhileLoop => exact fun id src condition body ih => ih.doWhileLoop condition
  case forLoop =>
    exact fun id src initialization condition step body ih =>
      ih.forLoop initialization condition step
  case returning =>
    exact fun id src expression targets current base =>
      owned_construct [.return] (by decide) fun t => Nat.le_add_right _ _
  case breaking => exact fun id src => ownsLayout_jump rfl
  case continuing => exact fun id src => ownsLayout_jump rfl
  case unsupported =>
    intro node h₁ h₂ h₃ h₄ h₅ h₆ h₇ h₈ h₉ h₁₀ h₁₁ h₁₂ h₁₃ h₁₄ targets current base
    have hnode : ofNode node = unsupported node := by
      simp only [ofNode]
    rw [hnode]
    exact owned_construct [] (by decide) fun t => Nat.zero_le _
  case nil => exact fun targets current base t => Nat.zero_le _
  case cons => exact fun node rest ih ihs => ih.cons ihs
  case some => exact fun node ih => ih.arm
  case none => exact fun targets id head outcome base t => Nat.zero_le _

end Command

/-! ## Functions -/

/-- Functions whose body can be read and has a place in a control flow graph. -/
def Node.Admissible (function : Node) : Prop :=
  ∃ definition, function.function? = some definition ∧ definition.malformedBody = false ∧
    ∀ body ∈ definition.body, body.Supported false

/-- The reasons for which a node has no control flow graph. -/
inductive Node.Refused (function : Node) : Error → Prop
  | notFunction (h : function.function? = none) :
    Refused function (.unsupportedConstruct function.type.name function.id)
  | malformedBody {definition} (h : function.function? = some definition)
    (hbody : definition.malformedBody = true) :
    Refused function (.malformedBody definition.displayName function.id)
  | offence {definition body first rest} (h : function.function? = some definition)
    (hread : definition.malformedBody = false) (hbody : definition.body = some body)
    (hfirst : body.offences false = first :: rest) :
    Refused function (.unsupportedConstruct first.type.name first.id)

namespace Node

variable {function : Node} {err err' : Error}

theorem Refused.unique (h : function.Refused err) (h' : function.Refused err') : err = err' := by
  cases h with
  | notFunction h =>
    cases h' with
    | notFunction => rfl
    | malformedBody h' => cases h.symm.trans h'
    | offence h' => cases h.symm.trans h'
  | malformedBody h hbody =>
    cases h' with
    | notFunction h' => cases h.symm.trans h'
    | malformedBody h' => cases h.symm.trans h'; rfl
    | offence h' hread => cases h.symm.trans h'; cases hbody.symm.trans hread
  | offence h hread hbody hfirst =>
    cases h' with
    | notFunction h' => cases h.symm.trans h'
    | malformedBody h' hread' => cases h.symm.trans h'; cases hread.symm.trans hread'
    | offence h' _ hbody' hfirst' =>
      cases h.symm.trans h'
      cases hbody.symm.trans hbody'
      cases hfirst.symm.trans hfirst'
      rfl

theorem Refused.not_admissible (h : function.Refused err) : ¬ function.Admissible := by
  rintro ⟨definition, hdefinition, hread, hbody⟩
  cases h with
  | notFunction h => cases h.symm.trans hdefinition
  | malformedBody h hread' => cases h.symm.trans hdefinition; cases hread.symm.trans hread'
  | offence h _ hsome hfirst =>
    cases h.symm.trans hdefinition
    cases hfirst.symm.trans (hbody _ hsome).offences_eq_nil

end Node

namespace FlowGraph

theorem owned_functionLayout (body : Option Node) :
    Owned (functionLayout body).tags (body.toList.flatMap Node.ids) := by
  cases body with
  | none => exact fun t => Nat.zero_le _
  | some body =>
    rw [Option.toList_some, List.flatMap_singleton]
    exact Command.ownsLayout body none (some 2) 3

/-- The ids of the entry and of the exit do not begin with a digit. -/
theorem nodup_headers {tags : List Tag} (h : tags.Nodup) (id : UInt64) (name : String) :
    ((endHeaders id name ++ tags.map Tag.header).map Prod.fst).Nodup := by
  have hnew : ∀ x ∈ (endHeaders id name).map Prod.fst, x.toList.head? = some 'e' := by
    simp only [endHeaders, List.map_cons, List.map_nil, List.forall_mem_cons, String.toList_append,
      List.append_assoc]
    exact ⟨rfl, rfl, nofun⟩
  have hids : (tags.map Tag.id).Nodup := h.map fun _ _ => Tag.id_injective
  rw [List.map_append, List.map_map, List.nodup_append]
  refine ⟨by simp [endHeaders], hids, fun x hx y hy hxy => ?_⟩
  obtain ⟨t, -, rfl⟩ := List.mem_map.mp hy
  subst hxy
  cases Tag.isDigit_of_head (hnew _ hx)

theorem bodyOffences_eq (body : Option Node) :
    bodyOffences body = body.toList.flatMap (Node.offences false) := by
  rw [bodyOffences]
  congr 1
  funext n
  exact n.offences_ofNode false

/-- A function that has a graph is supported. -/
theorem LaidOut.supported {g : FlowGraph} {id : UInt64} {name : String} {body : Option Node}
    (L : g.LaidOut id name body) : ∀ n ∈ body, n.Supported false := by
  intro n hn
  obtain rfl := Option.mem_def.mp hn
  have hnone := L.offences
  rw [bodyOffences_eq, Option.toList_some, List.flatMap_singleton] at hnone
  exact Node.supported_iff.mpr hnone

theorem nodup_body_ids {function : Node} {definition : FunctionDefinition Node}
    (h : function.function? = some definition) (hids : function.ids.Nodup) :
    (definition.body.toList.flatMap Node.ids).Nodup := by
  obtain ⟨id, src, kind⟩ := function
  cases kind with
  | functionDefinition definition =>
    cases h
    rw [Node.ids_eq, List.nodup_cons] at hids
    refine hids.2.sublist ?_
    rw [Node.children, Kind.children, List.flatMap_append]
    exact List.sublist_append_right _ _
  | _ => cases h

/-- What the construction of a graph comes to, in terms of the syntax of the function. -/
theorem ofFunction_outcome (function : Node) (source : String) :
    ((∃ g, ofFunction function source = .ok g) ∧ function.Admissible) ∨
      (∃ err, ofFunction function source = .error err ∧ function.Refused err) ∨
      (∃ id, ofFunction function source = .error (.duplicateNode id)) ∧ ¬ function.ids.Nodup := by
  cases hdefinition : function.function? with
  | none =>
    refine .inr (.inl ⟨_, ?_, .notFunction hdefinition⟩)
    rw [ofFunction, hdefinition]
  | some definition =>
    cases hread : definition.malformedBody with
    | true =>
      refine .inr (.inl ⟨_, ?_, .malformedBody hdefinition hread⟩)
      simp only [ofFunction, hdefinition, hread]
      rfl
    | false =>
      rcases ofFunction_cases source hdefinition hread with
        ⟨g, hok, L⟩ | ⟨err, herr, ⟨o, ho, rfl⟩ | ⟨⟨id, rfl⟩, hdup⟩⟩
      · exact .inl ⟨⟨g, hok⟩, definition, hdefinition, hread, L.supported⟩
      · refine .inr (.inl ⟨_, herr, ?_⟩)
        rw [bodyOffences_eq] at ho
        cases hbody : definition.body with
        | none => simp [hbody] at ho
        | some body =>
          rw [hbody, Option.toList_some, List.flatMap_singleton] at ho
          obtain ⟨rest, hrest⟩ := List.head?_eq_some_iff.mp ho
          exact .offence hdefinition hread hbody hrest
      · refine .inr (.inr ⟨⟨id, herr⟩, fun hids => hdup (nodup_headers ?_ _ _)⟩)
        exact (owned_functionLayout definition.body).nodup (nodup_body_ids hdefinition hids)

/-- **Admission.** Where ids are distinct, a function has a control flow graph exactly if its body
can be read and is supported; otherwise the error says that the node is no function, that its body
could not be read or which statement is the first that has no place in a graph. Where they are not,
the only other error is that a node has been created twice. -/
theorem ofFunction_admission (function : Node) (source : String) :
    (function.ids.Nodup →
      ((∃ g, ofFunction function source = .ok g) ↔ function.Admissible) ∧
      ∀ err, ofFunction function source = .error err ↔ function.Refused err) ∧
    ((∃ g, ofFunction function source = .ok g) → function.Admissible) ∧
    ∀ err, ofFunction function source = .error err →
      function.Refused err ∨ ∃ id, err = .duplicateNode id := by
  rcases ofFunction_outcome function source with ⟨⟨g, hg⟩, h⟩ | ⟨err, herr, h⟩ | ⟨⟨id, hid⟩, hdup⟩
  · refine ⟨fun _ => ⟨⟨fun _ => h, fun _ => ⟨g, hg⟩⟩,
      fun err => ⟨fun herr => ?_, fun hrefused => ?_⟩⟩,
      fun _ => h, fun err herr => ?_⟩
    · cases hg.symm.trans herr
    · exact absurd h hrefused.not_admissible
    · cases hg.symm.trans herr
  · refine ⟨fun _ => ⟨⟨fun ⟨g, hg⟩ => ?_, fun hadmissible => ?_⟩,
        fun err' => ⟨fun herr' => ?_, fun h' => ?_⟩⟩,
      fun ⟨g, hg⟩ => ?_, fun err' herr' => ?_⟩
    · cases herr.symm.trans hg
    · exact absurd hadmissible h.not_admissible
    · cases herr.symm.trans herr'
      exact h
    · rw [herr, h.unique h']
    · cases herr.symm.trans hg
    · cases herr.symm.trans herr'
      exact .inl h
  · refine ⟨fun hids => absurd hids hdup, fun ⟨g, hg⟩ => ?_, fun err herr => ?_⟩
    · cases hid.symm.trans hg
    · cases hid.symm.trans herr
      exact .inr ⟨id, rfl⟩

/-- `for (;; assembly {}) continue; break;` as the body of a function. -/
def stray : Node :=
  let node (id : UInt64) (kind : Kind Node) : Node := ⟨id, ⟨0, 0, 0⟩, kind⟩
  let loop :=
    node 3 (.forStatement none none (some (node 4 .inlineAssembly)) (node 5 .continueStatement))
  node 1 (.functionDefinition {
    name := "stray"
    kind := .function
    visibility := none
    stateMutability := none
    parameters := []
    returnParameters := []
    body := some (node 2 (.block [loop, node 6 .breakStatement]))
    malformedBody := false })

theorem ofFunction_admission_stray :
    (countdown.ids.Nodup ∧ ∃ g, ofFunction countdown "" = .ok g) ∧
    stray.ids.Nodup ∧ ofFunction stray "" = .error (.unsupportedConstruct "InlineAssembly" 4) := by
  have hcountdown : countdown.ids.Nodup := by decide +kernel
  have hstray : stray.ids.Nodup := by decide +kernel
  refine ⟨⟨hcountdown, ((ofFunction_admission countdown "").1 hcountdown).1.mpr ⟨_, rfl, rfl, ?_⟩⟩,
    hstray, ?_⟩
  · rintro _ ⟨⟩
    exact Node.supported_iff.mpr rfl
  · have hrefused : stray.Refused _ := .offence rfl rfl rfl rfl
    exact (((ofFunction_admission stray "").1 hstray).2 _).mpr hrefused

end FlowGraph

end ContractFlow
