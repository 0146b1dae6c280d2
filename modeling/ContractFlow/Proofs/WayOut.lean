import ContractFlow.Proofs.LeastSolution
import ContractFlow.Proofs.Shape
import Mathlib.Logic.Relation

/-!
Ways out of control flow graphs. Where every loop has a condition, each node of a layout leads to
the exit, to a target of the innermost loop or to what is left to build on. This is said without
paths: a property that the edges pass back from their ends to their starts, and that holds where the
layout leads to, holds at every node of the layout and at the one that control came from (`Drains`).
There is one lemma for each kind of command.

That the exit can be reached is passed back along every edge. Main statement:
`FlowGraph.ofFunction_reaches_exit`.
-/

namespace ContractFlow

open Build

/-- Each edge passes a property back from its end to its start. -/
def PassedBack (P : Nat → Prop) (edges : List FlowEdge) : Prop :=
  ∀ e ∈ edges, P e.tail → P e.head

/-- A property holds at what control comes from, if anything, and at the nodes of a layout. -/
structure Throughout (P : Nat → Prop) (current : Option Nat) (base : Nat)
    (tags : List Tag) : Prop where
  before : ∀ i, current = some i → P i
  inside : ∀ k, base ≤ k → k < base + tags.length → P k

section Properties

variable {P : Nat → Prop} {edges edges' : List FlowEdge} {e : FlowEdge}
  {current current' : Option Nat}
  {base : Nat} {t : Tag} {tags tags' : List Tag}

theorem PassedBack.append :
    PassedBack P (edges ++ edges') ↔ PassedBack P edges ∧ PassedBack P edges' :=
  List.forall_mem_append

theorem PassedBack.cons :
    PassedBack P (e :: edges) ↔ (P e.tail → P e.head) ∧ PassedBack P edges :=
  List.forall_mem_cons

theorem PassedBack.link {tail : Nat} {outcome : Option Branch}
    (h : PassedBack P (linkEdges current tail outcome)) (htail : P tail) (i : Nat)
    (hi : current = some i) : P i := by
  subst hi
  exact h _ (List.mem_singleton_self _) htail

theorem Throughout.nil (h : ∀ i, current = some i → P i) : Throughout P current base [] := by
  refine ⟨h, fun k hle hlt => ?_⟩
  exact absurd hlt (Nat.not_lt.mpr hle)

theorem Throughout.cons (h : P base) (H : Throughout P current (base + 1) tags) :
    Throughout P current base (t :: tags) := by
  refine ⟨H.before, fun k hle hlt => ?_⟩
  rw [List.length_cons] at hlt
  rcases Nat.eq_or_lt_of_le hle with rfl | hk
  · exact h
  · exact H.inside k hk (by omega)

theorem Throughout.append (H : Throughout P current base tags)
    (H' : Throughout P current' (base + tags.length) tags') :
    Throughout P current base (tags ++ tags') := by
  refine ⟨H.before, fun k hle hlt => ?_⟩
  rw [List.length_append] at hlt
  rcases Nat.lt_or_ge k (base + tags.length) with hk | hk
  · exact H.inside k hle hk
  · exact H'.inside k hk (by omega)

end Properties

/-! ## Conditions -/

/-- The nodes of a condition lead to the node that holds its value. -/
theorem Condition.throughout_layout {P : Nat → Prop} (c : Condition) : ∀ {current : Option Nat}
    {outcome : Option Branch} {holder base : Nat},
    PassedBack P (c.layout current outcome holder base).edges → P holder →
    Throughout P current base (c.layout current outcome holder base).tags := by
  induction c with
  | plain node =>
    intro current outcome holder base hedges hholder
    exact .nil (hedges.link hholder)
  | logical node operator left right ihl ihr =>
    intro current outcome holder base hedges hholder
    simp only [layout] at hedges ⊢
    obtain ⟨hl, hedges⟩ := PassedBack.append.mp hedges
    obtain ⟨hsettled, hedges⟩ := PassedBack.cons.mp hedges
    obtain ⟨hr, hedges⟩ := PassedBack.append.mp hedges
    obtain ⟨hbypass, hedges⟩ := PassedBack.cons.mp hedges
    have hright := (PassedBack.cons.mp hedges).1 hholder
    have hleft := hsettled (hbypass hholder)
    exact .cons hleft
      ((ihl hl hleft).append (.cons (hbypass hholder) (.cons hright (ihr hr hright))))

/-! ## Commands -/

section Layouts

variable (targets : Option LoopTargets)

/-- **A layout drains** if whatever its edges pass back from the exit, from the targets of the
innermost loop and from what is left to build on holds throughout. -/
def Drains (current : Option Nat) (base : Nat) (p : Layout (Option Nat)) : Prop :=
  ∀ P : Nat → Prop, PassedBack P p.edges → (∀ k, Sink targets k → P k) →
    (∀ j, p.result = some j → P j) → Throughout P current base p.tags

/-- The same for an arm of a branch, which the head of the branch leads to. -/
def DrainsArm (head base : Nat) (p : Layout (List (Nat × Option Branch))) : Prop :=
  ∀ P : Nat → Prop, PassedBack P p.edges → (∀ k, Sink targets k → P k) →
    (∀ e ∈ p.result, P e.1) → Throughout P (some head) base p.tags

end Layouts

section Constructs

variable {targets : Option LoopTargets} {current : Option Nat} {base : Nat} {id : UInt64}
  {p q : Layout (Option Nat)}

theorem Drains.skip : Drains targets current base ⟨[], [], current⟩ :=
  fun _ _ _ hresult => .nil hresult

theorem Drains.seq (H : Drains targets current base p)
    (H' : Drains targets p.result (base + p.tags.length) q) :
    Drains targets current base ⟨p.tags ++ q.tags, p.edges ++ q.edges, q.result⟩ := by
  intro P hedges hsinks hresult
  obtain ⟨hp, hq⟩ := PassedBack.append.mp hedges
  have Q := H' P hq hsinks hresult
  exact (H P hp hsinks Q.before).append Q

/-- What holds at the node that a statement goes into. -/
theorem throughout_blockLayout {P : Nat → Prop}
    (h : P (Command.blockLayout current base id).result) :
    Throughout P current base (Command.blockLayout current base id).tags := by
  cases current with
  | some i =>
    apply Throughout.nil
    rintro _ ⟨⟩
    exact h
  | none => exact .cons h (.nil nofun)

theorem Drains.simple : Drains targets current base
    ⟨(Command.blockLayout current base id).tags, (Command.blockLayout current base id).edges,
      some (Command.blockLayout current base id).result⟩ :=
  fun _ _ _ hresult => throughout_blockLayout (hresult _ rfl)

theorem Drains.jump {loop : LoopTargets} (way : Jump) : Drains (some loop) current base
    ⟨(Command.blockLayout current base id).tags, (Command.blockLayout current base id).edges ++
      [⟨(Command.blockLayout current base id).result, loop.target way, none⟩], none⟩ := by
  intro P hedges hsinks _
  apply throughout_blockLayout
  have hjump := (PassedBack.cons.mp (PassedBack.append.mp hedges).2).1
  exact hjump (hsinks _ (.inr ⟨loop, way, rfl, rfl⟩))

theorem Drains.return : Drains targets current base
    ⟨[⟨id, .return⟩], linkEdges current base none ++ [⟨base, FlowGraph.exit, none⟩], none⟩ := by
  intro P hedges hsinks _
  obtain ⟨hlink, hexit⟩ := PassedBack.append.mp hedges
  have hreturn := (PassedBack.cons.mp hexit).1 (hsinks _ (.inl rfl))
  exact .cons hreturn (.nil (hlink.link hreturn))

section Loops

variable {body : Layout (Option Nat)}

/-- A loop drains if the node that its body leads back to leads to the one after the loop, and the
others of its own to these two or into the body. -/
theorem Drains.loop {own : List Tag} {entering leaving : List FlowEdge} {first back after : Nat}
    (hown : ∀ P : Nat → Prop, PassedBack P (entering ++ leaving) → P after →
      P back ∧ (P first → Throughout P current base own))
    (B : Drains (some ⟨back, after⟩) (some first) (base + own.length) body) :
    Drains targets current base (Command.loopLayout own entering leaving back after body) := by
  intro P hedges hsinks hresult
  obtain ⟨hentering, hedges⟩ := PassedBack.append.mp hedges
  obtain ⟨hbody, hedges⟩ := PassedBack.append.mp hedges
  obtain ⟨hlast, hleaving⟩ := PassedBack.append.mp hedges
  have hafter := hresult after rfl
  obtain ⟨hback, hown⟩ := hown P (PassedBack.append.mpr ⟨hentering, hleaving⟩) hafter
  have hinner : ∀ k, Sink (some ⟨back, after⟩) k → P k := by
    rintro _ (rfl | ⟨_, _ | _, ⟨⟩, rfl⟩)
    · exact hsinks _ (.inl rfl)
    · exact hafter
    · exact hback
  have H := B P hbody hinner (hlast.link hback)
  exact (hown (H.before first rfl)).append H

theorem Drains.whileLoop (B : Drains (some ⟨base, base + 2⟩) (some (base + 1)) (base + 3) body) :
    Drains targets current base
      (Command.loopLayout [⟨id, .loopCondition⟩, ⟨id, .loopBody⟩, ⟨id, .afterLoop⟩]
        (linkEdges current base none ++ [⟨base, base + 1, some .onTrue⟩])
        [⟨base, base + 2, some .onFalse⟩] base (base + 2) body) := by
  refine .loop (fun P hedges hafter => ?_) B
  obtain ⟨hentering, hleaving⟩ := PassedBack.append.mp hedges
  have hhead : P base := (PassedBack.cons.mp hleaving).1 hafter
  refine ⟨hhead, fun hfirst => ?_⟩
  exact .cons hhead
    (.cons hfirst (.cons hafter (.nil ((PassedBack.append.mp hentering).1.link hhead))))

theorem Drains.doWhileLoop (B : Drains (some ⟨base + 1, base + 2⟩) (some base) (base + 3) body) :
    Drains targets current base
      (Command.loopLayout [⟨id, .loopBody⟩, ⟨id, .loopCondition⟩, ⟨id, .afterLoop⟩]
        (linkEdges current base none)
        [⟨base + 1, base, some .onTrue⟩, ⟨base + 1, base + 2, some .onFalse⟩] (base + 1) (base + 2)
        body) := by
  refine .loop (fun P hedges hafter => ?_) B
  obtain ⟨hentering, hleaving⟩ := PassedBack.append.mp hedges
  have hhead : P (base + 1) := (PassedBack.cons.mp (PassedBack.cons.mp hleaving).2).1 hafter
  refine ⟨hhead, fun hfirst => ?_⟩
  exact .cons hfirst (.cons hhead (.cons hafter (.nil (hentering.link hfirst))))

theorem Drains.forLoop {condition : Option Node} (hcondition : condition.isSome = true)
    (B : Drains (some ⟨base + 3, base + 4⟩) (some (base + 2)) (base + 5) body) :
    Drains targets current base
      (Command.loopLayout [⟨id, .loopInit⟩, ⟨id, .loopCondition⟩, ⟨id, .loopBody⟩,
        ⟨id, .loopIncrement⟩,
          ⟨id, .afterLoop⟩]
        (linkEdges current base none ++
          [⟨base, base + 1, none⟩, ⟨base + 1, base + 2, condition.map fun _ => .onTrue⟩])
        (⟨base + 3, base + 1, none⟩ ::
          linkEdges (condition.map fun _ => base + 1) (base + 4) (some .onFalse))
        (base + 3) (base + 4) body) := by
  obtain ⟨test, rfl⟩ := Option.isSome_iff_exists.mp hcondition
  refine .loop (fun P hedges hafter => ?_) B
  obtain ⟨hentering, hleaving⟩ := PassedBack.append.mp hedges
  obtain ⟨hlink, hentering⟩ := PassedBack.append.mp hentering
  obtain ⟨hincrement, hleaving⟩ := PassedBack.cons.mp hleaving
  -- the loop is left where its condition fails
  have hhead : P (base + 1) := hleaving.link hafter _ rfl
  have hstart : P base := (PassedBack.cons.mp hentering).1 hhead
  refine ⟨hincrement hhead, fun hfirst => ?_⟩
  exact .cons hstart (.cons hhead (.cons hfirst (.cons (hincrement hhead) (.cons hafter
    (.nil (hlink.link hstart))))))

end Loops

/-- A missing arm leads on from the head of the branch. -/
theorem DrainsArm.missing {head : Nat} {outcome : Branch} :
    DrainsArm targets head base ⟨[], [], [(head, some outcome)]⟩ := by
  intro P _ _ hresult
  apply Throughout.nil
  rintro _ ⟨⟩
  exact hresult _ (List.mem_singleton_self _)

theorem DrainsArm.present {head : Nat} {outcome : Branch}
    (H : Drains targets (some base) (base + 1) p) :
    DrainsArm targets head base
      ⟨⟨id, outcome.arm⟩ :: p.tags, ⟨head, base, some outcome⟩ :: p.edges,
        p.result.toList.map (·, none)⟩ := by
  intro P hedges hsinks hresult
  obtain ⟨henter, hedges⟩ := PassedBack.cons.mp hedges
  have hlast : ∀ j, p.result = some j → P j := fun j hj =>
    hresult (j, none) (List.mem_map_of_mem (Option.mem_toList.mpr hj))
  have H := H P hedges hsinks hlast
  have hfirst : P base := H.before base rfl
  refine .cons hfirst ⟨?_, H.inside⟩
  rintro _ ⟨⟩
  exact henter hfirst

section Branches

variable {c : Layout Unit} {onTrue onFalse : Layout (List (Nat × Option Branch))}

/-- Where the arms of a branch meet, what leads out of them leads on. -/
theorem throughout_meetingLayout {P : Nat → Prop} {ends : List (Nat × Option Branch)}
    (hedges : PassedBack P (Command.meetingLayout id ends base).edges)
    (hresult : ∀ j, (Command.meetingLayout id ends base).result = some j → P j) :
    (∀ e ∈ ends, P e.1) ∧ Throughout P none base (Command.meetingLayout id ends base).tags := by
  rw [meetingLayout_edges] at hedges
  unfold Command.meetingLayout at hresult ⊢
  split at hresult
  · next h =>
    rw [List.isEmpty_iff.mp h]
    exact ⟨nofun, .nil nofun⟩
  · next h =>
    rw [if_neg h]
    have hmeet := hresult base rfl
    exact ⟨fun e he => hedges _ (List.mem_map_of_mem he) hmeet, .cons hmeet (.nil nofun)⟩

theorem Drains.branch
    (C : ∀ P : Nat → Prop, PassedBack P c.edges → P base → Throughout P current (base + 1) c.tags)
    (T : DrainsArm targets base (base + 1 + c.tags.length) onTrue)
    (F : DrainsArm targets base (base + 1 + c.tags.length + onTrue.tags.length) onFalse)
    {m : Layout (Option Nat)}
    (hm : m = Command.meetingLayout id (onTrue.result ++ onFalse.result)
      (base + 1 + c.tags.length + onTrue.tags.length + onFalse.tags.length)) :
    Drains targets current base
      { tags := ⟨id, .branchCondition⟩ :: (c.tags ++ (onTrue.tags ++ (onFalse.tags ++ m.tags)))
        edges := c.edges ++ (onTrue.edges ++ (onFalse.edges ++ m.edges))
        result := m.result } := by
  subst hm
  intro P hedges hsinks hresult
  obtain ⟨hc, hedges⟩ := PassedBack.append.mp hedges
  obtain ⟨ht, hedges⟩ := PassedBack.append.mp hedges
  obtain ⟨hf, hmeet⟩ := PassedBack.append.mp hedges
  obtain ⟨hends, M⟩ := throughout_meetingLayout hmeet hresult
  obtain ⟨htrue, hfalse⟩ := List.forall_mem_append.mp hends
  have T := T P ht hsinks htrue
  have F := F P hf hsinks hfalse
  have hhead : P base := T.before base rfl
  exact .cons hhead ((C P hc hhead).append (T.append (F.append M)))

end Branches

end Constructs

/-! ## Statements -/

/-- The loops have conditions. -/
def Conditional : UInt64 → Bool → Prop := fun _ conditional => conditional = true

/-- The command of a statement has a layout that drains. -/
def DrainsStatement (inLoop : Bool) (n : Node) : Prop :=
  ∀ targets current base, targets.isSome = inLoop → Listed Conditional n.statements →
    Drains targets current base ((Command.ofNode n).layout targets current base)

variable {inLoop : Bool}

theorem drains_ofNodes {l : List Node} (h : ∀ s ∈ l, DrainsStatement inLoop s)
    {targets : Option LoopTargets} (hloop : targets.isSome = inLoop)
    (hlisted : Listed Conditional (Node.statementsAll l)) (current : Option Nat) (base : Nat) :
    Drains targets current base ((Command.ofNodes l).layout targets current base) := by
  induction l generalizing current base with
  | nil => exact .skip
  | cons n rest ih =>
    rw [List.forall_mem_cons] at h
    obtain ⟨hfirst, hrest⟩ := Listed.append.mp hlisted
    exact (h.1 targets current base hloop hfirst).seq (ih h.2 hrest _ _)

theorem drains_ofNode? {o : Option Node} (h : ∀ s ∈ o, DrainsStatement inLoop s)
    {targets : Option LoopTargets} (hloop : targets.isSome = inLoop)
    (hlisted : Listed Conditional (Node.statements? o)) (id : UInt64) (head : Nat)
    (outcome : Branch) (base : Nat) : DrainsArm targets head base
      (Command.layoutArm targets id head outcome base (Command.ofNode? o)) := by
  cases o with
  | none => exact .missing
  | some n => exact .present (h n rfl targets (some base) (base + 1) hloop hlisted)

theorem drains_ofNode {n : Node} (h : n.Supported inLoop) : DrainsStatement inLoop n := by
  induction h with
  | block _ ih =>
    intro targets current base hloop hlisted
    exact drains_ofNodes ih hloop (Listed.cons.mp hlisted).2 current base
  | uncheckedBlock _ ih =>
    intro targets current base hloop hlisted
    exact drains_ofNodes ih hloop (Listed.cons.mp hlisted).2 current base
  | declaration => exact fun _ _ _ _ _ => .simple
  | expression => exact fun _ _ _ _ _ => .simple
  | emit => exact fun _ _ _ _ _ => .simple
  | revert => exact fun _ _ _ _ _ => .simple
  | placeholder => exact fun _ _ _ _ _ => .simple
  | «return» => exact fun _ _ _ _ _ => .return
  | branch _ _ iht ihf =>
    intro targets current base hloop hlisted
    obtain ⟨hlt, hlf⟩ := Listed.append.mp (Listed.cons.mp hlisted).2
    exact .branch (fun P hedges hhead => Condition.throughout_layout _ hedges hhead)
      (drains_ofNode? iht hloop hlt _ _ _ _) (drains_ofNode? ihf hloop hlf _ _ _ _) rfl
  | whileLoop _ ih =>
    intro targets current base hloop hlisted
    exact .whileLoop (ih _ _ _ rfl (Listed.cons.mp hlisted).2)
  | doWhileLoop _ ih =>
    intro targets current base hloop hlisted
    exact .doWhileLoop (ih _ _ _ rfl (Listed.cons.mp hlisted).2)
  | forLoop _ _ _ ih =>
    intro targets current base hloop hlisted
    obtain ⟨hcondition, hlisted⟩ := Listed.cons.mp hlisted
    have hbody := (Listed.append.mp (Listed.append.mp hlisted).2).2
    exact .forLoop (hcondition _ rfl) (ih _ _ _ rfl hbody)
  | «break» =>
    intro targets current base hloop hlisted
    obtain ⟨loop, rfl⟩ := Option.isSome_iff_exists.mp hloop
    exact .jump .break
  | «continue» =>
    intro targets current base hloop hlisted
    obtain ⟨loop, rfl⟩ := Option.isSome_iff_exists.mp hloop
    exact .jump .continue

/-! ## Functions -/

namespace FlowGraph

theorem functionLayout_throughout {body : Option Node} {P : Nat → Prop}
    (hbody : ∀ b ∈ body, b.Supported false) (hlisted : Listed Conditional (Node.statements? body))
    (hedges : PassedBack P (functionLayout body).edges) (hexit : P exit) :
    Throughout P (some entry) 2 (functionLayout body).tags := by
  cases body with
  | none =>
    apply Throughout.nil
    rintro _ ⟨⟩
    exact (PassedBack.cons.mp hedges).1 hexit
  | some body =>
    obtain ⟨hentry, hedges⟩ := PassedBack.cons.mp hedges
    obtain ⟨hedges, hlast⟩ := PassedBack.append.mp hedges
    have hsinks : ∀ k, Sink none k → P k := by
      rintro _ (rfl | ⟨_, _, ⟨⟩, _⟩)
      exact hexit
    have H := drains_ofNode (hbody body rfl) none (some 2) 3 rfl hlisted P hedges hsinks
      (hlast.link hexit)
    have hfirst : P 2 := H.before 2 rfl
    refine .cons hfirst ⟨?_, H.inside⟩
    rintro _ ⟨⟩
    exact hentry hfirst

variable {function : Node} {source : String} {g : FlowGraph} {definition : FunctionDefinition Node}

/-- **Ways out.** In the graph of a function whose loops have conditions, some path leads to the
exit from every node, also from those that no path from the entry leads to. Only a `for` loop may
have no condition. -/
theorem ofFunction_reaches_exit (h : ofFunction function source = .ok g)
    (hdefinition : function.function? = some definition)
    (hloops : ∀ s ∈ Node.statements? definition.body, s.loop? ≠ some false) :
    ∃ last, g.node exit = .ok last ∧ ∀ n ∈ g.nodes, Relation.ReflTransGen g.Step n last := by
  obtain ⟨_, hdefinition', L⟩ := ofFunction_laidOut h
  have H := L.wellFormed
  cases hdefinition.symm.trans hdefinition'
  obtain ⟨last, hlast, -⟩ := H.exists_node_iff.mpr (congrArg (·[exit]?) L.headers)
  have hlisted : Listed Conditional (Node.statements? definition.body) := by
    intro s hs conditional hloop
    cases conditional with
    | false => exact absurd hloop (hloops s hs)
    | true => rfl
  have hpassed : PassedBack (fun i => ∀ n, g.node i = .ok n → Relation.ReflTransGen g.Step n last)
      g.edges := by
    intro e he htail n hn
    obtain ⟨m, hm⟩ := H.exists_node ((H.dense _).mp (H.consistent.ends e he).2)
    exact .head ⟨e, he, hn, hm⟩ (htail m hm)
  have hexit : ∀ n, g.node exit = .ok n → Relation.ReflTransGen g.Step n last := by
    intro n hn
    cases hlast.symm.trans hn
    exact .refl
  have hall := functionLayout_throughout L.supported hlisted (L.edges ▸ hpassed) hexit
  refine ⟨last, hlast, fun n hn => ?_⟩
  obtain ⟨i, hi⟩ := mem_nodes_iff.mp hn
  rcases H.node_cases L.headers hi with ⟨rfl, -⟩ | ⟨rfl, -⟩ | ⟨t, ht, -⟩
  · exact hall.before entry rfl n hi
  · exact hexit n hi
  · obtain ⟨hle, hlt, -⟩ := List.mem_zipIdx ht
    exact hall.inside i hle hlt n hi

theorem ofFunction_reaches_exit_countdown : ∃ g, ofFunction countdown "" = .ok g ∧
    ∃ last, g.node exit = .ok last ∧ ∀ n ∈ g.nodes, Relation.ReflTransGen g.Step n last := by
  obtain ⟨g, hg⟩ := countdown_builds
  exact ⟨g, hg, ofFunction_reaches_exit hg rfl (by decide)⟩

end FlowGraph

end ContractFlow
