import ContractFlow.Proofs.Outline

/-!
How an outline grows while the layouts of commands are drawn into it. For each construct a lemma
says what is drawn around the constructs that it contains. From these, `Command.Draws.grows`: what
is drawn from a node leaves all other nodes as they were, and yields a node that nothing leaves yet.
-/

namespace ContractFlow

/-- What drawing from `current` to `result` may change: nodes are added, the current node may be
extended and connected, and the result, if any, is the current node or a new one and has no way
out. -/
structure Outline.Grows (current : Option Nat) (o : Outline) (result : Option Nat) (o' : Outline) :
    Prop where
  size_le : o.size ≤ o'.size
  fresh : o.Fresh → o'.Fresh
  kept : ∀ k, k < o.size → current ≠ some k → o'.events k = o.events k ∧ o'.exits k = o.exits k
  extended : ∀ i, current = some i → o.events i <+: o'.events i
  pending : ∀ j, result = some j → j < o'.size ∧ (current = some j ∨ o.size ≤ j) ∧ o'.exits j = []

/-- The current node, if any, has no way out yet. -/
def Outline.Pending (o : Outline) (current : Option Nat) : Prop :=
  ∀ i, current = some i → i < o.size ∧ o.exits i = []

theorem Outline.Pending.ne_of_le {o : Outline} {current : Option Nat}
    (h : o.Pending current) (k : Nat) (hk : o.size ≤ k) : current ≠ some k :=
  fun hc => Nat.not_lt.mpr hk (h k hc).1

namespace Outline.Fresh

variable {o : Outline}

theorem grow (F : o.Fresh) : o.grow.Fresh :=
  fun k hk => F k (Nat.le_of_succ_le hk)

theorem connect {head : Nat} (F : o.Fresh) (hlt : head < o.size) (tail : Nat)
    (outcome : Option Branch) : (o.connect head tail outcome).Fresh := by
  intro k hk
  have hne : k ≠ head := Nat.ne_of_gt (Nat.lt_of_lt_of_le hlt hk)
  simpa [hne] using F k hk

theorem link {current : Option Nat} (F : o.Fresh) (hlt : ∀ i, current = some i → i < o.size)
    (tail : Nat) (outcome : Option Branch) : (o.link current tail outcome).Fresh := by
  cases current with
  | none => exact F
  | some head => exact F.connect (hlt head rfl) tail outcome

/-- A new node that the current one leads to. -/
theorem begin {current : Option Nat} (F : o.Fresh) (hp : o.Pending current) :
    (o.grow.link current o.size none).Fresh :=
  F.grow.link (fun i hi => Nat.lt_succ_of_lt (hp i hi).1) _ _

theorem push {index : Nat} (F : o.Fresh) (hlt : index < o.size) (events : List Event) :
    (o.push index events).Fresh := by
  intro k hk
  have hne : k ≠ index := Nat.ne_of_gt (Nat.lt_of_lt_of_le hlt hk)
  simpa [hne] using F k hk

theorem connectAll {ends : List (Nat × Option Branch)} (F : o.Fresh)
    (hlt : ∀ e ∈ ends, e.1 < o.size) (tail : Nat) : (o.connectAll ends tail).Fresh := by
  induction ends generalizing o with
  | nil => exact F
  | cons e ends ih =>
    have hconnect := F.connect (hlt e List.mem_cons_self) tail e.2
    exact ih hconnect fun e' he' => hlt e' (List.mem_cons_of_mem e he')

end Outline.Fresh

namespace Outline.Grows

variable {current middle result : Option Nat} {o o₁ o₂ : Outline}

theorem toPending (H : Grows current o result o₁) : o₁.Pending result :=
  fun j hj => ⟨(H.pending j hj).1, (H.pending j hj).2.2⟩

theorem refl (h : o.Pending current) : Grows current o current o :=
  ⟨Nat.le_refl _, id, fun _ _ _ => ⟨rfl, rfl⟩, fun _ _ => List.prefix_rfl,
    fun j hj => ⟨(h j hj).1, .inl hj, (h j hj).2⟩⟩

/-- The result is not one of the old nodes that are kept. -/
theorem result_ne (H : Grows current o result o₁) {k : Nat} (hk : k < o.size)
    (hne : current ≠ some k) : result ≠ some k := by
  intro hr
  rcases (H.pending k hr).2.1 with h | h
  · exact hne h
  · exact Nat.not_lt.mpr h hk

theorem trans (hp : o.Pending current) (H₁ : Grows current o middle o₁)
    (H₂ : Grows middle o₁ result o₂) : Grows current o result o₂ := by
  refine ⟨H₁.size_le.trans H₂.size_le, fun F => H₂.fresh (H₁.fresh F), fun k hk hne => ?_,
    fun i hi => ?_, fun j hj => ?_⟩
  · obtain ⟨he₁, hx₁⟩ := H₁.kept k hk hne
    obtain ⟨he₂, hx₂⟩ := H₂.kept k (Nat.lt_of_lt_of_le hk H₁.size_le) (H₁.result_ne hk hne)
    exact ⟨he₂.trans he₁, hx₂.trans hx₁⟩
  · refine (H₁.extended i hi).trans ?_
    by_cases hm : middle = some i
    · exact H₂.extended i hm
    · rw [(H₂.kept i (Nat.lt_of_lt_of_le (hp i hi).1 H₁.size_le) hm).1]
  · obtain ⟨hlt, hor, hx⟩ := H₂.pending j hj
    refine ⟨hlt, ?_, hx⟩
    rcases hor with hm | hle
    · exact (H₁.pending j hm).2.1
    · exact .inr (H₁.size_le.trans hle)

/-- Begins a new node that the current one leads to. -/
theorem begin (hp : o.Pending current) (hfresh : o.exits o.size = []) (outcome : Option Branch) :
    Grows current o (some o.size) (o.grow.link current o.size outcome) := by
  have hne := hp.ne_of_le o.size (Nat.le_refl _)
  refine ⟨by simp, fun F => ?_, fun k hk hne => by simp [hne], fun i hi => by simp, ?_⟩
  · exact F.grow.link (fun i hi => Nat.lt_succ_of_lt (hp i hi).1) _ _
  · rintro _ ⟨⟩
    simp [hne, hfresh]

variable {j : Nat}

theorem ne_result (H : Grows current o (some j) o₁) {k : Nat} (hk : k < o.size)
    (hne : current ≠ some k) : k ≠ j :=
  fun h => H.result_ne hk hne (h ▸ rfl)

theorem push (H : Grows current o (some j) o₁) (events : List Event) :
    Grows current o (some j) (o₁.push j events) := by
  refine ⟨H.size_le, fun F => (H.fresh F).push (H.pending j rfl).1 events, fun k hk hne => ?_,
    fun i hi => ?_, fun l hl => H.pending l hl⟩
  · simp [H.ne_result hk hne, H.kept k hk hne]
  · refine (H.extended i hi).trans ?_
    by_cases hij : i = j
    · simp [hij]
    · simp [hij]

/-- Connects the result, after which nothing is left to draw from. -/
theorem close (H : Grows current o (some j) o₁) (tail : Nat) (outcome : Option Branch) :
    Grows current o none (o₁.connect j tail outcome) := by
  refine ⟨H.size_le, fun F => (H.fresh F).connect (H.pending j rfl).1 tail outcome,
    fun k hk hne => ?_, fun i hi => H.extended i hi, nofun⟩
  simp [H.ne_result hk hne, H.kept k hk hne]

/-- A loop. Its own nodes are new, its body is drawn from one of them, and it ends in another. What
is drawn around the body changes only the current node and new ones, and leaves the one that the
loop ends in. -/
theorem loop {o' : Outline} {first after : Nat} (hp : o.Pending current)
    (B : Grows (some first) o₁ result o₂) (hfirst : o.size ≤ first) (hafter : o.size ≤ after)
    (hlt : after < o₁.size) (hne : after ≠ first) (hopened : o.Fresh → o₁.Fresh)
    (hbefore : ∀ k, k < o.size →
      o₁.events k = o.events k ∧ (current ≠ some k → o₁.exits k = o.exits k))
    (hnone : o₁.exits after = []) (hsize : o'.size = o₂.size) (hclosed : o₂.Fresh → o'.Fresh)
    (hclose : ∀ k, k < o.size ∨ k = after → result ≠ some k →
      o'.events k = o₂.events k ∧ o'.exits k = o₂.exits k) :
    Grows current o (some after) o' := by
  have hkept : ∀ k, k < o.size ∨ k = after →
      o'.events k = o₁.events k ∧ o'.exits k = o₁.exits k := by
    intro k hk
    have hk₁ : k < o₁.size := by omega
    have hk' : some first ≠ some k := by simp; omega
    obtain ⟨he, hx⟩ := hclose k hk (B.result_ne hk₁ hk')
    obtain ⟨he', hx'⟩ := B.kept k hk₁ hk'
    exact ⟨he.trans he', hx.trans hx'⟩
  have hle := B.size_le
  refine ⟨by omega, fun F => hclosed (B.fresh (hopened F)), fun k hk hne => ?_, fun i hi => ?_, ?_⟩
  · obtain ⟨he, hx⟩ := hkept k (.inl hk)
    exact ⟨he.trans (hbefore k hk).1, hx.trans ((hbefore k hk).2 hne)⟩
  · have hi := (hp i hi).1
    rw [(hkept i (.inl hi)).1, (hbefore i hi).1]
  · rintro _ ⟨⟩
    exact ⟨by omega, .inr hafter, (hkept after (.inr rfl)).2.trans hnone⟩

end Outline.Grows

/-! ## Drawing commands -/

/-- The events of a clause of a `for` loop that can be built. -/
def Clause.events : Clause → List Event
  | simple kind node => [.statement kind node]
  | unsupported _ => []

namespace Outline

theorem push_statement_eq (o : Outline) (index : Nat) (kind : StatementKind) (node : Node) :
    o.push index [.statement kind node] = o.extend 0 [] [⟨index, kind, node⟩] :=
  o.push_eq_extend index [(kind, node)]

theorem push_clause_eq (o : Outline) (index : Nat) (clause : Option Clause) :
    o.push index ((clause.map Clause.events).getD []) =
      o.extend 0 [] (clause.toList.flatMap (Clause.records index)) := by
  rcases clause with _ | ⟨kind, node⟩ | ⟨node⟩
  · exact o.push_eq_extend index []
  · exact o.push_statement_eq index kind node
  · exact o.push_eq_extend index []

theorem push_condition_eq (o : Outline) (index : Nat) (condition : Option Node) :
    o.push index (condition.toList.map (.statement .condition)) =
      o.extend 0 [] (condition.toList.map (⟨index, .condition, ·⟩)) := by
  cases condition with
  | none => exact o.push_eq_extend index []
  | some node => exact o.push_statement_eq index .condition node

end Outline

theorem Clause.ne_unsupported {clause : Option Clause} (h : clause.toList.flatMap offences = [])
    (node : Node) : clause ≠ some (unsupported node) := by
  rintro rfl
  cases h

namespace Condition

variable {kind : StatementKind} {current : Option Nat} {outcome : Option Branch} {holder : Nat}
  {o o' : Outline}

/-- The layout of a condition is drawn into an outline. -/
def Draws (c : Condition) (kind : StatementKind) (current : Option Nat) (outcome : Option Branch)
    (holder : Nat) (o o' : Outline) : Prop :=
  o' = o.extend (c.layout current outcome holder o.size).tags.length
    (c.layout current outcome holder o.size).edges (c.records kind current outcome holder o.size)

theorem Draws.plain {node : Node} (h : (plain node).Draws kind current outcome holder o o') :
    o' = (o.link current holder outcome).push holder [.statement kind node] := by
  rw [h, Outline.push_statement_eq, Outline.link_eq_extend, Outline.extend_extend]
  simp [layout, records]

theorem Draws.logical {node : Node} {operator : LogicalOperator} {left right : Condition}
    (h : (logical node operator left right).Draws kind current outcome holder o o') :
    ∃ o₁ o₂ o₃ o₄, o₁ = o.grow ∧ left.Draws .operand current outcome o.size o₁ o₂ ∧
      o₃ = (o₂.grow.connect o.size o₂.size (some operator.settling)).grow ∧
      right.Draws .operand (some o.size) (some operator.continuing) (o₂.size + 1) o₃ o₄ ∧
      o' = ((o₄.connect o₂.size holder none).connect (o₂.size + 1) holder none).push holder
        [.statement .shortCircuitResult node] := by
  refine ⟨_, _, _, _, rfl, rfl, rfl, rfl, ?_⟩
  rw [h]
  simp only [Outline.push_statement_eq, Outline.connect_eq_extend, Outline.grow_eq_extend,
    Outline.extend_extend, Outline.extend_size, layout, records, Nat.add_assoc, Nat.reduceAdd]
  congr 1
  · simp
    omega
  · simp
  · simp

end Condition

namespace Command

variable {targets : Option LoopTargets} {current r : Option Nat} {o o' : Outline}

/-- The layout of a command without offences is drawn into an outline. -/
structure Draws (c : Command) (targets : Option LoopTargets) (current : Option Nat) (o : Outline)
    (result : Option Nat) (o' : Outline) : Prop where
  offences : c.offences targets.isSome = []
  result : result = (c.layout targets current o.size).result
  outline : o' = o.extend (c.layout targets current o.size).tags.length
    (c.layout targets current o.size).edges (c.records targets current o.size)

/-- The same for an arm of a branch. -/
structure ArmDraws (arm : Option Command) (targets : Option LoopTargets) (id : UInt64) (head : Nat)
    (outcome : Branch) (o : Outline) (ends : List (Nat × Option Branch)) (o' : Outline) : Prop where
  offences : offencesArm targets.isSome arm = []
  result : ends = (layoutArm targets id head outcome o.size arm).result
  outline : o' = o.extend (layoutArm targets id head outcome o.size arm).tags.length
    (layoutArm targets id head outcome o.size arm).edges (recordsArm targets o.size arm)

/-- A statement goes into the current node, or into a new one if there is none. -/
def Places (current : Option Nat) (o : Outline) (index : Nat) (o' : Outline) : Prop :=
  current = some index ∧ o' = o ∨ current = none ∧ index = o.size ∧ o' = o.grow

theorem places_blockLayout (current : Option Nat) (o : Outline) (id : UInt64) :
    Places current o (blockLayout current o.size id).result
      (o.extend (blockLayout current o.size id).tags.length (blockLayout current o.size id).edges
        []) := by
  cases current with
  | none => exact .inr ⟨rfl, rfl, o.grow_eq_extend.symm⟩
  | some index => exact .inl ⟨rfl, o.extend_nil⟩

namespace Draws

theorem skip (h : Command.skip.Draws targets current o r o') : r = current ∧ o' = o :=
  ⟨h.result, h.outline.trans o.extend_nil⟩

theorem unsupported {node : Node} (h : (Command.unsupported node).Draws targets current o r o') :
    False := by
  cases h.offences

theorem seq {first second : Command} (h : (first.seq second).Draws targets current o r o') :
    ∃ middle o₁, first.Draws targets current o middle o₁ ∧ second.Draws targets middle o₁ r o' := by
  obtain ⟨h₁, h₂⟩ := List.append_eq_nil_iff.mp h.offences
  refine ⟨_, _, ⟨h₁, rfl, rfl⟩, h₂, h.result, ?_⟩
  rw [h.outline, Outline.extend_extend]
  simp only [layout, records, Outline.extend_size, List.length_append]

theorem simple {id : UInt64} {kind : StatementKind} {node : Node}
    (h : (Command.simple id kind node).Draws targets current o r o') :
    ∃ index o₁, Places current o index o₁ ∧ r = some index ∧
      o' = o₁.push index [.statement kind node] := by
  refine ⟨_, _, places_blockLayout current o id, h.result, ?_⟩
  rw [h.outline, Outline.push_statement_eq, Outline.extend_extend]
  simp only [layout, records, Nat.add_zero, List.append_nil, List.nil_append]

theorem «return» {node : Node} (h : (Command.return node).Draws targets current o r o') :
    r = none ∧
      o' = ((o.grow.link current o.size none).push o.size [.statement .return node]).connect
      o.size FlowGraph.exit none := by
  refine ⟨h.result, ?_⟩
  simp only [Outline.push_statement_eq, Outline.connect_eq_extend, Outline.grow_eq_extend,
    Outline.link_eq_extend, Outline.extend_extend]
  rw [h.outline]
  simp [layout, records]

theorem jump {way : Jump} {node : Node} (h : (Command.jump way node).Draws targets current o r o') :
    ∃ loop index o₁, targets = some loop ∧ Places current o index o₁ ∧ r = none ∧
      o' = (o₁.push index [.statement way.statement node]).connect index
        (loop.target way) none := by
  cases targets with
  | none => cases h.offences
  | some loop =>
    refine ⟨loop, _, _, rfl, places_blockLayout current o node.id, h.result, ?_⟩
    rw [h.outline, Outline.push_statement_eq, Outline.connect_eq_extend, Outline.extend_extend,
      Outline.extend_extend]
    simp only [layout, records, Nat.add_zero, List.append_nil, List.nil_append]

theorem whileLoop {id : UInt64} {condition : Node} {body : Command}
    (h : (Command.whileLoop id condition body).Draws targets current o r o') :
    ∃ s o₁ last o₂, s = o.size ∧ (o.Fresh → o.Pending current → o₁.Fresh) ∧
      o₁ = (((o.grow.link current s none).push s
        [.statement .condition condition]).grow.connect s (s + 1) (some .onTrue)).grow ∧
      body.Draws (some ⟨s, s + 2⟩) (some (s + 1)) o₁ last o₂ ∧
      o' = (o₂.link last s none).connect s (s + 2) (some .onFalse) ∧ r = some (s + 2) := by
  refine ⟨_, _, _, _, rfl, fun F hp => ?_, rfl, ⟨h.offences, rfl, rfl⟩, ?_, h.result⟩
  · have F₁ := (F.begin hp).push (show o.size < _ by simp) [.statement .condition condition]
    exact (F₁.grow.connect (by simp) _ _).grow
  rw [h.outline]
  simp only [Outline.push_statement_eq, Outline.connect_eq_extend, Outline.grow_eq_extend,
    Outline.link_eq_extend, Outline.extend_extend, Outline.extend_size, layout, records, loopLayout]
  congr 1
  · simp
    omega
  · simp
  · simp

theorem doWhileLoop {id : UInt64} {condition : Node} {body : Command}
    (h : (Command.doWhileLoop id condition body).Draws targets current o r o') :
    ∃ s o₁ last o₂, s = o.size ∧ (o.Fresh → o.Pending current → o₁.Fresh) ∧
      o₁ = (o.grow.link current s none).grow.grow ∧
      body.Draws (some ⟨s + 1, s + 2⟩) (some s) o₁ last o₂ ∧
      o' = (((o₂.link last (s + 1) none).push (s + 1) [.statement .condition condition]).connect
        (s + 1) s (some .onTrue)).connect (s + 1) (s + 2) (some .onFalse) ∧
      r = some (s + 2) := by
  refine ⟨_, _, _, _, rfl, fun F hp => (F.begin hp).grow.grow, rfl, ⟨h.offences, rfl, rfl⟩, ?_,
    h.result⟩
  rw [h.outline]
  simp only [Outline.push_statement_eq, Outline.connect_eq_extend, Outline.grow_eq_extend,
    Outline.link_eq_extend, Outline.extend_extend, Outline.extend_size, layout, records, loopLayout]
  congr 1
  · simp
    omega
  · simp
  · simp

theorem forLoop {id : UInt64} {initialization step : Option Clause} {condition : Option Node}
    {body : Command}
    (h : (Command.forLoop id initialization condition step body).Draws targets current o r o') :
    ∃ s o₁ last o₂, s = o.size ∧ (o.Fresh → o.Pending current → o₁.Fresh) ∧
      (∀ node, initialization ≠ some (.unsupported node)) ∧
      (∀ node, step ≠ some (.unsupported node)) ∧
      o₁ = ((((((o.grow.link current s none).push s
        ((initialization.map Clause.events).getD [])).grow.connect s (s + 1) none).push (s + 1)
          (condition.toList.map (.statement .condition))).grow.connect (s + 1) (s + 2)
            (condition.map fun _ => .onTrue)).grow.push (s + 3)
              ((step.map Clause.events).getD [])).grow ∧
      body.Draws (some ⟨s + 3, s + 4⟩) (some (s + 2)) o₁ last o₂ ∧
      o' = ((o₂.link last (s + 3) none).connect (s + 3) (s + 1) none).link
        (condition.map fun _ => s + 1) (s + 4) (some .onFalse) ∧
      r = some (s + 4) := by
  obtain ⟨hinit, hrest⟩ := List.append_eq_nil_iff.mp h.offences
  obtain ⟨hstep, hbody⟩ := List.append_eq_nil_iff.mp hrest
  refine ⟨_, _, _, _, rfl, fun F hp => ?_, Clause.ne_unsupported hinit, Clause.ne_unsupported hstep,
    rfl, ⟨hbody, rfl, rfl⟩, ?_, h.result⟩
  · have F₁ := (F.begin hp).push (show o.size < _ by simp)
      ((initialization.map Clause.events).getD [])
    have F₂ := (F₁.grow.connect (show o.size < _ by simp) (o.size + 1) none).push
      (show o.size + 1 < _ by simp) (condition.toList.map (.statement .condition))
    have F₃ := F₂.grow.connect (show o.size + 1 < _ by simp) (o.size + 2)
      (condition.map fun _ => .onTrue)
    exact (F₃.grow.push (by simp) _).grow
  rw [h.outline]
  simp only [Outline.push_clause_eq, Outline.push_condition_eq, Outline.connect_eq_extend,
    Outline.grow_eq_extend, Outline.link_eq_extend, Outline.extend_extend, Outline.extend_size,
    layout, records, loopLayout]
  congr 1
  · simp
    omega
  · simp
  · simp

end Draws

theorem ArmDraws.absent {id : UInt64} {head : Nat} {outcome : Branch}
    {ends : List (Nat × Option Branch)} (h : ArmDraws none targets id head outcome o ends o') :
    ends = [(head, some outcome)] ∧ o' = o :=
  ⟨h.result, h.outline.trans o.extend_nil⟩

theorem ArmDraws.present {id : UInt64} {head : Nat} {outcome : Branch} {arm : Command}
    {ends : List (Nat × Option Branch)}
    (h : ArmDraws (some arm) targets id head outcome o ends o') :
    ∃ o₁ last, o₁ = o.grow.connect head o.size (some outcome) ∧
      arm.Draws targets (some o.size) o₁ last o' ∧ ends = last.toList.map (·, none) := by
  refine ⟨_, _, rfl, ⟨h.offences, rfl, ?_⟩, h.result⟩
  rw [h.outline]
  simp only [Outline.connect_eq_extend, Outline.grow_eq_extend, Outline.extend_extend,
    Outline.extend_size, layoutArm, recordsArm]
  congr 1
  simp [Nat.add_comm]

theorem Draws.branch {id : UInt64} {condition : Condition} {onTrue onFalse : Option Command}
    (h : (branch id condition onTrue onFalse).Draws targets current o r o') :
    ∃ s o₀ o₁ o₂ o₃ trueEnds falseEnds, s = o.size ∧ o₀ = o.grow ∧
      condition.Draws .condition current none s o₀ o₁ ∧
      ArmDraws onTrue targets id s .onTrue o₁ trueEnds o₂ ∧
      ArmDraws onFalse targets id s .onFalse o₂ falseEnds o₃ ∧
      ((trueEnds ++ falseEnds = [] ∧ r = none ∧ o' = o₃) ∨
        (trueEnds ++ falseEnds ≠ [] ∧ r = some o₃.size ∧
          o' = o₃.grow.connectAll (trueEnds ++ falseEnds) o₃.size)) := by
  obtain ⟨htrue, hfalse⟩ := List.append_eq_nil_iff.mp h.offences
  refine ⟨_, _, _, _, _, _, _, rfl, rfl, rfl, ⟨htrue, rfl, rfl⟩, ⟨hfalse, rfl, rfl⟩, ?_⟩
  rw [h.outline, h.result]
  simp only [Outline.grow_eq_extend, Outline.connectAll_eq_extend, Outline.extend_extend,
    Outline.extend_size, layout, records, Nat.add_assoc]
  rw [meetingLayout]
  split
  · next hends =>
    refine .inl ⟨List.isEmpty_iff.mp hends, rfl, ?_⟩
    congr 1 <;> simp
    omega
  · next hends =>
    refine .inr ⟨mt List.isEmpty_iff.mpr hends, rfl, ?_⟩
    congr 1 <;> simp
    omega

end Command

/-! ## Growth -/

namespace Condition

/-- The node that the evaluation of a condition begins in, when it is built into `holder` and the
next new node is `size`. -/
def start : Condition → Nat → Nat → Nat
  | plain _, holder, _ => holder
  | logical _ _ left _, _, size => left.start size (size + 1)

/-- The last event of the evaluation of a condition, which is that of its holder. -/
def result (kind : StatementKind) : Condition → Event
  | plain node => .statement kind node
  | logical node .. => .statement .shortCircuitResult node

/-- What drawing a condition from `current` into `holder` changes. -/
structure Grows (c : Condition) (kind : StatementKind) (current : Option Nat)
    (outcome : Option Branch) (holder : Nat) (o o' : Outline) : Prop where
  size_le : o.size ≤ o'.size
  fresh : o.Fresh → o'.Fresh
  events_kept : ∀ k, k < o.size → k ≠ holder → o'.events k = o.events k
  exits_kept : ∀ k, k < o.size → current ≠ some k → o'.exits k = o.exits k
  held : o'.events holder = o.events holder ++ [c.result kind]
  entered : ∀ i, current = some i → o'.exits i = o.exits i ++ [(outcome, c.start holder o.size)]

theorem Draws.grows {c : Condition} : ∀ {kind current outcome holder o o'},
    c.Draws kind current outcome holder o o' → (∀ i, current = some i → i < o.size) →
      holder < o.size → c.Grows kind current outcome holder o o' := by
  induction c with
  | plain node =>
    intro kind current outcome holder o o' h hcurrent hholder
    rw [h.plain]
    refine ⟨by simp, fun F => ?_, fun k _ hk => ?_, fun k _ hk => ?_, ?_, fun i hi => ?_⟩
    · exact (F.link hcurrent _ _).push (by simpa using hholder) _
    · simp [hk]
    · simp [hk]
    · simp [result]
    · simp [hi, start]
  | logical node operator left right ihl ihr =>
    intro kind current outcome holder o o' h hcurrent hholder
    obtain ⟨o₁, o₂, o₃, o₄, h₁, hleft, h₃, hright, h'⟩ := h.logical
    have L := ihl hleft (fun i hi => by have := hcurrent i hi; simp [h₁]; omega) (by simp [h₁])
    have hsize := L.size_le
    simp only [h₁, Outline.grow_size] at hsize
    have R := ihr hright (fun i hi => by cases hi; simp [h₃]; omega) (by simp [h₃])
    have hsize' := R.size_le
    simp only [h₃, Outline.grow_size, Outline.connect_size] at hsize'
    -- the right operand is evaluated from new nodes only
    have hevents : ∀ k, k < o.size → o₄.events k = o.events k := by
      intro k hk
      rw [R.events_kept k (by simp [h₃]; omega) (by omega), h₃, Outline.grow_events,
        Outline.connect_events, Outline.grow_events,
        L.events_kept k (by simp [h₁]; omega) (by omega), h₁, Outline.grow_events]
    have hexits : ∀ k, k < o.size → o₄.exits k = o₂.exits k := by
      intro k hk
      rw [R.exits_kept k (by simp [h₃]; omega) (by simp; omega), h₃]
      simp [show k ≠ o.size by omega]
    refine ⟨by simp [h']; omega, fun F => ?_, fun k hk hne => ?_, fun k hk hne => ?_, ?_,
      fun i hi => ?_⟩
    · have F₂ := L.fresh (h₁ ▸ F.grow)
      have F₄ := R.fresh (h₃ ▸ (F₂.grow.connect (Nat.lt_succ_of_lt hsize) _ _).grow)
      have F₅ := (F₄.connect (show o₂.size < _ by omega) holder none).connect
        hsize' holder none
      rw [h']
      exact F₅.push (by simp; omega) _
    · simp [h', hne, hevents k hk]
    · have := L.exits_kept k (by simp [h₁]; omega) hne
      simp [h', show k ≠ o₂.size by omega, show k ≠ o₂.size + 1 by omega, hexits k hk, this, h₁]
    · simp [h', hevents holder hholder, result]
    · have hlt := hcurrent i hi
      have := L.entered i hi
      simp [h', show i ≠ o₂.size by omega, show i ≠ o₂.size + 1 by omega, hexits i hlt,
        this, h₁, start]

end Condition

namespace Outline

variable {o : Outline} {ends : List (Nat × Option Branch)} {tail k : Nat}

@[simp] theorem connectAll_size : (o.connectAll ends tail).size = o.size := by
  induction ends generalizing o with
  | nil => rfl
  | cons e ends ih => exact ih

@[simp] theorem connectAll_events : (o.connectAll ends tail).events = o.events := by
  induction ends generalizing o with
  | nil => rfl
  | cons e ends ih => exact ih

theorem connectAll_exits : (o.connectAll ends tail).exits k =
    o.exits k ++ (ends.filter (·.1 = k)).map fun e => (e.2, tail) := by
  induction ends generalizing o with
  | nil => simp [connectAll]
  | cons e ends ih =>
    refine ih.trans ?_
    by_cases hk : e.1 = k
    · simp [hk]
    · simp [hk, Ne.symm hk]

/-- A node that is not connected keeps its ways out. -/
theorem connectAll_exits_of_forall_ne (h : ∀ e ∈ ends, e.1 ≠ k) :
    (o.connectAll ends tail).exits k = o.exits k := by
  rw [connectAll_exits, List.filter_eq_nil_iff.mpr (by simpa using h)]
  simp

end Outline

/-- What drawing an arm of a branch at `head` changes, with the edges that lead out of it. -/
structure Outline.ArmGrows (head : Nat) (o : Outline) (ends : List (Nat × Option Branch))
    (o' : Outline) : Prop where
  size_le : o.size ≤ o'.size
  fresh : o.Fresh → o'.Fresh
  kept : ∀ k, k < o.size → k ≠ head → o'.events k = o.events k ∧ o'.exits k = o.exits k
  events_head : o'.events head = o.events head
  ends_mem : ∀ e ∈ ends, e.1 = head ∨ o.size ≤ e.1 ∧ e.1 < o'.size ∧ o'.exits e.1 = []

namespace Outline.Grows

variable {current : Option Nat} {o o₁ o₂ o₃ : Outline} {condition : Condition}
  {kind : StatementKind}
  {outcome : Option Branch} {trueEnds falseEnds : List (Nat × Option Branch)}

/-- Drawing a condition into a new node, and then arms that begin there, changes no old node but the
current one, which it connects. -/
theorem kept_of_arms {k : Nat} (C : condition.Grows kind current outcome o.size o.grow o₁)
    (T : ArmGrows o.size o₁ trueEnds o₂) (F : ArmGrows o.size o₂ falseEnds o₃) (hk : k < o.size) :
    o₃.events k = o.events k ∧ (current ≠ some k → o₃.exits k = o.exits k) := by
  have hs₀ : k < o.grow.size := Nat.lt_succ_of_lt hk
  have hs₁ := Nat.lt_of_lt_of_le hs₀ C.size_le
  have hs₂ := Nat.lt_of_lt_of_le hs₁ T.size_le
  have hne := Nat.ne_of_lt hk
  constructor
  · rw [(F.kept k hs₂ hne).1, (T.kept k hs₁ hne).1, C.events_kept k hs₀ hne, grow_events]
  · intro hcurrent
    rw [(F.kept k hs₂ hne).2, (T.kept k hs₁ hne).2, C.exits_kept k hs₀ hcurrent, grow_exits]

/-- Arms end in new nodes. -/
theorem lt_of_mem_ends {e : Nat × Option Branch}
    (C : condition.Grows kind current outcome o.size o.grow o₁) (T : ArmGrows o.size o₁ trueEnds o₂)
    (F : ArmGrows o.size o₂ falseEnds o₃) (he : e ∈ trueEnds ++ falseEnds) :
    o.size ≤ e.1 ∧ e.1 < o₃.size := by
  have hs₁ : o.size + 1 ≤ o₁.size := C.size_le
  have hs₂ := T.size_le
  have hs₃ := F.size_le
  rcases List.mem_append.mp he with he | he
  · rcases T.ends_mem e he with h | h <;> omega
  · rcases F.ends_mem e he with h | h <;> omega

theorem size_le_of_arms (C : condition.Grows kind current outcome o.size o.grow o₁)
    (T : ArmGrows o.size o₁ trueEnds o₂) (F : ArmGrows o.size o₂ falseEnds o₃) : o.size ≤ o₃.size :=
  (Nat.le_of_succ_le C.size_le).trans (T.size_le.trans F.size_le)

/-- A branch that neither arm leads out of. -/
theorem branch_closed (hp : o.Pending current)
    (C : condition.Grows kind current outcome o.size o.grow o₁) (T : ArmGrows o.size o₁ trueEnds o₂)
    (F : ArmGrows o.size o₂ falseEnds o₃) : Grows current o none o₃ := by
  refine ⟨size_le_of_arms C T F, fun h => F.fresh (T.fresh (C.fresh h.grow)), fun k hk hne => ?_,
    fun i hi => ?_, nofun⟩
  · obtain ⟨he, hx⟩ := kept_of_arms C T F hk
    exact ⟨he, hx hne⟩
  · rw [(kept_of_arms C T F (hp i hi).1).1]

/-- A branch whose arms meet in a new node. -/
theorem branch_met (hp : o.Pending current)
    (C : condition.Grows kind current outcome o.size o.grow o₁) (T : ArmGrows o.size o₁ trueEnds o₂)
    (F : ArmGrows o.size o₂ falseEnds o₃) (hfresh : o₃.exits o₃.size = []) :
    Grows current o (some o₃.size) (o₃.grow.connectAll (trueEnds ++ falseEnds) o₃.size) := by
  have hexits : ∀ k, k < o.size ∨ k = o₃.size →
      (o₃.grow.connectAll (trueEnds ++ falseEnds) o₃.size).exits k = o₃.exits k := by
    intro k hk
    apply connectAll_exits_of_forall_ne
    intro e he
    have := lt_of_mem_ends C T F he
    omega
  have hle := size_le_of_arms C T F
  refine ⟨?_, fun h => ?_, fun k hk hne => ?_, fun i hi => ?_, ?_⟩
  · rw [connectAll_size]
    exact Nat.le_succ_of_le hle
  · refine (F.fresh (T.fresh (C.fresh h.grow))).grow.connectAll (fun e he => ?_) _
    exact Nat.lt_succ_of_lt (lt_of_mem_ends C T F he).2
  · obtain ⟨he, hx⟩ := kept_of_arms C T F hk
    rw [connectAll_events, hexits k (.inl hk)]
    exact ⟨he, hx hne⟩
  · rw [connectAll_events, grow_events, (kept_of_arms C T F (hp i hi).1).1]
  · rintro _ ⟨⟩
    rw [connectAll_size, hexits _ (.inr rfl)]
    exact ⟨Nat.lt_succ_self _, .inr hle, hfresh⟩

end Outline.Grows

namespace Command

/-- Only the node that tests a condition, if there is one, is left by the outcome of the test. -/
theorem testing_ne (condition : Option Node) {test k : Nat} (h : k ≠ test) :
    (condition.map fun _ => test) ≠ some k := by
  cases condition with
  | none => nofun
  | some node => simpa using h.symm

variable {targets : Option LoopTargets} {current r : Option Nat} {o o' : Outline}

theorem Places.grows {index : Nat} (F : o.Fresh) (hp : o.Pending current)
    (h : Places current o index o') : Outline.Grows current o (some index) o' := by
  rcases h with ⟨rfl, rfl⟩ | ⟨rfl, rfl, rfl⟩
  · exact .refl hp
  · exact .begin hp (F _ (Nat.le_refl _)).2 none

/-- What drawing a command changes, wherever nothing leaves the node that it is drawn from. -/
def DrawingGrows (c : Command) : Prop :=
  ∀ ⦃targets current o r o'⦄, c.Draws targets current o r o' → o.Fresh → o.Pending current →
    Outline.Grows current o r o'

/-- The same for an arm of a branch. -/
def ArmDrawingGrows (arm : Option Command) : Prop :=
  ∀ ⦃targets id head outcome o ends o'⦄, ArmDraws arm targets id head outcome o ends o' → o.Fresh →
    head < o.size → Outline.ArmGrows head o ends o'

section

variable {first second body : Command} {onTrue onFalse : Option Command}

theorem DrawingGrows.seq (hfirst : first.DrawingGrows) (hsecond : second.DrawingGrows) :
    (first.seq second).DrawingGrows := by
  intro targets current o r o' h F hp
  obtain ⟨middle, o₁, h₁, h₂⟩ := h.seq
  have G₁ := hfirst h₁ F hp
  exact G₁.trans hp (hsecond h₂ (G₁.fresh F) G₁.toPending)

theorem drawingGrows_simple (id : UInt64) (kind : StatementKind) (node : Node) :
    (simple id kind node).DrawingGrows := by
  intro targets current o r o' h F hp
  obtain ⟨index, o₁, hplaces, rfl, rfl⟩ := h.simple
  exact (hplaces.grows F hp).push _

theorem drawingGrows_return (node : Node) : (Command.return node).DrawingGrows := by
  intro targets current o r o' h F hp
  obtain ⟨rfl, rfl⟩ := h.return
  exact ((Outline.Grows.begin hp (F _ (Nat.le_refl _)).2 none).push _).close _ _

theorem drawingGrows_jump (way : Jump) (node : Node) : (jump way node).DrawingGrows := by
  intro targets current o r o' h F hp
  obtain ⟨loop, index, o₁, rfl, hplaces, rfl, rfl⟩ := h.jump
  exact ((hplaces.grows F hp).push _).close _ _

theorem DrawingGrows.whileLoop (hbody : body.DrawingGrows) (id : UInt64) (condition : Node) :
    (whileLoop id condition body).DrawingGrows := by
  intro targets current o r o' h F hp
  obtain ⟨s, o₁, last, o₂, hs, hopened, h₁, hdraws, h', rfl⟩ := h.whileLoop
  have hfresh : ∀ k, s ≤ k → o.exits k = [] := fun k hk => (F k (hs ▸ hk)).2
  have hcur : ∀ k, s ≤ k → current ≠ some k := fun k hk => hp.ne_of_le k (hs ▸ hk)
  have hs₁ : o₁.size = s + 3 := by simp [h₁, hs]
  have B := hbody hdraws (hopened F hp) (by
    rintro i ⟨⟩
    simp [h₁, hfresh, hcur, ← hs])
  have hs₂ := B.size_le
  refine .loop hp B (by omega) (by omega) (by omega) (by omega) (hopened · hp)
    (fun k hk => ?_) ?_ ?_ ?_
    fun k hk hl => ?_
  · simp +contextual [h₁, show k ≠ s by omega]
  · simp [h₁, hfresh, hcur]
  · simp [h']
  · intro F₂
    rw [h']
    exact (F₂.link (fun i hi => (B.pending i hi).1) _ _).connect (by simp; omega) _ _
  · simp [h', hl, show k ≠ s by omega]

theorem DrawingGrows.doWhileLoop (hbody : body.DrawingGrows) (id : UInt64) (condition : Node) :
    (doWhileLoop id condition body).DrawingGrows := by
  intro targets current o r o' h F hp
  obtain ⟨s, o₁, last, o₂, hs, hopened, h₁, hdraws, h', rfl⟩ := h.doWhileLoop
  have hfresh : ∀ k, s ≤ k → o.exits k = [] := fun k hk => (F k (hs ▸ hk)).2
  have hcur : ∀ k, s ≤ k → current ≠ some k := fun k hk => hp.ne_of_le k (hs ▸ hk)
  have hs₁ : o₁.size = s + 3 := by simp [h₁, hs]
  have B := hbody hdraws (hopened F hp) (by
    rintro i ⟨⟩
    refine ⟨by omega, ?_⟩
    simp [h₁, hfresh, hcur])
  have hs₂ := B.size_le
  refine .loop hp B (by omega) (by omega) (by omega) (by omega) (hopened · hp)
    (fun k hk => ?_) ?_ ?_ ?_
    fun k hk hl => ?_
  · simp +contextual [h₁]
  · simp [h₁, hfresh, hcur]
  · simp [h']
  · intro F₂
    have F₃ := (F₂.link (fun i hi => (B.pending i hi).1) (s + 1) none).push
      (show s + 1 < _ by simp; omega) [.statement .condition condition]
    rw [h']
    exact (F₃.connect (by simp; omega) _ _).connect (by simp; omega) _ _
  · simp [h', hl, show k ≠ s + 1 by omega]

theorem DrawingGrows.forLoop (hbody : body.DrawingGrows) (id : UInt64)
    (initialization : Option Clause) (condition : Option Node) (step : Option Clause) :
    (forLoop id initialization condition step body).DrawingGrows := by
  intro targets current o r o' h F hp
  obtain ⟨s, o₁, last, o₂, hs, hopened, -, -, h₁, hdraws, h', rfl⟩ := h.forLoop
  have hfresh : ∀ k, s ≤ k → o.exits k = [] := fun k hk => (F k (hs ▸ hk)).2
  have hcur : ∀ k, s ≤ k → current ≠ some k := fun k hk => hp.ne_of_le k (hs ▸ hk)
  have hs₁ : o₁.size = s + 5 := by simp [h₁, hs]
  have B := hbody hdraws (hopened F hp) (by
    rintro i ⟨⟩
    simp [h₁, hfresh, hcur, ← hs])
  have hs₂ := B.size_le
  refine .loop hp B (by omega) (by omega) (by omega) (by omega) (hopened · hp)
    (fun k hk => ?_) ?_ ?_ ?_
    fun k hk hl => ?_
  · simp +contextual [h₁, show k ≠ s by omega, show k ≠ s + 1 by omega, show k ≠ s + 3 by omega]
  · simp [h₁, hfresh, hcur]
  · simp [h']
  · intro F₂
    have F₃ := (F₂.link (fun i hi => (B.pending i hi).1) (s + 3) none).connect
      (show s + 3 < _ by simp; omega) (s + 1) none
    rw [h']
    refine F₃.link (fun i hi => ?_) _ _
    obtain ⟨node, -, rfl⟩ := Option.map_eq_some_iff.mp hi
    simp
    omega
  · simp [h', hl, testing_ne condition (show k ≠ s + 1 by omega), show k ≠ s + 3 by omega]

theorem DrawingGrows.arm (harm : first.DrawingGrows) : ArmDrawingGrows (some first) := by
  intro targets id head outcome o ends o' h F hhead
  obtain ⟨o₁, last, h₁, hdraws, rfl⟩ := h.present
  have hopened : o₁.Fresh := h₁ ▸ F.grow.connect (Nat.lt_succ_of_lt hhead) _ _
  have A := harm hdraws hopened (by
    rintro i ⟨⟩
    simp [h₁, show o.size ≠ head by omega, (F _ (Nat.le_refl _)).2])
  have hsize := A.size_le
  simp only [h₁, Outline.connect_size, Outline.grow_size] at hsize
  refine ⟨by omega, fun _ => A.fresh hopened, fun k hk hne => ?_, ?_, fun e he => ?_⟩
  · have := A.kept k (by simp [h₁]; omega) (by simp; omega)
    simp [this, h₁, hne]
  · rw [(A.kept head (by simp [h₁]; omega) (by simp; omega)).1, h₁]
    simp
  · obtain ⟨j, hj, rfl⟩ := List.mem_map.mp he
    obtain ⟨hlt, hor, hexits⟩ := A.pending j (Option.mem_toList.mp hj)
    simp only [h₁, Outline.connect_size, Outline.grow_size, Option.some.injEq] at hor
    exact .inr ⟨by omega, hlt, hexits⟩

theorem drawingGrows_branch (ht : ArmDrawingGrows onTrue) (hf : ArmDrawingGrows onFalse)
    (id : UInt64) (condition : Condition) :
    (branch id condition onTrue onFalse).DrawingGrows := by
  intro targets current o r o' h F hp
  obtain ⟨_, o₀, o₁, o₂, o₃, trueEnds, falseEnds, rfl, rfl, hcond, htrue, hfalse, h'⟩ := h.branch
  have C := hcond.grows (fun i hi => Nat.lt_succ_of_lt (hp i hi).1) (Nat.lt_succ_self _)
  have hs₁ : o.size < o₁.size := C.size_le
  have F₁ := C.fresh F.grow
  have T := ht htrue F₁ hs₁
  have F₂ := T.fresh F₁
  have hs₂ := T.size_le
  have E := hf hfalse F₂ (by omega)
  rcases h' with ⟨-, rfl, rfl⟩ | ⟨-, rfl, rfl⟩
  · exact .branch_closed hp C T E
  · exact .branch_met hp C T E (E.fresh F₂ _ (Nat.le_refl _)).2

end

mutual

theorem drawingGrows : ∀ c : Command, c.DrawingGrows
  | skip => by
    intro targets current o r o' h F hp
    obtain ⟨rfl, rfl⟩ := h.skip
    exact .refl hp
  | seq first second => first.drawingGrows.seq second.drawingGrows
  | simple id kind node => drawingGrows_simple id kind node
  | branch id condition onTrue onFalse =>
    drawingGrows_branch (armDrawingGrows onTrue) (armDrawingGrows onFalse) id condition
  | whileLoop id condition body => body.drawingGrows.whileLoop id condition
  | doWhileLoop id condition body => body.drawingGrows.doWhileLoop id condition
  | forLoop id initialization condition step body =>
    body.drawingGrows.forLoop id initialization condition step
  | .return node => drawingGrows_return node
  | jump way node => drawingGrows_jump way node
  | unsupported _ => fun _ _ _ _ _ h => h.unsupported.elim

theorem armDrawingGrows : ∀ arm : Option Command, ArmDrawingGrows arm
  | none => by
    intro targets id head outcome o ends o' h F hhead
    obtain ⟨rfl, rfl⟩ := h.absent
    exact ⟨Nat.le_refl _, fun F => F, fun _ _ _ => ⟨rfl, rfl⟩, rfl, by simp⟩
  | some arm => arm.drawingGrows.arm

end

end Command

end ContractFlow
