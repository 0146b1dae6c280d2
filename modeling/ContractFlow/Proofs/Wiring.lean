import ContractFlow.Proofs.Layout

/-!
The edges of layouts. Seen from outside, what a command is built as leads on as a single edge would,
from what control came from (`Outgoing.outside`). So a single edge can stand for each part of a
construct when the edges of its own nodes are counted, and the part is put in its place afterwards
(`Outgoing.replace`). Edges enter the nodes of the same construct, the exit or the targets of the
innermost loop only (`Incoming.tails`). `Wired` puts the two together, with one lemma for each kind
of command.
-/

namespace ContractFlow

open Build

/-! ## The edges of a node -/

/-- The outcomes and the ends of the edges that leave a node. -/
def exitsOf (edges : List FlowEdge) (k : Nat) : Multiset (Option Branch × Nat) :=
  ((edges.filter (·.head = k)).map fun e => (e.label, e.tail) : List _)

/-- The outcomes and the starts of the edges that enter a node. -/
def entrancesOf (edges : List FlowEdge) (k : Nat) : Multiset (Option Branch × Nat) :=
  ((edges.filter (·.tail = k)).map fun e => (e.label, e.head) : List _)

section Edges

variable {edges edges' : List FlowEdge} {e : FlowEdge} {k : Nat}

@[simp] theorem exitsOf_nil : exitsOf [] k = 0 := rfl

@[simp] theorem exitsOf_cons : exitsOf (e :: edges) k =
    (if e.head = k then {(e.label, e.tail)} else 0) + exitsOf edges k := by
  by_cases h : e.head = k <;> simp [exitsOf, h, ← Multiset.cons_coe]

@[simp] theorem exitsOf_append :
    exitsOf (edges ++ edges') k = exitsOf edges k + exitsOf edges' k := by
  simp [exitsOf]

@[simp] theorem exitsOf_linkEdges {current : Option Nat} {tail : Nat} {outcome : Option Branch} :
    exitsOf (linkEdges current tail outcome) k =
      if current = some k then {(outcome, tail)} else 0 := by
  cases current with
  | none => rfl
  | some head => simp [linkEdges]

@[simp] theorem entrancesOf_nil : entrancesOf [] k = 0 := rfl

@[simp] theorem entrancesOf_cons : entrancesOf (e :: edges) k =
    (if e.tail = k then {(e.label, e.head)} else 0) + entrancesOf edges k := by
  by_cases h : e.tail = k <;> simp [entrancesOf, h, ← Multiset.cons_coe]

@[simp] theorem entrancesOf_append :
    entrancesOf (edges ++ edges') k = entrancesOf edges k + entrancesOf edges' k := by
  simp [entrancesOf]

theorem entrancesOf_eq_zero (h : ∀ e ∈ edges, e.tail ≠ k) : entrancesOf edges k = 0 := by
  have hnil : edges.filter (·.tail = k) = [] := by simpa [List.filter_eq_nil_iff] using h
  rw [entrancesOf, hnil]
  rfl

end Edges

/-! ## Shapes -/

/-- A single edge, which is always taken. -/
def FallsThrough (exits : Multiset (Option Branch × Nat)) : Prop :=
  ∃ j, exits = {(none, j)}

/-- One edge for each outcome. -/
def Forks (exits : Multiset (Option Branch × Nat)) : Prop :=
  ∃ j k, exits = {(some .onTrue, j), (some .onFalse, k)}

section Shapes

variable (placed : Tag → Nat → Prop) (loops : UInt64 → Bool → Prop)

/-- The edges that leave a node of a complete graph, where `placed` says which nodes there are and
`loops` which loops have a condition. -/
def Finished (t : Tag) (exits : Multiset (Option Branch × Nat)) : Prop :=
  match t.role with
  | .functionEntry | .functionExit => False
  | .branchCondition | .shortCircuitLeft => Forks exits
  | .convergence => FallsThrough exits ∨ Forks exits
  | .loopCondition => ∃ first, placed ⟨t.owner, .loopBody⟩ first ∧
    (loops t.owner false ∧ exits = {(none, first)} ∨
      loops t.owner true ∧ ∃ after, placed ⟨t.owner, .afterLoop⟩ after ∧
        exits = {(some .onTrue, first), (some .onFalse, after)})
  | _ => FallsThrough exits

/-- The edges that enter a node: none a block, and the one from its condition an arm of a branch. -/
def Entered (t : Tag) (entrances : Multiset (Option Branch × Nat)) : Prop :=
  match t.role with
  | .basicBlock => entrances = 0
  | .branchTrue =>
    ∃ head, placed ⟨t.owner, .branchCondition⟩ head ∧ entrances = {(some .onTrue, head)}
  | .branchFalse =>
    ∃ head, placed ⟨t.owner, .branchCondition⟩ head ∧ entrances = {(some .onFalse, head)}
  | _ => True

/-- The edges that leave the nodes of a layout. From outside, they look like one edge from
`current`. -/
structure Outgoing (base : Nat) (tags : List Tag) (edges : List FlowEdge) (current : Option Nat)
    (outcome : Option Branch) : Prop where
  outside : ∃ j, ∀ k, k < base ∨ base + tags.length ≤ k →
    exitsOf edges k = if current = some k then {(outcome, j)} else 0
  inside : ∀ t k, (t, k) ∈ tags.zipIdx base → Finished placed loops t (exitsOf edges k)

/-- The edges that enter the nodes of a layout, and the other nodes that they enter. -/
structure Incoming (base : Nat) (tags : List Tag) (edges : List FlowEdge) (sinks : Nat → Prop) :
    Prop where
  tails : ∀ e ∈ edges, base ≤ e.tail ∧ e.tail < base + tags.length ∨ sinks e.tail
  inside : ∀ t k, (t, k) ∈ tags.zipIdx base → Entered placed t (entrancesOf edges k)

end Shapes

variable {placed : Tag → Nat → Prop} {loops : UInt64 → Bool → Prop}

theorem Finished.role_ne {t : Tag} {exits : Multiset (Option Branch × Nat)}
    (h : Finished placed loops t exits) : t.role ≠ .functionEntry ∧ t.role ≠ .functionExit := by
  constructor <;> (intro hrole; rw [Finished, hrole] at h; exact h)

theorem Incoming.entrances_eq_zero {base k : Nat} {tags : List Tag} {edges : List FlowEdge}
    {sinks : Nat → Prop} (I : Incoming placed base tags edges sinks)
    (hk : k < base ∨ base + tags.length ≤ k) (hsink : ¬sinks k) : entrancesOf edges k = 0 := by
  refine entrancesOf_eq_zero fun e he h => ?_
  subst h
  rcases I.tails e he with h | h
  · omega
  · exact hsink h

theorem ne_some_of_le {current : Option Nat} {base : Nat}
    (hcurrent : ∀ i, current = some i → i < base) (k : Nat) (hk : base ≤ k) : ¬current = some k :=
  fun h => Nat.not_lt.mpr hk (hcurrent k h)

section Composition

variable {base base' : Nat} {tags tags' : List Tag} {edges edges' : List FlowEdge}
  {current head : Option Nat}
  {outcome outcome' : Option Branch} {sinks sinks' : Nat → Prop}

theorem Outgoing.congr (O : Outgoing placed loops base tags edges current outcome)
    (h : ∀ k, exitsOf edges' k = exitsOf edges k) :
    Outgoing placed loops base tags edges' current outcome := by
  obtain ⟨j, houtside⟩ := O.outside
  refine ⟨⟨j, fun k hk => (h k).trans (houtside k hk)⟩, fun t k hk => ?_⟩
  rw [h]
  exact O.inside t k hk

/-- A layout takes the place of a single edge. -/
theorem Outgoing.replace (hcurrent : ∀ i, current = some i → i < base)
    (hbase : base + tags.length = base')
    (outer : ∀ i, Outgoing placed loops base tags
      (edges ++ linkEdges head i outcome') current outcome)
    (inner : Outgoing placed loops base' tags' edges' head outcome') :
    Outgoing placed loops base (tags ++ tags') (edges ++ edges') current outcome := by
  subst hbase
  obtain ⟨i, hinner⟩ := inner.outside
  obtain ⟨j, houter⟩ := (outer i).outside
  have hedge : ∀ k, k < base + tags.length ∨ base + tags.length + tags'.length ≤ k →
      exitsOf (edges ++ edges') k = exitsOf (edges ++ linkEdges head i outcome') k := by
    intro k hk
    rw [exitsOf_append, hinner k hk, exitsOf_append, exitsOf_linkEdges]
  refine ⟨⟨j, fun k hk => ?_⟩, fun t k hk => ?_⟩
  · rw [List.length_append] at hk
    rw [hedge k (by omega), houter k (by omega)]
  · rw [List.zipIdx_append, List.mem_append] at hk
    rcases hk with hk | hk
    · rw [hedge k (.inl (List.mem_zipIdx hk).2.1)]
      exact (outer i).inside t k hk
    · -- no other edge leaves the nodes inside
      obtain ⟨hle, -⟩ := List.mem_zipIdx hk
      have hnone := houter k (.inr hle)
      rw [if_neg (ne_some_of_le hcurrent k (by omega)), exitsOf_append] at hnone
      rw [exitsOf_append, (add_eq_zero.mp hnone).1, zero_add]
      exact inner.inside t k hk

/-- A layout that is not led to stands beside another one. -/
theorem Outgoing.append (hcurrent : ∀ i, current = some i → i < base)
    (hbase : base + tags.length = base') (O : Outgoing placed loops base tags edges current outcome)
    (O' : Outgoing placed loops base' tags' edges' none outcome') :
    Outgoing placed loops base (tags ++ tags') (edges ++ edges') current outcome :=
  .replace hcurrent hbase (fun i => O.congr fun k => by simp) O'

theorem Incoming.append (hsinks : ∀ k, sinks k → k < base) (hbase : base + tags.length = base')
    (I : Incoming placed base tags edges sinks) (I' : Incoming placed base' tags' edges' sinks) :
    Incoming placed base (tags ++ tags') (edges ++ edges') sinks := by
  subst hbase
  have hfresh : ∀ k, base ≤ k → ¬sinks k := fun k hk h => Nat.not_lt.mpr hk (hsinks k h)
  refine ⟨fun e he => ?_, fun t k hk => ?_⟩
  · rw [List.length_append]
    rcases List.mem_append.mp he with he | he
    · exact (I.tails e he).imp_left fun h => by omega
    · exact (I'.tails e he).imp_left fun h => by omega
  · rw [entrancesOf_append]
    rw [List.zipIdx_append, List.mem_append] at hk
    rcases hk with hk | hk
    · obtain ⟨hle, hlt, -⟩ := List.mem_zipIdx hk
      rw [I'.entrances_eq_zero (.inl hlt) (hfresh k hle), add_zero]
      exact I.inside t k hk
    · obtain ⟨hle, hlt, -⟩ := List.mem_zipIdx hk
      rw [I.entrances_eq_zero (.inr hle) (hfresh k (by omega)), zero_add]
      exact I'.inside t k hk

/-- A layout inside of a construct with nodes that any edges may enter. -/
theorem Incoming.inner {own : List Tag} {entering leaving : List FlowEdge}
    (hentered : ∀ t ∈ own, ∀ entrances, Entered placed t entrances)
    (htails : ∀ e ∈ entering ++ leaving, base ≤ e.tail ∧ e.tail < base + own.length)
    (hsinks : ∀ k, sinks k → base ≤ k ∧ k < base + own.length ∨ sinks' k)
    (I : Incoming placed (base + own.length) tags edges sinks) :
    Incoming placed base (own ++ tags) (entering ++ (edges ++ leaving)) sinks' := by
  obtain ⟨hentering, hleaving⟩ := List.forall_mem_append.mp htails
  refine ⟨fun e he => ?_, fun t k hk => ?_⟩
  · rw [List.length_append]
    rcases List.mem_append.mp he with he | he
    · have := hentering e he
      omega
    rcases List.mem_append.mp he with he | he
    · rcases I.tails e he with h | h
      · omega
      · exact (hsinks _ h).imp_left fun h => by omega
    · have := hleaving e he
      omega
  · rw [List.zipIdx_append, List.mem_append] at hk
    rcases hk with hk | hk
    · exact hentered t (List.fst_mem_of_mem_zipIdx hk) _
    · obtain ⟨hle, -⟩ := List.mem_zipIdx hk
      have hother : ∀ l : List FlowEdge, (∀ e ∈ l, base ≤ e.tail ∧ e.tail < base + own.length) →
          entrancesOf l k = 0 :=
        fun l hl => entrancesOf_eq_zero fun e he h => by have := hl e he; omega
      rw [entrancesOf_append, entrancesOf_append, hother entering hentering,
        hother leaving hleaving, zero_add, add_zero]
      exact I.inside t k hk

end Composition

/-! ## Conditions -/

namespace Condition

theorem forks_operator (operator : LogicalOperator) (i j : Nat) :
    Forks {(some operator.settling, i), (some operator.continuing, j)} := by
  cases operator with
  | and => exact ⟨j, i, Multiset.pair_comm _ _⟩
  | or => exact ⟨i, j, rfl⟩

/-- A node that holds an operand is left by the outcomes of the operand, or passed on. -/
theorem finished_operandTag {parent : Node} {c : Condition}
    {exits : Multiset (Option Branch × Nat)} :
    (Forks exits → Finished placed loops (c.operandTag parent .shortCircuitLeft) exits) ∧
      (FallsThrough exits →
        Finished placed loops (c.operandTag parent .shortCircuitRight) exits) := by
  cases c with
  | plain node => exact ⟨id, id⟩
  | logical node operator left right => exact ⟨.inr, .inl⟩

theorem outgoing_layout (c : Condition) : ∀ {current : Option Nat} {outcome : Option Branch}
    {holder base : Nat}, (∀ i, current = some i → i < base) →
    Outgoing placed loops base (c.layout current outcome holder base).tags
      (c.layout current outcome holder base).edges current outcome := by
  induction c with
  | plain node =>
    intro current outcome holder base hcurrent
    exact ⟨⟨holder, fun k _ => exitsOf_linkEdges⟩, nofun⟩
  | logical node operator left right ihl ihr =>
    intro current outcome holder base hcurrent
    have hl : Outgoing placed loops (base + 1) (left.layout current outcome base (base + 1)).tags
        (left.layout current outcome base (base + 1)).edges current outcome :=
      ihl fun i hi => Nat.lt_succ_of_lt (hcurrent i hi)
    simp only [layout]
    generalize left.layout current outcome base (base + 1) = l at hl ⊢
    generalize hbypass : base + 1 + l.tags.length = bypass at hl ⊢
    have hr : Outgoing placed loops (bypass + 2)
        (right.layout (some base) (some operator.continuing) (bypass + 1) (bypass + 2)).tags
        (right.layout (some base) (some operator.continuing) (bypass + 1) (bypass + 2)).edges
          (some base)
        (some operator.continuing) := by
      refine ihr fun i hi => ?_
      cases hi
      omega
    generalize right.layout (some base) (some operator.continuing) (bypass + 1)
      (bypass + 2) = r at hr ⊢
    obtain ⟨j, hl₀⟩ := hl.outside
    obtain ⟨j', hr₀⟩ := hr.outside
    have hfresh := ne_some_of_le hcurrent
    refine ⟨⟨j, fun k hk => ?_⟩, fun t k hk => ?_⟩
    · simp only [List.length_cons, List.length_append] at hk
      simp (disch := omega) [hl₀, hr₀, if_neg]
    · simp only [List.zipIdx_cons, List.zipIdx_append, List.mem_cons, List.mem_append,
        Prod.mk.injEq, hbypass] at hk
      rcases hk with ⟨rfl, rfl⟩ | hk | ⟨rfl, rfl⟩ | ⟨rfl, rfl⟩ | hk
      · refine finished_operandTag.1 ?_
        simpa (disch := omega) [hl₀, hr₀, hfresh, if_neg] using forks_operator operator bypass j'
      · obtain ⟨hle, hlt, -⟩ := List.mem_zipIdx hk
        simpa (disch := omega) [hr₀, if_neg] using hl.inside t k hk
      · exact ⟨holder, by simp (disch := omega) [hl₀, hr₀, hfresh, if_neg]⟩
      · exact finished_operandTag.2 ⟨holder, by simp (disch := omega) [hl₀, hr₀, hfresh, if_neg]⟩
      · obtain ⟨hle, hlt, -⟩ := List.mem_zipIdx hk
        simpa (disch := omega) [hl₀, hfresh, if_neg] using hr.inside t k hk

/-- The nodes of a condition are neither blocks nor arms. -/
theorem entered_layout (c : Condition) : ∀ {current : Option Nat} {outcome : Option Branch}
    {holder base : Nat} {t : Tag} {entrances : Multiset (Option Branch × Nat)},
    t ∈ (c.layout current outcome holder base).tags → Entered placed t entrances := by
  induction c with
  | plain node => exact nofun
  | logical node operator left right ihl ihr =>
    intro current outcome holder base t entrances ht
    simp only [layout, List.mem_cons, List.mem_append] at ht
    rcases ht with rfl | ht | rfl | rfl | ht
    · cases left <;> trivial
    · exact ihl ht
    · trivial
    · cases right <;> trivial
    · exact ihr ht

theorem tails_layout (c : Condition) : ∀ {current : Option Nat} {outcome : Option Branch}
    {holder base : Nat}, ∀ e ∈ (c.layout current outcome holder base).edges,
      base ≤ e.tail ∧ e.tail < base + (c.layout current outcome holder base).tags.length ∨
        e.tail = holder := by
  induction c with
  | plain node =>
    intro current outcome holder base e he
    obtain ⟨i, -, rfl⟩ := List.mem_map.mp he
    exact .inr rfl
  | logical node operator left right ihl ihr =>
    intro current outcome holder base e he
    simp only [layout, List.length_cons, List.length_append, List.mem_append, List.mem_cons] at he ⊢
    rcases he with he | rfl | he | rfl | rfl | he
    · have := ihl e he
      omega
    · dsimp only
      omega
    · have := ihr e he
      omega
    · exact .inr rfl
    · exact .inr rfl
    · cases he

theorem incoming_layout (c : Condition) {current : Option Nat} {outcome : Option Branch}
    {holder base : Nat} : Incoming placed base (c.layout current outcome holder base).tags
      (c.layout current outcome holder base).edges (· = holder) :=
  ⟨c.tails_layout, fun _ _ hk => c.entered_layout (List.fst_mem_of_mem_zipIdx hk)⟩

end Condition

/-! ## Commands -/

/-- The nodes before a command that its edges may enter. -/
def Sink (targets : Option LoopTargets) (k : Nat) : Prop :=
  k = FlowGraph.exit ∨ ∃ loop way, targets = some loop ∧ k = loop.target way

theorem sink_lt {back after base : Nat} (hexit : FlowGraph.exit < base) (hback : back < base)
    (hafter : after < base) : ∀ k, Sink (some ⟨back, after⟩) k → k < base := by
  rintro _ (rfl | ⟨_, _ | _, ⟨⟩, rfl⟩)
  · exact hexit
  · exact hafter
  · exact hback

section Wirings

variable (placed : Tag → Nat → Prop) (loops : UInt64 → Bool → Prop) (targets : Option LoopTargets)

/-- A layout has the right shape wherever it leads on to. -/
structure Wired (current : Option Nat) (base : Nat) (p : Layout (Option Nat)) : Prop where
  outgoing :
    ∀ j, Outgoing placed loops base p.tags (p.edges ++ linkEdges p.result j none) current none
  incoming : Incoming placed base p.tags p.edges (Sink targets)

/-- The same for an arm of a branch, which leads on from the head of the branch. -/
structure WiredArm (head : Nat) (outcome : Branch) (base : Nat)
    (p : Layout (List (Nat × Option Branch))) : Prop where
  outgoing : ∀ j, Outgoing placed loops base p.tags
    (p.edges ++ p.result.map fun (last, outcome) => ⟨last, j, outcome⟩) (some head) (some outcome)
  incoming : Incoming placed base p.tags p.edges (Sink targets)

end Wirings

section Constructs

variable {targets : Option LoopTargets} {current : Option Nat} {base : Nat}
  {p q : Layout (Option Nat)}

theorem Wired.skip : Wired placed loops targets current base ⟨[], [], current⟩ :=
  ⟨fun j => ⟨⟨j, fun _ _ => exitsOf_linkEdges⟩, nofun⟩, ⟨nofun, nofun⟩⟩

theorem Wired.seq (hcurrent : ∀ i, current = some i → i < base)
    (hsink : ∀ k, Sink targets k → k < base) (P : Wired placed loops targets current base p)
    (Q : Wired placed loops targets p.result (base + p.tags.length) q) :
    Wired placed loops targets current base ⟨p.tags ++ q.tags, p.edges ++ q.edges, q.result⟩ := by
  refine ⟨fun j => ?_, P.incoming.append hsink rfl Q.incoming⟩
  rw [List.append_assoc]
  exact Outgoing.replace hcurrent rfl P.outgoing (Q.outgoing j)

/-- A statement of one event, in the node that control comes from or in a block of its own. -/
theorem Wired.simple (id : UInt64) : Wired placed loops targets current base
    ⟨(Command.blockLayout current base id).tags, (Command.blockLayout current base id).edges,
      some (Command.blockLayout current base id).result⟩ := by
  cases current with
  | some i => exact .skip
  | none =>
    refine ⟨fun j => ⟨⟨j, fun k hk => ?_⟩, fun t k hk => ?_⟩, ⟨nofun, fun t k hk => ?_⟩⟩
    · simp only [Command.blockLayout, List.length_singleton] at hk
      simp (disch := omega) [Command.blockLayout, if_neg]
    · cases List.mem_singleton.mp hk
      exact ⟨j, by simp [Command.blockLayout]⟩
    · cases List.mem_singleton.mp hk
      rfl

theorem Wired.jump {loop : LoopTargets} (hsink : ∀ k, Sink (some loop) k → k < base) (way : Jump)
    (id : UInt64) : Wired placed loops (some loop) current base
    ⟨(Command.blockLayout current base id).tags, (Command.blockLayout current base id).edges ++
      [⟨(Command.blockLayout current base id).result, loop.target way, none⟩], none⟩ := by
  have htarget : Sink (some loop) (loop.target way) := .inr ⟨loop, way, rfl, rfl⟩
  have htails : ∀ i, ∀ e ∈ [(⟨i, loop.target way, none⟩ : FlowEdge)], Sink (some loop) e.tail := by
    intro i e he
    cases List.mem_singleton.mp he
    exact htarget
  cases current with
  | some i =>
    refine ⟨fun j => ⟨⟨loop.target way, fun k _ => ?_⟩, nofun⟩,
      ⟨fun e he => .inr (htails i e he), nofun⟩⟩
    simp [Command.blockLayout]
  | none =>
    refine ⟨fun j => ⟨⟨j, fun k hk => ?_⟩, fun t k hk => ?_⟩,
      ⟨fun e he => .inr (htails base e he), fun t k hk => ?_⟩⟩
    · simp only [Command.blockLayout, List.length_singleton] at hk
      simp (disch := omega) [Command.blockLayout, if_neg]
    · cases List.mem_singleton.mp hk
      exact ⟨loop.target way, by simp [Command.blockLayout]⟩
    · cases List.mem_singleton.mp hk
      have := hsink _ htarget
      exact entrancesOf_eq_zero fun e he h => by
        cases List.mem_singleton.mp he; dsimp only at h; omega

theorem Wired.return (hcurrent : ∀ i, current = some i → i < base) (id : UInt64) :
    Wired placed loops targets current base
      ⟨[⟨id, .return⟩], linkEdges current base none ++ [⟨base, FlowGraph.exit, none⟩], none⟩ := by
  refine ⟨fun j => ⟨⟨base, fun k hk => ?_⟩, fun t k hk => ?_⟩, ⟨fun e he => ?_, fun t k hk => ?_⟩⟩
  · rw [List.length_singleton] at hk
    simp (disch := omega) [if_neg]
  · cases List.mem_singleton.mp hk
    exact ⟨FlowGraph.exit, by simp [ne_some_of_le hcurrent base (Nat.le_refl base)]⟩
  · rcases List.mem_append.mp he with he | he
    · obtain ⟨i, -, rfl⟩ := List.mem_map.mp he
      exact .inl ⟨Nat.le_refl _, Nat.lt_succ_self _⟩
    · cases List.mem_singleton.mp he
      exact .inr (.inl rfl)
  · cases List.mem_singleton.mp hk
    trivial

theorem tail_of_mem_linkEdges {tail : Nat} {outcome : Option Branch} {e : FlowEdge}
    (he : e ∈ linkEdges current tail outcome) : e.tail = tail := by
  obtain ⟨i, -, rfl⟩ := List.mem_map.mp he
  rfl

/-- A loop, if its own nodes have the right shape where a single edge stands for the body and
another one for what follows. -/
theorem Wired.loop {own : List Tag} {entering leaving : List FlowEdge} {first back after : Nat}
    {body : Layout (Option Nat)} (hcurrent : ∀ i, current = some i → i < base)
    (hown : ∀ i j, Outgoing placed loops base own
      (entering ++ leaving ++ [⟨first, i, none⟩, ⟨after, j, none⟩]) current none)
    (hentered : ∀ t ∈ own, ∀ entrances, Entered placed t entrances)
    (hback : base ≤ back ∧ back < base + own.length)
    (hafter : base ≤ after ∧ after < base + own.length)
    (htails : ∀ e ∈ entering ++ leaving, base ≤ e.tail ∧ e.tail < base + own.length)
    (B : Wired placed loops (some ⟨back, after⟩) (some first) (base + own.length) body) :
    Wired placed loops targets current base
      (Command.loopLayout own entering leaving back after body) := by
  refine ⟨fun j => ?_, .inner hentered (fun e he => ?_) ?_ B.incoming⟩
  · have houter : ∀ i, Outgoing placed loops base own
        (entering ++ leaving ++ linkEdges (some after) j none ++ linkEdges (some first) i none)
        current none := by
      refine fun i => (hown i j).congr fun k => ?_
      simp only [exitsOf_append, exitsOf_cons, exitsOf_nil, exitsOf_linkEdges, Option.some.injEq]
      abel
    refine (Outgoing.replace hcurrent rfl houter (B.outgoing back)).congr fun k => ?_
    simp only [Command.loopLayout, exitsOf_append]
    abel
  · rw [← List.append_assoc, List.mem_append, List.mem_append] at he
    rcases he with (he | he) | he
    · exact htails e (List.mem_append_left _ he)
    · rwa [tail_of_mem_linkEdges he]
    · exact htails e (List.mem_append_right _ he)
  · rintro _ (rfl | ⟨_, _ | _, ⟨⟩, rfl⟩)
    · exact .inr (.inl rfl)
    · exact .inl hafter
    · exact .inl hback

section Loops

variable {id : UInt64} {body : Layout (Option Nat)}

theorem Wired.whileLoop (hcurrent : ∀ i, current = some i → i < base) (hloop : loops id true)
    (hfirst : placed ⟨id, .loopBody⟩ (base + 1)) (hafter : placed ⟨id, .afterLoop⟩ (base + 2))
    (B : Wired placed loops (some ⟨base, base + 2⟩) (some (base + 1)) (base + 3) body) :
    Wired placed loops targets current base
      (Command.loopLayout [⟨id, .loopCondition⟩, ⟨id, .loopBody⟩, ⟨id, .afterLoop⟩]
        (linkEdges current base none ++ [⟨base, base + 1, some .onTrue⟩])
        [⟨base, base + 2, some .onFalse⟩] base (base + 2) body) := by
  have hfresh := ne_some_of_le hcurrent
  refine .loop hcurrent (fun i j => ⟨⟨base, fun k hk => ?_⟩, fun t k hk => ?_⟩) ?_ ?_ ?_ ?_ B
  · simp only [List.length_cons, List.length_nil] at hk
    simp (disch := omega) [if_neg]
  · simp only [List.zipIdx_cons, List.zipIdx_nil, List.mem_cons, List.not_mem_nil, or_false,
      Prod.mk.injEq] at hk
    rcases hk with ⟨rfl, rfl⟩ | ⟨rfl, rfl⟩ | ⟨rfl, rfl⟩
    · exact ⟨k + 1, hfirst, .inr ⟨hloop, k + 2, hafter, by simp (disch := omega) [hfresh]⟩⟩
    · exact ⟨i, by simp (disch := omega) [hfresh]⟩
    · exact ⟨j, by simp (disch := omega) [hfresh, if_neg]⟩
  · simp [Entered]
  · simp
  · simp
  · intro e he
    simp only [List.mem_append, List.mem_cons, List.not_mem_nil, or_false] at he
    rcases he with (he | rfl) | rfl
    · simp [tail_of_mem_linkEdges he]
    · simp
    · simp

theorem Wired.doWhileLoop (hcurrent : ∀ i, current = some i → i < base) (hloop : loops id true)
    (hfirst : placed ⟨id, .loopBody⟩ base) (hafter : placed ⟨id, .afterLoop⟩ (base + 2))
    (B : Wired placed loops (some ⟨base + 1, base + 2⟩) (some base) (base + 3) body) :
    Wired placed loops targets current base
      (Command.loopLayout [⟨id, .loopBody⟩, ⟨id, .loopCondition⟩, ⟨id, .afterLoop⟩]
        (linkEdges current base none)
        [⟨base + 1, base, some .onTrue⟩, ⟨base + 1, base + 2, some .onFalse⟩] (base + 1) (base + 2)
        body) := by
  have hfresh := ne_some_of_le hcurrent
  refine .loop hcurrent (fun i j => ⟨⟨base, fun k hk => ?_⟩, fun t k hk => ?_⟩) ?_ ?_ ?_ ?_ B
  · simp only [List.length_cons, List.length_nil] at hk
    simp (disch := omega) [if_neg]
  · simp only [List.zipIdx_cons, List.zipIdx_nil, List.mem_cons, List.not_mem_nil, or_false,
      Prod.mk.injEq] at hk
    rcases hk with ⟨rfl, rfl⟩ | ⟨rfl, rfl⟩ | ⟨rfl, rfl⟩
    · exact ⟨i, by simp (disch := omega) [hfresh]⟩
    · exact ⟨base, hfirst, .inr ⟨hloop, base + 2, hafter, by simp (disch := omega) [hfresh]⟩⟩
    · exact ⟨j, by simp (disch := omega) [hfresh, if_neg]⟩
  · simp [Entered]
  · simp
  · simp
  · intro e he
    simp only [List.mem_append, List.mem_cons, List.not_mem_nil, or_false] at he
    rcases he with he | rfl | rfl
    · simp [tail_of_mem_linkEdges he]
    · simp
    · simp

theorem Wired.forLoop {condition : Option Node} (hcurrent : ∀ i, current = some i → i < base)
    (hloop : loops id condition.isSome) (hfirst : placed ⟨id, .loopBody⟩ (base + 2))
    (hafter : placed ⟨id, .afterLoop⟩ (base + 4))
    (B : Wired placed loops (some ⟨base + 3, base + 4⟩) (some (base + 2)) (base + 5) body) :
    Wired placed loops targets current base
      (Command.loopLayout [⟨id, .loopInit⟩, ⟨id, .loopCondition⟩, ⟨id, .loopBody⟩,
        ⟨id, .loopIncrement⟩,
          ⟨id, .afterLoop⟩]
        (linkEdges current base none ++
          [⟨base, base + 1, none⟩, ⟨base + 1, base + 2, condition.map fun _ => .onTrue⟩])
        (⟨base + 3, base + 1, none⟩ ::
          linkEdges (condition.map fun _ => base + 1) (base + 4) (some .onFalse))
        (base + 3) (base + 4) body) := by
  have hfresh := ne_some_of_le hcurrent
  have hleave : ∀ k, k ≠ base + 1 → ¬condition.map (fun _ => base + 1) = some k := by
    cases condition <;> simp +contextual [eq_comm]
  refine .loop hcurrent (fun i j => ⟨⟨base, fun k hk => ?_⟩, fun t k hk => ?_⟩) ?_ ?_ ?_ ?_ B
  · simp only [List.length_cons, List.length_nil] at hk
    simp (disch := omega) [hleave, if_neg]
  · simp only [List.zipIdx_cons, List.zipIdx_nil, List.mem_cons, List.not_mem_nil, or_false,
      Prod.mk.injEq] at hk
    rcases hk with ⟨rfl, rfl⟩ | ⟨rfl, rfl⟩ | ⟨rfl, rfl⟩ | ⟨rfl, rfl⟩ | ⟨rfl, rfl⟩
    · exact ⟨k + 1, by simp (disch := omega) [hfresh, hleave]⟩
    · refine ⟨base + 2, hfirst, ?_⟩
      cases condition with
      | none => exact .inl ⟨hloop, by simp (disch := omega) [hfresh]⟩
      | some condition =>
        exact .inr ⟨hloop, base + 4, hafter, by simp (disch := omega) [hfresh]⟩
    · exact ⟨i, by simp (disch := omega) [hfresh, hleave, if_neg]⟩
    · exact ⟨base + 1, by simp (disch := omega) [hfresh, hleave, if_neg]⟩
    · exact ⟨j, by simp (disch := omega) [hfresh, hleave, if_neg]⟩
  · simp [Entered]
  · simp
  · simp
  · intro e he
    simp only [List.mem_append, List.mem_cons, List.not_mem_nil, or_false] at he
    rcases he with (he | rfl | rfl) | rfl | he
    · simp [tail_of_mem_linkEdges he]
    · simp
    · simp
    · simp
    · simp [tail_of_mem_linkEdges he]

end Loops

/-- A node that leads on, with a single edge to what follows. -/
theorem outgoing_node {t : Tag} {head : Nat} {outcome : Option Branch} (hhead : head < base)
    (ht : ∀ exits, FallsThrough exits → Finished placed loops t exits) (i : Nat) :
    Outgoing placed loops base [t] ([⟨head, base, outcome⟩] ++ linkEdges (some base) i none)
      (some head)
      outcome := by
  refine ⟨⟨base, fun k hk => ?_⟩, fun t k hk => ?_⟩
  · rw [List.length_singleton] at hk
    simp (disch := omega) [if_neg]
  · cases List.mem_singleton.mp hk
    exact ht _ ⟨i, by simp (disch := omega) [if_neg]⟩

/-- A missing arm leads on by itself. -/
theorem WiredArm.missing {head : Nat} {outcome : Branch} :
    WiredArm placed loops targets head outcome base ⟨[], [], [(head, some outcome)]⟩ :=
  ⟨fun j => ⟨⟨j, fun k _ => by simp⟩, nofun⟩, ⟨nofun, nofun⟩⟩

theorem WiredArm.present {head : Nat} {outcome : Branch} {id : UInt64} (hhead : head < base)
    (hsink : ∀ k, Sink targets k → k < base) (hplaced : placed ⟨id, .branchCondition⟩ head)
    (P : Wired placed loops targets (some base) (base + 1) p) :
    WiredArm placed loops targets head outcome base
      ⟨⟨id, outcome.arm⟩ :: p.tags, ⟨head, base, some outcome⟩ :: p.edges,
        p.result.toList.map (·, none)⟩ := by
  have hlast : ∀ j, (p.result.toList.map ((·, none) : Nat → Nat × Option Branch)).map
      (fun (last, outcome) => (⟨last, j, outcome⟩ : FlowEdge)) = linkEdges p.result j none := by
    intro j
    cases p.result <;> rfl
  constructor
  · intro j
    have harm : ∀ i, Outgoing placed loops base [⟨id, outcome.arm⟩]
        ([⟨head, base, some outcome⟩] ++ linkEdges (some base) i none) (some head) (some outcome) :=
      outgoing_node hhead fun exits h => by cases outcome <;> exact h
    dsimp only
    rw [hlast]
    exact .replace (by rintro _ ⟨⟩; exact hhead) rfl harm (P.outgoing j)
  · refine ⟨fun e he => ?_, fun t k hk => ?_⟩
    · rw [List.length_cons]
      rcases List.mem_cons.mp he with rfl | he
      · exact .inl ⟨Nat.le_refl _, by dsimp only; omega⟩
      · exact (P.incoming.tails e he).imp_left fun h => by omega
    · rw [List.zipIdx_cons, List.mem_cons, Prod.mk.injEq] at hk
      rw [entrancesOf_cons]
      rcases hk with ⟨rfl, rfl⟩ | hk
      · rw [P.incoming.entrances_eq_zero (.inl (Nat.lt_succ_self k))
          fun h => Nat.lt_irrefl k (hsink k h),
          if_pos rfl, add_zero]
        cases outcome <;> exact ⟨head, hplaced, rfl⟩
      · obtain ⟨hle, -⟩ := List.mem_zipIdx hk
        rw [if_neg (show base ≠ k by omega), zero_add]
        exact P.incoming.inside t k hk

section Meetings

variable (id : UInt64) (ends : List (Nat × Option Branch)) (base : Nat)

theorem meetingLayout_edges : (Command.meetingLayout id ends base).edges =
    ends.map fun (last, outcome) => ⟨last, base, outcome⟩ := by
  unfold Command.meetingLayout
  split
  · next h => rw [List.isEmpty_iff.mp h]; rfl
  · rfl

/-- Where the arms of a branch meet, a node leads on. No edge stands for it, as the arms lead
there. -/
theorem outgoing_meetingLayout (j : Nat) :
    Outgoing placed loops base (Command.meetingLayout id ends base).tags
      (linkEdges (Command.meetingLayout id ends base).result j none) none none := by
  unfold Command.meetingLayout
  split
  · exact ⟨⟨j, fun _ _ => rfl⟩, nofun⟩
  · refine ⟨⟨j, fun k hk => ?_⟩, fun t k hk => ?_⟩
    · rw [List.length_singleton] at hk
      simp (disch := omega) [if_neg]
    · cases List.mem_singleton.mp hk
      exact .inl ⟨j, by simp⟩

theorem incoming_meetingLayout {sinks : Nat → Prop} :
    Incoming placed base (Command.meetingLayout id ends base).tags
      (Command.meetingLayout id ends base).edges sinks := by
  unfold Command.meetingLayout
  split
  · exact ⟨nofun, nofun⟩
  · refine ⟨fun e he => ?_, fun t k hk => ?_⟩
    · obtain ⟨-, -, rfl⟩ := List.mem_map.mp he
      exact .inl ⟨Nat.le_refl _, Nat.lt_succ_self _⟩
    · cases List.mem_singleton.mp hk
      trivial

end Meetings

section Branches

variable {id : UInt64} {c : Layout Unit} {onTrue onFalse : Layout (List (Nat × Option Branch))}

/-- The head of a branch, where single edges stand for its condition and its arms. -/
theorem outgoing_branchHead (hcurrent : ∀ i, current = some i → i < base) (i t f : Nat) :
    Outgoing placed loops base [⟨id, .branchCondition⟩]
      ([⟨base, t, some .onTrue⟩, ⟨base, f, some .onFalse⟩] ++ linkEdges current i none)
        current none := by
  refine ⟨⟨i, fun k hk => ?_⟩, fun tag k hk => ?_⟩
  · rw [List.length_singleton] at hk
    simp (disch := omega) [if_neg]
  · cases List.mem_singleton.mp hk
    exact ⟨t, f, by simp [ne_some_of_le hcurrent base (Nat.le_refl base)]⟩

theorem Wired.branch (hcurrent : ∀ i, current = some i → i < base)
    (hsink : ∀ k, Sink targets k → k < base)
    (C : Outgoing placed loops (base + 1) c.tags c.edges current none)
    (C' : Incoming placed (base + 1) c.tags c.edges (· = base))
    (T : WiredArm placed loops targets base .onTrue (base + 1 + c.tags.length) onTrue)
    (F : WiredArm placed loops targets base .onFalse
      (base + 1 + c.tags.length + onTrue.tags.length) onFalse)
    {m : Layout (Option Nat)}
    (hm : m = Command.meetingLayout id (onTrue.result ++ onFalse.result)
      (base + 1 + c.tags.length + onTrue.tags.length + onFalse.tags.length)) :
    Wired placed loops targets current base
      { tags := ⟨id, .branchCondition⟩ :: (c.tags ++ (onTrue.tags ++ (onFalse.tags ++ m.tags)))
        edges := c.edges ++ (onTrue.edges ++ (onFalse.edges ++ m.edges))
        result := m.result } := by
  generalize hb₁ : base + 1 + c.tags.length = b₁ at *
  generalize hb₂ : b₁ + onTrue.tags.length = b₂ at *
  generalize hb₃ : b₂ + onFalse.tags.length = b₃ at *
  subst hm
  have hlen₁ : base + ([Tag.mk id .branchCondition] ++ c.tags).length = b₁ := by
    rw [List.length_append, List.length_singleton]
    omega
  have hlen₂ : base + ([Tag.mk id .branchCondition] ++ c.tags ++ onTrue.tags).length = b₂ := by
    rw [List.length_append]
    omega
  have hlen₃ : base +
      ([Tag.mk id .branchCondition] ++ c.tags ++ onTrue.tags ++ onFalse.tags).length = b₃ := by
    rw [List.length_append]
    omega
  constructor
  · intro j
    -- the parts take the places of their edges, from the condition on
    have hc : ∀ t f, Outgoing placed loops base ([⟨id, .branchCondition⟩] ++ c.tags)
        ([⟨base, t, some .onTrue⟩, ⟨base, f, some .onFalse⟩] ++ c.edges) current none :=
      fun t f => .replace hcurrent rfl (fun i => outgoing_branchHead hcurrent i t f) C
    have ht : ∀ f, Outgoing placed loops base ([⟨id, .branchCondition⟩] ++ c.tags ++ onTrue.tags)
        (⟨base, f, some .onFalse⟩ :: c.edges ++
          (onTrue.edges ++ onTrue.result.map fun (last, outcome) => ⟨last, b₃, outcome⟩))
            current none :=
      fun f => .replace hcurrent hlen₁
        (fun t => (hc t f).congr fun k => by simp [add_assoc, add_left_comm, add_comm])
          (T.outgoing b₃)
    have hf : Outgoing placed loops base
        ([⟨id, .branchCondition⟩] ++ c.tags ++ onTrue.tags ++ onFalse.tags)
        (c.edges ++ (onTrue.edges ++ onTrue.result.map
          fun (last, outcome) => ⟨last, b₃, outcome⟩) ++
          (onFalse.edges ++ onFalse.result.map fun (last, outcome) => ⟨last, b₃, outcome⟩))
            current none :=
      .replace hcurrent hlen₂
        (fun f => (ht f).congr fun k => by simp [add_left_comm, add_comm]) (F.outgoing b₃)
    have hm := hf.append hcurrent hlen₃
      (outgoing_meetingLayout id (onTrue.result ++ onFalse.result) b₃ j)
    simp only [List.cons_append, List.nil_append, List.append_assoc] at hm
    refine hm.congr fun k => ?_
    simp only [meetingLayout_edges, List.map_append, exitsOf_append]
    abel
  · have hc : Incoming placed base ([⟨id, .branchCondition⟩] ++ c.tags) ([] ++ (c.edges ++ []))
        (Sink targets) := by
      refine .inner (by simp [Entered]) nofun (fun k hk => .inl ?_) C'
      rw [List.length_singleton]
      omega
    have ht := hc.append hsink hlen₁ T.incoming
    have hf := ht.append hsink hlen₂ F.incoming
    have hm :=
      hf.append hsink hlen₃ (incoming_meetingLayout id (onTrue.result ++ onFalse.result) b₃)
    simpa using hm

end Branches

end Constructs

end ContractFlow
