import ContractFlow.Proofs.Refinement

/-!
What is read along the nodes that a condition is drawn into. `Condition.realizes`: from the node
where a condition begins to the one that holds its result, the evaluations of the condition are
read.
-/

namespace ContractFlow

theorem LogicalOperator.settledBy_iff {operator : LogicalOperator} {outcome : Branch} :
    operator.SettledBy outcome ↔ outcome = operator.settling := by
  cases operator <;> rfl

theorem LogicalOperator.not_settledBy_iff {operator : LogicalOperator} {outcome : Branch} :
    ¬operator.SettledBy outcome ↔ outcome = operator.continuing := by
  cases operator <;> cases outcome <;> simp [SettledBy, continuing]

/-- Parentheses do not matter to the evaluation of a condition. -/
theorem Evaluation.congr {kind : StatementKind} {n n' : Node} {t : List Event}
    (hn : n'.unparenthesized = n.unparenthesized) (hl : n'.logical? = n.logical?)
    (h : Evaluation kind n t) : Evaluation kind n' t := by
  cases h with
  | whole h => exact hn ▸ .whole (hl.trans h)
  | settled h hs hleft => exact hn ▸ .settled (hl.trans h) hs hleft
  | continued h hs hleft hright => exact hn ▸ .continued (hl.trans h) hs hleft hright

theorem evaluation_plain {kind : StatementKind} {n : Node} {t : List Event}
    (h : n.logical? = none) :
    Evaluation kind n t ↔ t = [.statement kind n.unparenthesized] := by
  constructor
  · rintro (_ | ⟨h', -, -⟩ | ⟨h', -, -, -⟩)
    · rfl
    · simp [h] at h'
    · simp [h] at h'
  · rintro rfl
    exact .whole h

theorem evaluation_logical {kind : StatementKind} {n left right : Node} {operator : LogicalOperator}
    {t : List Event} (h : n.logical? = some (operator, left, right)) :
    Evaluation kind n t ↔ ∃ t₁ t₂, Evaluation .operand left t₁ ∧
      (t₂ = [.outcome operator.settling] ∨
        ∃ t₃, Evaluation .operand right t₃ ∧ t₂ = .outcome operator.continuing :: t₃) ∧
      t = t₁ ++ t₂ ++ [.statement .shortCircuitResult n.unparenthesized] := by
  constructor
  · rintro (h' | ⟨h', hs, hleft⟩ | ⟨h', hs, hleft, hright⟩)
    · simp [h] at h'
    all_goals
      obtain ⟨rfl, rfl, rfl⟩ : _ ∧ _ ∧ _ := by simpa [h] using h'
    · rw [LogicalOperator.settledBy_iff] at hs
      exact ⟨_, _, hleft, .inl rfl, by simp [hs]⟩
    · rw [LogicalOperator.not_settledBy_iff] at hs
      exact ⟨_, _, hleft, .inr ⟨_, hright, rfl⟩, by simp [hs]⟩
  · rintro ⟨t₁, _, hleft, rfl | ⟨t₃, hright, rfl⟩, rfl⟩
    · exact .settled h (LogicalOperator.settledBy_iff.mpr rfl) hleft
    · have : Evaluation kind n _ :=
        .continued h (LogicalOperator.not_settledBy_iff.mpr rfl) hleft hright
      simpa using this

/-- What is read along a short-circuit operation, from what is read along its operands. -/
theorem Refines.logical {G : Outline} {kind : StatementKind} {n left right : Node}
    {operator : LogicalOperator} {l b r rs holder : Nat} {First : Future}
    (h : n.logical? = some (operator, left, right))
    (hl : FlowGraph.exit ≠ l) (hb : FlowGraph.exit ≠ b) (hr : FlowGraph.exit ≠ r)
    (hlx : ∀ x, x ∈ G.exits l ↔
      x = (some operator.settling, b) ∨ x = (some operator.continuing, rs))
    (hbe : G.events b = []) (hbx : G.exits b = [(none, holder)])
    (hrx : G.exits r = [(none, holder)])
    (hhe : G.events holder = [.statement .shortCircuitResult n.unparenthesized])
    (L : Refines First (fun t (_ : Unit) => Evaluation .operand left t) fun _ => G.Leads l)
    (R : Refines (G.Reads [] rs) (fun t (_ : Unit) => Evaluation .operand right t)
      fun _ => G.Leads r) :
    Refines First (fun t (_ : Unit) => Evaluation kind n t) fun _ => G.Leads holder := by
  have Q := (Outline.passes_edge hr hrx).trans (Outline.passes_events hhe)
  have P := ((Outline.passes_events hbe).trans (Outline.passes_edge hb hbx)).trans
    (Outline.passes_events hhe)
  simp only [outcomeEvents, Option.toList_none, List.map_nil, List.nil_append] at P Q
  constructor
  · intro t n hread
    obtain ⟨t₁, -, t₂, m, rfl, hleft, hlead, hm⟩ := L.sound hread
    rcases (Outline.leads_choice hl hlx).mp hlead with
      ⟨_, m', rfl, hread', rfl⟩ | ⟨_, m', rfl, hread', rfl⟩
    · obtain ⟨t₄, m₄, rfl, hlead', hm₄⟩ := P.sound hread'
      refine ⟨_, (), t₄, m₄, ?_, (evaluation_logical h).mpr ⟨t₁, _, hleft, .inl rfl, rfl⟩,
        hlead', by omega⟩
      simp
    · obtain ⟨t₃, -, _, m₃, rfl, hright, hlead', hm₃⟩ := R.sound hread'
      obtain ⟨t₄, m₄, rfl, hlead'', hm₄⟩ := Q.sound hlead'
      refine ⟨_, (), t₄, m₄, ?_,
        (evaluation_logical h).mpr ⟨t₁, _, hleft, .inr ⟨t₃, hright, rfl⟩, rfl⟩,
        hlead'', by omega⟩
      simp
  · rintro t₁ ⟨⟩ t₂ m heval hlead
    obtain ⟨t₁, _, hleft, rfl | ⟨t₃, hright, rfl⟩, rfl⟩ := (evaluation_logical h).mp heval
    · obtain ⟨n₁, hread⟩ := P.complete hlead
      obtain ⟨n₂, hread'⟩ := L.complete (e := ()) hleft
        ((Outline.leads_choice hl hlx).mpr (.inl ⟨_, n₁, rfl, hread, rfl⟩))
      exact ⟨n₂, by simpa using hread'⟩
    · obtain ⟨n₁, hlead'⟩ := Q.complete hlead
      obtain ⟨n₂, hread⟩ := R.complete (e := ()) hright hlead'
      obtain ⟨n₃, hread'⟩ := L.complete (e := ()) hleft
        ((Outline.leads_choice hl hlx).mpr (.inr ⟨_, n₂, rfl, hread, rfl⟩))
      exact ⟨n₃, by simpa using hread'⟩

/-- A choice between two arms, from what is read along its condition and its arms. -/
theorem Refines.branch {G : Outline} {A : Future} {K : Ending → Future} {id : UInt64} {src : Span}
    {condition : Node} {onTrue onFalse : Option Node} {s j k : Nat} (hs : FlowGraph.exit ≠ s)
    (hx : ∀ x, x ∈ G.exits s ↔ x = (some .onTrue, j) ∨ x = (some .onFalse, k))
    (C : Refines A (fun t (_ : Unit) => Evaluation .condition condition t) fun _ => G.Leads s)
    (T : Refines (G.Reads [] j) (Execution (.optional onTrue)) K)
    (F : Refines (G.Reads [] k) (Execution (.optional onFalse)) K) :
    Refines A (Execution (.statement ⟨id, src, .ifStatement condition onTrue onFalse⟩)) K := by
  constructor
  · intro t n hread
    obtain ⟨t₁, -, t₂, m, rfl, heval, hlead, hm⟩ := C.sound hread
    rcases (Outline.leads_choice hs hx).mp hlead with
      ⟨_, m', rfl, hread', rfl⟩ | ⟨_, m', rfl, hread', rfl⟩
    · obtain ⟨t₃, e, t₄, m₄, rfl, hrun, hK, hm₄⟩ := T.sound hread'
      exact ⟨_, e, t₄, m₄, by simp, .ifTrue heval hrun, hK, by omega⟩
    · obtain ⟨t₃, e, t₄, m₄, rfl, hrun, hK, hm₄⟩ := F.sound hread'
      exact ⟨_, e, t₄, m₄, by simp, .ifFalse heval hrun, hK, by omega⟩
  · intro t₁ e t₂ m hrun hK
    cases hrun with
    | ifTrue heval hrun =>
      obtain ⟨n, hread⟩ := T.complete hrun hK
      obtain ⟨n', hread'⟩ := C.complete (e := ()) heval
        ((Outline.leads_choice hs hx).mpr (.inl ⟨_, n, rfl, hread, rfl⟩))
      exact ⟨n', by simpa using hread'⟩
    | ifFalse heval hrun =>
      obtain ⟨n, hread⟩ := F.complete hrun hK
      obtain ⟨n', hread'⟩ := C.complete (e := ()) heval
        ((Outline.leads_choice hs hx).mpr (.inr ⟨_, n, rfl, hread, rfl⟩))
      exact ⟨n', by simpa using hread'⟩

namespace Condition

/-- Wherever a condition is drawn, its evaluations are read from the node that it begins in to the
one that holds its result, in every outline that agrees with what was drawn and has only the result
there. -/
structure Realizes (n : Node) : Prop where
  refines : ∀ {G : Outline} {kind current outcome holder o o'},
    (ofNode n).Draws kind current outcome holder o o' → o.Fresh →
    (∀ i, current = some i → i < o.size) → holder < o.size → FlowGraph.exit < o.size →
    (∀ k, o.size ≤ k → k < o'.size → G.events k = o'.events k ∧ G.exits k = o'.exits k) →
    G.events holder = [(ofNode n).result kind] →
    Refines (G.Reads [] ((ofNode n).start holder o.size))
      (fun t (_ : Unit) => Evaluation kind n t) fun _ => G.Leads holder

theorem realizes_plain {n : Node} (hn : n.logical? = none)
    (h : ofNode n = .plain n.unparenthesized) :
    Realizes n := by
  refine ⟨fun {G kind current outcome holder o o'} _ _ _ _ _ _ he => ?_⟩
  rw [h] at he ⊢
  have R :=
    Refines.of_passes (K := fun _ : Unit => G.Leads holder) (e := ()) (Outline.passes_events he)
  refine R.congr fun t _ => ?_
  simp [evaluation_plain hn, result]

theorem Realizes.parentheses {id : UInt64} {src : Span} {n : Node} (H : Realizes n) :
    Realizes ⟨id, src, .tupleExpression [some n] false⟩ := by
  refine ⟨fun {G kind current outcome holder o o'} h F hcurrent hholder hexit hG he => ?_⟩
  simp only [ofNode] at h he ⊢
  have R := H.refines h F hcurrent hholder hexit hG he
  refine R.congr fun t _ => ⟨.congr ?_ ?_, .congr ?_ ?_⟩
  all_goals simp [Node.unparenthesized, Node.logical?]

/-- A short-circuit operation as it is in a finished outline. The left operand was drawn into `s`,
which gave `o₂`. Two nodes were added, for the outcome that settles the operation and to hold the
right operand, which gave `o₃` and, with the right operand, `o₄`. Both lead to `holder`. -/
structure OperandsMeet (G : Outline) (s holder : Nat) (o₂ o₃ o₄ : Outline) : Prop where
  lt_size : s < o₂.size
  size_eq : o₃.size = o₂.size + 2
  size_le : o₃.size ≤ o₄.size
  events_kept : ∀ k, k < o₃.size → k ≠ o₂.size + 1 → o₄.events k = o₂.events k
  exits_kept : ∀ k, k < o₃.size → k ≠ s → o₄.exits k = o₂.exits k
  events : ∀ k, s ≤ k → k < o₄.size → G.events k = o₄.events k
  exits : ∀ k, s ≤ k → k < o₄.size → G.exits k =
    o₄.exits k ++ if k = o₂.size ∨ k = o₂.size + 1 then [(none, holder)] else []

namespace OperandsMeet

variable {G : Outline} {s holder k : Nat} {o₂ o₃ o₄ : Outline}

theorem events_left (M : OperandsMeet G s holder o₂ o₃ o₄) (hle : s ≤ k) (hlt : k < o₂.size) :
    G.events k = o₂.events k := by
  have hs₃ := M.size_eq
  have hs₄ := M.size_le
  rw [M.events k hle (by omega), M.events_kept k (by omega) (by omega)]

theorem exits_left (M : OperandsMeet G s holder o₂ o₃ o₄) (hle : s < k) (hlt : k < o₂.size) :
    G.exits k = o₂.exits k := by
  have hs₃ := M.size_eq
  have hs₄ := M.size_le
  rw [M.exits k (by omega) (by omega), if_neg (by omega), M.exits_kept k (by omega) (by omega),
    List.append_nil]

theorem exits_head (M : OperandsMeet G s holder o₂ o₃ o₄) : G.exits s = o₄.exits s := by
  have hs₂ := M.lt_size
  have hs₃ := M.size_eq
  have hs₄ := M.size_le
  rw [M.exits s (Nat.le_refl s) (by omega), if_neg (by omega), List.append_nil]

theorem right (M : OperandsMeet G s holder o₂ o₃ o₄) (hle : o₃.size ≤ k) (hlt : k < o₄.size) :
    G.events k = o₄.events k ∧ G.exits k = o₄.exits k := by
  have hs₂ := M.lt_size
  have hs₃ := M.size_eq
  refine ⟨M.events k (by omega) hlt, ?_⟩
  rw [M.exits k (by omega) hlt, if_neg (by omega), List.append_nil]

/-- The two nodes that were added lead on only to the holder. -/
theorem exits_added (M : OperandsMeet G s holder o₂ o₃ o₄) (hk : k = o₂.size ∨ k = o₂.size + 1)
    (hfresh : o₂.exits k = []) : G.exits k = [(none, holder)] := by
  have hs₂ := M.lt_size
  have hs₃ := M.size_eq
  have hs₄ := M.size_le
  rw [M.exits k (by omega) (by omega), if_pos hk, M.exits_kept k (by omega) (by omega), hfresh,
    List.nil_append]

theorem events_settled (M : OperandsMeet G s holder o₂ o₃ o₄) (hfresh : o₂.events o₂.size = []) :
    G.events o₂.size = [] := by
  have hs₂ := M.lt_size
  have hs₃ := M.size_eq
  have hs₄ := M.size_le
  rw [M.events _ (by omega) (by omega), M.events_kept _ (by omega) (by omega), hfresh]

end OperandsMeet

theorem Realizes.logical {id : UInt64} {src : Span} {symbol : String} {left right : Node}
    {operator : LogicalOperator} (hop : LogicalOperator.ofSymbol? symbol = some operator)
    (ihl : Realizes left) (ihr : Realizes right) :
    Realizes ⟨id, src, .binaryOperation symbol left right⟩ := by
  refine ⟨fun {G kind current outcome holder o o'} h F hcurrent hholder hexit hG he => ?_⟩
  simp only [ofNode, hop] at h he ⊢
  obtain ⟨o₁, o₂, o₃, o₄, h₁, hleft, h₃, hright, h'⟩ := h.logical
  have hs₁ : o₁.size = o.size + 1 := by simp [h₁]
  have hs₃ : o₃.size = o₂.size + 2 := by simp [h₃]
  have F₁ : o₁.Fresh := h₁ ▸ F.grow
  have hfresh := F _ (Nat.le_refl _)
  have hcurrent₁ : ∀ i, current = some i → i < o₁.size := by
    intro i hi
    have := hcurrent i hi
    omega
  have L := hleft.grows hcurrent₁ (by omega)
  have hs₂ := L.size_le
  have hfresh₂ := L.fresh F₁
  have F₃ : o₃.Fresh := h₃ ▸ (hfresh₂.grow.connect (by simp; omega) _ _).grow
  have hcurrent₃ : ∀ i, some o.size = some i → i < o₃.size := by
    rintro i ⟨⟩
    omega
  have R := hright.grows hcurrent₃ (by omega)
  have hs₄ := R.size_le
  have hs' : o'.size = o₄.size := by simp [h']
  have M : OperandsMeet G o.size holder o₂ o₃ o₄ := by
    refine ⟨by omega, hs₃, hs₄, fun k hk hne => ?_, fun k hk hne => ?_, fun k hk hlt => ?_,
      fun k hk hlt => ?_⟩
    · rw [R.events_kept k hk hne, h₃]
      rfl
    · rw [R.exits_kept k hk (by simpa using hne.symm), h₃]
      simp [hne]
    · rw [(hG k hk (by omega)).1, h']
      simp [show k ≠ holder by omega]
    · rw [(hG k hk (by omega)).2, h']
      by_cases hb : k = o₂.size <;> by_cases hr : k = o₂.size + 1 <;> simp [hb, hr]
  have hleaf : Node.logical? ⟨id, src, .binaryOperation symbol left right⟩ =
      some (operator, left, right) := by
    simp [Node.logical?, Node.unparenthesized, hop]
  have hheld : G.events o.size = [(ofNode left).result .operand] := by
    rw [M.events_left (Nat.le_refl _) M.lt_size, L.held, h₁, Outline.grow_events, hfresh.1,
      List.nil_append]
  have hheld' : G.events (o₂.size + 1) = [(ofNode right).result .operand] := by
    rw [M.events _ (by omega) (by omega), R.held, h₃]
    simp [hfresh₂ _ (Nat.le_succ _)]
  have hchoice : ∀ x, x ∈ G.exits o.size ↔ x = (some operator.settling, o₂.size) ∨
      x = (some operator.continuing,
        (ofNode right).start (o₂.size + 1) o₃.size) := by
    intro x
    have hcur : current ≠ some o.size := fun hc => Nat.lt_irrefl _ (hcurrent _ hc)
    have hkept := L.exits_kept o.size (by omega) hcur
    rw [M.exits_head, R.entered _ rfl, h₃]
    simp [hkept, h₁, hfresh]
  have hleft' := ihl.refines hleft F₁ hcurrent₁ (by omega) (by omega)
    (fun k hk hlt => ⟨M.events_left (by omega) hlt, M.exits_left (by omega) hlt⟩) hheld
  have hright' := ihr.refines hright F₃ hcurrent₃ (by omega) (by omega)
    (fun k hk hlt => M.right hk hlt) hheld'
  rw [hs₁] at hleft'
  refine Refines.logical hleaf (by omega) (by omega) (by omega) hchoice ?_ ?_ ?_ he hleft' hright'
  · exact M.events_settled (hfresh₂ _ (Nat.le_refl _)).1
  · exact M.exits_added (.inl rfl) (hfresh₂ _ (Nat.le_refl _)).2
  · exact M.exits_added (.inr rfl) (hfresh₂ _ (Nat.le_succ _)).2

theorem realizes (n : Node) : Realizes n := by
  induction n using ofNode.induct with
  | case1 id src inner ih => exact ih.parentheses
  | case2 id src symbol left right operator hop ihl ihr => exact Realizes.logical hop ihl ihr
  | case3 id src symbol left right hop =>
    apply realizes_plain
    · simp [Node.logical?, Node.unparenthesized, hop]
    · simp [ofNode, hop, Node.unparenthesized]
  | case4 n h₁ h₂ =>
    have hn : n.unparenthesized = n := by simp only [Node.unparenthesized]
    apply realizes_plain
    · rw [Node.logical?, hn]
      rcases n with ⟨id, src, kind⟩
      split
      · next hkind => exact absurd (congrArg (Node.mk id src) hkind) (h₂ id src _ _ _)
      · rfl
    · rw [hn]
      simp only [ofNode]

end Condition

end ContractFlow
