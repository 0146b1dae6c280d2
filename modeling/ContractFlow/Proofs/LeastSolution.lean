import ContractFlow.Dataflow.Variables
import ContractFlow.Proofs.Iteration
import ContractFlow.Proofs.TreeSetOrder

/-!
The facts of a monotone analysis are its least solution. A solution gives each node as input the
join of the outputs of the nodes that feed it, and as output what the node makes of its input
(`Analysis.Solves`); this does not mention how solutions are found. Whatever settles every node
yields the least one, so both strategies yield the same facts
(`FlowGraph.ofFunction_least_solution`).
-/

namespace ContractFlow

/-- An edge leads from one node to another. -/
def FlowGraph.Step (g : FlowGraph) (m n : FlowNode) : Prop :=
  ∃ e ∈ g.edges, g.node e.head = .ok m ∧ g.node e.tail = .ok n

/-- Facts flow from one node to another. -/
def Direction.Feeds (d : Direction) (g : FlowGraph) (m n : FlowNode) : Prop :=
  match d with
  | forward => g.Step m n
  | backward => g.Step n m

namespace Analysis

variable {σ : Type}

/-- **Solutions.** The input of each node, by its id, is the least upper bound of the outputs of the
nodes that feed it, and its output is what it makes of its input. -/
structure Solves [Preorder σ] (a : Analysis σ) (g : FlowGraph)
    (input output : String → σ) : Prop where
  input_isLUB : ∀ n ∈ g.nodes,
    IsLUB {x | ∃ m, a.direction.Feeds g m n ∧ output m.id = x} (input n.id)
  output_eq : ∀ n ∈ g.nodes, a.transfer n (some (input n.id)) = .ok (output n.id)

/-- Facts that are a solution, and the least one. Ids of no node have no state of their own. -/
structure LeastFacts [Preorder σ] (a : Analysis σ) (g : FlowGraph) (facts : Facts σ) : Prop where
  solves : a.Solves g (facts.input a.direction) (facts.output a.direction)
  least : ∀ {input output}, a.Solves g input output → ∀ n ∈ g.nodes,
    facts.input a.direction n.id ≤ input n.id ∧ facts.output a.direction n.id ≤ output n.id
  unknown : ∀ id, (∀ n ∈ g.nodes, n.id ≠ id) →
    facts.input a.direction id = a.bottom ∧ facts.output a.direction id = a.bottom

end Analysis

namespace FlowGraph

variable {g : FlowGraph} {i j : Nat} {m n : FlowNode} {d : Direction}

theorem mem_nodes_iff : n ∈ g.nodes ↔ ∃ i, g.node i = .ok n := Digraph.mem_vertices_iff

theorem WellFormed.lt_of_node (H : g.WellFormed) (hn : g.node i = .ok n) :
    i < g.graph.vertexCount := by
  exact (H.dense i).mp (Digraph.hasVertex_iff.mpr ⟨n, hn⟩)

theorem WellFormed.step_iff (H : g.WellFormed) (hm : g.node j = .ok m) (hn : g.node i = .ok n) :
    g.Step m n ↔ ∃ e ∈ g.edges, e.head = j ∧ e.tail = i := by
  constructor
  · rintro ⟨e, he, hhead, htail⟩
    exact ⟨e, he, H.distinct hhead hm rfl, H.distinct htail hn rfl⟩
  · rintro ⟨e, he, rfl, rfl⟩
    exact ⟨e, he, hm, hn⟩

theorem WellFormed.feeds_iff (H : g.WellFormed) (hm : g.node j = .ok m) (hn : g.node i = .ok n) :
    d.Feeds g m n ↔ j ∈ d.sources g i := by
  rw [Direction.mem_sources_iff H (H.lt_of_node hn)]
  cases d with
  | forward => exact H.step_iff hm hn
  | backward =>
    refine (H.step_iff hn hm).trans ?_
    simp only [Direction.Flows, and_comm]

/-- What feeds a node is a node of the graph. -/
theorem exists_of_feeds (h : d.Feeds g m n) : (∃ j, g.node j = .ok m) ∧ ∃ i, g.node i = .ok n := by
  cases d with
  | forward =>
    obtain ⟨e, -, hhead, htail⟩ := h
    exact ⟨⟨_, hhead⟩, _, htail⟩
  | backward =>
    obtain ⟨e, -, hhead, htail⟩ := h
    exact ⟨⟨_, htail⟩, _, hhead⟩

end FlowGraph

namespace Analysis

section Facts

variable {σ : Type} {a : Analysis σ} {g : FlowGraph} {i : Nat} {n : FlowNode} {p : Progress σ}

/-- A table of states by id has the state of each node. -/
theorem table_getD (H : g.WellFormed) (hn : g.node i = .ok n) (state : Nat → σ) (fallback : σ) :
    (Std.ExtTreeMap.ofList (g.graph.vertexAt.toList.map fun (index, n) =>
      (n.id, state index)) : Std.ExtTreeMap String σ).getD n.id fallback = state i := by
  refine Std.ExtTreeMap.getD_ofList_of_mem Std.ReflCmp.compare_self ?_ ?_
  · refine List.pairwise_map.mpr (List.Pairwise.imp_of_mem ?_ Std.ExtTreeMap.distinct_keys_toList)
    rintro ⟨k, x⟩ ⟨l, y⟩ hx hy hne heq
    rw [Std.ExtTreeMap.mem_toList_iff_getElem?_eq_some] at hx hy
    have hkl := H.distinct (Digraph.vertex_eq_ok_iff.mpr hx) (Digraph.vertex_eq_ok_iff.mpr hy)
      (Std.LawfulEqCmp.eq_of_compare heq)
    exact hne (hkl ▸ Std.ReflCmp.compare_self)
  · refine List.mem_map.mpr ⟨(i, n), ?_, rfl⟩
    exact Std.ExtTreeMap.mem_toList_iff_getElem?_eq_some.mpr (Digraph.vertex_eq_ok_iff.mp hn)

/-- A table of states by id has nothing else. -/
theorem table_getD_of_unknown {id : String} (h : ∀ n ∈ g.nodes, n.id ≠ id) (state : Nat → σ)
    (fallback : σ) :
    (Std.ExtTreeMap.ofList (g.graph.vertexAt.toList.map fun (index, n) =>
      (n.id, state index)) : Std.ExtTreeMap String σ).getD id fallback = fallback := by
  refine Std.ExtTreeMap.getD_ofList_of_contains_eq_false ?_
  rw [List.contains_eq_mem, decide_eq_false_iff_not]
  intro hmem
  simp only [List.map_map, List.mem_map, Function.comp_apply, Prod.exists] at hmem
  obtain ⟨k, n, hk, rfl⟩ := hmem
  rw [Std.ExtTreeMap.mem_toList_iff_getElem?_eq_some] at hk
  exact h n (FlowGraph.mem_nodes_iff.mpr ⟨k, Digraph.vertex_eq_ok_iff.mpr hk⟩) rfl

theorem facts_unknown {id : String} (h : ∀ n ∈ g.nodes, n.id ≠ id) :
    (a.facts g p).input a.direction id = a.bottom ∧
      (a.facts g p).output a.direction id = a.bottom := by
  have hinputs := table_getD_of_unknown h (fun index => (p.inputs.getD index none).getD a.bottom)
    a.bottom
  have houtputs := table_getD_of_unknown h (fun index => p.outputs.getD index a.bottom) a.bottom
  cases hd : a.direction <;> refine ⟨?_, ?_⟩ <;>
    simpa only [facts, hd, Facts.input, Facts.output, Facts.stateBefore, Facts.stateAfter]

theorem facts_input (H : g.WellFormed) (hn : g.node i = .ok n) :
    (a.facts g p).input a.direction n.id = (p.inputs.getD i none).getD a.bottom := by
  have htable := table_getD H hn (fun index => (p.inputs.getD index none).getD a.bottom) a.bottom
  cases hd : a.direction <;>
    simpa only [facts, hd, Facts.input, Facts.stateBefore, Facts.stateAfter] using htable

theorem facts_output (H : g.WellFormed) (hn : g.node i = .ok n) :
    (a.facts g p).output a.direction n.id = (p.states i).getD a.bottom := by
  rw [Progress.states, ← Std.ExtTreeMap.getD_eq_getD_getElem?]
  have htable := table_getD H hn (fun index => p.outputs.getD index a.bottom) a.bottom
  cases hd : a.direction <;>
    simpa only [facts, hd, Facts.output, Facts.stateBefore, Facts.stateAfter] using htable

/-- Facts are determined by the states of the nodes of the graph. -/
theorem facts_congr {q : Progress σ} (H : g.WellFormed)
    (h : ∀ i, i < g.graph.vertexCount →
      (p.inputs.getD i none).getD a.bottom = (q.inputs.getD i none).getD a.bottom ∧
        (p.states i).getD a.bottom = (q.states i).getD a.bottom) : a.facts g p = a.facts g q := by
  have htable : ∀ {state state' : Nat → σ},
      (∀ i, i < g.graph.vertexCount → state i = state' i) →
        (g.graph.vertexAt.toList.map fun (index, n) => (n.id, state index)) =
          g.graph.vertexAt.toList.map fun (index, n) => (n.id, state' index) := by
    intro state state' hstate
    refine List.map_congr_left fun ⟨k, n⟩ hk => ?_
    rw [Std.ExtTreeMap.mem_toList_iff_getElem?_eq_some] at hk
    simp only [hstate k (H.lt_of_node (Digraph.vertex_eq_ok_iff.mpr hk))]
  have hinputs := htable fun i hi => (h i hi).1
  have houtputs := htable fun i hi => (h i hi).2
  simp only [Progress.states, ← Std.ExtTreeMap.getD_eq_getD_getElem?] at houtputs
  simp only [facts, hinputs, houtputs]

end Facts

section Least

variable {σ : Type} [SemilatticeSup σ] [OrderBot σ] {a : Analysis σ} {g : FlowGraph} {i : Nat}
  {n : FlowNode} {p q : Progress σ}

/-- The outputs of a solution by index. -/
def outputsOf (g : FlowGraph) (output : String → σ) (i : Nat) : σ :=
  ((g.node i).toOption.map fun n => output n.id).getD ⊥

theorem outputsOf_eq {output : String → σ} (hn : g.node i = .ok n) :
    outputsOf g output i = output n.id := by
  simp [outputsOf, hn, Except.toOption]

/-- What arrives at a node is the least upper bound of the outputs of what feeds it. -/
theorem arriving_isLUB (H : g.WellFormed) (hn : g.node i = .ok n) {out : Nat → σ}
    {output : String → σ} (hout : ∀ {j m}, g.node j = .ok m → out j = output m.id) :
    IsLUB {x | ∃ m, a.direction.Feeds g m n ∧ output m.id = x} (a.arriving g out i) := by
  refine isLUB_iff_le_iff.mpr fun x => ?_
  rw [arriving_le_iff]
  constructor
  · rintro h _ ⟨m, hfeeds, rfl⟩
    obtain ⟨j, hm⟩ := (FlowGraph.exists_of_feeds hfeeds).1
    rw [← hout hm]
    exact h j ((H.feeds_iff hm hn).mp hfeeds)
  · intro h j hj
    have hflows := (Direction.mem_sources_iff H (H.lt_of_node hn)).mp hj
    obtain ⟨m, hm⟩ := H.exists_node (hflows.lt_size H).1
    rw [hout hm]
    exact h ⟨m, (H.feeds_iff hm hn).mpr hj, rfl⟩

/-- Visits raise nothing in a solution. -/
theorem Solves.closed {input output : String → σ} (h : a.Solves g input output) (M : a.IsMonotone)
    (H : g.WellFormed) : a.Closed g (outputsOf g output) := by
  intro i hi
  obtain ⟨n, hn⟩ := H.exists_node hi
  have hmem : n ∈ g.nodes := FlowGraph.mem_nodes_iff.mpr ⟨i, hn⟩
  have harriving : a.arriving g (outputsOf g output) i = input n.id :=
    (arriving_isLUB H hn outputsOf_eq).unique (h.input_isLUB n hmem)
  have houtput := (M.effect_eq hn (input n.id)).symm.trans (h.output_eq n hmem)
  rw [next, harriving, outputsOf_eq hn, Except.ok.inj houtput]

theorem IsMonotone.facts_output_eq (M : a.IsMonotone) (H : g.WellFormed) (hn : g.node i = .ok n) :
    (a.facts g p).output a.direction n.id = value p.states i := by
  rw [facts_output H hn, M.bottom_eq, value]

namespace Settled

/-- What is settled is settled by every visit. -/
theorem closed (S : a.Settled g p) : a.Closed g (value p.states) :=
  fun i hi => (value_of_eq (S.settled i hi).output).ge

theorem value_eq (S : a.Settled g p) (S' : a.Settled g q) (i : Nat) :
    value p.states i = value q.states i :=
  le_antisymm (S.sound.below S'.closed i) (S'.sound.below S.closed i)

theorem facts_input_eq (S : a.Settled g p) (M : a.IsMonotone) (H : g.WellFormed)
    (hn : g.node i = .ok n) :
    (a.facts g p).input a.direction n.id = a.arriving g (value p.states) i := by
  rw [facts_input H hn, M.bottom_eq, (S.settled i (H.lt_of_node hn)).input]

/-- Whatever settles every node yields the same facts. -/
theorem facts_eq (S : a.Settled g p) (S' : a.Settled g q) (M : a.IsMonotone) (H : g.WellFormed) :
    a.facts g p = a.facts g q := by
  refine facts_congr H fun i hi => ?_
  have hvalue : value p.states = value q.states := funext (S.value_eq S')
  rw [M.bottom_eq, (S.settled i hi).input, (S'.settled i hi).input, hvalue]
  exact ⟨rfl, S.value_eq S' i⟩

theorem leastFacts (S : a.Settled g p) (M : a.IsMonotone) (H : g.WellFormed) :
    a.LeastFacts g (a.facts g p) := by
  refine ⟨⟨fun n hmem => ?_, fun n hmem => ?_⟩, fun {input output} h n hmem => ?_,
    fun id h => facts_unknown h⟩ <;>
    obtain ⟨i, hn⟩ := FlowGraph.mem_nodes_iff.mp hmem
  · rw [S.facts_input_eq M H hn]
    exact arriving_isLUB H hn fun hm => (M.facts_output_eq H hm).symm
  · rw [S.facts_input_eq M H hn, M.facts_output_eq H hn, M.effect_eq hn]
    exact congrArg _ (value_of_eq (S.settled i (H.lt_of_node hn)).output).symm
  · have hle := S.sound.below (h.closed M H)
    rw [S.facts_input_eq M H hn, M.facts_output_eq H hn]
    refine ⟨?_, (hle i).trans_eq (outputsOf_eq hn)⟩
    exact (arriving_mono fun j _ => hle j).trans_eq
      ((arriving_isLUB H hn outputsOf_eq).unique (h.input_isLUB n hmem))

end Settled

/-- Both strategies yield the least facts, within a limit that the number of possible changes
gives. -/
theorem IsMonotone.exists_leastFacts [DecidableEq σ] (M : a.IsMonotone) (R : g.Rooted) {k : Nat}
    (C : a.ChangesWithin g k fun _ => none) :
    ∃ facts, a.LeastFacts g facts ∧ ∀ strategy limit,
      1 + g.graph.vertexCount + g.graph.vertexCount * k ≤ limit →
        a.fixedPoint g strategy limit = .ok facts := by
  have H := R.toWellFormed
  obtain ⟨p, -, S⟩ := M.run_settles R C (Nat.le_refl _) .worklist
  refine ⟨a.facts g p, S.leastFacts M H, fun strategy limit hlimit => ?_⟩
  obtain ⟨q, hrun, S'⟩ := M.run_settles R C hlimit strategy
  rw [fixedPoint, hrun, S.facts_eq S' M H]
  rfl

/-- If states have ranks up to that of a state which no visit leads beyond, the number of visits
that suffices is known beforehand. -/
theorem IsMonotone.exists_leastFacts_of_rank [DecidableEq σ] {rank : σ → Nat} {top : σ}
    (M : a.IsMonotone) (R : g.Rooted) (hrank : StrictMono rank) (htop : a.Closed g fun _ => top) :
    ∃ facts, a.LeastFacts g facts ∧
      ∀ strategy, a.fixedPoint g strategy (g.visitLimit (rank top)) = .ok facts := by
  have C := Sound.empty.changesWithin_of_rank M hrank htop room_empty.le
  obtain ⟨facts, hleast, hfacts⟩ := M.exists_leastFacts R C
  refine ⟨facts, hleast, fun strategy => hfacts strategy _ ?_⟩
  rw [FlowGraph.visitLimit, Nat.mul_assoc]

end Least

end Analysis

/-! ## Reaching definitions and live variables -/

section Sets

variable {g : FlowGraph} {n : FlowNode} {d : Definition} {x : String} {names : Names}

@[simp] theorem Definitions.mem_except {s : Definitions} :
    d ∈ s.except names ↔ d ∈ s ∧ d.name ∉ names := by
  have hcontains : names.contains d.name = false ↔ d.name ∉ names := by
    rw [← Std.ExtTreeSet.contains_iff_mem, Bool.not_eq_true]
  rw [Definitions.except, TreeSet.mem_filter, Bool.not_eq_true', hcontains]

@[simp] theorem Definitions.mem_ofNames {node : String} :
    d ∈ Definitions.ofNames names node ↔ d.name ∈ names ∧ d.node = node := by
  rw [Definitions.ofNames, Std.ExtTreeSet.mem_ofList]
  simp only [List.contains_iff_mem, List.mem_map, Std.ExtTreeSet.mem_toList]
  constructor
  · rintro ⟨name, hname, rfl⟩
    exact ⟨hname, rfl⟩
  · rintro ⟨hname, rfl⟩
    exact ⟨d.name, hname, rfl⟩

theorem FlowNode.mem_definitions : d ∈ n.definitions ↔ d.name ∈ n.defs ∧ d.node = n.id :=
  Definitions.mem_ofNames

theorem FlowGraph.mem_definitions : d ∈ g.definitions ↔ ∃ n ∈ g.nodes, d ∈ n.definitions := by
  rw [FlowGraph.definitions, TreeSet.mem_foldl_union]
  simp

theorem FlowGraph.mem_usedNames : x ∈ g.usedNames ↔ ∃ n ∈ g.nodes, x ∈ n.uses := by
  rw [FlowGraph.usedNames, TreeSet.mem_foldl_union]
  simp

end Sets

namespace Analysis

variable {g : FlowGraph}

theorem reaching_isMonotone : reaching.IsMonotone where
  bottom_eq := rfl
  join_eq _ _ := rfl
  transfer_none _ := rfl
  transfer_eq n := by
    refine ⟨fun s => s.except n.defs ∪ n.definitions, fun s t hst d hd => ?_, fun _ => rfl⟩
    rw [Std.ExtTreeSet.mem_union_iff, Definitions.mem_except] at hd ⊢
    exact hd.imp_left fun h => ⟨hst d h.1, h.2⟩

theorem live_isMonotone : live.IsMonotone where
  bottom_eq := rfl
  join_eq _ _ := rfl
  transfer_none _ := rfl
  transfer_eq n := by
    refine ⟨fun s => n.uses ∪ (s \ n.defs), fun s t hst x hx => ?_, fun _ => rfl⟩
    rw [Std.ExtTreeSet.mem_union_iff, Std.ExtTreeSet.mem_diff_iff] at hx ⊢
    exact hx.imp_right fun h => ⟨hst x h.1, h.2⟩

/-- Only definitions that some node makes reach a node. -/
theorem reaching_closed (H : g.WellFormed) : reaching.Closed g fun _ => g.definitions := by
  intro i hi d hd
  obtain ⟨n, hn⟩ := H.exists_node hi
  rw [next, ← Except.ok.inj (reaching_isMonotone.effect_eq hn _), Std.ExtTreeSet.mem_union_iff,
    Option.getD_some, Definitions.mem_except] at hd
  rcases hd with ⟨hd, -⟩ | hd
  · exact TreeSet.le_iff.mp (arriving_le_iff.mpr fun j _ => le_rfl) d hd
  · exact FlowGraph.mem_definitions.mpr ⟨n, FlowGraph.mem_nodes_iff.mpr ⟨i, hn⟩, hd⟩

/-- Only variables that some node uses are live. -/
theorem live_closed (H : g.WellFormed) : live.Closed g fun _ => g.usedNames := by
  intro i hi x hx
  obtain ⟨n, hn⟩ := H.exists_node hi
  rw [next, ← Except.ok.inj (live_isMonotone.effect_eq hn _), Std.ExtTreeSet.mem_union_iff,
    Option.getD_some, Std.ExtTreeSet.mem_diff_iff] at hx
  rcases hx with hx | ⟨hx, -⟩
  · exact FlowGraph.mem_usedNames.mpr ⟨n, FlowGraph.mem_nodes_iff.mpr ⟨i, hn⟩, hx⟩
  · exact TreeSet.le_iff.mp (arriving_le_iff.mpr fun j _ => le_rfl) x hx

end Analysis

namespace FlowGraph

variable {g : FlowGraph}

theorem Rooted.reachingDefinitions_least (R : g.Rooted) :
    ∃ facts, Analysis.reaching.LeastFacts g facts ∧
      ∀ strategy, g.reachingDefinitions strategy = .ok facts :=
  Analysis.reaching_isMonotone.exists_leastFacts_of_rank R TreeSet.size_strictMono
    (Analysis.reaching_closed R.toWellFormed)

theorem Rooted.liveVariables_least (R : g.Rooted) :
    ∃ facts, Analysis.live.LeastFacts g facts ∧
      ∀ strategy, g.liveVariables strategy = .ok facts :=
  Analysis.live_isMonotone.exists_leastFacts_of_rank R TreeSet.size_strictMono
    (Analysis.live_closed R.toWellFormed)

/-- **The solver computes the least solution.** On the graph of a function, both strategies yield
the least facts of every monotone analysis whose states do not ascend for ever, given enough visits;
for reaching definitions and live variables they do within their own limits. -/
theorem ofFunction_least_solution {function : Node} {source : String}
    (h : ofFunction function source = .ok g) :
    (∀ (σ : Type) [SemilatticeSup σ] [OrderBot σ] [WellFoundedGT σ] [DecidableEq σ]
      (a : Analysis σ), a.IsMonotone →
      ∃ facts, a.LeastFacts g facts ∧ ∃ enough, ∀ strategy limit, enough ≤ limit →
        a.fixedPoint g strategy limit = .ok facts) ∧
    (∃ facts, Analysis.reaching.LeastFacts g facts ∧
      ∀ strategy, g.reachingDefinitions strategy = .ok facts) ∧
    ∃ facts, Analysis.live.LeastFacts g facts ∧
      ∀ strategy, g.liveVariables strategy = .ok facts := by
  have R := Rooted.ofFunction h
  refine ⟨fun σ _ _ _ _ a M => ?_, R.reachingDefinitions_least, R.liveVariables_least⟩
  obtain ⟨k, C⟩ := Analysis.Sound.empty.exists_changesWithin (g := g) M
  obtain ⟨facts, hleast, hfacts⟩ := M.exists_leastFacts R C
  exact ⟨facts, hleast, _, hfacts⟩

/-- Which nodes control can reach from the entry. -/
def reached : Analysis Bool where
  direction := .forward
  bottom := false
  transfer n state := .ok (state.getD false || decide (n.role = .functionEntry))
  join x y := .ok (x || y)

theorem reached_isMonotone : reached.IsMonotone where
  bottom_eq := rfl
  join_eq _ _ := rfl
  transfer_none _ := rfl
  transfer_eq n := by
    refine ⟨fun x => x || decide (n.role = .functionEntry), fun x y hxy => ?_, fun _ => rfl⟩
    exact sup_le_sup_right hxy _

theorem ofFunction_least_solution_countdown : ∃ g, ofFunction countdown "" = .ok g ∧
    (∃ facts, reached.LeastFacts g facts ∧ ∃ enough, ∀ strategy limit, enough ≤ limit →
      reached.fixedPoint g strategy limit = .ok facts) ∧
    (∃ facts, Analysis.reaching.LeastFacts g facts ∧
      ∀ strategy, g.reachingDefinitions strategy = .ok facts) ∧
    ∃ facts, Analysis.live.LeastFacts g facts ∧
      ∀ strategy, g.liveVariables strategy = .ok facts := by
  obtain ⟨g, hg⟩ := countdown_builds
  obtain ⟨hall, hreaching, hlive⟩ := ofFunction_least_solution hg
  exact ⟨g, hg, hall Bool reached reached_isMonotone, hreaching, hlive⟩

end FlowGraph

end ContractFlow
