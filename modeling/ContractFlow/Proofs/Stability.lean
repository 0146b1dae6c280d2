import ContractFlow.Proofs.LeastSolution

/-!
Whatever a solver yields is stable, for every analysis: nothing is asked of its join and its
transfer, which may fail. Facts are stable if they satisfy the flow equations at every node
(`Analysis.isStable_iff`). The invariant of both strategies is that a node which need not be visited
again agrees with its sources (`Analysis.AgreesAt`): it has taken what their states now make arrive
at it. Main statement: one more round over the facts that a solver yields changes nothing
(`FlowGraph.ofFunction_isStable`).
-/

namespace ContractFlow

namespace Analysis

variable {σ : Type} {a : Analysis σ} {g : FlowGraph} {p p' q : Progress σ} {i k : Nat}

/-- **Agreement.** A node has taken what the states of its sources make arrive at it, and has what
it makes of that. -/
structure AgreesAt (a : Analysis σ) (g : FlowGraph) (p : Progress σ) (i : Nat) (n : FlowNode)
    (input : Option σ) (output : σ) : Prop where
  node : g.node i = .ok n
  arrived : a.joinAll ((a.direction.sources g i).filterMap p.states) = .ok input
  made : a.transfer n input = .ok output
  taken : p.inputs[i]? = some input
  left : p.states i = some output

def Agrees (a : Analysis σ) (g : FlowGraph) (p : Progress σ) (i : Nat) : Prop :=
  ∃ n input output, a.AgreesAt g p i n input output

/-- A node goes on agreeing as long as nothing happens to it and to its sources. -/
theorem Agrees.congr (h : a.Agrees g p i) (hinput : p'.inputs[i]? = p.inputs[i]?)
    (houtput : p'.states i = p.states i)
    (hsources : ∀ j ∈ a.direction.sources g i, p'.states j = p.states j) : a.Agrees g p' i := by
  obtain ⟨n, input, output, A⟩ := h
  refine ⟨n, input, output, A.node, ?_, A.made, hinput.trans A.taken, houtput.trans A.left⟩
  rw [List.filterMap_congr hsources]
  exact A.arrived

/-! ## Visits -/

section Visits

variable [DecidableEq σ] {changed : Bool}

/-- A visit that reports no change leaves the states as they were. -/
theorem states_of_unchanged (h : a.visit g i p = .ok (false, p')) : p'.states = p.states := by
  obtain ⟨n, input, output, -, -, -, hchanged, -, hstates⟩ := visit_eq_ok h
  have hsame : p.states i = some output := by simpa using hchanged
  rw [hstates, ← hsame, Function.update_eq_self]

/-- After a visit the visited node agrees with its sources, and others still do, unless the node has
changed and is a source of theirs. -/
theorem agrees_of_visit (h : a.visit g i p = .ok (changed, p')) (hk : k = i ∨ a.Agrees g p k)
    (hsource : changed = true → i ∉ a.direction.sources g k) : a.Agrees g p' k := by
  obtain ⟨n, input, output, hnode, hjoin, htransfer, hchanged, hinputs, hstates⟩ := visit_eq_ok h
  have hsources : ∀ j ∈ a.direction.sources g k, p'.states j = p.states j := by
    intro j hj
    cases changed with
    | false => rw [states_of_unchanged h]
    | true =>
      have hji : j ≠ i := fun hji => hsource rfl (hji ▸ hj)
      rw [hstates, Function.update_of_ne hji]
  by_cases hki : k = i
  · subst hki
    refine ⟨n, input, output, hnode, ?_, htransfer, ?_, ?_⟩
    · rw [List.filterMap_congr hsources, hjoin]
    · rw [hinputs, Std.ExtTreeMap.getElem?_insert_self]
    · rw [hstates, Function.update_self]
  · refine (hk.resolve_left hki).congr ?_ ?_ hsources
    · rw [hinputs, Std.ExtTreeMap.getElem?_insert, if_neg]
      simpa using Ne.symm hki
    · rw [hstates, Function.update_of_ne hki]

/-! ## The strategies -/

/-- **The invariant of the worklist.** Every node that is not queued agrees with its sources. -/
structure Awaits (a : Analysis σ) (g : FlowGraph) (queue : List Nat) (p : Progress σ) : Prop where
  lt_count : ∀ i ∈ queue, i < g.graph.vertexCount
  agrees : ∀ i, i < g.graph.vertexCount → i ∉ queue → a.Agrees g p i

theorem Awaits.visit {queue : List Nat} (H : g.WellFormed) (W : a.Awaits g (i :: queue) p)
    (h : a.visit g i p = .ok (changed, p')) :
    a.Awaits g (if changed then enqueue queue (a.direction.sinks g i) else queue) p' := by
  have hi := W.lt_count i List.mem_cons_self
  have hqueue : ∀ {k}, k ∈ queue → k < g.graph.vertexCount :=
    fun hk => W.lt_count _ (List.mem_cons_of_mem _ hk)
  have hrest : ∀ {k}, k < g.graph.vertexCount → k ∉ queue → k = i ∨ a.Agrees g p k := by
    intro k hk hnot
    by_cases hki : k = i
    · exact .inl hki
    · exact .inr (W.agrees k hk (by simp [hki, hnot]))
  cases changed with
  | false => exact ⟨fun k => hqueue, fun k hk hnot => agrees_of_visit h (hrest hk hnot) nofun⟩
  | true =>
    refine ⟨fun k hk => ?_, fun k hk hnot => ?_⟩
    · rcases mem_enqueue.mp hk with hk | hk
      · exact hqueue hk
      · exact (((Direction.mem_sinks_iff H hi).mp hk).lt_size H).2
    · have hnot := not_or.mp (mt mem_enqueue.mpr hnot)
      refine agrees_of_visit h (hrest hk hnot.1) fun _ hsource => hnot.2 ?_
      exact (Direction.mem_sinks_iff H hi).mpr ((Direction.mem_sources_iff H hk).mp hsource)

/-- When the queue has run empty, all nodes agree with their sources. -/
theorem Awaits.runWorklist {limit fuel : Nat} {queue : List Nat} (H : g.WellFormed)
    (W : a.Awaits g queue p) (h : a.runWorklist g limit fuel queue p = .ok q) :
    ∀ i, i < g.graph.vertexCount → a.Agrees g q i := by
  induction fuel generalizing queue p with
  | zero =>
    cases queue with
    | nil =>
      cases h
      exact fun i hi => W.agrees i hi List.not_mem_nil
    | cons i queue => cases h
  | succ fuel ih =>
    cases queue with
    | nil =>
      cases h
      exact fun i hi => W.agrees i hi List.not_mem_nil
    | cons i queue =>
      rw [Analysis.runWorklist] at h
      cases hvisit : a.visit g i p with
      | error err => rw [hvisit] at h; cases h
      | ok r =>
        rw [hvisit] at h
        exact ih (W.visit H hvisit) h

/-- A sweep that changes nothing leaves all nodes that it visits in agreement with their sources. -/
theorem agrees_of_sweep {l : List Nat} (h : a.sweep g l p = .ok (false, p')) :
    p'.states = p.states ∧ ∀ k, k ∈ l ∨ a.Agrees g p k → a.Agrees g p' k := by
  induction l generalizing p with
  | nil =>
    cases h
    exact ⟨rfl, fun k hk => hk.resolve_left List.not_mem_nil⟩
  | cons i l ih =>
    rw [Analysis.sweep] at h
    cases hvisit : a.visit g i p with
    | error err => rw [hvisit] at h; cases h
    | ok first =>
      obtain ⟨changed, p₁⟩ := first
      rw [hvisit] at h
      cases hsweep : a.sweep g l p₁ with
      | error err => simp only [bind, Except.bind, hsweep] at h; cases h
      | ok rest =>
        obtain ⟨changedLater, p₂⟩ := rest
        simp only [bind, Except.bind, hsweep, pure, Except.pure, Except.ok.injEq, Prod.mk.injEq,
          Bool.or_eq_false_iff] at h
        obtain ⟨⟨rfl, rfl⟩, rfl⟩ := h
        obtain ⟨hstates, hagrees⟩ := ih hsweep
        refine ⟨hstates.trans (states_of_unchanged hvisit), fun k hk => hagrees k ?_⟩
        have hchanged : false = true → i ∉ a.direction.sources g k :=
          fun h => absurd h Bool.false_ne_true
        rcases hk with hk | hk
        · rcases List.mem_cons.mp hk with hk | hk
          · exact .inr (agrees_of_visit hvisit (.inl hk) hchanged)
          · exact .inl hk
        · exact .inr (agrees_of_visit hvisit (.inr hk) hchanged)

/-- Sweeps only end with one that changes nothing. -/
theorem agrees_of_runRoundRobin {limit fuel : Nat} {order : List Nat}
    (h : a.runRoundRobin g limit order fuel p = .ok q) : ∀ i ∈ order, a.Agrees g q i := by
  induction fuel generalizing p with
  | zero => cases h
  | succ fuel ih =>
    rw [Analysis.runRoundRobin] at h
    cases hsweep : a.sweep g order p with
    | error err => rw [hsweep] at h; cases h
    | ok r =>
      obtain ⟨changed, p'⟩ := r
      rw [hsweep] at h
      cases changed with
      | true => exact ih h
      | false =>
        cases h
        exact fun i hi => (agrees_of_sweep hsweep).2 i (.inl hi)

/-- Whichever strategy is used, all nodes agree with their sources in the end. -/
theorem agrees_of_run {strategy : Strategy} {limit : Nat} (R : g.Rooted)
    (h : a.run g strategy limit = .ok q) : ∀ i, i < g.graph.vertexCount → a.Agrees g q i := by
  obtain ⟨order, hrun, -, horder⟩ := Direction.order_spec R a.direction
  rw [run, hrun] at h
  cases strategy with
  | worklist =>
    have W : a.Awaits g order {} :=
      ⟨fun i => (horder i).mp, fun i hi hnot => absurd ((horder i).mpr hi) hnot⟩
    exact W.runWorklist R.toWellFormed h
  | roundRobin => exact fun i hi => agrees_of_runRoundRobin h i ((horder i).mpr hi)

end Visits

/-! ## Facts -/

/-- The states by id that the sources of a node have in the facts are the states that they have by
index. -/
theorem outputs_of_agrees (H : g.WellFormed) {l : List Nat} (hl : ∀ j ∈ l, a.Agrees g p j) :
    ∃ sources, l.mapM g.node = .ok sources ∧
      sources.map (fun n => (a.facts g p).output a.direction n.id) = l.filterMap p.states := by
  induction l with
  | nil => exact ⟨[], rfl, rfl⟩
  | cons j l ih =>
    obtain ⟨n, input, output, A⟩ := hl j List.mem_cons_self
    obtain ⟨sources, hsources, hmap⟩ := ih fun k hk => hl k (List.mem_cons_of_mem _ hk)
    refine ⟨n :: sources, ?_, ?_⟩
    · rw [List.mapM_cons, A.node, hsources]
      rfl
    · rw [List.map_cons, hmap, facts_output H A.node, List.filterMap_cons, A.left]
      rfl

/-- **The flow equations** at a node: its input is the join of what flows out of its sources, and
its output is what it makes of its input. Neither the join nor the transfer fails. -/
structure BalancedAt (a : Analysis σ) (g : FlowGraph) (facts : Facts σ) (i : Nat) (n : FlowNode)
    (sources : List FlowNode) (input : Option σ) : Prop where
  found : (a.direction.sources g i).mapM g.node = .ok sources
  joined : a.joinAll (sources.map fun m => facts.output a.direction m.id) = .ok input
  input_eq : input.getD a.bottom = facts.input a.direction n.id
  output_eq : a.transfer n input = .ok (facts.output a.direction n.id)

def Balanced (a : Analysis σ) (g : FlowGraph) (facts : Facts σ) (i : Nat) (n : FlowNode) : Prop :=
  ∃ sources input, a.BalancedAt g facts i n sources input

theorem isStableAt_eq_ok_true_iff [DecidableEq σ] {facts : Facts σ} {arriving : List σ}
    {n : FlowNode} :
    a.isStableAt facts arriving n = .ok true ↔ ∃ input, a.joinAll arriving = .ok input ∧
      input.getD a.bottom = facts.input a.direction n.id ∧
      a.transfer n input = .ok (facts.output a.direction n.id) := by
  rw [isStableAt]
  cases a.joinAll arriving with
  | error err => simp [bind, Except.bind]
  | ok input =>
    by_cases hinput : input.getD a.bottom = facts.input a.direction n.id
    · cases htransfer : a.transfer n input <;>
        simp [hinput, htransfer, bind, Except.bind, pure, Except.pure]
    · simp [hinput, bind, Except.bind, pure, Except.pure]

theorem allM_eq_ok_true_iff {α : Type} {f : α → Except Error Bool} {l : List α} :
    l.allM f = .ok true ↔ ∀ x ∈ l, f x = .ok true := by
  induction l with
  | nil => simp [List.allM, pure, Except.pure]
  | cons x l ih =>
    rw [List.allM, List.forall_mem_cons, ← ih]
    cases hx : f x with
    | error err => simp [bind, Except.bind]
    | ok answer => cases answer <;> simp [bind, Except.bind, pure, Except.pure]

/-- **Stable facts** are those that satisfy the flow equations at every node. -/
theorem isStable_iff [DecidableEq σ] (R : g.Rooted) {facts : Facts σ} :
    a.isStable g facts = .ok true ↔ ∀ i n, g.node i = .ok n → a.Balanced g facts i n := by
  obtain ⟨order, horder, -⟩ := Direction.order_spec R a.direction
  rw [isStable, horder]
  refine allM_eq_ok_true_iff.trans ?_
  have hstep : ∀ i n, g.node i = .ok n → ((do
      let sources ← (a.direction.sources g i).mapM g.node
      a.isStableAt facts (sources.map fun source => facts.output a.direction source.id)
        (← g.node i)) = Except.ok true ↔ a.Balanced g facts i n) := by
    intro i n hn
    cases hsources : (a.direction.sources g i).mapM g.node with
    | error err =>
      refine ⟨fun h => ?_, fun ⟨_, _, B⟩ => ?_⟩
      · cases h
      · cases hsources.symm.trans B.found
    | ok sources =>
      simp only [hn, bind, Except.bind]
      rw [isStableAt_eq_ok_true_iff]
      constructor
      · rintro ⟨input, hjoin, hinput, houtput⟩
        exact ⟨sources, input, hsources, hjoin, hinput, houtput⟩
      · rintro ⟨_, input, B⟩
        cases hsources.symm.trans B.found
        exact ⟨input, B.joined, B.input_eq, B.output_eq⟩
  constructor
  · intro h i n hn
    exact (hstep i n hn).mp (h i (Digraph.mem_indices_iff.mpr (Digraph.hasVertex_iff.mpr ⟨n, hn⟩)))
  · intro h i hi
    obtain ⟨n, hn⟩ := Digraph.hasVertex_iff.mp (Digraph.mem_indices_iff.mp hi)
    exact (hstep i n hn).mpr (h i n hn)

/-- Where all nodes agree with their sources, the facts are stable. -/
theorem isStable_of_agrees [DecidableEq σ] (R : g.Rooted)
    (h : ∀ i, i < g.graph.vertexCount → a.Agrees g p i) :
    a.isStable g (a.facts g p) = .ok true := by
  have H := R.toWellFormed
  refine (isStable_iff R).mpr fun i n hn => ?_
  have hi := H.lt_of_node hn
  obtain ⟨_, input, output, A⟩ := h i hi
  cases hn.symm.trans A.node
  obtain ⟨sources, hsources, hmap⟩ := outputs_of_agrees H (l := a.direction.sources g i)
    fun j hj => h j (((Direction.mem_sources_iff H hi).mp hj).lt_size H).1
  refine ⟨sources, input, hsources, hmap ▸ A.arrived, ?_, ?_⟩
  · rw [facts_input H hn, Std.ExtTreeMap.getD_eq_getD_getElem?, A.taken, Option.getD_some]
  · rw [facts_output H hn, A.left, Option.getD_some, A.made]

/-- The keys of the facts are the ids of the nodes. -/
theorem mem_facts_iff {id : String} :
    (id ∈ (a.facts g p).before ↔ id ∈ g.nodes.map (·.id)) ∧
      (id ∈ (a.facts g p).after ↔ id ∈ g.nodes.map (·.id)) := by
  have htable : ∀ state : Nat → σ, id ∈ (Std.ExtTreeMap.ofList (g.graph.vertexAt.toList.map
      fun x => (x.2.id, state x.1)) : Std.ExtTreeMap String σ) ↔
        id ∈ g.nodes.map (·.id) := by
    intro state
    rw [Std.ExtTreeMap.mem_ofList, List.contains_iff_mem, FlowGraph.nodes, Digraph.vertices,
      List.map_map, List.map_map]
    rfl
  have hinputs := htable fun index => (p.inputs.getD index none).getD a.bottom
  have houtputs := htable fun index => p.outputs.getD index a.bottom
  cases hd : a.direction with
  | forward =>
    rw [facts, hd]
    exact ⟨hinputs, houtputs⟩
  | backward =>
    rw [facts, hd]
    exact ⟨houtputs, hinputs⟩

end Analysis

namespace FlowGraph

/-- **Whatever a solver yields is stable.** On the graph of a function, for every analysis and both
strategies: if a solver yields facts, another round over them succeeds and changes nothing, and they
hold a state for the ids of the nodes and for nothing else. -/
theorem ofFunction_isStable {function : Node} {source : String} {g : FlowGraph}
    (h : ofFunction function source = .ok g) {σ : Type} [DecidableEq σ] (a : Analysis σ)
    (strategy : Strategy) {limit : Nat} {facts : Facts σ}
    (hfacts : a.fixedPoint g strategy limit = .ok facts) :
    a.isStable g facts = .ok true ∧ ∀ id,
      (id ∈ facts.before ↔ id ∈ g.nodes.map (·.id)) ∧
      (id ∈ facts.after ↔ id ∈ g.nodes.map (·.id)) := by
  have R := Rooted.ofFunction h
  rw [Analysis.fixedPoint] at hfacts
  cases hrun : a.run g strategy limit with
  | error err => rw [hrun] at hfacts; cases hfacts
  | ok p =>
    rw [hrun] at hfacts
    cases hfacts
    exact ⟨Analysis.isStable_of_agrees R (Analysis.agrees_of_run R hrun),
      fun _ => Analysis.mem_facts_iff⟩

/-- The nodes on every path to a node, itself included. What the entry does not reach has no
path. -/
def everyPath : Analysis Names where
  direction := .forward
  bottom := ∅
  transfer n state := .ok ((state.getD ∅).insert n.id)
  join a b := .ok (a ∩ b)

/-- The round-robin solver settles that analysis, whose join is no least upper bound. The search for
the order is run with a bound, since it recurses on what is unvisited. -/
theorem countdown_settles {g : FlowGraph} (hg : ofFunction countdown "" = .ok g) :
    ∃ facts, everyPath.fixedPoint g .roundRobin 4 = .ok facts := by
  have h : (ofFunction countdown "").toOption.any (fun g =>
      (Search.leaveWithin g.graph.indices g.graph.successorList 40 [entry]
        [(entry, g.graph.successorList entry)]).any fun left =>
          (everyPath.runRoundRobin g 4 (everyPath.direction.orderAfter g left) 4
            {}).toOption.isSome)
      = true := by decide +kernel
  rw [hg, Except.toOption, Option.any_some] at h
  obtain ⟨left, hleft, h⟩ := (Option.any_eq_true _ _).mp h
  rw [Analysis.fixedPoint, Analysis.run, Direction.order_eq (.ofFunction hg), Search.postOrder,
    Search.leave_of_within hleft]
  change ∃ facts, everyPath.facts g <$>
    everyPath.runRoundRobin g 4 (everyPath.direction.orderAfter g left) 4 {} = .ok facts
  cases hrun : everyPath.runRoundRobin g 4 (everyPath.direction.orderAfter g left) 4 {} with
  | error err => rw [hrun] at h; cases h
  | ok p => exact ⟨everyPath.facts g p, rfl⟩

theorem ofFunction_isStable_countdown : ∃ g facts, ofFunction countdown "" = .ok g ∧
    everyPath.fixedPoint g .roundRobin 4 = .ok facts ∧ everyPath.isStable g facts = .ok true ∧
      ∀ id, (id ∈ facts.before ↔ id ∈ g.nodes.map (·.id)) ∧
        (id ∈ facts.after ↔ id ∈ g.nodes.map (·.id)) := by
  obtain ⟨g, hg⟩ := countdown_builds
  obtain ⟨facts, hfacts⟩ := countdown_settles hg
  exact ⟨g, facts, hg, hfacts, ofFunction_isStable hg everyPath .roundRobin hfacts⟩

end FlowGraph

end ContractFlow
