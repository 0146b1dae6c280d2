import ContractFlow.Dataflow.Solver
import ContractFlow.Proofs.Layout

/-!
The nodes that a solver visits. Sources and sinks are the two ends of edges
(`Direction.mem_sources_iff`, `Direction.mem_sinks_iff`). No lookup fails in a graph with an entry
(`Direction.order_eq`), and the order that nodes are first visited in has each node once
(`Direction.order_spec`): a depth-first search leaves only what it has entered, and enters nothing
twice.
-/

namespace ContractFlow

theorem nodup_eraseDups {α : Type} [DecidableEq α] (l : List α) : l.eraseDups.Nodup := by
  induction hn : l.length using Nat.strongRecOn generalizing l with
  | ind n ih =>
    cases l with
    | nil => simp
    | cons x rest =>
      rw [List.eraseDups_cons, List.nodup_cons]
      constructor
      · simp [List.mem_eraseDups]
      · refine ih _ ?_ _ rfl
        have := List.length_filter_le (fun y => !y == x) rest
        simp only [List.length_cons] at hn
        omega

namespace Search

variable {α : Type} [DecidableEq α] {domain : List α} {next : α → List α}

/-- A search leaves what is on its stack, and what it still enters, once each. -/
theorem leave_spec (visited : List α) (stack : List (α × List α)) (hnodup : (stack.map (·.1)).Nodup)
    (hvisited : ∀ x ∈ stack.map (·.1), x ∈ visited) :
    (leave domain next visited stack).Nodup ∧
      ∀ y ∈ leave domain next visited stack, y ∈ stack.map (·.1) ∨ y ∈ domain ∧ y ∉ visited := by
  induction visited, stack using leave.induct domain next with
  | case1 visited => simp [leave]
  | case2 visited x stack ih =>
    simp only [List.map_cons, List.nodup_cons, List.forall_mem_cons] at hnodup hvisited
    obtain ⟨hnew, hmem⟩ := ih hnodup.2 hvisited.2
    rw [leave, List.nodup_cons]
    refine ⟨⟨fun hx => ?_, hnew⟩, fun y hy => ?_⟩
    · rcases hmem x hx with h | h
      · exact hnodup.1 h
      · exact h.2 hvisited.1
    · rcases List.mem_cons.mp hy with rfl | hy
      · simp
      · exact (hmem y hy).imp_left (List.mem_cons_of_mem _)
  | case3 visited x y pending stack hy ih =>
    rw [leave, if_pos hy]
    exact ih hnodup hvisited
  | case4 visited x y pending stack hy ih =>
    rw [leave, if_neg hy]
    obtain ⟨hy, hdomain⟩ := not_or.mp hy
    have hnew : y ∉ ((x, pending) :: stack).map (·.1) := fun h => hy (hvisited y h)
    obtain ⟨hnodup', hmem⟩ := ih (List.nodup_cons.mpr ⟨hnew, hnodup⟩)
      (List.forall_mem_cons.mpr ⟨List.mem_cons_self,
        fun z hz => List.mem_cons_of_mem _ (hvisited z hz)⟩)
    refine ⟨hnodup', fun z hz => ?_⟩
    rcases hmem z hz with h | ⟨hz, hz'⟩
    · rcases List.mem_cons.mp h with rfl | h
      · exact .inr ⟨Decidable.not_not.mp hdomain, hy⟩
      · exact .inl h
    · exact .inr ⟨hz, fun h => hz' (List.mem_cons_of_mem _ h)⟩

theorem nodup_postOrder (root : α) : (postOrder domain next root).Nodup :=
  (leave_spec [root] [(root, next root)] (by simp) (by simp)).1

theorem mem_domain_of_mem_postOrder {root x : α} (hroot : root ∈ domain)
    (hx : x ∈ postOrder domain next root) : x ∈ domain := by
  rcases (leave_spec [root] [(root, next root)] (by simp) (by simp)).2 x hx with h | h
  · rw [List.map_singleton, List.mem_singleton] at h
    exact h ▸ hroot
  · exact h.1

/-- The search with a bound on the number of its steps. -/
def leaveWithin (domain : List α) (next : α → List α) :
    Nat → List α → List (α × List α) → Option (List α)
  | _, _, [] => some []
  | 0, _, _ :: _ => none
  | fuel + 1, visited, (x, []) :: stack =>
    (leaveWithin domain next fuel visited stack).map (x :: ·)
  | fuel + 1, visited, (x, y :: pending) :: stack =>
    if y ∈ visited ∨ y ∉ domain then leaveWithin domain next fuel visited ((x, pending) :: stack)
    else leaveWithin domain next fuel (y :: visited) ((y, next y) :: (x, pending) :: stack)

theorem leave_of_within {fuel : Nat} {visited : List α} {stack : List (α × List α)} {left : List α}
    (h : leaveWithin domain next fuel visited stack = some left) :
    leave domain next visited stack = left := by
  induction fuel generalizing visited stack left with
  | zero =>
    cases stack with
    | nil =>
      cases h
      rw [leave]
    | cons x stack => cases h
  | succ fuel ih =>
    rcases stack with _ | ⟨⟨x, _ | ⟨y, pending⟩⟩, stack⟩
    · cases h
      rw [leave]
    · obtain ⟨rest, hrest, rfl⟩ := Option.map_eq_some_iff.mp h
      rw [leave, ih hrest]
    · rw [leaveWithin] at h
      rw [leave]
      split at h
      · next hy => rw [if_pos hy, ih h]
      · next hy => rw [if_neg hy, ih h]

end Search

/-- A graph that the solvers run on: it has an entry. -/
structure FlowGraph.Rooted (g : FlowGraph) : Prop extends g.WellFormed where
  entry_lt : entry < g.graph.vertexCount

theorem FlowGraph.Rooted.ofFunction {function : Node} {source : String} {g : FlowGraph}
    (h : ofFunction function source = .ok g) : g.Rooted := by
  obtain ⟨_, -, L⟩ := ofFunction_laidOut h
  refine ⟨L.wellFormed, ?_⟩
  rw [← length_headers, L.headers, List.length_append]
  exact Nat.lt_add_right _ Nat.zero_lt_two

namespace Direction

variable {g : FlowGraph} {d : Direction} {i j : Nat}

/-- Facts flow from one index to another. -/
def Flows (d : Direction) (g : FlowGraph) (j i : Nat) : Prop :=
  ∃ e ∈ g.edges, match d with
    | forward => e.head = j ∧ e.tail = i
    | backward => e.tail = j ∧ e.head = i

theorem Flows.lt_size (H : g.WellFormed) (h : d.Flows g j i) :
    j < g.graph.vertexCount ∧ i < g.graph.vertexCount := by
  obtain ⟨e, he, hends⟩ := h
  have hhead := (H.dense _).mp (H.consistent.ends e he).1
  have htail := (H.dense _).mp (H.consistent.ends e he).2
  cases d with
  | forward =>
    obtain ⟨rfl, rfl⟩ := hends
    exact ⟨hhead, htail⟩
  | backward =>
    obtain ⟨rfl, rfl⟩ := hends
    exact ⟨htail, hhead⟩

theorem mem_sources_iff (H : g.WellFormed) (hi : i < g.graph.vertexCount) :
    j ∈ d.sources g i ↔ d.Flows g j i := by
  have hi := (H.dense i).mpr hi
  cases d with
  | forward =>
    refine (H.consistent.mem_predecessorList hi).trans ?_
    simp only [Flows, FlowGraph.edges, and_comm]
  | backward =>
    refine (H.consistent.mem_successorList hi).trans ?_
    simp only [Flows, FlowGraph.edges, and_comm]

theorem mem_sinks_iff (H : g.WellFormed) (hj : j < g.graph.vertexCount) :
    i ∈ d.sinks g j ↔ d.Flows g j i := by
  have hj := (H.dense j).mpr hj
  cases d with
  | forward => exact H.consistent.mem_successorList hj
  | backward => exact H.consistent.mem_predecessorList hj

theorem nodup_sinks (H : g.WellFormed) (hj : j < g.graph.vertexCount) : (d.sinks g j).Nodup := by
  have hj := (H.dense j).mpr hj
  cases d with
  | forward =>
    rw [sinks, H.consistent.successorList hj]
    exact nodup_eraseDups _
  | backward =>
    rw [sinks, H.consistent.predecessorList hj]
    exact nodup_eraseDups _

theorem length_le_of_forall_lt {l : List Nat} {n : Nat} (hl : l.Nodup) (h : ∀ x ∈ l, x < n) :
    l.length ≤ n := by
  have hsub : l ⊆ List.range n := fun x hx => List.mem_range.mpr (h x hx)
  simpa using (hl.subperm hsub).length_le

theorem length_sinks_le (H : g.WellFormed) (hj : j < g.graph.vertexCount) :
    (d.sinks g j).length ≤ g.graph.vertexCount :=
  length_le_of_forall_lt (nodup_sinks H hj) fun _ hi => (((mem_sinks_iff H hj).mp hi).lt_size H).2

/-- The order is what is reached followed by the other nodes. -/
theorem orderAfter_spec {left : List Nat} (hnodup : left.Nodup)
    (hmem : ∀ i ∈ left, i ∈ g.graph.indices) :
    (d.orderAfter g left).Nodup ∧ ∀ i, i ∈ d.orderAfter g left ↔ i ∈ g.graph.indices := by
  have key : ∀ reached : List Nat, reached.Nodup → (∀ i ∈ reached, i ∈ g.graph.indices) →
      (reached ++ g.graph.indices.filter (· ∉ reached)).Nodup ∧
        ∀ i, i ∈ reached ++ g.graph.indices.filter (· ∉ reached) ↔ i ∈ g.graph.indices := by
    intro reached hnodup hmem
    refine ⟨List.nodup_append.mpr ⟨hnodup, Digraph.nodup_indices.filter _, ?_⟩, fun i => ?_⟩
    · rintro i hi _ hj rfl
      simp [hi] at hj
    · by_cases hi : i ∈ reached
      · simp [hi, hmem i hi]
      · simp [hi]
  cases d with
  | forward => exact key _ (List.nodup_reverse.mpr hnodup) (by simpa using hmem)
  | backward => exact key _ hnodup hmem

theorem forM_eq_ok {f : Nat → Except Error Unit} {l : List Nat} (h : ∀ i ∈ l, f i = .ok ()) :
    l.forM f = .ok () := by
  induction l with
  | nil => rfl
  | cons i l ih =>
    rw [List.forM_eq_forM, List.forM_cons, h i List.mem_cons_self]
    exact ih fun j hj => h j (List.mem_cons_of_mem i hj)

/-- **No lookup fails.** The neighbors of all nodes of a graph are known, and so is the order in
which a search from its entry leaves them. -/
theorem order_eq (R : g.Rooted) (d : Direction) :
    d.order g = .ok (d.orderAfter g
      (Search.postOrder g.graph.indices g.graph.successorList FlowGraph.entry)) := by
  have hlookups : (List.range g.graph.vertexCount).forM (fun index => do
      discard (g.graph.predecessors index)
      discard (g.graph.successors index)) = Except.ok () := by
    refine forM_eq_ok fun i hi => ?_
    have hi := (R.dense i).mpr (List.mem_range.mp hi)
    rw [R.consistent.predecessors hi, R.consistent.successors hi]
    rfl
  rw [order, hlookups, Digraph.postOrder, if_pos ((R.dense _).mpr R.entry_lt)]
  rfl

/-- The order has each node of a graph once. -/
theorem order_spec (R : g.Rooted) (d : Direction) : ∃ order, d.order g = .ok order ∧
      order.length = g.graph.vertexCount ∧ ∀ i, i ∈ order ↔ i < g.graph.vertexCount := by
  have hroot := Digraph.mem_indices_iff.mpr ((R.dense _).mpr R.entry_lt)
  obtain ⟨hnodup, hmem⟩ := orderAfter_spec (g := g) (d := d)
    (Search.nodup_postOrder FlowGraph.entry)
    fun i => Search.mem_domain_of_mem_postOrder hroot
  refine ⟨_, order_eq R d, ?_, fun i => ?_⟩
  · rw [← Digraph.length_indices]
    exact ((List.perm_ext_iff_of_nodup hnodup Digraph.nodup_indices).mpr hmem).length_eq
  · rw [hmem, Digraph.mem_indices_iff, R.dense]

end Direction

end ContractFlow
