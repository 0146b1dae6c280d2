import ContractFlow.Flow.Build
import ContractFlow.Proofs.Incidence

/-!
Well-formed control flow graphs. Whatever is built, it is built by three steps: creating a node,
connecting two nodes and pushing a statement into a node. Each of them keeps a graph well-formed.
-/

namespace ContractFlow

namespace Build

variable {g g' : FlowGraph}

theorem insertNode_eq_ok {id : String} {role : Role} {r : Nat}
    (h : insertNode id role g = .ok (r, g')) :
    r = g.graph.vertexCount ∧ g.contains id = false ∧
      g.graph.insertVertex r { id := id, role := role } = .ok g'.graph := by
  unfold insertNode at h
  split at h
  · cases h
  · next hid =>
    dsimp only at h
    cases hv : g.graph.insertVertex g.graph.vertexCount { id := id, role := role } with
    | error err => rw [hv] at h; cases h
    | ok graph =>
      rw [hv] at h
      cases h
      exact ⟨rfl, Bool.eq_false_of_not_eq_true hid, hv⟩

theorem connect_eq_ok {head tail : Nat} {outcome : Option Branch} {r : Unit}
    (h : connect head tail outcome g = .ok (r, g')) :
    g.graph.insertEdge ⟨head, tail, outcome⟩ = .ok g'.graph := by
  unfold connect at h
  cases hv : g.graph.insertEdge ⟨head, tail, outcome⟩ with
  | error err => rw [hv] at h; cases h
  | ok graph => rw [hv] at h; cases h; rfl

theorem push_eq_ok {source : String} {index : Nat} {kind : StatementKind} {node : Node} {r : Unit}
    (h : push source index kind node g = .ok (r, g')) :
    g.graph.modifyVertex index (·.push (.make source kind node)) = .ok g'.graph := by
  unfold push at h
  cases hv : g.graph.modifyVertex index (·.push (.make source kind node)) with
  | error err => rw [hv] at h; cases h
  | ok graph => rw [hv] at h; cases h; rfl

end Build

open Build

/-! ## Well-formed graphs -/

/-- **Well-formed control flow graphs.** The edges are known consistently, the nodes are numbered
without gaps, and no two nodes have the same id. -/
structure FlowGraph.WellFormed (g : FlowGraph) : Prop where
  consistent : g.graph.Consistent
  dense : ∀ i, g.graph.hasVertex i = true ↔ i < g.graph.vertexCount
  distinct : ∀ {i j m n}, g.node i = .ok m → g.node j = .ok n → m.id = n.id → i = j

namespace FlowGraph

theorem contains_eq_false_iff {g : FlowGraph} {id : String} :
    g.contains id = false ↔ ∀ i n, g.node i = .ok n → n.id ≠ id := by
  simp only [contains, nodes, List.any_eq_false, Digraph.mem_vertices_iff, node, decide_eq_true_eq,
    forall_exists_index]
  exact ⟨fun h i n hn => h n i hn, fun h n i hn => h i n hn⟩

namespace WellFormed

theorem empty {g : FlowGraph} (h : g.graph = .empty) : g.WellFormed := by
  have hnone : ∀ i, g.graph.hasVertex i = false := by
    simp [h, Digraph.hasVertex, Digraph.empty]
  refine ⟨h ▸ .empty, fun i => ?_, fun {i _ m _} hi => ?_⟩
  · rw [hnone, h]
    simp [Digraph.vertexCount, Digraph.empty]
  · exact absurd (Digraph.hasVertex_iff.mpr ⟨m, hi⟩) (by simp [hnone])

variable {g g' : FlowGraph}

theorem insertNode (H : g.WellFormed) {id : String} {role : Role} {r : Nat}
    (h : Build.insertNode id role g = .ok (r, g')) : g'.WellFormed := by
  obtain ⟨rfl, hid, hv⟩ := insertNode_eq_ok h
  have hcount := Digraph.insertVertex_vertexCount hv
  refine ⟨H.consistent.insertVertex hv, fun i => ?_, fun {i j m n} hi hj hmn => ?_⟩
  · rw [Digraph.insertVertex_hasVertex hv, H.dense, hcount]
    omega
  · rw [contains_eq_false_iff] at hid
    rcases (Digraph.insertVertex_vertex_iff hv).mp hi with ⟨rfl, rfl⟩ | hi <;>
      rcases (Digraph.insertVertex_vertex_iff hv).mp hj with ⟨rfl, rfl⟩ | hj
    · rfl
    · exact absurd hmn.symm (hid _ _ hj)
    · exact absurd hmn (hid _ _ hi)
    · exact H.distinct hi hj hmn

theorem connect (H : g.WellFormed) {head tail : Nat} {outcome : Option Branch} {r : Unit}
    (h : Build.connect head tail outcome g = .ok (r, g')) : g'.WellFormed := by
  have hv := connect_eq_ok h
  have hcount := Digraph.insertEdge_vertexCount hv
  refine ⟨H.consistent.insertEdge hv, fun i => ?_, fun {i j m n} hi hj hmn => ?_⟩
  · rw [Digraph.insertEdge_hasVertex hv, H.dense, hcount]
  · rw [node, Digraph.insertEdge_vertex hv] at hi hj
    exact H.distinct hi hj hmn

theorem push (H : g.WellFormed) {source : String} {index : Nat} {kind : StatementKind} {node : Node}
    {r : Unit} (h : Build.push source index kind node g = .ok (r, g')) : g'.WellFormed := by
  have hv := push_eq_ok h
  have hcount := Digraph.modifyVertex_vertexCount hv
  have hnode : ∀ {i n}, g'.node i = .ok n → ∃ old, g.node i = .ok old ∧ old.id = n.id := by
    intro i n hi
    rw [FlowGraph.node, Digraph.modifyVertex_vertex hv] at hi
    cases hold : g.graph.vertex i with
    | error err => rw [hold] at hi; cases hi
    | ok old =>
      rw [hold] at hi
      cases hi
      refine ⟨old, hold, ?_⟩
      split <;> rfl
  refine ⟨H.consistent.modifyVertex hv, fun i => ?_, fun {i j m n} hi hj hmn => ?_⟩
  · rw [Digraph.modifyVertex_hasVertex hv, H.dense, hcount]
  · obtain ⟨m₀, hm₀, hm⟩ := hnode hi
    obtain ⟨n₀, hn₀, hn⟩ := hnode hj
    exact H.distinct hm₀ hn₀ (by rw [hm, hn, hmn])

end WellFormed

theorem WellFormed.exists_node {g : FlowGraph} (H : g.WellFormed) {i : Nat}
    (hi : i < g.graph.vertexCount) : ∃ n, g.node i = .ok n :=
  Digraph.hasVertex_iff.mp ((H.dense i).mpr hi)

/-! ## An example -/

/-- `while (n > 0) { if (n == k || done) break; n = n - 1; } return n;` as the body of a
function. -/
def countdown : Node :=
  let node (id : UInt64) (kind : Kind Node) : Node := ⟨id, ⟨0, 0, 0⟩, kind⟩
  let name (id : UInt64) (name : String) : Node := node id (.identifier name none)
  let operation (id : UInt64) (operator : String) (left right : Node) : Node :=
    node id (.binaryOperation operator left right)
  let number (id : UInt64) (digits : String) : Node := node id (.literal "number" (some digits))
  let test := operation 10 ">" (name 11 "n") (number 12 "0")
  let leave := operation 20 "||" (operation 21 "==" (name 22 "n") (name 23 "k")) (name 24 "done")
  let decrease := operation 30 "-" (name 31 "n") (number 32 "1")
  let body := node 5 (.block [
    node 6 (.ifStatement leave (some (node 7 .breakStatement)) none),
    node 8 (.expressionStatement (node 9 (.assignment "=" (name 33 "n") decrease)))])
  node 1 (.functionDefinition {
    name := "countdown"
    kind := .function
    visibility := none
    stateMutability := none
    parameters := []
    returnParameters := []
    body := some (node 2 (.block [
      node 4 (.whileStatement test body),
      node 3 (.returnStatement (some (name 34 "n")))]))
    malformedBody := false })

theorem countdown_builds : ∃ g, ofFunction countdown "" = .ok g := by
  have h : (ofFunction countdown "").toOption.isSome = true := by decide +kernel
  cases hg : ofFunction countdown "" with
  | ok g => exact ⟨g, rfl⟩
  | error err => simp [hg, Except.toOption] at h

end FlowGraph

end ContractFlow
