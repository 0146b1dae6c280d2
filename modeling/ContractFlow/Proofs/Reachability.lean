import ContractFlow.Proofs.Accounting
import ContractFlow.Proofs.DepthFirst
import ContractFlow.Proofs.Shape

/-!
What can be reached in a graph. `Search.Worklist` is a search that marks a vertex when it is first
met and queues it to be searched later. While it runs, everything marked can be reached, and what is
marked and no longer queued has only marked successors (`Search.Worklist.Frontier`); so its marks in
the end are what can be reached. It ends because a vertex is queued only when there is one less to
mark (`Search.Worklist.exists_ends`). The search with a stack finds the same vertices.

Main statement: `reachability_exact`. In every graph that is made by insertions, what is found from
a vertex and what is left over are as `Digraph.Parted` says, and of the graph of a function the
nodes that `FlowGraph.LeftOver` describes are listed.
-/

namespace ContractFlow

open Relation

theorem toOption_eq_some_iff {ε α : Type} {e : Except ε α} {a : α} :
    e.toOption = some a ↔ e = .ok a := by
  cases e <;> simp [Except.toOption]

namespace Search

/-- The state of a search that marks what it meets: the marks, and what has still to be searched,
the last met first. -/
structure Worklist (α : Type) where
  marked : List α
  queue : List α

namespace Worklist

variable {α : Type} {domain l marks marks' marked queue : List α} {next : α → List α} {root x : α}
  {w : Worklist α}

/-- **The frontier.** The root is marked, and all marks are on vertices that can be reached from it.
What is queued is marked, and the successors of what is marked and not queued are marked as well. -/
structure Frontier (next : α → List α) (root : α) (w : Worklist α) : Prop where
  root_marked : root ∈ w.marked
  reached : ∀ x ∈ w.marked, ReflTransGen (fun a b => b ∈ next a) root x
  queued : w.queue ⊆ w.marked
  searched : ∀ x ∈ w.marked, x ∉ w.queue → next x ⊆ w.marked

theorem Frontier.start (next : α → List α) (root : α) : Frontier next root ⟨[root], [root]⟩ where
  root_marked := List.mem_singleton_self root
  reached _ hx := List.mem_singleton.mp hx ▸ .refl
  queued := List.Subset.refl _
  searched _ hx hqueue := absurd hx hqueue

variable [DecidableEq α]

/-- What is met for the first time is marked and queued. -/
def meet (w : Worklist α) (x : α) : Worklist α :=
  if x ∈ w.marked then w else ⟨x :: w.marked, x :: w.queue⟩

/-- **The search with a worklist.** It takes what was queued last and meets its successors, until
nothing is queued, and ends with the marks that there are then. -/
inductive Ends (next : α → List α) : Worklist α → List α → Prop
  | done {marks : List α} : Ends next ⟨marks, []⟩ marks
  | take {x : α} {marked queue marks : List α} :
    Ends next ((next x).foldl meet ⟨marked, queue⟩) marks →
    Ends next ⟨marked, x :: queue⟩ marks

theorem Ends.unique (h : Ends next w marks) (h' : Ends next w marks') : marks = marks' := by
  induction h with
  | done =>
    cases h'
    rfl
  | take _ ih =>
    cases h' with
    | take h' => exact ih h'

theorem mem_marked_foldl_meet : x ∈ (l.foldl meet w).marked ↔ x ∈ w.marked ∨ x ∈ l := by
  induction l generalizing w with
  | nil => simp
  | cons y l ih =>
    rw [List.foldl_cons, ih, meet]
    split
    · next hy => grind
    · grind

theorem mem_queue_foldl_meet : x ∈ (l.foldl meet w).queue ↔ x ∈ w.queue ∨ x ∈ l ∧ x ∉ w.marked := by
  induction l generalizing w with
  | nil => simp
  | cons y l ih =>
    rw [List.foldl_cons, ih, meet]
    split
    · next hy => grind
    · grind

namespace Frontier

theorem take (F : Frontier next root ⟨marked, x :: queue⟩) :
    Frontier next root ((next x).foldl meet ⟨marked, queue⟩) where
  root_marked := mem_marked_foldl_meet.mpr (.inl F.root_marked)
  reached y hy := by
    rcases mem_marked_foldl_meet.mp hy with hy | hy
    · exact F.reached y hy
    · exact (F.reached x (F.queued List.mem_cons_self)).tail hy
  queued y hy := by
    rcases mem_queue_foldl_meet.mp hy with hy | ⟨hy, -⟩
    · exact mem_marked_foldl_meet.mpr (.inl (F.queued (List.mem_cons_of_mem x hy)))
    · exact mem_marked_foldl_meet.mpr (.inr hy)
  searched y hy hqueue := by
    obtain ⟨hqueue, hnew⟩ := not_or.mp (mt mem_queue_foldl_meet.mpr hqueue)
    -- what has been met just now is queued, so `y` had its mark before
    have hmarked : y ∈ marked := by
      rcases mem_marked_foldl_meet.mp hy with hy | hy
      · exact hy
      · exact not_not.mp fun hmarked => hnew ⟨hy, hmarked⟩
    intro z hz
    by_cases hyx : y = x
    · exact mem_marked_foldl_meet.mpr (.inr (hyx ▸ hz))
    · have hrest : y ∉ x :: queue := by simp only [List.mem_cons, not_or]; exact ⟨hyx, hqueue⟩
      exact mem_marked_foldl_meet.mpr (.inl (F.searched y hmarked hrest hz))

/-- The search ends with marks on what can be reached. -/
theorem mem_marks_iff (F : Frontier next root w) (h : Ends next w marks) (x : α) :
    x ∈ marks ↔ ReflTransGen (fun a b => b ∈ next a) root x := by
  induction h with
  | done =>
    refine ⟨F.reached x, fun hreach => ?_⟩
    induction hreach with
    | refl => exact F.root_marked
    | tail _ hstep ih => exact F.searched _ ih List.not_mem_nil hstep
  | take _ ih => exact ih F.take

end Frontier

/-- How much of the domain has no mark, and how much is queued. -/
def remaining (domain : List α) (w : Worklist α) : Nat := unvisited domain w.marked + w.queue.length

theorem remaining_foldl_meet_le (hl : l ⊆ domain) :
    remaining domain (l.foldl meet w) ≤ remaining domain w := by
  induction l generalizing w with
  | nil => exact Nat.le_refl _
  | cons y l ih =>
    obtain ⟨hy, hl⟩ := List.cons_subset.mp hl
    refine (ih hl).trans ?_
    rw [meet]
    split
    · exact Nat.le_refl _
    · next hnew =>
      have := unvisited_cons_lt hy hnew
      simp only [remaining, List.length_cons]
      omega

/-- The search ends if it stays in a finite domain. -/
theorem exists_ends (hnext : ∀ x ∈ domain, next x ⊆ domain) (w : Worklist α)
    (hqueue : w.queue ⊆ domain) :
    ∃ marks, Ends next w marks := by
  induction hn : remaining domain w using Nat.strongRecOn generalizing w with
  | ind n ih =>
    obtain ⟨marked, queue⟩ := w
    cases queue with
    | nil => exact ⟨marked, .done⟩
    | cons x queue =>
      obtain ⟨hx, hqueue⟩ := List.cons_subset.mp hqueue
      have hle :
        remaining domain ((next x).foldl meet ⟨marked, queue⟩) ≤ remaining domain ⟨marked, queue⟩ :=
        remaining_foldl_meet_le (hnext x hx)
      have hlt : remaining domain ⟨marked, queue⟩ < n := by
        simp only [remaining, List.length_cons] at hn ⊢
        omega
      have hqueue' : ((next x).foldl meet ⟨marked, queue⟩).queue ⊆ domain := by
        intro y hy
        rcases mem_queue_foldl_meet.mp hy with hy | ⟨hy, -⟩
        · exact hqueue hy
        · exact hnext x hx hy
      obtain ⟨marks, h⟩ := ih _ (hle.trans_lt hlt) _ hqueue' rfl
      exact ⟨marks, .take h⟩

end Worklist

/-- The search with a stack meets what can be reached. -/
theorem mem_explore_iff {α : Type} [DecidableEq α] {domain : List α} {next : α → List α} {root : α}
    (hnext : ∀ x ∈ domain, next x ⊆ domain) (hroot : root ∈ domain) (x : α) :
    x ∈ explore domain next [] [root] ↔ ReflTransGen (fun a b => b ∈ next a) root x := by
  have hpending : [root] ⊆ domain := List.cons_subset.mpr ⟨hroot, List.nil_subset _⟩
  obtain ⟨visited, order, h⟩ := exists_depthFirst hnext [] [root] hpending
  obtain ⟨entered, rfl, heq⟩ := h.explore_eq hnext hpending []
  rw [List.append_nil, explore, List.append_nil] at heq
  rw [heq, ← h.mem_order_iff, ← List.mem_reverse, ← List.append_nil entered.reverse,
    h.mem_visited_iff]
  simp

end Search

namespace Digraph

variable {V E : Type} {g : Digraph V E} {root : Nat} {reached rest : List Nat}

/-- **What is reached from a vertex, and what is left over.** Reached is what a path leads to, also
the one without edges; the other vertices are left over. Both are listed in increasing order and
once each. The search with a worklist ends, and marks what is reached. -/
structure Parted (g : Digraph V E) (root : Nat) (reached rest : List Nat) : Prop where
  mem_reached : ∀ v, v ∈ reached ↔ ReflTransGen g.Adjacent root v
  mem_rest : ∀ v, v ∈ rest ↔ g.hasVertex v = true ∧ ¬ReflTransGen g.Adjacent root v
  reached_increasing : reached.Pairwise (· < ·)
  rest_increasing : rest.Pairwise (· < ·)
  ends : ∃! marks, Search.Worklist.Ends g.successorList ⟨[root], [root]⟩ marks
  marks : ∀ marks, Search.Worklist.Ends g.successorList ⟨[root], [root]⟩ marks →
    ∀ v, v ∈ marks ↔ v ∈ reached

theorem indices_increasing (g : Digraph V E) : g.indices.Pairwise (· < ·) :=
  Std.ExtTreeMap.ordered_keys.imp Nat.compare_eq_lt.mp

theorem Consistent.successorList_eq_adjacent (H : g.Consistent) :
    (fun i j => j ∈ g.successorList i) = g.Adjacent := by
  funext i j
  exact propext H.mem_successorList_iff

theorem Consistent.hasVertex_of_reachable (H : g.Consistent)
    (hroot : g.hasVertex root = true) {v : Nat}
    (h : ReflTransGen g.Adjacent root v) : g.hasVertex v = true := by
  cases h with
  | refl => exact hroot
  | tail _ hstep => exact (H.hasVertex_of_adjacent hstep).2

/-- Where no edge leads, no path leads from elsewhere. -/
theorem not_reachable_of_tail_ne {v : Nat} (hroot : root ≠ v)
    (h : ∀ e ∈ g.edges.toList, e.tail ≠ v) :
    ¬ReflTransGen g.Adjacent root v := by
  intro hreach
  cases hreach with
  | refl => exact hroot rfl
  | tail _ hstep =>
    obtain ⟨e, he, -, htail⟩ := hstep
    exact h e he htail

theorem unreachable_of_reachable (h : g.reachable root = .ok reached) :
    g.unreachable root = .ok (g.indices.filter (· ∉ reached)) := by
  rw [unreachable, h]
  rfl

theorem Consistent.parted (H : g.Consistent) (hroot : g.hasVertex root = true) :
    ∃ reached rest, g.reachable root = .ok reached ∧ g.unreachable root = .ok rest ∧
      g.Parted root reached rest := by
  have hdomain : ∀ i ∈ g.indices, g.successorList i ⊆ g.indices :=
    fun i _ => H.successorList_subset_indices i
  have hindex : root ∈ g.indices := mem_indices_iff.mpr hroot
  have hreachable : g.reachable root =
      .ok (g.indices.filter (· ∈ Search.explore g.indices g.successorList [] [root])) := by
    rw [reachable, if_pos hroot]
  have hmem : ∀ v, v ∈ g.indices.filter (· ∈ Search.explore g.indices g.successorList [] [root]) ↔
      ReflTransGen g.Adjacent root v := by
    intro v
    simp only [List.mem_filter, decide_eq_true_eq, Search.mem_explore_iff hdomain hindex,
      H.successorList_eq_adjacent, mem_indices_iff]
    exact and_iff_right_of_imp (H.hasVertex_of_reachable hroot)
  refine ⟨_, _, hreachable, unreachable_of_reachable hreachable, hmem, fun v => ?_, ?_, ?_, ?_,
    fun marks h v => ?_⟩
  · simp only [List.mem_filter, decide_eq_true_eq, hmem, mem_indices_iff]
  · exact g.indices_increasing.filter _
  · exact g.indices_increasing.filter _
  · obtain ⟨marks, h⟩ := Search.Worklist.exists_ends hdomain ⟨[root], [root]⟩
      (List.cons_subset.mpr ⟨hindex, List.nil_subset _⟩)
    exact ⟨marks, h, fun _ h' => h'.unique h⟩
  · rw [hmem, (Search.Worklist.Frontier.start _ root).mem_marks_iff h, H.successorList_eq_adjacent]

/-- The vertices are those at the indices. -/
theorem vertices_eq_filterMap (g : Digraph V E) :
    g.vertices = g.indices.filterMap fun i => (g.vertex i).toOption := by
  rw [vertices, indices, ← Std.ExtTreeMap.map_fst_toList_eq_keys, List.filterMap_map,
    ← List.filterMap_eq_map]
  apply List.filterMap_congr
  rintro ⟨i, v⟩ hv
  have hvertex : g.vertex i = .ok v :=
    vertex_eq_ok_iff.mpr (Std.ExtTreeMap.mem_toList_iff_getElem?_eq_some.mp hv)
  simp [hvertex, Except.toOption]

end Digraph

namespace FlowGraph

variable {g : FlowGraph} {first m n : FlowNode} {i j : Nat}

/-- **The nodes that are left over.** They are the nodes that no path from the first one leads to.
They are listed in the order of all nodes, which goes by their numbers, and once each: no two nodes
have the same id. -/
structure LeftOver (g : FlowGraph) (first : FlowNode) (l : List FlowNode) : Prop where
  mem_iff : ∀ n, n ∈ l ↔ n ∈ g.nodes ∧ ¬ReflTransGen g.Step first n
  in_order : l.Sublist g.nodes
  numbered : ∀ i, g.nodes[i]? = (g.node i).toOption
  nodup_ids : (l.map FlowNode.id).Nodup

/-- Paths between nodes are paths between their indices. -/
theorem WellFormed.reaches_iff (H : g.WellFormed) (hm : g.node i = .ok m) (hn : g.node j = .ok n) :
    ReflTransGen g.Step m n ↔ ReflTransGen g.graph.Adjacent i j := by
  constructor
  · intro h
    induction h generalizing j with
    | refl => exact H.distinct hm hn rfl ▸ .refl
    | tail _ hstep ih =>
      obtain ⟨e, he, hhead, htail⟩ := hstep
      exact (ih hhead).tail ⟨e, he, rfl, H.distinct htail hn rfl⟩
  · intro h
    induction h generalizing n with
    | refl => exact Except.ok.inj (hm.symm.trans hn) ▸ .refl
    | tail _ hstep ih =>
      obtain ⟨e, he, rfl, rfl⟩ := hstep
      obtain ⟨p, hp⟩ := Digraph.hasVertex_iff.mp (H.consistent.ends e he).1
      exact (ih hp).tail ⟨e, he, hp, hn⟩

/-- The unreachable nodes are those at the indices that are left over. -/
theorem unreachable_eq {rest : List Nat} (hrest : g.graph.unreachable entry = .ok rest)
    (hpresent : ∀ i ∈ rest, g.graph.hasVertex i = true) :
    g.unreachable = .ok (rest.filterMap fun i => (g.node i).toOption) := by
  rw [unreachable, hrest]
  rcases mapM_except_cases g.node rest with ⟨-, hmap⟩ | ⟨before, i, after, error, rfl, -, hi, -⟩
  · exact hmap
  · obtain ⟨n, hn⟩ := Digraph.hasVertex_iff.mp (hpresent i (by simp))
    cases hn.symm.trans hi

theorem WellFormed.leftOver (H : g.WellFormed) (hfirst : g.node entry = .ok first) :
    ∃ l, g.unreachable = .ok l ∧ g.LeftOver first l := by
  have hentry : g.graph.hasVertex entry = true := Digraph.hasVertex_iff.mpr ⟨first, hfirst⟩
  obtain ⟨reached, rest, hreachable, hrest, P⟩ := H.consistent.parted hentry
  refine ⟨_, unreachable_eq hrest fun i hi => ((P.mem_rest i).mp hi).1, fun n => ?_, ?_,
    H.getElem?_nodes, ?_⟩
  · simp only [List.mem_filterMap, toOption_eq_some_iff, P.mem_rest, mem_nodes_iff,
      ← exists_and_right]
    refine exists_congr fun i => and_comm.trans (and_congr_right fun hi => ?_)
    rw [H.reaches_iff hfirst hi, and_iff_right (Digraph.hasVertex_iff.mpr ⟨n, hi⟩)]
  · rw [Digraph.unreachable_of_reachable hreachable] at hrest
    obtain rfl := Except.ok.inj hrest
    rw [nodes, g.graph.vertices_eq_filterMap]
    exact List.filter_sublist.filterMap _
  · rw [List.map_filterMap]
    refine P.rest_increasing.nodup.filterMap fun i j id hi hj => ?_
    simp only [Option.mem_def, Option.map_eq_some_iff, toOption_eq_some_iff] at hi hj
    obtain ⟨m, hm, rfl⟩ := hi
    obtain ⟨n, hn, hid⟩ := hj
    exact H.distinct hm hn hid.symm

end FlowGraph

/-- **Reachability is exact.** From a vertex of a graph that is made by insertions, what a path
leads to is found, and the other vertices are left over. The unreachable nodes in the graph of a
function are those that no path from its entry leads to. They are in the order in which nodes are
created: a new node gets the next number and is listed last. -/
theorem reachability_exact :
    (∀ {V E : Type} (insertions : List (Digraph.Insertion V E)) (root : Nat),
      (Digraph.ofInsertions insertions).hasVertex root = true →
      ∃ reached rest, (Digraph.ofInsertions insertions).reachable root = .ok reached ∧
        (Digraph.ofInsertions insertions).unreachable root = .ok rest ∧
        (Digraph.ofInsertions insertions).Parted root reached rest) ∧
    (∀ (function : Node) (source : String) (g : FlowGraph),
      FlowGraph.ofFunction function source = .ok g →
      ∃ first l, g.node FlowGraph.entry = .ok first ∧ g.unreachable = .ok l ∧ g.LeftOver first l) ∧
    ∀ (g g' : FlowGraph) (id : String) (role : Role) (i : Nat), g.WellFormed →
      Build.insertNode id role g = .ok (i, g') →
      i = g.nodes.length ∧ g'.nodes = g.nodes ++ [{ id := id, role := role }] := by
  refine ⟨?_, ?_, ?_⟩
  · intro V E insertions root hroot
    exact (Digraph.consistent_ofInsertions insertions).parted hroot
  · intro function source g h
    obtain ⟨_, -, -, H, hheaders, -⟩ := FlowGraph.ofFunction_laidOut h
    obtain ⟨first, hfirst, -⟩ := H.exists_node_iff.mpr (congrArg (·[FlowGraph.entry]?) hheaders)
    obtain ⟨l, hl, hleft⟩ := H.leftOver hfirst
    exact ⟨first, l, hfirst, hl, hleft⟩
  · intro g g' id role i H h
    obtain ⟨rfl, -, -⟩ := Build.insertNode_eq_ok h
    exact ⟨FlowGraph.length_nodes.symm, H.nodes_insertNode h⟩

/-- `return k; k = n;` as the body of a function. -/
def abrupt : Node :=
  let node (id : UInt64) (kind : Kind Node) : Node := ⟨id, ⟨0, 0, 0⟩, kind⟩
  let name (id : UInt64) (name : String) : Node := node id (.identifier name none)
  node 1 (.functionDefinition {
    name := "abrupt"
    kind := .function
    visibility := none
    stateMutability := none
    parameters := []
    returnParameters := []
    body := some (node 2 (.block [
      node 3 (.returnStatement (some (name 4 "k"))),
      node 5 (.expressionStatement (node 6 (.assignment "=" (name 7 "k") (name 8 "n"))))]))
    malformedBody := false })

theorem reachability_exact_abrupt :
    (∃ reached rest, (Digraph.ofInsertions Digraph.tangled).hasVertex 2 = true ∧
      (Digraph.ofInsertions Digraph.tangled).reachable 2 = .ok reached ∧
      (Digraph.ofInsertions Digraph.tangled).unreachable 2 = .ok rest ∧ 2 ∈ reached ∧ 1 ∈ rest) ∧
    ∃ g l, FlowGraph.ofFunction abrupt "" = .ok g ∧ g.unreachable = .ok l ∧
      ∃ n ∈ l, n.id = "5_block" := by
  constructor
  · have hroot : (Digraph.ofInsertions Digraph.tangled).hasVertex 2 = true := by decide +kernel
    obtain ⟨reached, rest, hreachable, hrest, P⟩ := reachability_exact.1 Digraph.tangled 2 hroot
    refine ⟨reached, rest, hroot, hreachable, hrest, (P.mem_reached 2).mpr .refl,
      (P.mem_rest 1).mpr ⟨?_, ?_⟩⟩
    · decide +kernel
    · exact Digraph.not_reachable_of_tail_ne (by decide) (by decide +kernel)
  · have h : (FlowGraph.ofFunction abrupt "").toOption.isSome = true := by decide +kernel
    obtain ⟨g, hg⟩ := Option.isSome_iff_exists.mp h
    obtain ⟨first, l, hfirst, hl, L⟩ :=
      reachability_exact.2.1 abrupt "" g (toOption_eq_some_iff.mp hg)
    obtain ⟨_, ⟨⟩, -, H, hheaders, hedges, -⟩ :=
      FlowGraph.ofFunction_laidOut (toOption_eq_some_iff.mp hg)
    obtain ⟨n, hn, hid, -⟩ := H.exists_node_iff.mpr (congrArg (·[4]?) hheaders)
    refine ⟨g, l, toOption_eq_some_iff.mp hg, hl, n,
      (L.mem_iff n).mpr ⟨FlowGraph.mem_nodes_iff.mpr ⟨4, hn⟩, ?_⟩, hid⟩
    have hnone : ∀ e ∈ g.edges, e.tail ≠ 4 := by
      rw [hedges]
      decide
    rw [H.reaches_iff hfirst hn]
    exact Digraph.not_reachable_of_tail_ne (by decide) hnone

end ContractFlow
