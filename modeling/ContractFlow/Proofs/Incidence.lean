import ContractFlow.Digraph.Search
import Mathlib

/-!
Incidence in directed graphs. A graph has its vertices in one table, its edges in an array, and the
numbers of the edges of each vertex in two more tables, which are changed one after the other.
`Digraph.Consistent` says that the four agree, and holds of every graph that is made by inserting
vertices and edges. In a consistent graph the neighbours of a vertex are given by the list of edges
alone (`Consistent.mem_successorList`, `Consistent.mem_predecessorList`).
-/

namespace ContractFlow.Digraph

variable {V E : Type} {g g' : Digraph V E} {e : Edge E} {i j : Nat} {v : V}

theorem lookup_eq_ok_iff {α : Type} {table : Std.ExtTreeMap Nat α} {a : α} :
    lookup table i = .ok a ↔ table[i]? = some a := by
  unfold lookup
  cases table[i]? <;> simp

theorem lookup_of_absent {α : Type} {table : Std.ExtTreeMap Nat α} (h : table.contains i = false) :
    lookup table i = .error (.vertexNotFound i) := by
  rw [Std.ExtTreeMap.contains_eq_isSome_getElem?, Option.isSome_eq_false_iff,
    Option.isNone_iff_eq_none] at h
  rw [lookup, h]

theorem vertex_eq_ok_iff : g.vertex i = .ok v ↔ g.vertexAt[i]? = some v := lookup_eq_ok_iff

theorem hasVertex_iff : g.hasVertex i = true ↔ ∃ v, g.vertex i = .ok v := by
  simp only [hasVertex, Std.ExtTreeMap.contains_eq_isSome_getElem?, Option.isSome_iff_exists,
    vertex_eq_ok_iff]

theorem vertex_of_absent (h : g.hasVertex i = false) : g.vertex i = .error (.vertexNotFound i) :=
  lookup_of_absent h

theorem mem_vertices_iff : v ∈ g.vertices ↔ ∃ i, g.vertex i = .ok v := by
  simp only [vertices, List.mem_map, Prod.exists, vertex_eq_ok_iff,
    Std.ExtTreeMap.mem_toList_iff_getElem?_eq_some, exists_eq_right]

theorem mem_indices_iff : i ∈ g.indices ↔ g.hasVertex i = true := by
  rw [indices, Std.ExtTreeMap.mem_keys, Std.ExtTreeMap.mem_iff_contains, hasVertex]

theorem length_indices : g.indices.length = g.vertexCount := Std.ExtTreeMap.length_keys

theorem nodup_indices : g.indices.Nodup := Std.ExtTreeMap.nodup_keys

theorem Numbers.getElem?_register (table : Numbers) (i n k : Nat) : (table.register i n)[k]? =
    if i = k then some ((table[i]?.getD #[]).push n) else table[k]? := by
  rw [register, Std.ExtTreeMap.getElem?_alter]
  simp only [Std.LawfulEqOrd.compare_eq_iff_eq]

theorem Numbers.contains_register (table : Numbers) (i n k : Nat) :
    (table.register i n).contains k = (decide (i = k) || table.contains k) := by
  simp only [Std.ExtTreeMap.contains_eq_isSome_getElem?, getElem?_register]
  split <;> simp [*]

/-! ## What the changes do -/

theorem Update.run_insertVertex (g : Digraph V E) (i : Nat) (v : V) :
    (Update.insertVertex i v).run g =
      if g.hasVertex i then (.error .duplicateVertex, g)
      else (.ok (), ⟨g.vertexAt.insert i v, g.edges, g.outgoing.insert i #[],
        g.incoming.insert i #[]⟩) := by
  change (if g.hasVertex i = true then throw _ else _ : Update V E Unit) g = _
  split <;> rfl

theorem Update.run_insertEdge (g : Digraph V E) (e : Edge E) :
    (Update.insertEdge e).run g =
      if !g.hasVertex e.head then (.error (.vertexNotFound e.head), g)
      else if !g.hasVertex e.tail then (.error (.vertexNotFound e.tail), g)
      else (.ok g.edgeCount, ⟨g.vertexAt, g.edges.push e, g.outgoing.register e.head g.edgeCount,
        g.incoming.register e.tail g.edgeCount⟩) := by
  change (if (!g.hasVertex e.head) = true then throw _ else _ : Update V E Nat) g = _
  split
  · rfl
  · change (if (!g.hasVertex e.tail) = true then throw _ else _ : Update V E Nat) g = _
    split <;> rfl

theorem Update.run_modifyVertex (g : Digraph V E) (i : Nat) (f : V → V) :
    (Update.modifyVertex i f).run g =
      if !g.hasVertex i then (.error (.vertexNotFound i), g)
      else (.ok (), ⟨g.vertexAt.modify i f, g.edges, g.outgoing, g.incoming⟩) := by
  change (if (!g.hasVertex i) = true then throw _ else _ : Update V E Unit) g = _
  split <;> rfl

theorem insertVertex_eq_ok_iff : g.insertVertex i v = .ok g' ↔ g.hasVertex i = false ∧
    g' = ⟨g.vertexAt.insert i v, g.edges, g.outgoing.insert i #[], g.incoming.insert i #[]⟩ := by
  rw [insertVertex, after, Update.run_insertVertex]
  cases g.hasVertex i <;> simp [eq_comm]

theorem insertEdge_eq_ok_iff : g.insertEdge e = .ok g' ↔
    g.hasVertex e.head = true ∧ g.hasVertex e.tail = true ∧
      g' = ⟨g.vertexAt, g.edges.push e, g.outgoing.register e.head g.edgeCount,
        g.incoming.register e.tail g.edgeCount⟩ := by
  rw [insertEdge, after, Update.run_insertEdge]
  cases g.hasVertex e.head <;> cases g.hasVertex e.tail <;> simp [eq_comm]

theorem modifyVertex_eq_ok_iff {f : V → V} : g.modifyVertex i f = .ok g' ↔
    g.hasVertex i = true ∧ g' = ⟨g.vertexAt.modify i f, g.edges, g.outgoing, g.incoming⟩ := by
  rw [modifyVertex, after, Update.run_modifyVertex]
  cases g.hasVertex i <;> simp [eq_comm]

theorem insertVertex_vertexCount (h : g.insertVertex i v = .ok g') :
    g'.vertexCount = g.vertexCount + 1 := by
  obtain ⟨hnew, rfl⟩ := insertVertex_eq_ok_iff.mp h
  rw [hasVertex] at hnew
  simp [vertexCount, Std.ExtTreeMap.size_insert, hnew]

theorem insertVertex_edges (h : g.insertVertex i v = .ok g') : g'.edges = g.edges := by
  obtain ⟨-, rfl⟩ := insertVertex_eq_ok_iff.mp h
  rfl

theorem insertVertex_vertex (h : g.insertVertex i v = .ok g') (k : Nat) :
    g'.vertex k = if i = k then .ok v else g.vertex k := by
  obtain ⟨-, rfl⟩ := insertVertex_eq_ok_iff.mp h
  simp only [vertex, lookup, Std.ExtTreeMap.getElem?_insert, Std.LawfulEqOrd.compare_eq_iff_eq]
  by_cases hk : i = k <;> simp [hk]

theorem insertVertex_hasVertex (h : g.insertVertex i v = .ok g') (k : Nat) :
    g'.hasVertex k = true ↔ k = i ∨ g.hasVertex k = true := by
  rw [hasVertex_iff, hasVertex_iff, insertVertex_vertex h]
  by_cases hk : i = k
  · simp [hk]
  · simp [hk, Ne.symm hk]

theorem insertVertex_vertex_iff (h : g.insertVertex i v = .ok g') {k : Nat} {w : V} :
    g'.vertex k = .ok w ↔ (k = i ∧ w = v) ∨ g.vertex k = .ok w := by
  obtain ⟨hnew, -⟩ := insertVertex_eq_ok_iff.mp h
  rw [insertVertex_vertex h]
  by_cases hk : i = k
  · subst hk
    simp [vertex_of_absent hnew, eq_comm]
  · simp [hk, Ne.symm hk]

theorem insertEdge_vertexCount (h : g.insertEdge e = .ok g') : g'.vertexCount = g.vertexCount := by
  obtain ⟨-, -, rfl⟩ := insertEdge_eq_ok_iff.mp h
  rfl

theorem insertEdge_edges (h : g.insertEdge e = .ok g') : g'.edges = g.edges.push e := by
  obtain ⟨-, -, rfl⟩ := insertEdge_eq_ok_iff.mp h
  rfl

theorem insertEdge_vertex (h : g.insertEdge e = .ok g') (k : Nat) : g'.vertex k = g.vertex k := by
  obtain ⟨-, -, rfl⟩ := insertEdge_eq_ok_iff.mp h
  rfl

theorem insertEdge_hasVertex (h : g.insertEdge e = .ok g') (k : Nat) :
    g'.hasVertex k = g.hasVertex k := by
  obtain ⟨-, -, rfl⟩ := insertEdge_eq_ok_iff.mp h
  rfl

section modifyVertex

variable {f : V → V}

theorem modifyVertex_vertexCount (h : g.modifyVertex i f = .ok g') :
    g'.vertexCount = g.vertexCount := by
  obtain ⟨-, rfl⟩ := modifyVertex_eq_ok_iff.mp h
  exact Std.ExtTreeMap.size_modify

theorem modifyVertex_edges (h : g.modifyVertex i f = .ok g') : g'.edges = g.edges := by
  obtain ⟨-, rfl⟩ := modifyVertex_eq_ok_iff.mp h
  rfl

theorem modifyVertex_vertex (h : g.modifyVertex i f = .ok g') (k : Nat) :
    g'.vertex k = (fun w => if i = k then f w else w) <$> g.vertex k := by
  obtain ⟨-, rfl⟩ := modifyVertex_eq_ok_iff.mp h
  simp only [vertex, lookup, Std.ExtTreeMap.getElem?_modify, Std.LawfulEqOrd.compare_eq_iff_eq]
  by_cases hk : i = k
  · subst hk
    cases g.vertexAt[i]? <;> simp [Functor.map, Except.map]
  · cases g.vertexAt[k]? <;> simp [Functor.map, Except.map, hk]

theorem modifyVertex_hasVertex (h : g.modifyVertex i f = .ok g') (k : Nat) :
    g'.hasVertex k = g.hasVertex k := by
  obtain ⟨-, rfl⟩ := modifyVertex_eq_ok_iff.mp h
  exact Std.ExtTreeMap.contains_modify

end modifyVertex

/-! ## The invariant -/

/-- **One table in step with the vertices and the edges.** The table has the indices of the
vertices, and under each the numbers of the edges with this end, in the order of insertion. -/
structure Lists (g : Digraph V E) (table : Numbers) (side : Edge E → Nat) : Prop where
  contains : ∀ i, table.contains i = g.hasVertex i
  inRange : ∀ {i : Nat} {numbers : Array Nat}, table[i]? = some numbers →
    ∀ k ∈ numbers, k < g.edgeCount
  edgesAt : ∀ {i : Nat} {numbers : Array Nat}, table[i]? = some numbers →
    g.edgesAt numbers = g.edges.toList.filter (side · = i)

/-- **The incidence invariant.** The ends of every edge are vertices, and the two tables list the
edges by where they come from and by where they lead to. -/
structure Consistent (g : Digraph V E) : Prop where
  ends : ∀ e ∈ g.edges.toList, g.hasVertex e.head = true ∧ g.hasVertex e.tail = true
  outgoing : g.Lists g.outgoing (·.head)
  incoming : g.Lists g.incoming (·.tail)

theorem edgesAt_congr {numbers : Array Nat} (h : ∀ k ∈ numbers, g'.edges[k]? = g.edges[k]?) :
    g'.edgesAt numbers = g.edgesAt numbers := by
  unfold edgesAt
  exact List.filterMap_congr fun k hk => h k (Array.mem_toList_iff.mp hk)

theorem edgesAt_push {numbers : Array Nat} {k : Nat} :
    g.edgesAt (numbers.push k) = g.edgesAt numbers ++ g.edges[k]?.toList := by
  simp only [edgesAt, Array.toList_push, List.filterMap_append, List.filterMap_cons,
    List.filterMap_nil]
  cases g.edges[k]? <;> rfl

namespace Lists

variable {table : Numbers} {side : Edge E → Nat}

theorem exists_numbers (H : g.Lists table side) (hi : g.hasVertex i = true) :
    ∃ numbers, table[i]? = some numbers := by
  rw [← H.contains, Std.ExtTreeMap.contains_eq_isSome_getElem?] at hi
  exact Option.isSome_iff_exists.mp hi

/-- A new vertex gets an empty list, as no edge has it as an end. -/
theorem insertVertex (H : g.Lists table side) (hfree : ∀ e ∈ g.edges.toList, side e ≠ i)
    (h : g.insertVertex i v = .ok g') : g'.Lists (table.insert i #[]) side := by
  have hedges := insertVertex_edges h
  have hkeep : ∀ numbers, g'.edgesAt numbers = g.edgesAt numbers :=
    fun numbers => edgesAt_congr fun k _ => by rw [hedges]
  refine ⟨fun k => ?_, fun {k numbers} hk n hn => ?_, fun {k numbers} hk => ?_⟩
  · rw [Bool.eq_iff_iff, insertVertex_hasVertex h, Std.ExtTreeMap.contains_insert, H.contains]
    simp [eq_comm (a := k)]
  all_goals
    rw [Std.ExtTreeMap.getElem?_insert] at hk
    simp only [Std.LawfulEqOrd.compare_eq_iff_eq] at hk
    split at hk
  · cases hk
    simp at hn
  · rw [edgeCount, hedges]
    exact H.inRange hk n hn
  · next hik =>
    cases hk
    rw [hkeep, hedges, List.filter_eq_nil_iff.mpr]
    · rfl
    · intro e he
      simpa [← hik] using hfree e he
  · rw [hkeep, hedges]
    exact H.edgesAt hk

/-- The number of a new edge goes to the end of the list of one vertex. -/
theorem insertEdge (H : g.Lists table side) (hend : g.hasVertex (side e) = true)
    (h : g.insertEdge e = .ok g') : g'.Lists (table.register (side e) g.edgeCount) side := by
  have hedges := insertEdge_edges h
  have hcount : g'.edgeCount = g.edgeCount + 1 := by
    rw [edgeCount, hedges, Array.size_push, edgeCount]
  have hkeep : ∀ {k : Nat} {numbers}, table[k]? = some numbers →
      g'.edgesAt numbers = g.edgesAt numbers := by
    refine fun hk => edgesAt_congr fun n hn => ?_
    have hn : n < g.edges.size := H.inRange hk n hn
    rw [hedges, Array.getElem?_push_lt hn, Array.getElem?_eq_getElem]
  have hfilter : ∀ k, g'.edges.toList.filter (side · = k) =
      g.edges.toList.filter (side · = k) ++ if side e = k then [e] else [] := by
    intro k
    rw [hedges, Array.toList_push, List.filter_append, List.filter_singleton]
    simp
  obtain ⟨old, hold⟩ := H.exists_numbers hend
  refine ⟨fun k => ?_, fun {k numbers} hk n hn => ?_, fun {k numbers} hk => ?_⟩
  · rw [Numbers.contains_register, insertEdge_hasVertex h, H.contains]
    by_cases hk : side e = k
    · subst hk
      simp [hend]
    · simp [hk]
  all_goals
    rw [Numbers.getElem?_register, hold] at hk
    split at hk
  · cases hk
    rw [hcount]
    rcases Array.mem_push.mp hn with hn | rfl
    · exact Nat.lt_succ_of_lt (H.inRange hold n hn)
    · exact Nat.lt_succ_self _
  · rw [hcount]
    exact Nat.lt_succ_of_lt (H.inRange hk n hn)
  · next hik =>
    cases hk
    subst hik
    rw [Option.getD_some, edgesAt_push, hkeep hold, H.edgesAt hold, hfilter, if_pos rfl, hedges,
      edgeCount, Array.getElem?_push_size, Option.toList_some]
  · next hik =>
    rw [hkeep hk, H.edgesAt hk, hfilter, if_neg hik, List.append_nil]

theorem modifyVertex {f : V → V} (H : g.Lists table side) (h : g.modifyVertex i f = .ok g') :
    g'.Lists table side := by
  have hedges := modifyVertex_edges h
  refine ⟨fun k => ?_, fun hk => ?_, fun hk => ?_⟩
  · rw [modifyVertex_hasVertex h, H.contains]
  · rw [edgeCount, hedges]
    exact H.inRange hk
  · rw [hedges, ← H.edgesAt hk]
    exact edgesAt_congr fun k _ => by rw [hedges]

/-- The edges under an index are found exactly if it is the index of a vertex. -/
theorem edges (H : g.Lists table side) (i : Nat) : g.edgesAt <$> lookup table i =
    if g.hasVertex i then .ok (g.edges.toList.filter (side · = i))
    else .error (.vertexNotFound i) := by
  split
  · next hi =>
    obtain ⟨numbers, hnumbers⟩ := H.exists_numbers hi
    rw [lookup_eq_ok_iff.mpr hnumbers, ← H.edgesAt hnumbers]
    rfl
  · next hi =>
    rw [lookup_of_absent (by simpa [H.contains] using hi)]
    rfl

end Lists

namespace Consistent

theorem empty : (Digraph.empty : Digraph V E).Consistent := by
  have hlists : ∀ side, (Digraph.empty : Digraph V E).Lists ∅ side := by
    refine fun side => ⟨fun i => ?_, fun h => ?_, fun h => ?_⟩
    · simp [Digraph.empty, hasVertex]
    all_goals simp at h
  refine ⟨fun e he => ?_, hlists _, hlists _⟩
  cases he

theorem insertVertex (H : g.Consistent) (h : g.insertVertex i v = .ok g') : g'.Consistent := by
  obtain ⟨hnew, hg⟩ := insertVertex_eq_ok_iff.mp h
  -- no edge has the new vertex as an end
  have hfree : ∀ e ∈ g.edges.toList, e.head ≠ i ∧ e.tail ≠ i := by
    intro e he
    obtain ⟨hh, ht⟩ := H.ends e he
    constructor <;> rintro rfl <;> simp_all
  have hout := H.outgoing.insertVertex (fun e he => (hfree e he).1) h
  have hin := H.incoming.insertVertex (fun e he => (hfree e he).2) h
  refine ⟨fun e he => ?_, ?_, ?_⟩
  · rw [insertVertex_edges h] at he
    obtain ⟨hh, ht⟩ := H.ends e he
    exact ⟨(insertVertex_hasVertex h _).mpr (.inr hh), (insertVertex_hasVertex h _).mpr (.inr ht)⟩
  · subst hg
    exact hout
  · subst hg
    exact hin

theorem insertEdge (H : g.Consistent) (h : g.insertEdge e = .ok g') : g'.Consistent := by
  obtain ⟨hhead, htail, hg⟩ := insertEdge_eq_ok_iff.mp h
  have hout := H.outgoing.insertEdge hhead h
  have hin := H.incoming.insertEdge htail h
  refine ⟨fun e' he => ?_, ?_, ?_⟩
  · rw [insertEdge_edges h, Array.toList_push, List.mem_append, List.mem_singleton] at he
    rw [insertEdge_hasVertex h, insertEdge_hasVertex h]
    rcases he with he | rfl
    · exact H.ends e' he
    · exact ⟨hhead, htail⟩
  · subst hg
    exact hout
  · subst hg
    exact hin

theorem modifyVertex {f : V → V} (H : g.Consistent) (h : g.modifyVertex i f = .ok g') :
    g'.Consistent := by
  have hout := H.outgoing.modifyVertex h
  have hin := H.incoming.modifyVertex h
  obtain ⟨-, hg⟩ := modifyVertex_eq_ok_iff.mp h
  refine ⟨fun e he => ?_, ?_, ?_⟩
  · rw [modifyVertex_hasVertex h, modifyVertex_hasVertex h]
    exact H.ends e (modifyVertex_edges h ▸ he)
  · subst hg
    exact hout
  · subst hg
    exact hin

/-! ## Neighbours -/

theorem edgesOut (H : g.Consistent) (i : Nat) : g.edgesOut i =
    if g.hasVertex i then .ok (g.edges.toList.filter (·.head = i))
    else .error (.vertexNotFound i) :=
  H.outgoing.edges i

theorem edgesIn (H : g.Consistent) (i : Nat) : g.edgesIn i =
    if g.hasVertex i then .ok (g.edges.toList.filter (·.tail = i))
    else .error (.vertexNotFound i) :=
  H.incoming.edges i

theorem successorList (H : g.Consistent) (hi : g.hasVertex i = true) :
    g.successorList i = ((g.edges.toList.filter (·.head = i)).map (·.tail)).eraseDups := by
  obtain ⟨numbers, hnumbers⟩ := H.outgoing.exists_numbers hi
  rw [Digraph.successorList, Std.ExtTreeMap.getD_eq_getD_getElem?, hnumbers, Option.getD_some,
    H.outgoing.edgesAt hnumbers]

/-- No edges are listed outside the graph. -/
theorem successorList_of_absent (H : g.Consistent) (hi : g.hasVertex i = false) :
    g.successorList i = [] := by
  rw [← H.outgoing.contains] at hi
  rw [Digraph.successorList, Std.ExtTreeMap.getD_eq_fallback_of_contains_eq_false hi]
  rfl

theorem successors (H : g.Consistent) (hi : g.hasVertex i = true) :
    g.successors i = .ok ((g.edges.toList.filter (·.head = i)).map (·.tail)).eraseDups := by
  rw [Digraph.successors, if_pos hi, H.successorList hi]

theorem predecessors (H : g.Consistent) (hi : g.hasVertex i = true) :
    g.predecessors i = .ok ((g.edges.toList.filter (·.tail = i)).map (·.head)).eraseDups := by
  rw [Digraph.predecessors, H.edgesIn, if_pos hi]
  rfl

theorem predecessorList (H : g.Consistent) (hi : g.hasVertex i = true) :
    g.predecessorList i = ((g.edges.toList.filter (·.tail = i)).map (·.head)).eraseDups := by
  rw [Digraph.predecessorList, H.predecessors hi]
  rfl

theorem mem_successorList (H : g.Consistent) (hi : g.hasVertex i = true) :
    j ∈ g.successorList i ↔ ∃ e ∈ g.edges.toList, e.head = i ∧ e.tail = j := by
  rw [H.successorList hi, List.mem_eraseDups]
  simp [and_assoc]

theorem mem_predecessorList (H : g.Consistent) (hi : g.hasVertex i = true) :
    j ∈ g.predecessorList i ↔ ∃ e ∈ g.edges.toList, e.tail = i ∧ e.head = j := by
  rw [H.predecessorList hi, List.mem_eraseDups]
  simp [and_assoc]

end Consistent

end ContractFlow.Digraph
