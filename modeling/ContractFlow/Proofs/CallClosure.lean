import ContractFlow.Proofs.CallResolution

/-!
Call graphs are closed. A call is resolved to functions that contracts declare, and every one of
these is a caller itself (`SourceUnit.MayCall.exists_caller`). So a drawing of a call graph, which
shows callers and callees, shows nothing but callers. Main statement: `CallGraph.ofUnit_closed`.
-/

namespace ContractFlow

namespace SourceUnit

variable {u : SourceUnit} {caller callee : String}

theorem mem_functions_ofContract {c : ContractDefinition Node} {function : String} :
    function ∈ (ContractInfo.ofContract c).functions ↔
      ∃ n ∈ c.nodes, ∃ f, n.function? = some f ∧ f.isConstructor = false ∧
        f.displayName = function := by
  simp only [ContractInfo.ofContract, List.mem_eraseDups, List.mem_map, List.mem_filter,
    ContractDefinition.functions, mem_functionsAmong, Bool.not_eq_true']
  constructor
  · rintro ⟨f, ⟨⟨-, hn, hdefinition⟩, hkind⟩, hname⟩
    exact ⟨f.node, hn, f.definition, hdefinition, hkind, hname⟩
  · rintro ⟨n, hn, f, hdefinition, hkind, hname⟩
    exact ⟨⟨some c, n, f⟩, ⟨⟨rfl, hn, hdefinition⟩, hkind⟩, hname⟩

/-- What may be called is a caller. -/
theorem MayCall.exists_caller (hcall : u.MayCall (.ofUnit u) caller callee) :
    ∃ f, u.Caller callee f := by
  obtain ⟨c, hc, function, hfunction, rfl⟩ := hcall.exists_contract
  obtain ⟨n, hn, f, hdefinition, hkind, rfl⟩ := mem_functions_ofContract.mp hfunction
  exact ⟨f, c, hc, n, hn, hdefinition, hkind, rfl⟩

end SourceUnit

namespace CallGraph

variable {g : CallGraph} {q x : String}

/-- Every callee is a caller. -/
def Closed (g : CallGraph) : Prop :=
  ∀ q s, g.callees? q = some s → ∀ x ∈ s, (g.callees? x).isSome = true

/-- With the hierarchy of its own contracts, the call graph of a program is closed. -/
theorem closed_of_hierarchy (u : SourceUnit) (algorithm : Algorithm) (resolution : BaseResolution) :
    (ofUnit u (.ofUnit u) algorithm resolution).Closed := by
  intro q s hs x hx
  have hcall := ((mem_callees_ofUnit_iff hs).mp hx).1
  exact isSome_callees?_ofUnit_iff.mpr hcall.exists_caller

/-! ## Drawings -/

theorem mem_foldl_names (entries : List (String × Names)) (total : Names) :
    x ∈ entries.foldl (fun total (caller, callees) => total.insert caller ∪ callees) total ↔
      x ∈ total ∨ ∃ entry ∈ entries, x = entry.1 ∨ x ∈ entry.2 := by
  induction entries generalizing total with
  | nil => simp
  | cons entry entries ih =>
    rw [List.foldl_cons, ih, Std.ExtTreeSet.mem_union_iff, Std.ExtTreeSet.mem_insert,
      Std.LawfulEqCmp.compare_eq_iff_eq]
    simp only [List.mem_cons, exists_eq_or_imp]
    grind

theorem mem_names_iff :
    x ∈ g.names ↔ (g.callees? x).isSome = true ∨ ∃ q s, g.callees? q = some s ∧ x ∈ s := by
  rw [names, mem_foldl_names]
  constructor
  · rintro (hempty | ⟨⟨caller, s⟩, hentry, rfl | hx⟩)
    · exact absurd hempty Std.ExtTreeSet.not_mem_empty
    · exact .inl
        (Option.isSome_of_eq_some (Std.ExtTreeMap.mem_toList_iff_getElem?_eq_some.mp hentry))
    · exact .inr ⟨caller, s, Std.ExtTreeMap.mem_toList_iff_getElem?_eq_some.mp hentry, hx⟩
  · rintro (hcaller | ⟨q, s, hs, hx⟩)
    · obtain ⟨s, hs⟩ := Option.isSome_iff_exists.mp hcaller
      exact .inr ⟨(x, s), Std.ExtTreeMap.mem_toList_iff_getElem?_eq_some.mpr hs, .inl rfl⟩
    · exact .inr ⟨(q, s), Std.ExtTreeMap.mem_toList_iff_getElem?_eq_some.mpr hs, .inr hx⟩

/-- In a closed graph the names are those of the callers. -/
theorem Closed.mem_names_iff (hg : g.Closed) : x ∈ g.names ↔ (g.callees? x).isSome = true := by
  rw [CallGraph.mem_names_iff]
  refine or_iff_left_of_imp ?_
  rintro ⟨q, s, hs, hx⟩
  exact hg q s hs x hx

theorem names_ordered (g : CallGraph) : g.names.toList.Pairwise (· < ·) := by
  refine Std.ExtTreeSet.ordered_toList.imp ?_
  intro a b hlt
  exact compareOfLessAndEq_eq_lt.mp hlt

theorem foldl_size (entries : List (String × Names)) (count : Nat) :
    entries.foldl (fun total entry => total + entry.2.size) count =
      count + (entries.flatMap fun (caller, callees) => callees.toList.map (caller, ·)).length := by
  induction entries generalizing count with
  | nil => rfl
  | cons entry entries ih =>
    rw [List.foldl_cons, ih, List.flatMap_cons, List.length_append, List.length_map,
      Std.ExtTreeSet.length_toList, Nat.add_assoc]

theorem length_edgeList (g : CallGraph) : g.edgeList.length = g.edgeCount := by
  rw [edgeCount, Std.ExtTreeMap.foldl_eq_foldl_toList, foldl_size, Nat.zero_add, edgeList]

/-- What a drawing of a call graph shows. -/
structure ShownBy (g : CallGraph) (d : Drawing) : Prop where
  /-- Nodes are listed in increasing order, so each of them once. -/
  ordered : (d.nodes.map (·.id)).Pairwise (· < ·)
  callers : ∀ q, q ∈ d.nodes.map (·.id) ↔ (g.callees? q).isSome = true
  edgeCount : d.edges.length = g.edgeCount
  edges : ∀ e, e ∈ d.edges ↔ g.hasEdge e.source e.target = true ∧ e.annotation = none
  joined : ∀ e ∈ d.edges, e.source ∈ d.nodes.map (·.id) ∧ e.target ∈ d.nodes.map (·.id)

theorem ids_draw (g : CallGraph) : g.draw.nodes.map (·.id) = g.names.toList := by
  rw [draw, List.map_map]
  exact List.map_id _

theorem mem_edges_draw {e : Drawing.Edge} :
    e ∈ g.draw.edges ↔ g.hasEdge e.source e.target = true ∧ e.annotation = none := by
  rw [draw, List.mem_map, ← mem_edgeList_iff]
  constructor
  · rintro ⟨⟨caller, callee⟩, hedge, rfl⟩
    exact ⟨hedge, rfl⟩
  · rintro ⟨hedge, hannotation⟩
    refine ⟨(e.source, e.target), hedge, ?_⟩
    rw [← hannotation]

theorem Closed.shownBy_draw (hg : g.Closed) : g.ShownBy g.draw := by
  have hcallers : ∀ q, q ∈ g.draw.nodes.map (·.id) ↔ (g.callees? q).isSome = true := by
    intro q
    rw [ids_draw, Std.ExtTreeSet.mem_toList, hg.mem_names_iff]
  refine ⟨?_, hcallers, ?_, fun e => mem_edges_draw, fun e he => ?_⟩
  · rw [ids_draw]
    exact g.names_ordered
  · rw [draw, List.length_map, length_edgeList]
  · obtain ⟨s, hs, hx⟩ := hasEdge_iff.mp (mem_edges_draw.mp he).1
    rw [hcallers, hcallers]
    exact ⟨Option.isSome_of_eq_some hs, hg _ s hs _ hx⟩

/-- **Call graphs are closed.** Every callee is a caller. A drawing shows each caller once, in
increasing order, and nothing else; its edges are those of the graph, as many as it counts, and join
nodes that are shown. -/
theorem ofUnit_closed (u : SourceUnit) (algorithm : Algorithm) (resolution : BaseResolution) :
    (ofUnit u (.ofUnit u) algorithm resolution).Closed ∧
      (ofUnit u (.ofUnit u) algorithm resolution).ShownBy
        (ofUnit u (.ofUnit u) algorithm resolution).draw := by
  have hclosed := closed_of_hierarchy u algorithm resolution
  exact ⟨hclosed, hclosed.shownBy_draw⟩

end CallGraph

end ContractFlow
