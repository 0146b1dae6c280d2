import ContractFlow.Proofs.Building

/-!
What a construction step comes to, whether it succeeds or not. A step that succeeds adds nodes and
edges at the end of a graph and statements at the end of nodes, and changes nothing that is there
(`FlowGraph.Extends`). A step that fails has met a statement that has no place in a control flow
graph, or has run into an id that is in use already. `Build.Does` says both at once: what a step
adds, which statements it has no place for and what it yields. Every step has a rule that says what
it does before the steps that follow it.
-/

namespace ContractFlow

/-- What a node is created for: the part that it plays for a syntax node. -/
structure Tag where
  owner : UInt64
  role : Role
  deriving DecidableEq

namespace Tag

def id (t : Tag) : String := toString t.owner ++ "_" ++ t.role.suffix

def header (t : Tag) : String × Role := (t.id, t.role)

end Tag

/-- A statement that is pushed into a node. -/
structure Record where
  index : Nat
  kind : StatementKind
  node : Node

def Record.content (x : Record) : StatementKind × Node := (x.kind, x.node)

/-- The id and the role of a node, which never change. -/
def FlowNode.header (n : FlowNode) : String × Role := (n.id, n.role)

/-- What a node of a graph holds. -/
def FlowNode.contents (n : FlowNode) : List (StatementKind × Node) :=
  n.statements.map fun s => (s.kind, s.node)

namespace FlowGraph

variable {g g' g'' : FlowGraph} {i : Nat} {n : FlowNode}

def headers (g : FlowGraph) : List (String × Role) := g.nodes.map FlowNode.header

/-- What the node with an index holds; nothing if there is none. -/
def contentsAt (g : FlowGraph) (i : Nat) : List (StatementKind × Node) :=
  ((g.node i).toOption.map FlowNode.contents).getD []

/-- The nodes are listed in the order of their indices. -/
theorem WellFormed.getElem?_nodes (H : g.WellFormed) (i : Nat) :
    g.nodes[i]? = (g.node i).toOption := by
  have hkeys : g.graph.vertexAt.toList.map Prod.fst = List.range g.graph.vertexCount := by
    rw [Std.ExtTreeMap.map_fst_toList_eq_keys]
    refine List.Pairwise.eq_of_mem_iff (r := (· < ·)) ?_ List.pairwise_lt_range fun k => ?_
    · exact Std.ExtTreeMap.ordered_keys.imp Nat.compare_eq_lt.mp
    · rw [List.mem_range, ← H.dense, ← Digraph.mem_indices_iff, Digraph.indices]
  have hkey : ∀ {k n}, g.graph.vertexAt.toList[i]? = some (k, n) → k = i := by
    intro k n h
    have hi := congrArg (·[i]?) hkeys
    simp only [List.getElem?_map, h, Option.map_some] at hi
    obtain ⟨hlt, hi⟩ := List.getElem?_eq_some_iff.mp hi.symm
    rw [← hi, List.getElem_range]
  rw [nodes, Digraph.vertices, List.getElem?_map]
  cases h : g.graph.vertexAt.toList[i]? with
  | none =>
    have hsize : g.graph.vertexCount ≤ i := by
      have := congrArg List.length hkeys
      rw [List.length_map, List.length_range] at this
      exact this ▸ List.getElem?_eq_none_iff.mp h
    cases hn : g.node i with
    | error err => rfl
    | ok n =>
      have := (H.dense i).mp (Digraph.hasVertex_iff.mpr ⟨n, hn⟩)
      omega
  | some x =>
    obtain ⟨k, n⟩ := x
    obtain rfl := hkey h
    have hmem := Std.ExtTreeMap.mem_toList_iff_getElem?_eq_some.mp (List.mem_of_getElem? h)
    rw [node, Digraph.vertex_eq_ok_iff.mpr hmem]
    rfl

theorem WellFormed.getElem?_headers (H : g.WellFormed) (i : Nat) :
    g.headers[i]? = (g.node i).toOption.map FlowNode.header := by
  rw [headers, List.getElem?_map, H.getElem?_nodes]

theorem length_nodes : g.nodes.length = g.graph.vertexCount := by
  rw [nodes, Digraph.vertices, List.length_map, Std.ExtTreeMap.length_toList, Digraph.vertexCount]

theorem length_headers : g.headers.length = g.graph.vertexCount := by
  rw [headers, List.length_map, length_nodes]

/-! ## What the steps do to the nodes -/

theorem WellFormed.nodes_insertNode (H : g.WellFormed) {id : String} {role : Role} {r : Nat}
    (h : Build.insertNode id role g = .ok (r, g')) :
    g'.nodes = g.nodes ++ [{ id := id, role := role }] := by
  obtain ⟨rfl, -, hv⟩ := Build.insertNode_eq_ok h
  apply List.ext_getElem?
  intro i
  rw [(H.insertNode h).getElem?_nodes]
  by_cases hi : i = g.graph.vertexCount
  · have hnode : g'.node i = .ok { id := id, role := role } :=
      (Digraph.insertVertex_vertex_iff hv).mpr (.inl ⟨hi, rfl⟩)
    rw [hnode, hi, ← length_nodes, List.getElem?_concat_length]
    rfl
  · have hnode : g'.node i = g.node i := by
      rw [FlowGraph.node, Digraph.insertVertex_vertex hv, if_neg (Ne.symm hi), FlowGraph.node]
    rw [hnode, ← H.getElem?_nodes]
    rw [← length_nodes] at hi
    rcases Nat.lt_or_gt_of_ne hi with hlt | hgt
    · rw [List.getElem?_append_left hlt]
    · rw [List.getElem?_eq_none hgt.le,
        List.getElem?_eq_none (by rw [List.length_append]; exact hgt)]

theorem WellFormed.nodes_connect (H : g.WellFormed) {head tail : Nat}
    {outcome : Option Branch} {r : Unit}
    (h : Build.connect head tail outcome g = .ok (r, g')) : g'.nodes = g.nodes := by
  apply List.ext_getElem?
  intro i
  rw [H.getElem?_nodes, (H.connect h).getElem?_nodes, FlowGraph.node,
    Digraph.insertEdge_vertex (Build.connect_eq_ok h), FlowGraph.node]

theorem WellFormed.nodes_push (H : g.WellFormed) {source : String} {index : Nat}
    {kind : StatementKind}
    {node : Node} {r : Unit} (h : Build.push source index kind node g = .ok (r, g')) :
    g'.nodes = g.nodes.modify index (·.push (.make source kind node)) := by
  apply List.ext_getElem?
  intro i
  rw [(H.push h).getElem?_nodes, List.getElem?_modify, H.getElem?_nodes, FlowGraph.node,
    Digraph.modifyVertex_vertex (Build.push_eq_ok h), FlowGraph.node]
  cases g.graph.vertex i <;> rfl

theorem contentsAt_of_node (h : g.node i = .ok n) : g.contentsAt i = n.contents := by
  rw [contentsAt, h]
  rfl

theorem contentsAt_insertNode {id : String} {role : Role} {r : Nat}
    (h : Build.insertNode id role g = .ok (r, g')) (i : Nat) :
    g'.contentsAt i = g.contentsAt i := by
  obtain ⟨rfl, -, hv⟩ := Build.insertNode_eq_ok h
  obtain ⟨hnew, -⟩ := Digraph.insertVertex_eq_ok_iff.mp hv
  have hvertex := Digraph.insertVertex_vertex hv i
  rw [contentsAt, contentsAt, node, hvertex, node]
  split
  · next hi =>
    -- the new node holds nothing yet
    rw [← hi, Digraph.vertex_of_absent hnew]
    rfl
  · rfl

theorem contentsAt_connect {head tail : Nat} {outcome : Option Branch} {r : Unit}
    (h : Build.connect head tail outcome g = .ok (r, g')) (i : Nat) :
    g'.contentsAt i = g.contentsAt i := by
  rw [contentsAt, node, Digraph.insertEdge_vertex (Build.connect_eq_ok h), contentsAt, node]

theorem contentsAt_push {source : String} {index : Nat} {kind : StatementKind}
    {node : Node} {r : Unit} (h : Build.push source index kind node g = .ok (r, g')) (i : Nat) :
    g'.contentsAt i = g.contentsAt i ++ if index = i then [(kind, node)] else [] := by
  have hv := Build.push_eq_ok h
  obtain ⟨hindex, -⟩ := Digraph.modifyVertex_eq_ok_iff.mp hv
  rw [contentsAt, FlowGraph.node, Digraph.modifyVertex_vertex hv, contentsAt, FlowGraph.node]
  split
  · next hi =>
    subst hi
    obtain ⟨n, hn⟩ := Digraph.hasVertex_iff.mp hindex
    rw [hn]
    exact List.map_append
  · rw [id_map', List.append_nil]

/-- **Extension.** Nodes with the given ids and roles and the given edges have been added to a
graph, each after those that were there, and the given statements have been pushed into its nodes;
nothing else has happened to the nodes and the edges. -/
structure Extends (g : FlowGraph) (created : List (String × Role)) (edges : List FlowEdge)
    (records : List Record) (g' : FlowGraph) : Prop where
  wellFormed : g'.WellFormed
  headers : g'.headers = g.headers ++ created
  edges : g'.edges = g.edges ++ edges
  contentsAt : ∀ i, g'.contentsAt i =
    g.contentsAt i ++ (records.filter (·.index = i)).map Record.content
  inRange : ∀ x ∈ records, x.index < g'.graph.vertexCount

namespace Extends

variable {created created' : List (String × Role)} {edges edges' : List FlowEdge}
  {records records' : List Record}

theorem refl (H : g.WellFormed) : g.Extends [] [] [] g :=
  ⟨H, (List.append_nil _).symm, (List.append_nil _).symm, fun _ => (List.append_nil _).symm,
    List.forall_mem_nil _⟩

theorem vertexCount (E : g.Extends created edges records g') :
    g'.graph.vertexCount = g.graph.vertexCount + created.length := by
  rw [← length_headers, ← length_headers, E.headers, List.length_append]

theorem lt_of_lt_length (E : g.Extends created edges records g')
    (hi : i < g.graph.vertexCount + created.length) : i < g'.graph.vertexCount :=
  E.vertexCount ▸ hi

theorem lt_vertexCount (E : g.Extends created edges records g') (hi : i < g.graph.vertexCount) :
    i < g'.graph.vertexCount := by
  rw [E.vertexCount]
  omega

theorem trans (E : g.Extends created edges records g')
    (E' : g'.Extends created' edges' records' g'') :
    g.Extends (created ++ created') (edges ++ edges') (records ++ records') g'' := by
  refine ⟨E'.wellFormed, ?_, ?_, fun i => ?_, fun x hx => ?_⟩
  · rw [E'.headers, E.headers, List.append_assoc]
  · rw [E'.edges, E.edges, List.append_assoc]
  · rw [E'.contentsAt, E.contentsAt, List.filter_append, List.map_append, List.append_assoc]
  · rcases List.mem_append.mp hx with hx | hx
    · exact E'.lt_vertexCount (E.inRange x hx)
    · exact E'.inRange x hx

theorem getElem?_of_lt (E : g.Extends created edges records g') (hi : i < g.graph.vertexCount) :
    g'.headers[i]? = g.headers[i]? := by
  rw [E.headers, List.getElem?_append_left (by rwa [length_headers])]

theorem getElem?_of_mem (E : g.Extends created edges records g') {x : String × Role}
    (h : (x, i) ∈ created.zipIdx g.graph.vertexCount) : g'.headers[i]? = some x := by
  obtain ⟨hle, hi⟩ := List.mem_zipIdx_iff_le_and_getElem?_sub.mp h
  rw [E.headers, List.getElem?_append_right (by rwa [length_headers]), length_headers, hi]

end Extends

/-- What control comes from, if anything, may hold the statements that follow. -/
def Open (g : FlowGraph) (current : Option Nat) : Prop :=
  ∀ i, current = some i → ∃ id role, g.headers[i]? = some (id, role) ∧ role.isOpen = true

theorem open_none (g : FlowGraph) : g.Open none := by
  intro i hi
  cases hi

theorem Open.lt_vertexCount {current : Option Nat} (h : g.Open current) (i : Nat)
    (hi : current = some i) : i < g.graph.vertexCount := by
  obtain ⟨id, role, hi, -⟩ := h i hi
  rw [← length_headers]
  exact (List.getElem?_eq_some_iff.mp hi).1

/-- What has been created to be open is open. -/
theorem Extends.open_of_mem {created : List (String × Role)} {edges : List FlowEdge}
    {records : List Record} {x : String × Role} (E : g.Extends created edges records g')
    (h : (x, i) ∈ created.zipIdx g.graph.vertexCount) (hx : x.2.isOpen = true) :
    g'.Open (some i) := by
  rintro _ ⟨⟩
  exact ⟨x.1, x.2, E.getElem?_of_mem h, hx⟩

theorem Extends.open_of_open {created : List (String × Role)} {edges : List FlowEdge}
    {records : List Record} {current : Option Nat} (E : g.Extends created edges records g')
    (h : g.Open current) : g'.Open current := by
  intro i hi
  rw [E.getElem?_of_lt (h.lt_vertexCount i hi)]
  exact h i hi

end FlowGraph

namespace Build

open FlowGraph

variable {α β : Type} {g g₁ : FlowGraph} {created created' : List (String × Role)}
  {edges edges' : List FlowEdge} {records records' : List Record} {offences offences' : List Node}
  {a : α} {b : β}

/-- The error for a statement that has no place in a control flow graph. -/
def refusal (n : Node) : Error := .unsupportedConstruct n.type.name n.id

/-- **What a step does.** If it succeeds, it has met no offence and has added the given nodes, edges
and statements. If it fails, this is for the first of the offences, or for an id that is used
twice. -/
def Does (x : Build α) (g : FlowGraph) (created : List (String × Role)) (edges : List FlowEdge)
    (records : List Record) (offences : List Node) (result : α) : Prop :=
  match x g with
  | .ok (r, g') => r = result ∧ offences = [] ∧ g.Extends created edges records g'
  | .error err => (∃ o, offences.head? = some o ∧ err = refusal o) ∨
      (∃ id, err = .duplicateNode id) ∧ ¬((g.headers ++ created).map Prod.fst).Nodup

namespace Does

theorem of_eq_ok {x : Build α} {g' : FlowGraph} (h : x g = .ok (a, g'))
    (E : g.Extends created edges records g') : Does x g created edges records [] a := by
  rw [Does, h]
  exact ⟨rfl, rfl, E⟩

theorem pure (H : g.WellFormed) (a : α) : Does (pure a : Build α) g [] [] [] [] a :=
  of_eq_ok rfl (.refl H)

theorem unsupported (n : Node) (created : List (String × Role)) (edges : List FlowEdge)
    (records : List Record) (a : α) :
    Does (Build.unsupported n : Build α) g created edges records [n] a :=
  .inl ⟨n, rfl, rfl⟩

theorem bind {x : Build α} {f : α → Build β} (hx : Does x g created edges records offences a)
    (hf : ∀ {g₁}, g.Extends created edges records g₁ →
      Does (f a) g₁ created' edges' records' offences' b) :
    Does (x >>= f) g (created ++ created') (edges ++ edges') (records ++ records')
      (offences ++ offences') b := by
  have hbind : (x >>= f) g = x g >>= fun p => f p.1 p.2 := rfl
  rw [Does] at hx ⊢
  rw [hbind]
  cases hrun : x g with
  | error err =>
    rw [hrun] at hx
    rcases hx with ⟨o, ho, rfl⟩ | ⟨hid, hdup⟩
    · exact .inl ⟨o, by rw [List.head?_append, ho]; rfl, rfl⟩
    · refine .inr ⟨hid, fun hnodup => hdup (hnodup.sublist ?_)⟩
      rw [← List.append_assoc]
      exact (List.sublist_append_left _ _).map _
  | ok p =>
    obtain ⟨r, g₁⟩ := p
    rw [hrun] at hx
    obtain ⟨rfl, rfl, E⟩ := hx
    have hrest := hf E
    rw [Does] at hrest
    change match f r g₁ with | .ok (r', g') => _ | .error err => _
    cases hrun' : f r g₁ with
    | error err =>
      rw [hrun'] at hrest
      rw [E.headers, List.append_assoc] at hrest
      exact hrest
    | ok p =>
      rw [hrun'] at hrest
      exact ⟨hrest.1, hrest.2.1, E.trans hrest.2.2⟩

end Does

/-! ## The steps -/

variable {id : String} {role : Role} {source : String} {kind : StatementKind} {node : Node}
  {head tail index : Nat} {outcome : Option Branch}

theorem insertNode_does (H : g.WellFormed) (id : String) (role : Role) :
    Does (insertNode id role) g [(id, role)] [] [] [] g.graph.vertexCount := by
  cases hrun : insertNode id role g with
  | error err =>
    rw [Does, hrun]
    unfold insertNode at hrun
    split at hrun
    · next hid =>
      cases hrun
      refine .inr ⟨⟨id, rfl⟩, fun hnodup => ?_⟩
      rw [List.map_append] at hnodup
      refine (List.nodup_append.mp hnodup).2.2 id ?_ id (by simp) rfl
      simpa [FlowGraph.contains, FlowGraph.headers, FlowNode.header] using hid
    · -- the next index is free, so that the vertex can be inserted
      have hfree : g.graph.hasVertex g.graph.vertexCount = false := by
        rw [Bool.eq_false_iff, ne_eq, H.dense]
        exact Nat.lt_irrefl _
      have hv := Digraph.insertVertex_eq_ok_iff (v := { id := id, role := role }).mpr ⟨hfree, rfl⟩
      simp only [hv, bind, Except.bind, Pure.pure, Except.pure, reduceCtorEq] at hrun
  | ok p =>
    obtain ⟨r, g'⟩ := p
    obtain ⟨rfl, -, hv⟩ := insertNode_eq_ok hrun
    refine .of_eq_ok hrun ⟨H.insertNode hrun, ?_, ?_, fun i => ?_, List.forall_mem_nil _⟩
    · rw [FlowGraph.headers, H.nodes_insertNode hrun, List.map_append]
      rfl
    · rw [FlowGraph.edges, Digraph.insertVertex_edges hv, List.append_nil, FlowGraph.edges]
    · rw [contentsAt_insertNode hrun]
      exact (List.append_nil _).symm

theorem connect_does (H : g.WellFormed) (hhead : head < g.graph.vertexCount)
    (htail : tail < g.graph.vertexCount) (outcome : Option Branch) :
    Does (connect head tail outcome) g [] [⟨head, tail, outcome⟩] [] [] () := by
  cases hrun : connect head tail outcome g with
  | error err =>
    have hends := And.intro ((H.dense head).mpr hhead) ((H.dense tail).mpr htail)
    rw [connect, Digraph.insertEdge_eq_ok_iff.mpr ⟨hends.1, hends.2, rfl⟩] at hrun
    cases hrun
  | ok p =>
    obtain ⟨⟨⟩, g'⟩ := p
    have hedges := Digraph.insertEdge_edges (connect_eq_ok hrun)
    refine .of_eq_ok hrun ⟨H.connect hrun, ?_, ?_, fun i => ?_, List.forall_mem_nil _⟩
    · rw [List.append_nil, FlowGraph.headers, H.nodes_connect hrun, FlowGraph.headers]
    · rw [FlowGraph.edges, hedges, Array.toList_push, FlowGraph.edges]
    · rw [contentsAt_connect hrun]
      exact (List.append_nil _).symm

theorem push_does (H : g.WellFormed) (hindex : index < g.graph.vertexCount) (source : String)
    (kind : StatementKind) (node : Node) :
    Does (push source index kind node) g [] [] [⟨index, kind, node⟩] [] () := by
  cases hrun : push source index kind node g with
  | error err =>
    rw [push, Digraph.modifyVertex_eq_ok_iff.mpr ⟨(H.dense _).mpr hindex, rfl⟩] at hrun
    cases hrun
  | ok p =>
    obtain ⟨⟨⟩, g'⟩ := p
    have hv := push_eq_ok hrun
    refine .of_eq_ok hrun ⟨H.push hrun, ?_, ?_, fun i => ?_, fun x hx => ?_⟩
    · rw [List.append_nil, FlowGraph.headers, H.nodes_push hrun, FlowGraph.headers]
      apply List.ext_getElem?
      intro i
      rw [List.getElem?_map, List.getElem?_modify, List.getElem?_map]
      cases g.nodes[i]? with
      | none => rfl
      | some n =>
        simp only [Option.map_eq_map, Option.map_some]
        split <;> rfl
    · rw [FlowGraph.edges, Digraph.modifyVertex_edges hv, List.append_nil, FlowGraph.edges]
    · rw [contentsAt_push hrun, List.filter_singleton]
      by_cases hi : index = i <;> simp [hi, Record.content]
    · rw [List.mem_singleton] at hx
      subst hx
      rw [Digraph.modifyVertex_vertexCount hv]
      exact hindex

theorem connectAll_does {ends : List (Nat × Option Branch)} : ∀ {g : FlowGraph}, g.WellFormed →
    (∀ e ∈ ends, e.1 < g.graph.vertexCount) → tail < g.graph.vertexCount →
    Does (ends.forM fun (last, outcome) => connect last tail outcome) g []
      (ends.map fun (last, outcome) => ⟨last, tail, outcome⟩) [] [] () := by
  induction ends with
  | nil => exact fun H _ _ => .pure H ()
  | cons e ends ih =>
    intro g H hends htail
    rw [List.forall_mem_cons] at hends
    refine (connect_does H hends.1 htail e.2).bind
      fun E => ih E.wellFormed ?_ (E.lt_vertexCount htail)
    exact fun e' he' => E.lt_vertexCount (hends.2 e' he')

/-- The edge from what control comes from, if anything, to a node. -/
def linkEdges (current : Option Nat) (tail : Nat) (outcome : Option Branch) : List FlowEdge :=
  current.toList.map (⟨·, tail, outcome⟩)

theorem link_does {current : Option Nat} (H : g.WellFormed)
    (hcurrent : ∀ i, current = some i → i < g.graph.vertexCount)
    (htail : tail < g.graph.vertexCount) (outcome : Option Branch) :
    Does (link current tail outcome) g [] (linkEdges current tail outcome) [] [] () := by
  cases current with
  | none => exact .pure H ()
  | some i => exact connect_does H (hcurrent i rfl) htail outcome

/-! ## Rules for steps that others follow -/

namespace Does

variable {created₀ : List (String × Role)} {edges₀ : List FlowEdge} {records₀ : List Record}
  {current : Option Nat} {f : Unit → Build β}

theorem andThen {x : Build α} {f : α → Build β} (E : g.Extends created₀ edges₀ records₀ g₁)
    (hx : Does x g₁ created edges records offences a)
    (hf : ∀ {g₂}, g.Extends (created₀ ++ created) (edges₀ ++ edges) (records₀ ++ records) g₂ →
      Does (f a) g₂ created' edges' records' offences' b) :
    Does (x >>= f) g₁ (created ++ created') (edges ++ edges') (records ++ records')
      (offences ++ offences') b :=
  hx.bind fun E₂ => hf (E.trans E₂)

/-- The same, where what follows creates no nodes and meets no offence. -/
theorem thenEdges {x : Build α} {f : α → Build β} (E : g.Extends created₀ edges₀ records₀ g₁)
    (hx : Does x g₁ created edges records offences a)
    (hf : ∀ {g₂}, g.Extends (created₀ ++ created) (edges₀ ++ edges) (records₀ ++ records) g₂ →
      Does (f a) g₂ [] edges' records' [] b) :
    Does (x >>= f) g₁ created (edges ++ edges') (records ++ records') offences b := by
  have h := andThen E hx hf
  rwa [List.append_nil, List.append_nil] at h

theorem addNode {f : Nat → Build β} {k : Nat} (E : g.Extends created₀ edges₀ records₀ g₁)
    (hk : g.graph.vertexCount + created₀.length = k) (t : Tag)
    (hf : ∀ {g₂}, g.Extends (created₀ ++ [t.header]) edges₀ records₀ g₂ →
      Does (f k) g₂ created edges records offences b) :
    Does (Build.addNode t.owner t.role >>= f) g₁
      (t.header :: created) edges records offences b := by
  refine (insertNode_does E.wellFormed t.id t.role).bind fun {g₂} E₂ => ?_
  rw [E.vertexCount, hk]
  have E' := E.trans E₂
  rw [List.append_nil, List.append_nil] at E'
  exact hf E'

theorem connect (E : g.Extends created₀ edges₀ records₀ g₁) (hhead : head < g₁.graph.vertexCount)
    (htail : tail < g₁.graph.vertexCount)
    (hf : ∀ {g₂}, g.Extends created₀ (edges₀ ++ [⟨head, tail, outcome⟩]) records₀ g₂ →
      Does (f ()) g₂ created edges records offences b) :
    Does (Build.connect head tail outcome >>= f) g₁ created (⟨head, tail, outcome⟩ :: edges) records
      offences b := by
  refine (connect_does E.wellFormed hhead htail outcome).bind fun {g₂} E₂ => ?_
  have E' := E.trans E₂
  rw [List.append_nil, List.append_nil] at E'
  exact hf E'

theorem link (E : g.Extends created₀ edges₀ records₀ g₁)
    (hcurrent : ∀ i, current = some i → i < g₁.graph.vertexCount)
    (htail : tail < g₁.graph.vertexCount)
    (hf : ∀ {g₂}, g.Extends created₀ (edges₀ ++ linkEdges current tail outcome) records₀ g₂ →
      Does (f ()) g₂ created edges records offences b) :
    Does (Build.link current tail outcome >>= f) g₁ created
      (linkEdges current tail outcome ++ edges) records offences b := by
  refine (link_does E.wellFormed hcurrent htail outcome).bind fun {g₂} E₂ => ?_
  have E' := E.trans E₂
  rw [List.append_nil, List.append_nil] at E'
  exact hf E'

theorem push (E : g.Extends created₀ edges₀ records₀ g₁) (hindex : index < g₁.graph.vertexCount)
    (hf : ∀ {g₂}, g.Extends created₀ edges₀ (records₀ ++ [⟨index, kind, node⟩]) g₂ →
      Does (f ()) g₂ created edges records offences b) :
    Does (Build.push source index kind node >>= f) g₁ created edges (⟨index, kind, node⟩ :: records)
      offences b := by
  refine (push_does E.wellFormed hindex source kind node).bind fun {g₂} E₂ => ?_
  have E' := E.trans E₂
  rw [List.append_nil, List.append_nil] at E'
  exact hf E'

end Does

end Build

end ContractFlow
