import ContractFlow.Proofs.LeastSolution
import Mathlib.Data.List.Chain

/-!
Facts along paths. In the analyses of reaching definitions and of live variables each node generates
some members of the state and ends others, and the rest pass through it (`Analysis.IsGenKill`). The
least facts of such an analysis are those that the flow carries (`GenKill.Carried`): what reaches a
node is exactly what is generated at the start of some path to it that nothing on the way ends.

This makes the facts of the two analyses statements about paths of the graph
(`FlowGraph.ofFunction_reaching_iff`, `FlowGraph.ofFunction_live_iff`).
-/

namespace ContractFlow

/-- What each node generates, and what it ends. -/
structure GenKill (α : Type) where
  gen : FlowNode → α → Prop
  kill : FlowNode → α → Prop

/-- The flow carries a fact out of a node: the node generates it, or the fact is carried out of one
that feeds the node, which does not end it. -/
inductive GenKill.Carried {α : Type} (K : GenKill α) (d : Direction) (g : FlowGraph) (x : α) :
    FlowNode → Prop
  | gen {n} : n ∈ g.nodes → K.gen n x → K.Carried d g x n
  | pass {m n} : d.Feeds g m n → K.Carried d g x m → ¬K.kill n x → K.Carried d g x n

/-- An analysis whose nodes turn states into what they generate and what of the state they do not
end. -/
def Analysis.IsGenKill {α : Type} {cmp : α → α → Ordering} [Std.TransCmp cmp]
    (a : Analysis (Std.ExtTreeSet α cmp)) (K : GenKill α) : Prop :=
  ∀ n s, ∃ t, a.transfer n (some s) = .ok t ∧ ∀ x, x ∈ t ↔ K.gen n x ∨ x ∈ s ∧ ¬K.kill n x

namespace FlowGraph

variable {g : FlowGraph} {m n : FlowNode} {d : Direction}

theorem mem_nodes_of_feeds (h : d.Feeds g m n) : m ∈ g.nodes ∧ n ∈ g.nodes :=
  (exists_of_feeds h).imp mem_nodes_iff.mpr mem_nodes_iff.mpr

/-- A path to a node of the graph starts at one. -/
theorem mem_nodes_of_path {first : FlowNode} {rest : List FlowNode} (hn : n ∈ g.nodes)
    (hlast : (first :: rest).getLast? = some n) (hchain : (first :: rest).IsChain (d.Feeds g)) :
    first ∈ g.nodes := by
  cases rest with
  | nil =>
    obtain rfl := Option.some.inj hlast
    exact hn
  | cons p rest => exact (mem_nodes_of_feeds (List.isChain_cons_cons.mp hchain).1).1

theorem WellFormed.eq_of_id_eq (H : g.WellFormed) (hm : m ∈ g.nodes) (hn : n ∈ g.nodes)
    (h : m.id = n.id) : m = n := by
  obtain ⟨i, hi⟩ := mem_nodes_iff.mp hm
  obtain ⟨j, hj⟩ := mem_nodes_iff.mp hn
  obtain rfl := H.distinct hi hj h
  exact Except.ok.inj (hi.symm.trans hj)

end FlowGraph

/-- A path to a node is a path to one before it and a last step. -/
theorem isChain_cons_concat_iff {β : Type} {R : β → β → Prop} {first last : β} {rest : List β} :
    (first :: (rest ++ [last])).IsChain R ↔
      ∃ p, (first :: rest).getLast? = some p ∧ (first :: rest).IsChain R ∧ R p last := by
  rw [← List.cons_append, List.isChain_append]
  constructor
  · rintro ⟨hchain, -, hstep⟩
    have hlast := List.getLast?_eq_some_getLast (List.cons_ne_nil first rest)
    exact ⟨_, hlast, hchain, hstep _ hlast last rfl⟩
  · rintro ⟨p, hlast, hchain, hstep⟩
    refine ⟨hchain, .singleton last, fun q hq r hr => ?_⟩
    obtain rfl := Option.some.inj (hlast.symm.trans hq)
    obtain rfl := Option.some.inj hr
    exact hstep

namespace GenKill

variable {α : Type} {K : GenKill α} {d : Direction} {g : FlowGraph} {x : α} {n : FlowNode}

theorem Carried.mem_nodes (h : K.Carried d g x n) : n ∈ g.nodes := by
  cases h with
  | gen hn _ => exact hn
  | pass hfeeds _ _ => exact (FlowGraph.mem_nodes_of_feeds hfeeds).2

/-- A fact that is carried has been generated. -/
theorem Carried.exists_gen (h : K.Carried d g x n) : ∃ m ∈ g.nodes, K.gen m x := by
  induction h with
  | gen hn hgen => exact ⟨_, hn, hgen⟩
  | pass _ _ _ ih => exact ih

/-- A fact is carried out of a node along a path to it: its first node generates the fact, and none
of the others ends it. -/
theorem carried_iff_exists_path : K.Carried d g x n ↔ ∃ first ∈ g.nodes, ∃ rest,
    (first :: rest).getLast? = some n ∧ (first :: rest).IsChain (d.Feeds g) ∧
      K.gen first x ∧ ∀ p ∈ rest, ¬K.kill p x := by
  constructor
  · intro h
    induction h with
    | @gen n hn hgen => exact ⟨n, hn, [], rfl, .singleton n, hgen, List.forall_mem_nil _⟩
    | @pass m n hfeeds _ hkill ih =>
      obtain ⟨first, hfirst, rest, hlast, hchain, hgen, hrest⟩ := ih
      refine ⟨first, hfirst, rest ++ [n], ?_, ?_, hgen, ?_⟩
      · rw [← List.cons_append, List.getLast?_concat]
      · exact isChain_cons_concat_iff.mpr ⟨m, hlast, hchain, hfeeds⟩
      · exact List.forall_mem_append.mpr ⟨hrest, List.forall_mem_singleton.mpr hkill⟩
  · rintro ⟨first, hfirst, rest, hlast, hchain, hgen, hrest⟩
    -- The path is cut at its last step.
    induction rest using List.reverseRecOn generalizing n with
    | nil =>
      obtain rfl := Option.some.inj hlast
      exact .gen hfirst hgen
    | append_singleton rest p ih =>
      obtain rfl : p = n := by
        rw [← List.cons_append, List.getLast?_concat] at hlast
        exact Option.some.inj hlast
      obtain ⟨q, hprevious, hchain, hfeeds⟩ := isChain_cons_concat_iff.mp hchain
      obtain ⟨hrest, hkill⟩ := List.forall_mem_append.mp hrest
      exact .pass hfeeds (ih hprevious hchain hrest) (hkill p (List.mem_singleton_self p))

end GenKill

namespace Analysis

section Carried

variable {α : Type} {cmp : α → α → Ordering} [Std.TransCmp cmp] [Std.LawfulEqCmp cmp]
  {a : Analysis (Std.ExtTreeSet α cmp)} {K : GenKill α} {g : FlowGraph}
  {facts : Facts (Std.ExtTreeSet α cmp)}
  {x : α} {n : FlowNode}

/-- What a node makes of its input in a solution. -/
theorem Solves.mem_output_iff {input output : String → Std.ExtTreeSet α cmp}
    (S : a.Solves g input output) (G : a.IsGenKill K) (hn : n ∈ g.nodes) :
    x ∈ output n.id ↔ K.gen n x ∨ x ∈ input n.id ∧ ¬K.kill n x := by
  obtain ⟨t, htransfer, hmem⟩ := G n (input n.id)
  obtain rfl := Except.ok.inj (htransfer.symm.trans (S.output_eq n hn))
  exact hmem x

/-- Every solution has what the flow carries. -/
theorem Solves.mem_output {input output : String → Std.ExtTreeSet α cmp}
    (S : a.Solves g input output) (G : a.IsGenKill K) (h : K.Carried a.direction g x n) :
    x ∈ output n.id := by
  induction h with
  | gen hn hgen => exact (S.mem_output_iff G hn).mpr (.inl hgen)
  | @pass m n hfeeds _ hkill ih =>
    have hn := (FlowGraph.mem_nodes_of_feeds hfeeds).2
    have hinput := (S.input_isLUB n hn).1 ⟨m, hfeeds, rfl⟩ x ih
    exact (S.mem_output_iff G hn).mpr (.inr ⟨hinput, hkill⟩)

section Solution

open Classical in
/-- The members of a set for which a property of the node with an id holds. -/
noncomputable def membersAt (g : FlowGraph) (all : Std.ExtTreeSet α cmp)
    (holds : FlowNode → α → Prop) (id : String) : Std.ExtTreeSet α cmp :=
  all.filter fun x => ∃ n ∈ g.nodes, n.id = id ∧ holds n x

open Classical in
theorem mem_membersAt {all : Std.ExtTreeSet α cmp} {holds : FlowNode → α → Prop} (H : g.WellFormed)
    (hn : n ∈ g.nodes) : x ∈ membersAt g all holds n.id ↔ x ∈ all ∧ holds n x := by
  rw [membersAt, TreeSet.mem_filter, decide_eq_true_iff]
  refine and_congr_right fun _ => ⟨?_, fun h => ⟨n, hn, rfl, h⟩⟩
  rintro ⟨m, hm, hid, h⟩
  obtain rfl := H.eq_of_id_eq hm hn hid
  exact h

/-- What the flow carries is a solution, once a set holds all that is generated. -/
theorem IsGenKill.solves_carried (G : a.IsGenKill K) (H : g.WellFormed)
    {all : Std.ExtTreeSet α cmp} (hall : ∀ n ∈ g.nodes, ∀ x, K.gen n x → x ∈ all) :
    a.Solves g
      (membersAt g all fun n x => ∃ m, a.direction.Feeds g m n ∧ K.Carried a.direction g x m)
      (membersAt g all fun n x => K.Carried a.direction g x n) where
  input_isLUB n hn := by
    refine TreeSet.isLUB_of_mem_iff fun x => ?_
    rw [mem_membersAt H hn]
    constructor
    · rintro ⟨hx, m, hfeeds, hcarried⟩
      refine ⟨_, ⟨m, hfeeds, rfl⟩, ?_⟩
      exact (mem_membersAt H hcarried.mem_nodes).mpr ⟨hx, hcarried⟩
    · rintro ⟨_, ⟨m, hfeeds, rfl⟩, hx⟩
      rw [mem_membersAt H (FlowGraph.mem_nodes_of_feeds hfeeds).1] at hx
      exact ⟨hx.1, m, hfeeds, hx.2⟩
  output_eq n hn := by
    obtain ⟨t, htransfer, hmem⟩ := G n
      (membersAt g all (fun n x => ∃ m, a.direction.Feeds g m n ∧ K.Carried a.direction g x m) n.id)
    rw [htransfer]
    refine congrArg _ (Std.ExtTreeSet.ext_mem fun x => ?_)
    rw [hmem, mem_membersAt H hn, mem_membersAt H hn]
    constructor
    · rintro (hgen | ⟨⟨hx, m, hfeeds, hcarried⟩, hkill⟩)
      · exact ⟨hall n hn x hgen, .gen hn hgen⟩
      · exact ⟨hx, .pass hfeeds hcarried hkill⟩
    · rintro ⟨hx, hcarried⟩
      cases hcarried with
      | gen _ hgen => exact .inl hgen
      | pass hfeeds hcarried hkill => exact .inr ⟨⟨hx, _, hfeeds, hcarried⟩, hkill⟩

end Solution

namespace LeastFacts

/-- **The least facts are what the flow carries.** -/
theorem mem_output_iff (L : a.LeastFacts g facts) (G : a.IsGenKill K) (H : g.WellFormed)
    {all : Std.ExtTreeSet α cmp} (hall : ∀ n ∈ g.nodes, ∀ x, K.gen n x → x ∈ all)
    (hn : n ∈ g.nodes) :
    x ∈ facts.output a.direction n.id ↔ K.Carried a.direction g x n := by
  constructor
  · intro hx
    exact ((mem_membersAt H hn).mp ((L.least (G.solves_carried H hall) n hn).2 x hx)).2
  · exact L.solves.mem_output G

theorem mem_input_iff (L : a.LeastFacts g facts) (G : a.IsGenKill K) (H : g.WellFormed)
    {all : Std.ExtTreeSet α cmp} (hall : ∀ n ∈ g.nodes, ∀ x, K.gen n x → x ∈ all)
    (hn : n ∈ g.nodes) :
    x ∈ facts.input a.direction n.id ↔
      ∃ m, a.direction.Feeds g m n ∧ K.Carried a.direction g x m := by
  constructor
  · intro hx
    exact ((mem_membersAt H hn).mp ((L.least (G.solves_carried H hall) n hn).1 x hx)).2
  · rintro ⟨m, hfeeds, hcarried⟩
    exact (L.solves.input_isLUB n hn).1 ⟨m, hfeeds, rfl⟩ x (L.solves.mem_output G hcarried)

/-- Nothing but what some node generates occurs in the least facts, under any id. -/
theorem exists_gen (L : a.LeastFacts g facts) (G : a.IsGenKill K) (H : g.WellFormed)
    {all : Std.ExtTreeSet α cmp} (hall : ∀ n ∈ g.nodes, ∀ x, K.gen n x → x ∈ all)
    (hbottom : a.bottom = ∅) {id : String}
    (h : x ∈ facts.input a.direction id ∨ x ∈ facts.output a.direction id) :
    ∃ n ∈ g.nodes, K.gen n x := by
  by_cases hid : ∃ n ∈ g.nodes, n.id = id
  · obtain ⟨n, hn, rfl⟩ := hid
    rcases h with h | h
    · obtain ⟨m, -, hcarried⟩ := (L.mem_input_iff G H hall hn).mp h
      exact hcarried.exists_gen
    · exact ((L.mem_output_iff G H hall hn).mp h).exists_gen
  · obtain ⟨hinput, houtput⟩ := L.unknown id fun n hn heq => hid ⟨n, hn, heq⟩
    rw [hinput, houtput, hbottom, or_self] at h
    exact absurd h Std.ExtTreeSet.not_mem_empty

end LeastFacts

end Carried

end Analysis

/-! ## Reaching definitions -/

/-- A node generates its own definitions and ends those of the variables it defines. -/
def GenKill.reaching : GenKill Definition where
  gen n d := d ∈ n.definitions
  kill n d := d.name ∈ n.defs

theorem Analysis.reaching_isGenKill : reaching.IsGenKill GenKill.reaching := by
  intro n s
  refine ⟨_, rfl, fun d => ?_⟩
  rw [Std.ExtTreeSet.mem_union_iff, Option.getD_some, Definitions.mem_except, or_comm]
  rfl

namespace FlowGraph

variable {g : FlowGraph} {m n : FlowNode} {x : String}

theorem mem_definitions_of_gen (g : FlowGraph) :
    ∀ n ∈ g.nodes, ∀ d, GenKill.reaching.gen n d → d ∈ g.definitions :=
  fun n hn _ hd => mem_definitions.mpr ⟨n, hn, hd⟩

theorem WellFormed.mem_node_definitions_iff (H : g.WellFormed) (hm : m ∈ g.nodes)
    (hn : n ∈ g.nodes) :
    ⟨x, n.id⟩ ∈ m.definitions ↔ n = m ∧ x ∈ n.defs := by
  rw [FlowNode.mem_definitions]
  constructor
  · rintro ⟨hx, hid⟩
    obtain rfl := H.eq_of_id_eq hn hm hid
    exact ⟨rfl, hx⟩
  · rintro ⟨rfl, hx⟩
    exact ⟨hx, rfl⟩

/-- A definition is carried out of a node along a path on which nothing after its own node defines
the variable. -/
theorem WellFormed.carried_definition_iff (H : g.WellFormed) (hn : n ∈ g.nodes) :
    GenKill.reaching.Carried .forward g ⟨x, n.id⟩ m ↔ x ∈ n.defs ∧ ∃ rest,
      (n :: rest).getLast? = some m ∧ (n :: rest).IsChain g.Step ∧ ∀ p ∈ rest, x ∉ p.defs := by
  rw [GenKill.carried_iff_exists_path]
  constructor
  · rintro ⟨first, hfirst, rest, hlast, hchain, hgen, hrest⟩
    obtain ⟨rfl, hx⟩ := (H.mem_node_definitions_iff hfirst hn).mp hgen
    exact ⟨hx, rest, hlast, hchain, hrest⟩
  · rintro ⟨hx, rest, hlast, hchain, hrest⟩
    exact ⟨n, hn, rest, hlast, hchain, (H.mem_node_definitions_iff hn hn).mpr ⟨rfl, hx⟩, hrest⟩

/-- Nothing but definitions that nodes make reaches anything. -/
theorem WellFormed.exists_of_mem_reaching (H : g.WellFormed) {facts : Facts Definitions}
    (L : Analysis.reaching.LeastFacts g facts) {id : String} {d : Definition}
    (h : d ∈ facts.stateBefore id ∨ d ∈ facts.stateAfter id) :
    ∃ n ∈ g.nodes, d.node = n.id ∧ d.name ∈ n.defs := by
  obtain ⟨n, hn, hgen⟩ := L.exists_gen Analysis.reaching_isGenKill H g.mem_definitions_of_gen rfl h
  obtain ⟨hname, hnode⟩ := FlowNode.mem_definitions.mp hgen
  exact ⟨n, hn, hnode, hname⟩

theorem WellFormed.mem_reaching_before_iff (H : g.WellFormed) {facts : Facts Definitions}
    (L : Analysis.reaching.LeastFacts g facts) (hm : m ∈ g.nodes) (hn : n ∈ g.nodes) :
    ⟨x, n.id⟩ ∈ facts.stateBefore m.id ↔ x ∈ n.defs ∧ ∃ inner,
      (n :: (inner ++ [m])).IsChain g.Step ∧ ∀ p ∈ inner, x ∉ p.defs := by
  refine (L.mem_input_iff Analysis.reaching_isGenKill H g.mem_definitions_of_gen hm).trans ?_
  constructor
  · rintro ⟨k, hstep, hcarried⟩
    obtain ⟨hx, inner, hlast, hchain, hinner⟩ := (H.carried_definition_iff hn).mp hcarried
    exact ⟨hx, inner, isChain_cons_concat_iff.mpr ⟨k, hlast, hchain, hstep⟩, hinner⟩
  · rintro ⟨hx, inner, hpath, hinner⟩
    obtain ⟨k, hlast, hchain, hstep⟩ := isChain_cons_concat_iff.mp hpath
    exact ⟨k, hstep, (H.carried_definition_iff hn).mpr ⟨hx, inner, hlast, hchain, hinner⟩⟩

theorem WellFormed.mem_reaching_after_iff (H : g.WellFormed) {facts : Facts Definitions}
    (L : Analysis.reaching.LeastFacts g facts) (hm : m ∈ g.nodes) (hn : n ∈ g.nodes) :
    ⟨x, n.id⟩ ∈ facts.stateAfter m.id ↔
      x ∈ n.defs ∧ (n = m ∨ x ∉ m.defs ∧ ⟨x, n.id⟩ ∈ facts.stateBefore m.id) := by
  refine (L.solves.mem_output_iff Analysis.reaching_isGenKill hm).trans ?_
  constructor
  · rintro (hgen | ⟨hbefore, hkill⟩)
    · obtain ⟨rfl, hx⟩ := (H.mem_node_definitions_iff hm hn).mp hgen
      exact ⟨hx, .inl rfl⟩
    · exact ⟨((H.mem_reaching_before_iff L hm hn).mp hbefore).1, .inr ⟨hkill, hbefore⟩⟩
  · rintro ⟨hx, rfl | ⟨hkill, hbefore⟩⟩
    · exact .inl ((H.mem_node_definitions_iff hn hn).mpr ⟨rfl, hx⟩)
    · exact .inr ⟨hbefore, hkill⟩

/-- **Definitions reach along paths.** On the graph of a function, the definition of a variable in a
node reaches another exactly if some path of at least one step leads there and no node between the
two defines the variable. It is still there after a node that makes it or that it reaches and that
does not define the variable. Nothing else occurs in the facts. -/
theorem ofFunction_reaching_iff {function : Node} {source : String}
    (h : ofFunction function source = .ok g) :
    ∃ facts, (∀ strategy, g.reachingDefinitions strategy = .ok facts) ∧
      (∀ m ∈ g.nodes, ∀ n ∈ g.nodes, ∀ x,
        (⟨x, n.id⟩ ∈ facts.stateBefore m.id ↔ x ∈ n.defs ∧ ∃ inner,
          (n :: (inner ++ [m])).IsChain g.Step ∧ ∀ p ∈ inner, x ∉ p.defs) ∧
        (⟨x, n.id⟩ ∈ facts.stateAfter m.id ↔
          x ∈ n.defs ∧ (n = m ∨ x ∉ m.defs ∧ ⟨x, n.id⟩ ∈ facts.stateBefore m.id))) ∧
      ∀ id d, d ∈ facts.stateBefore id ∨ d ∈ facts.stateAfter id →
        ∃ n ∈ g.nodes, d.node = n.id ∧ d.name ∈ n.defs := by
  have R := Rooted.ofFunction h
  have H := R.toWellFormed
  obtain ⟨facts, L, hfacts⟩ := R.reachingDefinitions_least
  refine ⟨facts, hfacts, fun m hm n hn x => ?_, fun id d => H.exists_of_mem_reaching L⟩
  exact ⟨H.mem_reaching_before_iff L hm hn, H.mem_reaching_after_iff L hm hn⟩

/-- The assignment in the loop is followed by the test, which uses the variable. -/
theorem countdown_step : ∃ g, ofFunction countdown "" = .ok g ∧
    ∃ n m, g.Step n m ∧ "n" ∈ n.defs ∧ "n" ∈ m.uses := by
  obtain ⟨g, hg⟩ := countdown_builds
  have hany : (ofFunction countdown "").toOption.any (fun g => g.edges.any fun e =>
      (g.node e.head).toOption.any (·.defs.contains "n") &&
        (g.node e.tail).toOption.any (·.uses.contains "n")) = true := by decide +kernel
  have hnode : ∀ {i : Nat} {p : FlowNode → Bool}, (g.node i).toOption.any p = true →
      ∃ n, g.node i = .ok n ∧ p n = true := by
    intro i p h
    cases hn : g.node i with
    | ok n => exact ⟨n, rfl, by simpa [hn, Except.toOption] using h⟩
    | error err => simp [hn, Except.toOption] at h
  simp only [hg, Except.toOption, Option.any_some] at hany
  obtain ⟨e, he, hboth⟩ := List.any_eq_true.mp hany
  obtain ⟨hhead, htail⟩ := (Bool.and_eq_true _ _).mp hboth
  obtain ⟨n, hn, hdefs⟩ := hnode hhead
  obtain ⟨m, hm, huses⟩ := hnode htail
  exact ⟨g, hg, n, m, ⟨e, he, hn, hm⟩, Std.ExtTreeSet.contains_iff_mem.mp hdefs,
    Std.ExtTreeSet.contains_iff_mem.mp huses⟩

theorem ofFunction_reaching_iff_countdown : ∃ g, ofFunction countdown "" = .ok g ∧
    ∃ facts, (∀ strategy, g.reachingDefinitions strategy = .ok facts) ∧
      ∃ n m, g.Step n m ∧ "n" ∈ n.defs ∧ "n" ∈ m.uses ∧ ⟨"n", n.id⟩ ∈ facts.stateBefore m.id := by
  obtain ⟨g, hg, n, m, hstep, hdefs, huses⟩ := countdown_step
  obtain ⟨facts, hfacts, hiff, -⟩ := ofFunction_reaching_iff hg
  obtain ⟨hn, hm⟩ := mem_nodes_of_feeds (d := .forward) hstep
  refine ⟨g, hg, facts, hfacts, n, m, hstep, hdefs, huses, (hiff m hm n hn "n").1.mpr ?_⟩
  exact ⟨hdefs, [], List.isChain_pair.mpr hstep, List.forall_mem_nil _⟩

end FlowGraph

/-! ## Live variables -/

/-- A node generates the variables it uses and ends those it defines. -/
def GenKill.live : GenKill String where
  gen n x := x ∈ n.uses
  kill n x := x ∈ n.defs

theorem Analysis.live_isGenKill : live.IsGenKill GenKill.live := by
  intro n s
  refine ⟨_, rfl, fun x => ?_⟩
  rw [Std.ExtTreeSet.mem_union_iff, Option.getD_some, Std.ExtTreeSet.mem_diff_iff]
  rfl

namespace FlowGraph

variable {g : FlowGraph} {n : FlowNode} {x : String} {facts : Facts Names}

theorem mem_usedNames_of_gen (g : FlowGraph) :
    ∀ n ∈ g.nodes, ∀ x, GenKill.live.gen n x → x ∈ g.usedNames :=
  fun n hn _ hx => mem_usedNames.mpr ⟨n, hn, hx⟩

/-- A variable is carried back to a node along a path from it to a use before which nothing defines
the variable. -/
theorem carried_name_iff (hn : n ∈ g.nodes) : GenKill.live.Carried .backward g x n ↔
    ∃ path last, (path ++ [last]).head? = some n ∧ (path ++ [last]).IsChain g.Step ∧
      (∀ p ∈ path, x ∉ p.defs) ∧ x ∈ last.uses := by
  rw [GenKill.carried_iff_exists_path]
  constructor
  · rintro ⟨last, -, rest, hhead, hchain, huses, hrest⟩
    refine ⟨rest.reverse, last, ?_, ?_, ?_, huses⟩
    · rw [← List.reverse_cons, List.head?_reverse, hhead]
    · rw [← List.reverse_cons]
      exact List.isChain_reverse.mpr hchain
    · exact fun p hp => hrest p (List.mem_reverse.mp hp)
  · rintro ⟨path, last, hhead, hchain, hpath, huses⟩
    rw [← List.reverse_reverse (path ++ [last]), List.reverse_concat] at hhead hchain
    rw [List.head?_reverse] at hhead
    have hback : (last :: path.reverse).IsChain (Direction.backward.Feeds g) :=
      List.isChain_reverse.mp hchain
    refine ⟨last, mem_nodes_of_path hn hhead hback, path.reverse, hhead, hback, huses, ?_⟩
    exact fun p hp => hpath p (List.mem_reverse.mp hp)

theorem WellFormed.mem_live_before_iff (H : g.WellFormed) (L : Analysis.live.LeastFacts g facts)
    (hn : n ∈ g.nodes) : x ∈ facts.stateBefore n.id ↔
      ∃ path last, (path ++ [last]).head? = some n ∧ (path ++ [last]).IsChain g.Step ∧
        (∀ p ∈ path, x ∉ p.defs) ∧ x ∈ last.uses :=
  (L.mem_output_iff Analysis.live_isGenKill H g.mem_usedNames_of_gen hn).trans (carried_name_iff hn)

theorem WellFormed.mem_live_after_iff (H : g.WellFormed) (L : Analysis.live.LeastFacts g facts)
    (hn : n ∈ g.nodes) :
    x ∈ facts.stateAfter n.id ↔ ∃ s, g.Step n s ∧ x ∈ facts.stateBefore s.id := by
  refine (L.mem_input_iff Analysis.live_isGenKill H g.mem_usedNames_of_gen hn).trans ?_
  refine exists_congr fun s => and_congr_right fun hstep => ?_
  have hs := (mem_nodes_of_feeds hstep).1
  exact (L.mem_output_iff Analysis.live_isGenKill H g.mem_usedNames_of_gen hs).symm

/-- **Variables are live along paths.** On the graph of a function, a variable is live before a node
exactly if some path from the node, which may be the node alone, ends at a use of the variable and
none of the nodes before that defines it. It is live after a node exactly if it is live before a
successor. -/
theorem ofFunction_live_iff {function : Node} {source : String}
    (h : ofFunction function source = .ok g) :
    ∃ facts, (∀ strategy, g.liveVariables strategy = .ok facts) ∧ ∀ n ∈ g.nodes, ∀ x,
      (x ∈ facts.stateBefore n.id ↔ ∃ path last, (path ++ [last]).head? = some n ∧
        (path ++ [last]).IsChain g.Step ∧ (∀ p ∈ path, x ∉ p.defs) ∧ x ∈ last.uses) ∧
      (x ∈ facts.stateAfter n.id ↔ ∃ s, g.Step n s ∧ x ∈ facts.stateBefore s.id) := by
  have R := Rooted.ofFunction h
  have H := R.toWellFormed
  obtain ⟨facts, L, hfacts⟩ := R.liveVariables_least
  refine ⟨facts, hfacts, fun n hn x => ?_⟩
  exact ⟨H.mem_live_before_iff L hn, H.mem_live_after_iff L hn⟩

theorem ofFunction_live_iff_countdown : ∃ g, ofFunction countdown "" = .ok g ∧
    ∃ facts, (∀ strategy, g.liveVariables strategy = .ok facts) ∧
      ∃ n m, g.Step n m ∧ "n" ∈ n.defs ∧ "n" ∈ m.uses ∧
        "n" ∈ facts.stateAfter n.id ∧ "n" ∈ facts.stateBefore m.id := by
  obtain ⟨g, hg, n, m, hstep, hdefs, huses⟩ := countdown_step
  obtain ⟨facts, hfacts, hiff⟩ := ofFunction_live_iff hg
  obtain ⟨hn, hm⟩ := mem_nodes_of_feeds (d := .forward) hstep
  have hbefore : "n" ∈ facts.stateBefore m.id :=
    (hiff m hm "n").1.mpr ⟨[], m, rfl, .singleton m, List.forall_mem_nil _, huses⟩
  refine ⟨g, hg, facts, hfacts, n, m, hstep, hdefs, huses, ?_, hbefore⟩
  exact (hiff n hn "n").2.mpr ⟨m, hstep, hbefore⟩

end FlowGraph

end ContractFlow
