import ContractFlow.CallGraph
import ContractFlow.Proofs.TreeSetOrder
import Mathlib.Logic.Relation

/-!
What call graphs hold, said without the way they are computed:

* `Node.Calls n name`: somewhere in a tree there is a call by the given name;
* `SourceUnit.Caller u name f`: a function of a contract, other than a constructor, has the
  qualified name;
* `SourceUnit.MayCall u h caller callee`: a function with the name of the caller calls a name that
  the contract of the callee declares.

The bases of contracts have no part in this: a contract that declares a function is found from
itself (`Hierarchy.mem_declarers_iff`). Main statements: `CallGraph.classHierarchy_callees`, what
class hierarchy analysis finds, and `CallGraph.rapidType_callees`, which of it rapid type analysis
keeps.
-/

namespace ContractFlow

/-! ## Calls -/

namespace Node

/-- A node is somewhere in a tree: it is the tree, or is in one of its parts. -/
def Contains : Node → Node → Prop :=
  Relation.ReflTransGen fun n part => part ∈ n.children

theorem mem_descendants_iff {n m : Node} : m ∈ n.descendants ↔ n.Contains m := by
  constructor
  · intro h
    induction n using descendants.induct with
    | case1 n ih =>
      rw [descendants_eq, List.mem_cons, List.mem_flatMap] at h
      rcases h with rfl | ⟨part, hpart, h⟩
      · exact .refl
      · exact .head hpart (ih ⟨part, hpart⟩ h)
  · intro h
    induction h using Relation.ReflTransGen.head_induction_on with
    | refl =>
      rw [descendants_eq]
      exact List.mem_cons_self
    | head hpart _ ih =>
      rw [descendants_eq]
      exact List.mem_cons_of_mem _ (List.mem_flatMap.mpr ⟨_, hpart, ih⟩)

/-- The name that a callee goes by. -/
inductive GoesBy : Node → String → Prop
  | identifier {id src name declaration} : GoesBy ⟨id, src, .identifier name declaration⟩ name
  | member {id src object name} : GoesBy ⟨id, src, .memberAccess object name⟩ name
  | options {id src callee options name} : GoesBy callee name →
    GoesBy ⟨id, src, .functionCallOptions callee options⟩ name

theorem calleeName?_eq_some_iff {n : Node} {name : String} :
    n.calleeName? = some name ↔ n.GoesBy name := by
  constructor
  · intro h
    fun_induction calleeName? n with
    | case1 => cases h; exact .identifier
    | case2 => cases h; exact .member
    | case3 id src callee options ih => exact .options (ih h)
    | case4 => cases h
  · intro h
    induction h with
    | identifier => rfl
    | member => rfl
    | options _ ih => rw [calleeName?, ih]

/-- A call by the given name is somewhere in a tree. -/
def Calls (n : Node) (name : String) : Prop :=
  ∃ call callee arguments, n.Contains call ∧ call.kind = .functionCall callee arguments ∧
    callee.GoesBy name

theorem callTarget?_eq_some_iff {n : Node} {name : String} : n.callTarget? = some name ↔
    ∃ callee arguments, n.kind = .functionCall callee arguments ∧ callee.GoesBy name := by
  unfold callTarget?
  split
  · next callee arguments hkind =>
    rw [hkind, calleeName?_eq_some_iff]
    constructor
    · exact fun h => ⟨callee, arguments, rfl, h⟩
    · rintro ⟨_, _, ⟨⟩, h⟩
      exact h
  · next hkind =>
    constructor
    · intro h
      cases h
    · rintro ⟨callee, arguments, h, -⟩
      exact absurd h (hkind callee arguments)

theorem mem_callSites_iff {n : Node} {name : String} : name ∈ n.callSites ↔ n.Calls name := by
  simp only [callSites, List.mem_filterMap, mem_descendants_iff, callTarget?_eq_some_iff]
  constructor
  · rintro ⟨call, hcall, callee, arguments, hkind, hname⟩
    exact ⟨call, callee, arguments, hcall, hkind, hname⟩
  · rintro ⟨call, callee, arguments, hcall, hkind, hname⟩
    exact ⟨call, hcall, callee, arguments, hkind, hname⟩

end Node

/-! ## Targets -/

namespace Hierarchy

variable {h : Hierarchy} {u : SourceUnit} {contract function : String}

theorem declares_iff : h.declares contract function = true ↔
    ∃ info, h.contract? contract = some info ∧ function ∈ info.functions := by
  simp [declares, ContractInfo.declares, Option.any_eq_true]

/-- What a hierarchy knows of a contract is what one of the contracts with this name declares. -/
theorem exists_of_contract?_ofUnit {info : ContractInfo}
    (hinfo : (ofUnit u).contract? contract = some info) :
    ∃ c ∈ u.contracts, c.name = contract ∧ .ofContract c = info := by
  rw [contract?, ofUnit, Std.ExtTreeMap.ofList_eq_insertMany_empty,
    Std.ExtTreeMap.getElem?_insertMany_list, Std.ExtTreeMap.getElem?_empty, Option.or_none,
    List.findSomeRev?_eq_findSome?_reverse] at hinfo
  obtain ⟨entry, hentry, hfound⟩ := List.exists_of_findSome?_eq_some hinfo
  obtain ⟨c, hc, rfl⟩ := List.mem_map.mp (List.mem_reverse.mp hentry)
  dsimp only at hfound
  split at hfound
  · next hname => exact ⟨c, hc, Std.LawfulEqCmp.eq_of_compare hname, Option.some.inj hfound⟩
  · cases hfound

/-- The contracts that a call may reach are those that declare the function, whichever bases are
looked at. -/
theorem mem_declarers_iff {resolution : BaseResolution} :
    contract ∈ h.declarers resolution function ↔ h.declares contract function = true := by
  rw [declarers, List.mem_flatMap]
  constructor
  · rintro ⟨_, _, hmem⟩
    exact (List.mem_filter.mp hmem).2
  · intro hdeclares
    refine ⟨contract, ?_, List.mem_filter.mpr ⟨List.mem_cons_self, hdeclares⟩⟩
    obtain ⟨info, hinfo, -⟩ := declares_iff.mp hdeclares
    exact mem_names_iff.mpr (Option.isSome_of_eq_some hinfo)

end Hierarchy

namespace CallGraph

variable {h : Hierarchy} {u : SourceUnit} {algorithm : Algorithm} {resolution : BaseResolution}
  {q x function : String} {s : Names}

theorem mem_targets_iff : x ∈ targets h resolution function ↔
    ∃ contract, h.declares contract function = true ∧
      x = qualifiedName (some contract) function := by
  simp only [targets, Std.ExtTreeSet.mem_ofList, List.contains_iff_mem, List.mem_map,
    Hierarchy.mem_declarers_iff, @eq_comm _ x]

theorem mem_calleesOf_iff {keep : String → Bool} {body : Node} :
    x ∈ calleesOf h resolution keep body ↔ keep x = true ∧ ∃ contract function,
      body.Calls function ∧ h.declares contract function = true ∧
        x = qualifiedName (some contract) function := by
  simp only [calleesOf, TreeSet.mem_foldl_union, TreeSet.mem_filter, mem_targets_iff,
    Node.mem_callSites_iff, Std.ExtTreeSet.not_mem_empty, false_or]
  constructor
  · rintro ⟨function, hcalls, ⟨contract, hdeclares, hx⟩, hkeep⟩
    exact ⟨hkeep, contract, function, hcalls, hdeclares, hx⟩
  · rintro ⟨hkeep, contract, function, hcalls, hdeclares, hx⟩
    exact ⟨function, hcalls, ⟨contract, hdeclares, hx⟩, hkeep⟩

/-- How far bases are followed makes no difference. -/
theorem ofUnit_resolution (u : SourceUnit) (h : Hierarchy) (algorithm : Algorithm)
    (resolution resolution' : BaseResolution) :
    ofUnit u h algorithm resolution = ofUnit u h algorithm resolution' := by
  have hcallees : calleesOf h resolution = calleesOf h resolution' := by
    funext keep body
    apply Std.ExtTreeSet.ext_mem
    intro x
    rw [mem_calleesOf_iff, mem_calleesOf_iff]
  rw [ofUnit, ofUnit, hcallees]

end CallGraph

/-! ## Callers -/

/-- The functions that a qualified name stands for as a caller: those of contracts that are not
constructors. -/
def SourceUnit.Caller (u : SourceUnit) (name : String) (f : FunctionDefinition Node) : Prop :=
  ∃ c ∈ u.contracts, ∃ n ∈ c.nodes, n.function? = some f ∧ f.isConstructor = false ∧
    name = qualifiedName (some c.name) f.displayName

theorem mem_functionsAmong {contract : Option (ContractDefinition Node)} {members : List Node}
    {f : DeclaredFunction} : f ∈ functionsAmong contract members ↔
      f.contract = contract ∧ f.node ∈ members ∧ f.node.function? = some f.definition := by
  simp only [functionsAmong, List.mem_filterMap, Option.map_eq_some_iff]
  constructor
  · rintro ⟨n, hn, definition, hdefinition, rfl⟩
    exact ⟨rfl, hn, hdefinition⟩
  · rintro ⟨rfl, hn, hdefinition⟩
    exact ⟨f.node, hn, f.definition, hdefinition, rfl⟩

namespace CallGraph

variable {h : Hierarchy} {u : SourceUnit} {algorithm : Algorithm} {resolution : BaseResolution}
  {q x : String} {s : Names}

theorem exists_mem_callers_iff {p : FunctionDefinition Node → Prop} :
    (∃ f ∈ callers u, f.qualifiedName = q ∧ p f.definition) ↔ ∃ f, u.Caller q f ∧ p f := by
  simp only [callers, SourceUnit.functions, List.mem_filter, List.mem_append, List.mem_flatMap,
    ContractDefinition.functions, mem_functionsAmong, Bool.and_eq_true, Bool.not_eq_true']
  constructor
  · rintro ⟨f, ⟨⟨hcontract, -⟩ | ⟨c, hc, hcontract, hn, hdefinition⟩, hsome, hkind⟩, rfl, hp⟩
    · rw [hcontract] at hsome
      cases hsome
    · refine ⟨f.definition, ⟨c, hc, f.node, hn, hdefinition, hkind, ?_⟩, hp⟩
      rw [DeclaredFunction.qualifiedName, DeclaredFunction.contractName, hcontract]
      rfl
  · rintro ⟨f, ⟨c, hc, n, hn, hdefinition, hkind, rfl⟩, hp⟩
    exact ⟨⟨some c, n, f⟩, ⟨.inr ⟨c, hc, rfl, hn, hdefinition⟩, rfl, hkind⟩, rfl, hp⟩

section Gathering

variable {β : Type} {key : β → String} {value : β → Names} {edges : Std.ExtTreeMap String Names}

/-- The callees of a function are added to those of the functions with the same name. -/
def gather (key : β → String) (value : β → Names) (edges : Std.ExtTreeMap String Names) (f : β) :
    Std.ExtTreeMap String Names :=
  edges.alter (key f) fun known => some (known.getD ∅ ∪ value f)

theorem getElem?_gather (f : β) : (gather key value edges f)[q]? =
    if key f = q then some (edges[q]?.getD ∅ ∪ value f) else edges[q]? := by
  rw [gather]
  by_cases hkey : key f = q
  · rw [if_pos hkey, hkey, Std.ExtTreeMap.getElem?_alter_self]
  · have hcompare : compare (key f) q ≠ .eq := fun heq => hkey (Std.LawfulEqCmp.eq_of_compare heq)
    rw [if_neg hkey, Std.ExtTreeMap.getElem?_alter, if_neg hcompare]

theorem isSome_getElem?_foldl_gather (l : List β) :
    (l.foldl (gather key value) edges)[q]?.isSome = true ↔
      edges[q]?.isSome = true ∨ ∃ f ∈ l, key f = q := by
  induction l generalizing edges with
  | nil => simp
  | cons f l ih =>
    rw [List.foldl_cons, ih, getElem?_gather]
    by_cases hkey : key f = q <;> simp [hkey]

theorem mem_getD_foldl_gather (l : List β) :
    x ∈ (l.foldl (gather key value) edges)[q]?.getD ∅ ↔
      x ∈ edges[q]?.getD ∅ ∨ ∃ f ∈ l, key f = q ∧ x ∈ value f := by
  induction l generalizing edges with
  | nil => simp
  | cons f l ih =>
    rw [List.foldl_cons, ih, getElem?_gather]
    by_cases hkey : key f = q <;> simp [hkey, or_assoc]

end Gathering

/-- The edges of a call graph are gathered from the callers. -/
theorem edges_ofUnit : (ofUnit u h algorithm resolution).edges =
    (callers u).foldl (gather DeclaredFunction.qualifiedName fun f =>
      (f.definition.body.map (calleesOf h resolution (keeps u algorithm))).getD ∅) ∅ := rfl

end CallGraph

/-- A function with the name of the caller calls a name that the contract of the callee declares. -/
def SourceUnit.MayCall (u : SourceUnit) (h : Hierarchy) (caller callee : String) : Prop :=
  ∃ f body contract function, u.Caller caller f ∧ f.body = some body ∧ body.Calls function ∧
    h.declares contract function = true ∧ callee = qualifiedName (some contract) function

namespace CallGraph

variable {h : Hierarchy} {u : SourceUnit} {algorithm : Algorithm} {resolution : BaseResolution}
  {q x : String} {s : Names}

theorem isSome_callees?_ofUnit_iff :
    ((ofUnit u h algorithm resolution).callees? q).isSome = true ↔ ∃ f, u.Caller q f := by
  rw [callees?, edges_ofUnit, isSome_getElem?_foldl_gather]
  simpa using exists_mem_callers_iff (u := u) (q := q) (p := fun _ => True)

/-- **The callees of a caller** are what it may call, so far as the algorithm keeps it. -/
theorem mem_callees_ofUnit_iff (hs : (ofUnit u h algorithm resolution).callees? q = some s) :
    x ∈ s ↔ u.MayCall h q x ∧ keeps u algorithm x = true := by
  have hbody :
      ∀ {o : Option Node}, x ∈ (o.map (calleesOf h resolution (keeps u algorithm))).getD ∅ ↔
      ∃ body, o = some body ∧ x ∈ calleesOf h resolution (keeps u algorithm) body := by
    intro o
    cases o <;> simp
  have hmem : x ∈ s ↔ ∃ f ∈ callers u, f.qualifiedName = q ∧ ∃ body, f.definition.body = some body ∧
      x ∈ calleesOf h resolution (keeps u algorithm) body := by
    rw [callees?, edges_ofUnit] at hs
    rw [← Option.getD_some (a := s) (b := ∅), ← hs, mem_getD_foldl_gather]
    simp [hbody]
  rw [hmem, exists_mem_callers_iff (p := fun f => ∃ body, f.body = some body ∧
    x ∈ calleesOf h resolution (keeps u algorithm) body)]
  simp only [mem_calleesOf_iff]
  constructor
  · rintro ⟨f, hf, body, hbody, hkeep, contract, function, hcalls, hdeclares, hx⟩
    exact ⟨⟨f, body, contract, function, hf, hbody, hcalls, hdeclares, hx⟩, hkeep⟩
  · rintro ⟨⟨f, body, contract, function, hf, hbody, hcalls, hdeclares, hx⟩, hkeep⟩
    exact ⟨f, hf, body, hbody, hkeep, contract, function, hcalls, hdeclares, hx⟩

/-- **Class hierarchy analysis.** The callers are the qualified names of the functions of contracts,
apart from constructors. The callees of a caller are the functions that a contract of the hierarchy
declares under a name that is called in one of its bodies. How far the bases of contracts are
followed makes no difference to the graph, under either algorithm. -/
theorem classHierarchy_callees (u : SourceUnit) (h : Hierarchy) :
    (∀ resolution q,
      (((ofUnit u h .classHierarchy resolution).callees? q).isSome = true ↔ ∃ f, u.Caller q f) ∧
      ∀ s, (ofUnit u h .classHierarchy resolution).callees? q = some s →
        ∀ x, x ∈ s ↔ u.MayCall h q x) ∧
    ∀ algorithm, ofUnit u h algorithm .direct = ofUnit u h algorithm .transitive := by
  refine ⟨fun resolution q => ⟨isSome_callees?_ofUnit_iff, fun s hs x => ?_⟩, fun algorithm => ?_⟩
  · rw [mem_callees_ofUnit_iff hs]
    exact and_iff_left rfl
  · exact ofUnit_resolution u h algorithm .direct .transitive

/-- Contracts `A` and `B` with a function `run`, and `Main` with
`function go() { new A(); x.run(); }`. -/
def dispatch : SourceUnit :=
  let node (id : UInt64) (kind : Kind Node) : Node := ⟨id, ⟨0, 0, 0⟩, kind⟩
  let call (id : UInt64) (callee : Node) : Node :=
    node id (.expressionStatement (node (id + 1) (.functionCall callee [])))
  let contract (id : UInt64) (name function : String) (statements : List Node) : Node :=
    node id (.contractDefinition {
      name := name
      contractKind := "contract"
      baseContracts := []
      nodes := [node (id + 1) (.functionDefinition {
        name := function
        kind := .function
        visibility := none
        stateMutability := none
        parameters := []
        returnParameters := []
        body := some (node (id + 2) (.block statements))
        malformedBody := false })] })
  let create := node 42 (.newExpression (node 43 (.userDefinedTypeName "A")))
  let member := node 52 (.memberAccess (node 53 (.identifier "x" none)) "run")
  { id := 1
    src := ⟨0, 0, 0⟩
    nodes := [contract 10 "A" "run" [], contract 20 "B" "run" [],
      contract 30 "Main" "go" [call 40 create, call 50 member]]
    failures := [] }

theorem callees?_dispatch :
    ∃ s, (ofUnit dispatch (.ofUnit dispatch) .classHierarchy .direct).callees? "Main.go" = some s ∧
      "A.run" ∈ s ∧ "B.run" ∈ s := by
  have hboth : ((ofUnit dispatch (.ofUnit dispatch) .classHierarchy .direct).callees? "Main.go").any
      (fun s => s.contains "A.run" && s.contains "B.run") = true := by decide +kernel
  obtain ⟨s, hs, hboth⟩ := (Option.any_eq_true _ _).mp hboth
  rw [Bool.and_eq_true, Std.ExtTreeSet.contains_iff_mem, Std.ExtTreeSet.contains_iff_mem] at hboth
  exact ⟨s, hs, hboth⟩

theorem classHierarchy_callees_dispatch :
    ∃ s, (ofUnit dispatch (.ofUnit dispatch) .classHierarchy .direct).callees? "Main.go" = some s ∧
      "B.run" ∈ s ∧ dispatch.MayCall (.ofUnit dispatch) "Main.go" "B.run" := by
  obtain ⟨s, hs, -, hB⟩ := callees?_dispatch
  have hcallees := ((classHierarchy_callees dispatch (.ofUnit dispatch)).1 .direct "Main.go").2 s hs
  exact ⟨s, hs, hB, (hcallees "B.run").mp hB⟩

/-! ## Edges -/

theorem hasEdge_iff {g : CallGraph} :
    g.hasEdge q x = true ↔ ∃ s, g.callees? q = some s ∧ x ∈ s := by
  simp [hasEdge, Option.any_eq_true]

theorem hasEdge_ofUnit_iff : (ofUnit u h algorithm resolution).hasEdge q x = true ↔
    u.MayCall h q x ∧ keeps u algorithm x = true := by
  rw [hasEdge_iff]
  constructor
  · rintro ⟨s, hs, hx⟩
    exact (mem_callees_ofUnit_iff hs).mp hx
  · intro hx
    obtain ⟨f, -, -, -, hf, -⟩ := hx.1
    have hsome : ((ofUnit u h algorithm resolution).callees? q).isSome = true :=
      isSome_callees?_ofUnit_iff.mpr ⟨f, hf⟩
    obtain ⟨s, hs⟩ := Option.isSome_iff_exists.mp hsome
    exact ⟨s, hs, (mem_callees_ofUnit_iff hs).mpr hx⟩

theorem mem_edgeList_iff {g : CallGraph} : (q, x) ∈ g.edgeList ↔ g.hasEdge q x = true := by
  rw [hasEdge_iff, edgeList, List.mem_flatMap]
  constructor
  · rintro ⟨⟨caller, s⟩, hs, hx⟩
    obtain ⟨callee, hcallee, heq⟩ := List.mem_map.mp hx
    cases heq
    exact ⟨s, Std.ExtTreeMap.mem_toList_iff_getElem?_eq_some.mp hs,
      Std.ExtTreeSet.mem_toList.mp hcallee⟩
  · rintro ⟨s, hs, hx⟩
    refine ⟨(q, s), Std.ExtTreeMap.mem_toList_iff_getElem?_eq_some.mpr hs,
      List.mem_map.mpr ⟨x, ?_, rfl⟩⟩
    exact Std.ExtTreeSet.mem_toList.mpr hx

theorem isSubgraphOf_iff {g g' : CallGraph} :
    g.isSubgraphOf g' = true ↔ ∀ q x, g.hasEdge q x = true → g'.hasEdge q x = true := by
  simp only [isSubgraphOf, List.all_eq_true, Prod.forall, mem_edgeList_iff]

/-! ## Rapid type analysis -/

/-- Contracts whose name has no point in it are found again in the names of their functions. -/
theorem contractPart_qualifiedName {contract : String} (hpoint : '.' ∉ contract.toList)
    (function : String) : contractPart (qualifiedName (some contract) function) = contract := by
  have hall : ∀ c ∈ contract.toList, decide (c ≠ '.') = true := by
    intro c hc
    rw [decide_eq_true_iff]
    rintro rfl
    exact hpoint hc
  rw [contractPart, qualifiedName, String.toList_append, String.toList_append, List.append_assoc,
    List.takeWhile_append_of_pos hall]
  simp

end CallGraph

namespace SourceUnit

variable {u : SourceUnit} {caller callee : String}

/-- What may be called is a function that one of the contracts declares. -/
theorem MayCall.exists_contract (hcall : u.MayCall (.ofUnit u) caller callee) :
    ∃ c ∈ u.contracts, ∃ function ∈ (ContractInfo.ofContract c).functions,
      callee = qualifiedName (some c.name) function := by
  obtain ⟨-, -, contract, function, -, -, -, hdeclares, hcallee⟩ := hcall
  obtain ⟨info, hinfo, hfunction⟩ := Hierarchy.declares_iff.mp hdeclares
  obtain ⟨c, hc, rfl, rfl⟩ := Hierarchy.exists_of_contract?_ofUnit hinfo
  exact ⟨c, hc, function, hfunction, hcallee⟩

end SourceUnit

namespace CallGraph

/-- Rapid type analysis keeps what belongs to a contract that is created. -/
theorem keeps_rapidType_iff {u : SourceUnit} {q x : String}
    (hnames : ∀ c ∈ u.contracts, '.' ∉ c.name.toList) (hcall : u.MayCall (.ofUnit u) q x) :
    keeps u .rapidType x = true ↔ ∃ c ∈ u.contracts, ∃ function,
      x = qualifiedName (some c.name) function ∧ c.name ∈ u.root.createdContracts := by
  have hkept : keeps u .rapidType x = true ↔ contractPart x ∈ u.root.createdContracts :=
    Std.ExtTreeSet.contains_iff_mem
  rw [hkept]
  constructor
  · intro hcreated
    obtain ⟨c, hc, function, -, rfl⟩ := hcall.exists_contract
    rw [contractPart_qualifiedName (hnames c hc)] at hcreated
    exact ⟨c, hc, function, rfl, hcreated⟩
  · rintro ⟨c, hc, function, rfl, hcreated⟩
    rwa [contractPart_qualifiedName (hnames c hc)]

/-- **Rapid type analysis.** It has the same callers as class hierarchy analysis, and where the
names of contracts have no point in them, it keeps exactly the callees whose contract is created
somewhere. It never adds any. -/
theorem rapidType_callees (u : SourceUnit) (resolution : BaseResolution) :
    (∀ q, ((ofUnit u (.ofUnit u) .rapidType resolution).callees? q).isSome =
      ((ofUnit u (.ofUnit u) .classHierarchy resolution).callees? q).isSome) ∧
    ((∀ c ∈ u.contracts, '.' ∉ c.name.toList) →
      ∀ q s, (ofUnit u (.ofUnit u) .classHierarchy resolution).callees? q = some s →
        ∃ t, (ofUnit u (.ofUnit u) .rapidType resolution).callees? q = some t ∧
          ∀ x, x ∈ t ↔ x ∈ s ∧ ∃ c ∈ u.contracts, ∃ function,
            x = qualifiedName (some c.name) function ∧ c.name ∈ u.root.createdContracts) ∧
    ∀ h, (∀ q x, (ofUnit u h .rapidType resolution).hasEdge q x = true →
        (ofUnit u h .classHierarchy resolution).hasEdge q x = true) ∧
      (ofUnit u h .rapidType resolution).isSubgraphOf (ofUnit u h .classHierarchy resolution) =
        true := by
  have hcallers : ∀ q, ((ofUnit u (.ofUnit u) .rapidType resolution).callees? q).isSome =
      ((ofUnit u (.ofUnit u) .classHierarchy resolution).callees? q).isSome := by
    intro q
    rw [Bool.eq_iff_iff]
    exact isSome_callees?_ofUnit_iff.trans isSome_callees?_ofUnit_iff.symm
  have hedges : ∀ h q x, (ofUnit u h .rapidType resolution).hasEdge q x = true →
      (ofUnit u h .classHierarchy resolution).hasEdge q x = true := by
    intro h q x hedge
    exact hasEdge_ofUnit_iff.mpr ⟨(hasEdge_ofUnit_iff.mp hedge).1, rfl⟩
  refine ⟨hcallers, fun hnames q s hs => ?_, fun h => ⟨hedges h, isSubgraphOf_iff.mpr (hedges h)⟩⟩
  have hsome := hcallers q
  rw [hs, Option.isSome_some] at hsome
  obtain ⟨t, ht⟩ := Option.isSome_iff_exists.mp hsome
  refine ⟨t, ht, fun x => ?_⟩
  have hmem : x ∈ s ↔ u.MayCall (.ofUnit u) q x := by
    rw [mem_callees_ofUnit_iff hs]
    exact and_iff_left rfl
  rw [mem_callees_ofUnit_iff ht, hmem]
  exact and_congr_right (keeps_rapidType_iff hnames)

theorem rapidType_callees_dispatch : (∀ c ∈ dispatch.contracts, '.' ∉ c.name.toList) ∧
    ∃ s t,
      (ofUnit dispatch (.ofUnit dispatch) .classHierarchy .direct).callees? "Main.go" = some s ∧
      (ofUnit dispatch (.ofUnit dispatch) .rapidType .direct).callees? "Main.go" = some t ∧
      "A.run" ∈ s ∧ "B.run" ∈ s ∧ "A.run" ∈ t ∧ "B.run" ∉ t := by
  have hnames : ∀ c ∈ dispatch.contracts, '.' ∉ c.name.toList := by decide
  obtain ⟨s, hs, hA, hB⟩ := callees?_dispatch
  obtain ⟨t, ht, hmem⟩ := (rapidType_callees dispatch .direct).2.1 hnames "Main.go" s hs
  refine ⟨hnames, s, t, hs, ht, hA, hB, (hmem "A.run").mpr ⟨hA, ?_⟩, fun hkept => ?_⟩
  · have hcreated : ∃ c ∈ dispatch.contracts, c.name = "A" ∧
        dispatch.root.createdContracts.contains "A" := by
      decide +kernel
    obtain ⟨c, hc, hname, hcreated⟩ := hcreated
    exact ⟨c, hc, "run", by rw [hname]; rfl, by rwa [hname, ← Std.ExtTreeSet.contains_iff_mem]⟩
  · obtain ⟨-, c, hc, function, hname, hcreated⟩ := (hmem "B.run").mp hkept
    have hpart : contractPart "B.run" = c.name := by
      rw [hname, contractPart_qualifiedName (hnames c hc)]
    rw [← hpart, ← Std.ExtTreeSet.contains_iff_mem] at hcreated
    revert hcreated
    decide +kernel

end CallGraph

end ContractFlow
