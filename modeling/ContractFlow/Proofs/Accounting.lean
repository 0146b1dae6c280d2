import ContractFlow.Report
import ContractFlow.Proofs.BodyIndependence
import ContractFlow.Proofs.LeastSolution

/-!
What becomes of the functions of a program. A function is reported, or it has no graph, or its body
could not be read; `Program.group` says which. The analysis of a function fails only if it has no
graph (`Program.analyzeFunction_of_ok`), and a function whose body could not be read has left a
failure with the member that it comes from (`SourceUnit.exists_member`,
`SourceUnit.exists_failure_of_malformed`).

Main statement: `Program.ofJson_accounts`. Reports hold the functions of each group, and the
analysis that ends with the first failure agrees with the one that records failures.
-/

namespace ContractFlow

/-! ## Functions whose body could not be read -/

namespace Node

variable {v : Json} {context : ReadingContext} {n : Node} {definition : FunctionDefinition Node}

theorem kind_of_function? (h : n.function? = some definition) :
    n.kind = .functionDefinition definition := by
  obtain ⟨id, src, kind⟩ := n
  cases kind <;> cases h
  rfl

/-- A function that is read has its body. -/
theorem intact_of_read (h : (read context v).result = .ok n) (hn : n.function? = some definition) :
    definition.malformedBody = false := by
  have hkind := kind_of_function? hn
  have htype : v.stringAt? "nodeType" = some NodeType.functionDefinition.name := by
    rw [(header_of_read h).type, Node.type, hkind]
    rfl
  obtain ⟨header, body, hkind', hheader⟩ := function_of_read htype h
  cases hkind.symm.trans hkind'
  obtain ⟨-, hintact⟩ := NodeFields.functionHeader_yields _ _ _ hheader
  exact hintact

/-- A function that is read without its body has the id that is written. -/
theorem header_of_readHeader (h : (readHeader context v).result = .ok n) :
    (v.get? "id").bind Json.toUInt64? = some n.id ∧
      ∃ definition, n.kind = .functionDefinition definition := by
  obtain ⟨f, hf, h⟩ := Reading.result_bind_eq_ok h
  obtain ⟨header, -, h⟩ := Reading.result_bind_eq_ok h
  obtain ⟨src, -, h⟩ := Reading.result_bind_eq_ok h
  cases h
  exact ⟨(NodeFields.ofJson_eq_ok_iff.mp hf).2, _, rfl⟩

end Node

section Members

variable {contract : Option String} {v : Json} {n : Node}

/-- What is kept of a member has been read, or it is a function that is recorded and read without
its body. -/
theorem memberNode?_cases (h : memberNode? contract v = some n) :
    (Node.read ⟨false, contract⟩ v).result = .ok n ∨
      (∃ error, (Node.read ⟨false, contract⟩ v).result = .error error ∧
        memberFailure contract v error ∈ memberFailures contract v) ∧
      v.stringAt? "nodeType" = some NodeType.functionDefinition.name ∧
        (Node.readHeader ⟨false, contract⟩ v).result = .ok n := by
  cases hread : (Node.read ⟨false, contract⟩ v).result with
  | ok m =>
    rw [memberNode?_of_ok hread] at h
    cases h
    exact .inl rfl
  | error error =>
    rw [memberNode?_of_error hread] at h
    split at h
    · next htype =>
      refine .inr ⟨⟨error, rfl, ?_⟩, htype, ?_⟩
      · simp [memberFailures, hread]
      · cases hheader : (Node.readHeader ⟨false, contract⟩ v).result with
        | ok m =>
          rw [hheader] at h
          cases h
          rfl
        | error error =>
          rw [hheader] at h
          cases h
    · cases h

theorem exists_memberFailure {definition : FunctionDefinition Node}
    (h : memberNode? contract v = some n)
    (hn : n.function? = some definition) (hmalformed : definition.malformedBody = true) :
    ∃ failure ∈ memberFailures contract v, failure.contract = contract ∧
      failure.functionId = n.id := by
  rcases memberNode?_cases h with hread | ⟨⟨error, -, hmem⟩, -, hheader⟩
  · simp [Node.intact_of_read hread hn] at hmalformed
  · refine ⟨_, hmem, rfl, ?_⟩
    rw [memberFailure, (Node.header_of_readHeader hheader).1]
    rfl

/-- What is recorded of the members of a contract is recorded of the contract. -/
theorem memberNode?_contract {c : ContractDefinition Node} (h : memberNode? contract v = some n)
    (hn : n.contract? = some c) : v.stringAt? "name" = some c.name ∧
      ∃ values, v.get? "nodes" = some (.array values) ∧
      c.nodes = values.filterMap (memberNode? (some c.name)) ∧
      values.flatMap (memberFailures (some c.name)) ⊆ memberFailures contract v := by
  obtain ⟨id, src, kind⟩ := n
  have hkind : kind = .contractDefinition c := by
    cases kind <;> cases hn
    rfl
  subst hkind
  rcases memberNode?_cases h with hread | ⟨-, -, hheader⟩
  · have hreading : Node.read ⟨false, contract⟩ v =
        ⟨(Node.read ⟨false, contract⟩ v).failures, .ok ⟨id, src, .contractDefinition c⟩⟩ := by
      rw [← hread]
    obtain ⟨-, hhead, values, hvalues, hnodes, hfailures⟩ := Node.read_contract_iff.mp hreading
    refine ⟨NodeFields.string_eq_ok_iff.mp hhead.name, values, hvalues, hnodes, ?_⟩
    rw [← hfailures]
    exact List.subset_append_left _ _
  · obtain ⟨-, definition, hkind⟩ := Node.header_of_readHeader hheader
    cases hkind

theorem exists_member_among {values : List Json} {contract : Option (ContractDefinition Node)}
    {f : DeclaredFunction}
    (hf : f ∈ functionsAmong contract (values.filterMap (memberNode? (contract.map (·.name))))) :
    f.contractName = contract.map (·.name) ∧ f.node.function? = some f.definition ∧
      ∃ w ∈ values, memberNode? f.contractName w = some f.node ∧
        memberFailures f.contractName w ⊆ values.flatMap (memberFailures f.contractName) := by
  obtain ⟨rfl, hnode, hdefinition⟩ := mem_functionsAmong.mp hf
  obtain ⟨w, hw, hnode⟩ := List.mem_filterMap.mp hnode
  exact ⟨rfl, hdefinition, w, hw, hnode, fun _ hfailure => List.mem_flatMap.mpr ⟨w, hw, hfailure⟩⟩

end Members

/-- A value is a member of a file, or of a contract with some name in it. -/
inductive Json.IsMember (v : Json) : Option String → Json → Prop
  | file {values : List Json} {w : Json} : v.get? "nodes" = some (.array values) → w ∈ values →
    IsMember v none w
  | contract {values members : List Json} {u w : Json} {name : String} :
    v.get? "nodes" = some (.array values) →
    u ∈ values → u.stringAt? "name" = some name →
    u.get? "nodes" = some (.array members) → w ∈ members →
      IsMember v (some name) w

namespace SourceUnit

variable {v : Json} {u : SourceUnit} {f : DeclaredFunction}

/-- **Where functions come from.** A function of a file is what is kept of a member, and what is
recorded of this member is recorded of the file. -/
theorem exists_member (hu : ofJson v = .ok u) (hf : f ∈ u.functions) :
    f.node.function? = some f.definition ∧ ∃ w, v.IsMember f.contractName w ∧
      memberNode? f.contractName w = some f.node ∧
        memberFailures f.contractName w ⊆ u.failures := by
  obtain ⟨-, values, hvalues, hnodes, hfailures⟩ :=
    Node.read_sourceUnit_iff.mp (ofJson_eq_ok_iff.mp hu)
  rw [hfailures]
  rcases List.mem_append.mp hf with hf | hf
  · rw [hnodes] at hf
    obtain ⟨hcontract, hdefinition, w, hw, hnode, hrecorded⟩ := exists_member_among hf
    rw [hcontract] at hnode hrecorded ⊢
    exact ⟨hdefinition, w, .file hvalues hw, hnode, hrecorded⟩
  · obtain ⟨c, hc, hf⟩ := List.mem_flatMap.mp hf
    obtain ⟨n, hn, hkind⟩ := List.mem_filterMap.mp hc
    rw [hnodes] at hn
    obtain ⟨x, hx, hn⟩ := List.mem_filterMap.mp hn
    obtain ⟨hname, members, hmembers, hkept, hcontained⟩ := memberNode?_contract hn hkind
    rw [ContractDefinition.functions, hkept] at hf
    obtain ⟨hcontract, hdefinition, w, hw, hnode, hrecorded⟩ := exists_member_among hf
    rw [hcontract] at hnode hrecorded ⊢
    refine ⟨hdefinition, w, .contract hvalues hx hname hmembers hw, hnode,
      fun failure hfailure => ?_⟩
    exact List.mem_flatMap.mpr ⟨x, hx, hcontained (hrecorded hfailure)⟩

/-- **Malformed functions are recorded.** A function of a file whose body could not be read has left
a failure. -/
theorem exists_failure_of_malformed (hu : ofJson v = .ok u) (hf : f ∈ u.functions)
    (hmalformed : f.definition.malformedBody = true) :
    ∃ failure ∈ u.failures, failure.contract = f.contractName ∧ failure.functionId = f.id := by
  obtain ⟨hdefinition, w, -, hnode, hrecorded⟩ := exists_member hu hf
  obtain ⟨failure, hfailure, hmatch⟩ := exists_memberFailure hnode hdefinition hmalformed
  exact ⟨failure, hrecorded hfailure, hmatch⟩

end SourceUnit

/-! ## Lists of attempts -/

section Attempts

variable {α β ε : Type}

/-- Attempts in turn all succeed, or they end with the first that fails. -/
theorem mapM_except_cases (f : α → Except ε β) (l : List α) :
    ((∀ a ∈ l, ∃ b, f a = .ok b) ∧ l.mapM f = .ok (l.filterMap fun a => (f a).toOption)) ∨
      ∃ before a after error, l = before ++ a :: after ∧ (∀ b ∈ before, ∃ c, f b = .ok c) ∧
        f a = .error error ∧ l.mapM f = .error error := by
  induction l with
  | nil => exact .inl ⟨nofun, rfl⟩
  | cons a l ih =>
    cases ha : f a with
    | error error =>
      refine .inr ⟨[], a, l, error, rfl, nofun, ha, ?_⟩
      rw [List.mapM_cons, ha]
      rfl
    | ok b =>
      rcases ih with ⟨hall, hmap⟩ | ⟨before, a', after, error, rfl, hbefore, ha', hmap⟩
      · refine .inl ⟨List.forall_mem_cons.mpr ⟨⟨b, ha⟩, hall⟩, ?_⟩
        rw [List.mapM_cons, ha, hmap, List.filterMap_cons, ha]
        rfl
      · refine .inr ⟨a :: before, a', after, error, rfl,
          List.forall_mem_cons.mpr ⟨⟨b, ha⟩, hbefore⟩, ha', ?_⟩
        rw [List.mapM_cons, ha, hmap]
        rfl

/-- What is selected of a list stands beside what it has been selected from. -/
theorem forall₂_filter_filterMap {R : α → β → Prop} {p : α → Bool} {f : α → Option β} (l : List α)
    (h : ∀ a ∈ l, if p a then ∃ b, f a = some b ∧ R a b else f a = none) :
    List.Forall₂ R (l.filter p) (l.filterMap f) := by
  induction l with
  | nil => exact .nil
  | cons a l ih =>
    obtain ⟨ha, hl⟩ := List.forall_mem_cons.mp h
    split at ha
    · next hp =>
      obtain ⟨b, hb, hR⟩ := ha
      rw [List.filter_cons_of_pos hp, List.filterMap_cons_some hb]
      exact .cons hR (ih hl)
    · next hp =>
      rw [List.filter_cons_of_neg hp, List.filterMap_cons_none ha]
      exact ih hl

end Attempts

/-! ## Programs -/

namespace Program

variable {p : Program} {f : DeclaredFunction}

/-- What can become of a function: it is reported, it has no graph, or its body could not be
read. -/
inductive Group where
  | reported | failed | malformed
  deriving DecidableEq, Repr

def group (p : Program) (f : DeclaredFunction) : Group :=
  if f.definition.malformedBody then .malformed
  else match p.flowGraph f with
    | .ok _ => .reported
    | .error _ => .failed

theorem group_cases (p : Program) (f : DeclaredFunction) :
    (f.definition.malformedBody = true ∧ p.group f = .malformed) ∨
      f.definition.malformedBody = false ∧ ((∃ g, p.flowGraph f = .ok g ∧ p.group f = .reported) ∨
        ∃ error, p.flowGraph f = .error error ∧ p.group f = .failed) := by
  cases hbody : f.definition.malformedBody with
  | true => exact .inl ⟨rfl, by simp [group, hbody]⟩
  | false =>
    refine .inr ⟨rfl, ?_⟩
    cases hf : p.flowGraph f with
    | ok g => exact .inl ⟨g, rfl, by simp [group, hbody, hf]⟩
    | error error => exact .inr ⟨error, rfl, by simp [group, hbody, hf]⟩

theorem group_eq_malformed_iff : p.group f = .malformed ↔ f.definition.malformedBody = true := by
  rcases p.group_cases f with ⟨hbody, hgroup⟩ | ⟨hbody, ⟨g, -, hgroup⟩ | ⟨error, -, hgroup⟩⟩
  · simp [hbody, hgroup]
  · simp [hbody, hgroup]
  · simp [hbody, hgroup]

/-- The functions of a group, in source order. -/
def grouped (p : Program) (group : Group) : List DeclaredFunction :=
  p.functions.filter (p.group · = group)

theorem length_grouped (p : Program) :
    (p.grouped .reported).length + (p.grouped .failed).length + (p.grouped .malformed).length =
      p.functions.length := by
  unfold grouped
  induction p.functions with
  | nil => rfl
  | cons f l ih =>
    cases hf : p.group f <;> simp [hf] <;> omega

/-- **The accounts of a report.** It holds a report for each function of the first group, with its
graph. The failures are those of reading, and then one for each function of the second group. Each
function of the third group is among the failures of reading. There are no other functions. -/
structure Accounts (p : Program) (r : Report) : Prop where
  reported :
    List.Forall₂ (fun f entry => entry.contract = f.contractName ∧ entry.function = f.name ∧
    entry.functionId = f.id ∧ p.flowGraph f = .ok entry.graph) (p.grouped .reported) r.functions
  graphs : r.functions.map (·.graph) = p.flowGraphs
  failed : List.Forall₂ (fun f failure => ∃ error, p.flowGraph f = .error error ∧
    failure = f.failure error)
    (p.grouped .failed) p.flowFailures
  failures : r.failures = p.failures ++ p.flowFailures
  complete : r.functions.length + p.flowFailures.length + (p.grouped .malformed).length =
    p.functions.length
  malformed : ∀ f ∈ p.functions, p.group f = .malformed ↔ f.definition.malformedBody = true
  malformed_recorded : ∀ f ∈ p.grouped .malformed, ∃ failure ∈ p.failures,
    failure.contract = f.contractName ∧ failure.functionId = f.id

/-- **What the first failure does.** An analysis that ends with the first failure yields the report
`r` if this holds no failures. Otherwise it ends with the first failure of reading, or with the
error of the first function that has no graph. -/
structure EndsWithFirstFailure (p : Program) (r : Report) (result : Except Error Report) :
    Prop where
  ok_iff : (∃ r', result = .ok r') ↔ r.failures = []
  same : ∀ r', result = .ok r' → r' = r
  unread : ∀ failure ∈ p.failures.head?, result = .error (.custom failure.message)
  first : p.failures = [] → r.failures ≠ [] →
    ∃ before f after error, p.functions = before ++ f :: after ∧
    (∀ f' ∈ before, ∃ g, p.flowGraph f' = .ok g) ∧ p.flowGraph f = .error error ∧
      result = .error error

theorem analyzeFunction_of_error (strategy : Strategy) {error : Error}
    (h : p.flowGraph f = .error error) :
    p.analyzeFunction strategy f = .error error := by
  rw [analyzeFunction, h]
  rfl

/-- A function that has a graph can be analyzed: the solver never fails on it. -/
theorem analyzeFunction_of_ok (strategy : Strategy) {g : FlowGraph} (h : p.flowGraph f = .ok g) :
    ∃ entry, p.analyzeFunction strategy f = .ok entry ∧ entry.contract = f.contractName ∧
    entry.function = f.name ∧
      entry.functionId = f.id ∧ entry.graph = g := by
  have R := FlowGraph.Rooted.ofFunction h
  obtain ⟨reaching, -, hreaching⟩ := R.reachingDefinitions_least
  obtain ⟨live, -, hlive⟩ := R.liveVariables_least
  refine ⟨⟨f.contractName, f.name, f.id, g, reaching, live⟩, ?_, rfl, rfl, rfl, rfl⟩
  rw [analyzeFunction, h]
  simp only [bind, Except.bind, hreaching, hlive]
  rfl

theorem analyzeFunction_eq_error_iff {strategy : Strategy} {error : Error} :
    p.analyzeFunction strategy f = .error error ↔ p.flowGraph f = .error error := by
  constructor
  · intro h
    cases hf : p.flowGraph f with
    | error error' =>
      rw [analyzeFunction_of_error strategy hf] at h
      cases h
      rfl
    | ok g =>
      obtain ⟨entry, hentry, -⟩ := analyzeFunction_of_ok strategy hf
      rw [hentry] at h
      cases h
  · exact analyzeFunction_of_error strategy

theorem exists_flowGraph {strategy : Strategy}
    (h : ∃ entry, p.analyzeFunction strategy f = .ok entry) :
    ∃ g, p.flowGraph f = .ok g := by
  obtain ⟨entry, hentry⟩ := h
  cases hf : p.flowGraph f with
  | ok g => exact ⟨g, rfl⟩
  | error error =>
    rw [analyzeFunction_of_error strategy hf] at hentry
    cases hentry

/-! ### Failures on record -/

theorem analyzeEach_functions (p : Program) (o : Options) : (p.analyzeEach o).functions =
    p.readFunctions.filterMap fun f => (p.analyzeFunction o.strategy f).toOption := by
  rw [analyzeEach, List.filterMap_map]
  rfl

theorem analyzeEach_failures (p : Program) (o : Options) :
    (p.analyzeEach o).failures = p.failures ++ p.flowFailures := by
  refine congrArg (p.failures ++ ·) ((List.filterMap_map ..).trans ?_)
  refine List.filterMap_congr fun f _ => ?_
  cases hf : p.flowGraph f with
  | error error => simp [analyzeFunction_of_error o.strategy hf]
  | ok g =>
    obtain ⟨entry, hentry, -⟩ := analyzeFunction_of_ok o.strategy hf
    simp [hentry]

/-- The reports of functions are those of the first group. -/
theorem forall₂_functions (p : Program) (o : Options) :
    List.Forall₂ (fun f entry => entry.contract = f.contractName ∧ entry.function = f.name ∧
      entry.functionId = f.id ∧ p.flowGraph f = .ok entry.graph) (p.grouped .reported)
        (p.analyzeEach o).functions := by
  rw [analyzeEach_functions, readFunctions, List.filterMap_filter]
  refine forall₂_filter_filterMap _ fun f _ => ?_
  rcases p.group_cases f with ⟨hbody, hgroup⟩ | ⟨hbody, ⟨g, hf, hgroup⟩ | ⟨error, hf, hgroup⟩⟩
  · simp [hbody, hgroup]
  · obtain ⟨entry, hentry, hcontract, hname, hid, rfl⟩ := analyzeFunction_of_ok o.strategy hf
    simp [hbody, hgroup, hentry, Except.toOption, hcontract, hname, hid, hf]
  · simp [hbody, hgroup, analyzeFunction_of_error o.strategy hf, Except.toOption]

theorem map_graph_functions (p : Program) (o : Options) :
    (p.analyzeEach o).functions.map (·.graph) = p.flowGraphs := by
  rw [analyzeEach_functions, List.map_filterMap, flowGraphs]
  refine List.filterMap_congr fun f _ => ?_
  cases hf : p.flowGraph f with
  | error error =>
    rw [analyzeFunction_of_error o.strategy hf]
    rfl
  | ok g =>
    obtain ⟨entry, hentry, -, -, -, rfl⟩ := analyzeFunction_of_ok o.strategy hf
    rw [hentry]
    rfl

/-- The failures to build a graph are those of the second group. -/
theorem forall₂_flowFailures (p : Program) :
    List.Forall₂
      (fun f failure => ∃ error, p.flowGraph f = .error error ∧ failure = f.failure error)
      (p.grouped .failed) p.flowFailures := by
  rw [flowFailures, readFunctions, List.filterMap_filter]
  refine forall₂_filter_filterMap _ fun f _ => ?_
  rcases p.group_cases f with ⟨hbody, hgroup⟩ | ⟨hbody, ⟨g, hf, hgroup⟩ | ⟨error, hf, hgroup⟩⟩
  · simp [hbody, hgroup]
  · simp [hbody, hgroup, hf]
  · simp [hbody, hgroup, hf]

theorem accounts (o : Options)
    (hrecorded : ∀ f ∈ p.functions, f.definition.malformedBody = true → ∃ failure ∈ p.failures,
      failure.contract = f.contractName ∧ failure.functionId = f.id) :
        p.Accounts (p.analyzeEach o) where
  reported := p.forall₂_functions o
  graphs := p.map_graph_functions o
  failed := p.forall₂_flowFailures
  failures := p.analyzeEach_failures o
  complete := by
    rw [← (p.forall₂_functions o).length_eq, ← p.forall₂_flowFailures.length_eq]
    exact p.length_grouped
  malformed _ _ := group_eq_malformed_iff
  malformed_recorded f hf := by
    obtain ⟨hf, hgroup⟩ := List.mem_filter.mp hf
    exact hrecorded f hf (group_eq_malformed_iff.mp (of_decide_eq_true hgroup))

/-! ### The first failure -/

/-- Analyzing functions in turn yields the same reports, unless a function has no graph: the first
one ends the analysis. -/
theorem analyzeAll_cases (p : Program) (o : Options) :
    (p.flowFailures = [] ∧ p.analyzeAll o = .ok { p.analyzeEach o with failures := [] }) ∨
      ∃ before f after error, p.readFunctions = before ++ f :: after ∧
      (∀ f' ∈ before, ∃ g, p.flowGraph f' = .ok g) ∧
        p.flowGraph f = .error error ∧ p.flowFailures ≠ [] ∧ p.analyzeAll o = .error error := by
  rcases mapM_except_cases (p.analyzeFunction o.strategy) p.readFunctions with
    ⟨hall, hmap⟩ | ⟨before, f, after, error, hsplit, hbefore, hf, hmap⟩
  · refine .inl ⟨List.filterMap_eq_nil_iff.mpr fun f hf => ?_, ?_⟩
    · obtain ⟨g, hg⟩ := exists_flowGraph (hall f hf)
      rw [hg]
    · rw [analyzeAll, hmap, ← analyzeEach_functions]
      rfl
  · have hf := analyzeFunction_eq_error_iff.mp hf
    refine .inr ⟨before, f, after, error, hsplit,
      fun f' hf' => exists_flowGraph (hbefore f' hf'), hf, ?_, ?_⟩
    · rw [flowFailures, hsplit]
      simp [hf]
    · rw [analyzeAll, hmap]
      rfl

theorem endsWithFirstFailure (o : Options)
    (hread : p.failures = [] → p.readFunctions = p.functions) :
    p.EndsWithFirstFailure (p.analyzeEach o) (p.analyze { o with failFast := true }) := by
  have heach := p.analyzeEach_failures o
  cases hfailures : p.failures with
  | cons failure rest =>
    have hresult : p.analyze { o with failFast := true } = .error (.custom failure.message) := by
      simp [analyze, hfailures]
    refine ⟨?_, ?_, ?_, ?_⟩
    · simp [hresult, heach, hfailures]
    · simp [hresult]
    · simp [hresult, hfailures]
    · simp [hfailures]
  | nil =>
    have hresult : p.analyze { o with failFast := true } = p.analyzeAll o := by
      simp only [analyze, hfailures, if_true]
      rfl
    rw [hfailures, List.nil_append] at heach
    rw [hresult]
    rcases p.analyzeAll_cases o with
      ⟨hnone, hall⟩ | ⟨before, f, after, error, hsplit, hbefore, hf, hsome, hall⟩
    · have hsame : { p.analyzeEach o with failures := [] } = p.analyzeEach o := by
        rw [← hnone, ← heach]
      rw [hall, hsame]
      refine ⟨?_, ?_, ?_, ?_⟩
      · simp [heach, hnone]
      · simp
      · simp [hfailures]
      · exact fun _ h => absurd (heach.trans hnone) h
    · rw [hall]
      refine ⟨?_, ?_, ?_, fun _ _ => ⟨before, f, after, error, ?_, hbefore, hf, rfl⟩⟩
      · simp [heach, hsome]
      · simp
      · simp [hfailures]
      · rw [← hread hfailures, hsplit]

theorem unit_of_ofJson {tree : Json} {source : String} (h : ofJson tree source = .ok p) :
    SourceUnit.ofJson tree = .ok p.unit := by
  rw [ofJson] at h
  cases hu : SourceUnit.ofJson tree with
  | error error =>
    rw [hu] at h
    cases h
  | ok u =>
    rw [hu] at h
    cases h
    rfl

/-- **Accounting.** Of a program that has been read, an analysis that records failures yields a
report that accounts for every function, and an analysis that ends with the first failure agrees
with it. -/
theorem ofJson_accounts {tree : Json} {source : String} (h : ofJson tree source = .ok p)
    (o : Options) :
    ∃ r, p.analyze { o with failFast := false } = .ok r ∧ p.Accounts r ∧
      p.EndsWithFirstFailure r (p.analyze { o with failFast := true }) := by
  have hrecorded : ∀ f ∈ p.functions, f.definition.malformedBody = true → ∃ failure ∈ p.failures,
      failure.contract = f.contractName ∧ failure.functionId = f.id := by
    intro f hf
    exact SourceUnit.exists_failure_of_malformed (unit_of_ofJson h) hf
  have hread : p.failures = [] → p.readFunctions = p.functions := by
    intro hnone
    refine List.filter_eq_self.mpr fun f hf => ?_
    cases hbody : f.definition.malformedBody with
    | false => rfl
    | true =>
      obtain ⟨failure, hfailure, -⟩ := hrecorded f hf hbody
      simp [hnone] at hfailure
  exact ⟨p.analyzeEach o, rfl, accounts o hrecorded, endsWithFirstFailure o hread⟩

/-- A contract with a function that has a graph, one that has none, and one whose body cannot be
read. -/
def partlyBroken : Json :=
  let function (id : Nat) (name : String) (body : Json) : Json := .node "FunctionDefinition" id [
    ("name", .string name),
    ("parameters", .node "ParameterList" (id + 1) [("parameters", .array [])]),
    ("body", body)]
  .node "SourceUnit" 1 [("nodes", .array [
    .node "ContractDefinition" 2 [
      ("name", .string "Main"),
      ("baseContracts", .array []),
      ("nodes", .array [
        function 3 "sound" (.node "Block" 5 [("statements", .array [])]),
        function 6 "assembled"
          (.node "Block" 8 [("statements", .array [.node "InlineAssembly" 9 []])]),
        function 10 "torn" (.bool true)])]])]

theorem ofJson_accounts_partlyBroken : ∃ p, ofJson partlyBroken "" = .ok p ∧
    p.functions.map p.group = [.reported, .failed, .malformed] ∧
    ∀ o : Options, ∃ r, p.analyze { o with failFast := false } = .ok r ∧ p.Accounts r ∧
      p.EndsWithFirstFailure r (p.analyze { o with failFast := true }) := by
  have h : (ofJson partlyBroken "").toOption.any
      (fun p => p.functions.map p.group = [.reported, .failed, .malformed]) = true := by
        decide +kernel
  obtain ⟨p, hp, hgroups⟩ := exists_ok_of_any h
  exact ⟨p, hp, of_decide_eq_true hgroups, ofJson_accounts hp⟩

end Program

end ContractFlow
