import ContractFlow.Proofs.CallResolution
import ContractFlow.Proofs.Isolation

/-!
The bodies of functions have no part in what a file declares. A function whose body cannot be read
is read again without it, and what is kept of it then is what is kept of it with a body
(`Node.readHeader_of_read`); nothing in this looks at the body (`Node.readHeader_congr`).

* `Json.SameButBodies v w`: two files differ only in the bodies of functions, among their members or
  among those of their contracts;
* `SameDeclarations l m`: two lists of members have the same functions and contracts, apart from
  bodies;
* `Signature`: all that is known of a function without its body.

Main statement: `SourceUnit.ofJson_declarations`. Such files have the same signatures, the same
hierarchy, and call graphs with the same callers.
-/

namespace ContractFlow

/-! ## Headers -/

namespace NodeFields

variable {v w : Json} {type : String} {id : UInt64} (read : Json → Reading Node)

theorem functionHeader_congr (h : Json.AgreesExcept "body" v w) :
    (⟨type, id⟩ : NodeFields v).functionHeader (fun u => read u.val) =
      (⟨type, id⟩ : NodeFields w).functionHeader fun u => read u.val := by
  have hget (name : String) (hname : name ≠ "body") : v.get? name = w.get? name := h name hname
  have hkind :
      (⟨type, id⟩ : NodeFields v).functionKind = (⟨type, id⟩ : NodeFields w).functionKind := by
    rw [functionKind, functionKind, string?_congr (hget "kind" (by decide)), flag, flag,
      hget "isConstructor" (by decide)]
    rfl
  rw [functionHeader, functionHeader, hkind, string?_congr (hget "name" (by decide)),
    string?_congr (hget "visibility" (by decide)),
    string?_congr (hget "stateMutability" (by decide)), parameters_eq, parameters_eq,
    part?_congr (hget "parameters" (by decide)), parameters?_eq, parameters?_eq,
    part?_congr (hget "returnParameters" (by decide))]
  rfl

theorem functionHeader_yields {v : Json} (f : NodeFields v) (read : v.Inside → Reading Node) :
    (f.functionHeader read).Yields fun header => header.body = none ∧
      header.malformedBody = false := by
  repeat' first | exact .pure ⟨rfl, rfl⟩ | refine .bind fun _ => ?_

end NodeFields

/-- A function as it is declared. -/
def FunctionDefinition.withoutBody {α : Type} (f : FunctionDefinition α) : FunctionDefinition α :=
  { f with body := none, malformedBody := false }

namespace Node

variable {v w : Json} {context : ReadingContext}

theorem readHeader_congr (h : Json.AgreesExcept "body" v w) :
    readHeader context v = readHeader context w := by
  have htype : v.stringAt? "nodeType" = w.stringAt? "nodeType" := h.stringAt?_eq (by decide)
  rw [readHeader, readHeader, NodeFields.ofJson, NodeFields.ofJson, htype, h "id" (by decide)]
  cases w.stringAt? "nodeType" with
  | none => rfl
  | some type =>
    cases (w.get? "id").bind Json.toUInt64? with
    | none => rfl
    | some id =>
      simp only [Reading.liftM_ok, pure_bind]
      rw [NodeFields.functionHeader_congr (fun u => read context u) h, NodeFields.src,
        NodeFields.src, NodeFields.string_congr (h "src" (by decide))]

/-- A function is read from its header and its body. -/
theorem function_of_read {n : Node}
    (htype : v.stringAt? "nodeType" = some NodeType.functionDefinition.name)
    (h : (read context v).result = .ok n) :
    ∃ header body, n.kind = .functionDefinition { header with body := body } ∧
      ((⟨NodeType.functionDefinition.name, n.id⟩ : NodeFields v).functionHeader
        fun u => read context u.val).result =
        .ok header := by
  obtain ⟨-, hid, hsrc⟩ := header_of_read h
  obtain ⟨id, src, kind⟩ := n
  dsimp only at hid hsrc
  rw [read_eq_of_header .functionDefinition ⟨htype, hid, hsrc⟩, map_eq_pure_bind] at h
  obtain ⟨_, hkind, h⟩ := Reading.result_bind_eq_ok h
  obtain ⟨_, hfunction, hkind⟩ := Reading.result_bind_eq_ok hkind
  obtain ⟨header, hheader, hfunction⟩ := Reading.result_bind_eq_ok hfunction
  obtain ⟨body, -, hfunction⟩ := Reading.result_bind_eq_ok hfunction
  cases hfunction
  cases hkind
  cases h
  exact ⟨header, body, rfl, hheader⟩

/-- Reading a function without its body gives what is read of it with its body, apart from the
body. -/
theorem readHeader_of_read {n : Node}
    (htype : v.stringAt? "nodeType" = some NodeType.functionDefinition.name)
    (h : (read context v).result = .ok n) : ∃ f, n.kind = .functionDefinition f ∧
      (readHeader context v).result =
        .ok ⟨n.id, n.src, .functionDefinition { f.withoutBody with malformedBody := true }⟩ := by
  obtain ⟨-, hid, hsrc⟩ := header_of_read h
  obtain ⟨header, body, hkind, hheader⟩ := function_of_read htype h
  refine ⟨_, hkind, ?_⟩
  have hfields : NodeFields.ofJson v = .ok ⟨NodeType.functionDefinition.name, n.id⟩ :=
    NodeFields.ofJson_eq_ok_iff.mpr ⟨htype, hid⟩
  rw [readHeader, hfields, Reading.liftM_ok, pure_bind, Reading.result_bind_of_ok hheader,
    NodeFields.src_eq_ok_iff.mpr hsrc]
  obtain ⟨hbody, -⟩ := NodeFields.functionHeader_yields _ _ _ hheader
  obtain ⟨name, kind, visibility, stateMutability, parameters, returnParameters, headerBody,
    malformed⟩ := header
  cases hbody
  rfl

end Node

/-! ## Declarations -/

namespace Node

/-- A function as it is declared. -/
def declaredFunction? (n : Node) : Option Node :=
  n.function?.map fun f => ⟨n.id, n.src, .functionDefinition f.withoutBody⟩

end Node

/-- A contract with only the functions that it declares. -/
def ContractDefinition.declared (c : ContractDefinition Node) : ContractDefinition Node :=
  { c with nodes := c.nodes.filterMap Node.declaredFunction? }

/-- Two lists of members declare the same functions and contracts. -/
structure SameDeclarations (l m : List Node) : Prop where
  functions : l.filterMap Node.declaredFunction? = m.filterMap Node.declaredFunction?
  contracts : (l.filterMap Node.contract?).map ContractDefinition.declared =
    (m.filterMap Node.contract?).map ContractDefinition.declared

namespace SameDeclarations

variable {l l' m m' : List Node}

theorem refl (l : List Node) : SameDeclarations l l := ⟨rfl, rfl⟩

theorem symm (h : SameDeclarations l m) : SameDeclarations m l :=
  ⟨h.functions.symm, h.contracts.symm⟩

theorem trans (h : SameDeclarations l m) (h' : SameDeclarations m m') : SameDeclarations l m' :=
  ⟨h.functions.trans h'.functions, h.contracts.trans h'.contracts⟩

theorem append (h : SameDeclarations l m) (h' : SameDeclarations l' m') :
    SameDeclarations (l ++ l') (m ++ m') := by
  constructor
  · rw [List.filterMap_append, List.filterMap_append, h.functions, h'.functions]
  · rw [List.filterMap_append, List.filterMap_append, List.map_append, List.map_append,
      h.contracts, h'.contracts]

/-- Contracts declare the same when their members do. -/
theorem contract {id : UInt64} {src : Span} {c : ContractDefinition Node}
    (h : SameDeclarations c.nodes m) :
    SameDeclarations [⟨id, src, .contractDefinition c⟩]
      [⟨id, src, .contractDefinition { c with nodes := m }⟩] := by
  refine ⟨rfl, ?_⟩
  change [ContractDefinition.declared c] = [ContractDefinition.declared { c with nodes := m }]
  rw [ContractDefinition.declared, ContractDefinition.declared, h.functions]

end SameDeclarations

/-- A function declares what can be read of it without its body. -/
theorem sameDeclarations_readHeader {v : Json} (contract : Option String)
    (htype : v.stringAt? "nodeType" = some NodeType.functionDefinition.name) :
    SameDeclarations (memberNode? contract v).toList
      (Node.readHeader ⟨false, contract⟩ v).result.toOption.toList := by
  cases hresult : (Node.read ⟨false, contract⟩ v).result with
  | error error =>
    rw [memberNode?_of_error hresult, if_pos htype]
    exact .refl _
  | ok n =>
    obtain ⟨f, hkind, hheader⟩ := Node.readHeader_of_read htype hresult
    obtain ⟨id, src, kind⟩ := n
    cases hkind
    rw [memberNode?_of_ok hresult, hheader]
    exact ⟨rfl, rfl⟩

theorem Kind.exists_contract_of_type {α : Type} {kind : Kind α}
    (h : kind.type = .contractDefinition) :
    ∃ c, kind = .contractDefinition c := by
  cases kind with
  | contractDefinition c => exact ⟨c, rfl⟩
  | _ => cases h

/-- A contract is read with other members in the place of its own. -/
theorem Node.read_contract_withMembers {v w : Json} {vs ws : List Json}
    {contract : Option String} {n : Node}
    (htype : v.stringAt? "nodeType" = some NodeType.contractDefinition.name)
    (hagree : Json.AgreesExcept "nodes" v w) (hvs : v.get? "nodes" = some (.array vs))
    (hws : w.get? "nodes" = some (.array ws))
    (hresult : (Node.read ⟨false, contract⟩ v).result = .ok n) :
    ∃ c, n.kind = .contractDefinition c ∧ c.nodes = vs.filterMap (memberNode? (some c.name)) ∧
      (Node.read ⟨false, contract⟩ w).result =
        .ok ⟨n.id, n.src, .contractDefinition
          { c with nodes := ws.filterMap (memberNode? (some c.name)) }⟩ := by
  have hname : n.type.name = NodeType.contractDefinition.name :=
    Option.some.inj ((header_of_read hresult).type.symm.trans htype)
  obtain ⟨c, hkind⟩ := Kind.exists_contract_of_type (NodeType.name_injective hname)
  obtain ⟨id, src, kind⟩ := n
  dsimp only at hkind
  subst hkind
  have hread : Node.read ⟨false, contract⟩ v =
      ⟨(Node.read ⟨false, contract⟩ v).failures, .ok ⟨id, src, .contractDefinition c⟩⟩ := by
    rw [← hresult]
  obtain ⟨hheader, hhead, values, hvalues, hnodes, -⟩ := read_contract_iff.mp hread
  obtain rfl : values = vs := by simpa [hvalues] using hvs
  exact ⟨c, rfl, hnodes, congrArg Reading.result (read_contract_iff.mpr
    ⟨hheader.congr hagree (by decide), hhead.congr hagree _, ws, hws, rfl, rfl⟩)⟩

namespace Json

mutual

/-- A member, and the same member with other bodies of functions. -/
inductive BodyVariant : Json → Json → Prop
  | same {v : Json} : BodyVariant v v
  | function {v w : Json} : v.stringAt? "nodeType" = some "FunctionDefinition" →
      AgreesExcept "body" v w → BodyVariant v w
  | contract {v w : Json} {vs ws : List Json} : v.stringAt? "nodeType" = some "ContractDefinition" →
      AgreesExcept "nodes" v w → v.get? "nodes" = some (.array vs) →
      w.get? "nodes" = some (.array ws) →
      BodyVariants vs ws → BodyVariant v w

/-- Members one by one. -/
inductive BodyVariants : List Json → List Json → Prop
  | nil : BodyVariants [] []
  | cons {v w : Json} {vs ws : List Json} : BodyVariant v w → BodyVariants vs ws →
    BodyVariants (v :: vs) (w :: ws)

end

/-- Two files that differ only in the bodies of functions, among their members or among those of
their contracts. -/
def SameButBodies (v w : Json) : Prop :=
  AgreesExcept "nodes" v w ∧ ∃ vs ws, v.get? "nodes" = some (.array vs) ∧
    w.get? "nodes" = some (.array ws) ∧
    BodyVariants vs ws

mutual

theorem BodyVariant.sameDeclarations {v w : Json} : BodyVariant v w →
    ∀ contract, SameDeclarations (memberNode? contract v).toList (memberNode? contract w).toList
  | .same, contract => .refl _
  | .function htype hagree, contract => by
    have htype' := (hagree.stringAt?_eq (by decide)).symm.trans htype
    have hheader := sameDeclarations_readHeader contract htype
    rw [Node.readHeader_congr hagree] at hheader
    exact hheader.trans (sameDeclarations_readHeader contract htype').symm
  | .contract htype hagree hvs hws hmembers, contract => by
    have htype' := (hagree.stringAt?_eq (by decide)).symm.trans htype
    have hfunction : some "ContractDefinition" ≠ some NodeType.functionDefinition.name := by decide
    cases hv : (Node.read ⟨false, contract⟩ v).result with
    | ok n =>
      obtain ⟨c, hkind, hnodes, hw⟩ := Node.read_contract_withMembers htype hagree hvs hws hv
      obtain ⟨id, src, kind⟩ := n
      cases hkind
      rw [memberNode?_of_ok hv, memberNode?_of_ok hw]
      apply SameDeclarations.contract
      rw [hnodes]
      exact hmembers.sameDeclarations (some c.name)
    | error error =>
      cases hw : (Node.read ⟨false, contract⟩ w).result with
      | ok n =>
        obtain ⟨c, -, -, hv'⟩ := Node.read_contract_withMembers htype' hagree.symm hws hvs hw
        rw [hv] at hv'
        cases hv'
      | error error' =>
        rw [memberNode?_of_error hv, memberNode?_of_error hw, htype, htype', if_neg hfunction]
        exact .refl _

theorem BodyVariants.sameDeclarations {vs ws : List Json} : BodyVariants vs ws →
    ∀ contract, SameDeclarations (vs.filterMap (memberNode? contract))
      (ws.filterMap (memberNode? contract))
  | .nil, _ => .refl _
  | .cons hmember hmembers, contract => by
    have happend := (hmember.sameDeclarations contract).append (hmembers.sameDeclarations contract)
    rw [List.filterMap_eq_flatMap_toList, List.filterMap_eq_flatMap_toList, List.flatMap_cons,
      List.flatMap_cons, ← List.filterMap_eq_flatMap_toList, ← List.filterMap_eq_flatMap_toList]
    exact happend

end

end Json

/-! ## Signatures -/

/-- All that is known of a function without its body. -/
structure Signature where
  id : UInt64
  name : String
  qualifiedName : String
  kind : FunctionKind
  parameters : List Node
  returnParameters : List Node
  /-- The contract without its members. -/
  contract : Option (ContractDefinition Node)

namespace Signature

def isConstructor (s : Signature) : Bool := s.kind = .constructor

end Signature

namespace DeclaredFunction

def signature (f : DeclaredFunction) : Signature where
  id := f.id
  name := f.name
  qualifiedName := f.qualifiedName
  kind := f.definition.kind
  parameters := f.definition.parameters
  returnParameters := f.definition.returnParameters
  contract := f.contract.map fun c => { c with nodes := [] }

end DeclaredFunction

theorem map_signature_functionsAmong (contract : Option (ContractDefinition Node))
    (members : List Node) :
    (functionsAmong contract members).map DeclaredFunction.signature =
      (functionsAmong (contract.map ContractDefinition.declared)
        (members.filterMap Node.declaredFunction?)).map DeclaredFunction.signature := by
  rw [functionsAmong, functionsAmong, List.map_filterMap, List.filterMap_filterMap,
    List.map_filterMap]
  refine List.filterMap_congr fun n _ => ?_
  rw [Node.declaredFunction?]
  cases n.function? with
  | none => rfl
  | some f => cases contract <;> rfl

theorem ContractDefinition.map_signature_declared (c : ContractDefinition Node) :
    c.declared.functions.map DeclaredFunction.signature =
      c.functions.map DeclaredFunction.signature :=
  (map_signature_functionsAmong (some c) c.nodes).symm

theorem ContractInfo.ofContract_declared (c : ContractDefinition Node) :
    ofContract c.declared = ofContract c := by
  have hnames (l : List DeclaredFunction) : (l.filter (!·.definition.isConstructor)).map (·.name) =
      ((l.map DeclaredFunction.signature).filter (!·.isConstructor)).map (·.name) := by
    rw [List.filter_map, List.map_map]
    rfl
  rw [ofContract, ofContract, hnames, hnames, c.map_signature_declared]
  rfl

namespace SourceUnit

variable {u t : SourceUnit}

theorem map_signature_functions (u : SourceUnit) : u.functions.map DeclaredFunction.signature =
    (functionsAmong none (u.nodes.filterMap Node.declaredFunction?)).map
      DeclaredFunction.signature ++
      (u.contracts.map ContractDefinition.declared).flatMap
        fun c => c.functions.map DeclaredFunction.signature := by
  rw [functions, List.map_append, map_signature_functionsAmong, List.map_flatMap, List.flatMap_map]
  simp only [ContractDefinition.map_signature_declared]
  rfl

theorem signatures_eq (h : SameDeclarations u.nodes t.nodes) :
    u.functions.map DeclaredFunction.signature = t.functions.map DeclaredFunction.signature := by
  rw [map_signature_functions, map_signature_functions, h.functions, contracts,
    contracts, h.contracts]

theorem hierarchy_eq (h : SameDeclarations u.nodes t.nodes) :
    Hierarchy.ofUnit u = Hierarchy.ofUnit t := by
  have hentries (u : SourceUnit) : (u.contracts.map fun c => (c.name, ContractInfo.ofContract c)) =
      (u.contracts.map ContractDefinition.declared).map
        fun c => (c.name, ContractInfo.ofContract c) := by
    rw [List.map_map]
    refine List.map_congr_left fun c _ => ?_
    rw [Function.comp_apply, ContractInfo.ofContract_declared]
    rfl
  rw [Hierarchy.ofUnit, Hierarchy.ofUnit, hentries, hentries, contracts, contracts, h.contracts]

/-- The callers of a call graph are known from the signatures. -/
theorem isSome_callees?_iff (h : Hierarchy) (algorithm : Algorithm) (resolution : BaseResolution)
    (q : String) :
    ((CallGraph.ofUnit u h algorithm resolution).callees? q).isSome = true ↔
      ∃ s ∈ u.functions.map DeclaredFunction.signature,
        s.contract.isSome = true ∧ s.isConstructor = false ∧ s.qualifiedName = q := by
  have hcallers := CallGraph.exists_mem_callers_iff (u := u) (q := q) (p := fun _ => True)
  simp only [and_true, CallGraph.callers, List.mem_filter, Bool.and_eq_true,
    Bool.not_eq_true'] at hcallers
  rw [CallGraph.isSome_callees?_ofUnit_iff, ← hcallers]
  constructor
  · rintro ⟨f, ⟨hf, hcontract, hkind⟩, hq⟩
    exact ⟨f.signature, List.mem_map_of_mem hf, (Option.isSome_map ..).trans hcontract, hkind, hq⟩
  · rintro ⟨_, hs, hcontract, hkind, hq⟩
    obtain ⟨f, hf, rfl⟩ := List.mem_map.mp hs
    exact ⟨f, ⟨hf, (Option.isSome_map ..).symm.trans hcontract, hkind⟩, hq⟩

/-- **Bodies have no part in declarations.** Two files that differ only in the bodies of functions,
whether these can be read or not, list the same functions in the same order, and have the same
hierarchy and the same callers. -/
theorem ofJson_declarations {v w : Json} (h : v.SameButBodies w) (hu : ofJson v = .ok u)
    (ht : ofJson w = .ok t) :
    u.functions.map DeclaredFunction.signature = t.functions.map DeclaredFunction.signature ∧
    Hierarchy.ofUnit u = Hierarchy.ofUnit t ∧
    ∀ algorithm resolution q,
      ((CallGraph.ofUnit u (.ofUnit u) algorithm resolution).callees? q).isSome =
        ((CallGraph.ofUnit t (.ofUnit t) algorithm resolution).callees? q).isSome := by
  obtain ⟨-, vs, ws, hvs, hws, hmembers⟩ := h
  obtain ⟨-, values, hvalues, hnodes, -⟩ := Node.read_sourceUnit_iff.mp (ofJson_eq_ok_iff.mp hu)
  obtain ⟨-, values', hvalues', hnodes', -⟩ := Node.read_sourceUnit_iff.mp (ofJson_eq_ok_iff.mp ht)
  obtain rfl : values = vs := by simpa [hvalues] using hvs
  obtain rfl : values' = ws := by simpa [hvalues'] using hws
  have hsame : SameDeclarations u.nodes t.nodes := by
    rw [hnodes, hnodes']
    exact hmembers.sameDeclarations none
  refine ⟨signatures_eq hsame, hierarchy_eq hsame, fun algorithm resolution q => ?_⟩
  rw [Bool.eq_iff_iff, isSome_callees?_iff, isSome_callees?_iff, signatures_eq hsame]

/-- A contract `Main` with a function `run` that has the given body. -/
def mainFile (body : Json) : Json :=
  .node "SourceUnit" 1 [("nodes", .array [
    .node "ContractDefinition" 2 [
      ("name", .string "Main"),
      ("baseContracts", .array []),
      ("nodes", .array [
        .node "FunctionDefinition" 3 [
          ("name", .string "run"),
          ("parameters", .node "ParameterList" 4 [("parameters", .array [])]),
          ("body", body)]])]])]

theorem sameButBodies_mainFile (body body' : Json) :
    (mainFile body).SameButBodies (mainFile body') := by
  refine ⟨?_, _, _, rfl, rfl, .cons (.contract rfl ?_ rfl rfl (.cons (.function rfl ?_) .nil)) .nil⟩
  all_goals
    intro name hname
    simp [mainFile, Json.node, Json.get?, List.lookup_cons, beq_eq_false_iff_ne.mpr hname]

theorem ofJson_declarations_mainFile : ∃ u t,
    ofJson (mainFile (.node "Block" 5 [("statements", .array [])])) = .ok u ∧
    ofJson (mainFile (.bool true)) = .ok t ∧
    u.failures.length = 0 ∧ t.failures.length = 1 ∧
    u.functions.map DeclaredFunction.signature = t.functions.map DeclaredFunction.signature ∧
    Hierarchy.ofUnit u = Hierarchy.ofUnit t := by
  have hu : (ofJson (mainFile (.node "Block" 5 [("statements", .array [])]))).toOption.any
      (fun u => u.failures.length = 0) = true := by decide +kernel
  have ht :
      (ofJson (mainFile (.bool true))).toOption.any (fun t => t.failures.length = 1) = true := by
    decide +kernel
  obtain ⟨u, hu, hread⟩ := exists_ok_of_any hu
  obtain ⟨t, ht, hfailed⟩ := exists_ok_of_any ht
  obtain ⟨hsignatures, hhierarchy, -⟩ := ofJson_declarations (sameButBodies_mainFile _ _) hu ht
  exact ⟨u, t, hu, ht, of_decide_eq_true hread, of_decide_eq_true hfailed, hsignatures, hhierarchy⟩

end SourceUnit

end ContractFlow
