import ContractFlow.Proofs.FieldReading
import Mathlib.Data.List.Basic

/-!
Lenient reading of the members of a file or contract. `memberNode?` is what is kept of one member
and `memberFailures` what is recorded of it, whatever stands beside it: reading a list of members
puts these together in order (`readMembers_eq`), so a file or a contract is known from its header
and its members one by one (`Node.read_sourceUnit_iff`, `Node.read_contract_iff`).

Main statement: `SourceUnit.ofJson_membersApart`. A file is read whatever its members are, and what
is read of it is what is read of it with each of its members alone, put together.
-/

namespace ContractFlow

namespace Json

variable {v : Json}

/-- An object with another value in a field that it has. -/
def withField (v : Json) (name : String) (w : Json) : Json :=
  match v with
  | .object fields =>
    .object (fields.map fun field => (field.1, if field.1 = name then w else field.2))
  | v => v

theorem get?_withField (v : Json) (name other : String) (w : Json) :
    (v.withField name w).get? other = (v.get? other).map
      fun old => if other = name then w else old := by
  cases v with
  | object fields =>
    simp only [withField, get?]
    induction fields with
    | nil => rfl
    | cons field rest ih =>
      rw [List.map_cons, List.lookup_cons, List.lookup_cons]
      by_cases h : other = field.1
      · simp [h]
      · rw [beq_eq_false_iff_ne.mpr h]
        exact ih
  | _ => rfl

/-- Two values have the same fields, apart from one. -/
def AgreesExcept (name : String) (v w : Json) : Prop :=
  ∀ other, other ≠ name → v.get? other = w.get? other

namespace AgreesExcept

variable {v w : Json} {name : String}

theorem symm (h : AgreesExcept name v w) : AgreesExcept name w v :=
  fun other hother => (h other hother).symm

theorem stringAt?_eq (h : AgreesExcept name v w) {other : String} (hother : other ≠ name) :
    v.stringAt? other = w.stringAt? other := by
  rw [stringAt?, stringAt?, h other hother]

end AgreesExcept

theorem agreesExcept_withField (v : Json) (name : String) (w : Json) :
    AgreesExcept name v (v.withField name w) := by
  intro other hother
  simp [get?_withField, hother]

end Json

/-! ## One member -/

/-- A function without its body, read by itself. -/
def Node.readHeader (context : ReadingContext) (v : Json) : Reading Node := do
  let f ← NodeFields.ofJson v
  let header ← f.functionHeader fun w => Node.read context w.val
  return ⟨f.id, ← f.src, .functionDefinition { header with malformedBody := true }⟩

theorem readMalformedFunction_eq {v : Json} (context : ReadingContext) (w : v.Inside) :
    readMalformedFunction (fun u => Node.read context u.val) w = Node.readHeader context w.val :=
  rfl

/-- What is kept of a member. -/
def memberNode? (contract : Option String) (v : Json) : Option Node :=
  match (Node.read ⟨false, contract⟩ v).result with
  | .ok n => some n
  | .error _ =>
    if v.stringAt? "nodeType" = some NodeType.functionDefinition.name then
      (Node.readHeader ⟨false, contract⟩ v).result.toOption
    else none

theorem memberNode?_of_ok {contract : Option String} {v : Json} {n : Node}
    (h : (Node.read ⟨false, contract⟩ v).result = .ok n) : memberNode? contract v = some n := by
  rw [memberNode?, h]

theorem memberNode?_of_error {contract : Option String} {v : Json} {error : Error}
    (h : (Node.read ⟨false, contract⟩ v).result = .error error) : memberNode? contract v =
      if v.stringAt? "nodeType" = some NodeType.functionDefinition.name then
        (Node.readHeader ⟨false, contract⟩ v).result.toOption
      else none := by
  rw [memberNode?, h]

/-- What is recorded of a member. -/
def memberFailures (contract : Option String) (v : Json) : List Failure :=
  (Node.read ⟨false, contract⟩ v).failures ++
    match (Node.read ⟨false, contract⟩ v).result with
    | .ok _ => []
    | .error error => memberFailure contract v error ::
      if v.stringAt? "nodeType" = some NodeType.functionDefinition.name then
        (Node.readHeader ⟨false, contract⟩ v).failures
      else []

theorem readMember_eq {v : Json} (contract : Option String) (w : v.Inside) :
    readMember ⟨false, contract⟩ (fun u => Node.read ⟨false, contract⟩ u.val) w =
      ⟨memberFailures contract w.val, .ok (memberNode? contract w.val)⟩ := by
  rw [memberFailures, memberNode?]
  cases hresult : (Node.read ⟨false, contract⟩ w.val).result with
  | ok n =>
    rw [readMember_of_ok hresult]
    simp
  | error error =>
    rw [readMember_of_error hresult, readMalformedFunction_eq]
    split <;> rfl

theorem Reading.mapM_eq {α β : Type} (read : α → Reading β) (failures : α → List Failure)
    (value : α → β) (l : List α) (h : ∀ a ∈ l, read a = ⟨failures a, .ok (value a)⟩) :
    l.mapM read = ⟨l.flatMap failures, .ok (l.map value)⟩ := by
  induction l with
  | nil => rfl
  | cons a l ih =>
    rw [List.mapM_cons, h a List.mem_cons_self, ih fun b hb => h b (List.mem_cons_of_mem _ hb)]
    simp [bind, Reading.bind, pure, Reading.pure]

theorem readMembers_eq {v : Json} (contract : Option String) (members : List v.Inside) :
    readMembers ⟨false, contract⟩ (fun u => Node.read ⟨false, contract⟩ u.val) members =
      ⟨(members.map Subtype.val).flatMap (memberFailures contract),
        .ok ((members.map Subtype.val).filterMap (memberNode? contract))⟩ := by
  rw [readMembers, Reading.mapM_eq _ _ _ _ fun w _ => readMember_eq contract w]
  simp [bind, Reading.bind, pure, Reading.pure, List.filterMap_map]

/-! ## Files and contracts -/

namespace Json

variable {v w : Json} {id : UInt64} {src : Span} {type name : String}

theorem HasHeader.congr (h : v.HasHeader type id src) (hagree : AgreesExcept name v w)
    (hname : name ∉ ["nodeType", "id", "src"]) : w.HasHeader type id src := by
  have hne (field : String) (hfield : field ∈ ["nodeType", "id", "src"]) : field ≠ name :=
    fun heq => hname (heq ▸ hfield)
  constructor
  · rw [← hagree.stringAt?_eq (hne "nodeType" (by decide))]
    exact h.type
  · rw [← hagree "id" (hne "id" (by decide))]
    exact h.id
  · rw [← hagree.stringAt?_eq (hne "src" (by decide))]
    exact h.src

/-- What is read of a contract before its members. -/
structure HasContractHead (v : Json) (id : UInt64) (c : ContractDefinition Node) : Prop where
  name : (NodeFields.mk NodeType.contractDefinition.name id : NodeFields v).string "name" =
    .ok c.name
  kind : ∃ word,
    (NodeFields.mk NodeType.contractDefinition.name id : NodeFields v).string? "contractKind" =
      .ok word ∧
    c.contractKind = word.getD "contract"
  bases : (NodeFields.mk NodeType.contractDefinition.name id : NodeFields v).names "baseContracts"
    NodeFields.baseName? = .ok c.baseContracts

end Json

namespace NodeFields

theorem readMembers_bind {v : Json} {α : Type} (f : NodeFields v) (contract : Option String)
    (next : List Node → α) :
    (do
      let members ← f.array "nodes"
      let nodes ← readMembers ⟨false, contract⟩ (fun u => Node.read ⟨false, contract⟩ u.val) members
      return next nodes) =
    (do
      let values ← f.elements "nodes"
      ⟨values.flatMap (memberFailures contract),
        .ok (next (values.filterMap (memberNode? contract)))⟩ :
      Reading α) := by
  rw [← array_bind]
  refine bind_congr fun members => ?_
  rw [readMembers_eq]
  simp [bind, Reading.bind, pure, Reading.pure]

end NodeFields

namespace Node

variable {v : Json} {enclosing : Option String} {id : UInt64} {src : Span} {failures : List Failure}

/-- A file is read from its header and its members. -/
theorem read_sourceUnit_iff {nodes : List Node} :
    read ⟨false, enclosing⟩ v = ⟨failures, .ok ⟨id, src, .sourceUnit nodes⟩⟩ ↔
      v.HasHeader NodeType.sourceUnit.name id src ∧
      ∃ values, v.get? "nodes" = some (.array values) ∧
        nodes = values.filterMap (memberNode? enclosing) ∧
        failures = values.flatMap (memberFailures enclosing) := by
  constructor
  · intro h
    have hheader : v.HasHeader NodeType.sourceUnit.name id src :=
      header_of_read (n := ⟨id, src, .sourceUnit nodes⟩) (congrArg Reading.result h)
    rw [read_eq_of_header .sourceUnit hheader, NodeFields.kind, NodeFields.readMembers_bind,
      Reading.map_eq_ok_iff] at h
    obtain ⟨kind, h, hkind⟩ := h
    obtain ⟨values, hvalues, h⟩ := Reading.liftM_bind_eq_ok_iff.mp h
    cases h
    cases hkind
    exact ⟨hheader, values, NodeFields.elements_eq_ok_iff.mp hvalues, rfl, rfl⟩
  · rintro ⟨hheader, values, hvalues, rfl, rfl⟩
    rw [read_eq_of_header .sourceUnit hheader, NodeFields.kind, NodeFields.readMembers_bind,
      NodeFields.elements_eq_ok_iff.mpr hvalues, Reading.liftM_ok, pure_bind, Reading.map_eq]
    rfl

/-- A contract is read from its header, its head and its members. -/
theorem read_contract_iff {c : ContractDefinition Node} :
    read ⟨false, enclosing⟩ v = ⟨failures, .ok ⟨id, src, .contractDefinition c⟩⟩ ↔
      v.HasHeader NodeType.contractDefinition.name id src ∧ v.HasContractHead id c ∧
      ∃ values, v.get? "nodes" = some (.array values) ∧
        c.nodes = values.filterMap (memberNode? (some c.name)) ∧
        failures = values.flatMap (memberFailures (some c.name)) := by
  constructor
  · intro h
    have hheader : v.HasHeader NodeType.contractDefinition.name id src :=
      header_of_read (n := ⟨id, src, .contractDefinition c⟩) (congrArg Reading.result h)
    rw [read_eq_of_header .contractDefinition hheader, NodeFields.kind, Reading.map_eq_ok_iff] at h
    simp only [NodeFields.readMembers_bind, Reading.liftM_bind_eq_ok_iff] at h
    obtain ⟨kind, ⟨name, hname, word, hword, bases, hbases, values, hvalues, h⟩, hkind⟩ := h
    cases h
    cases hkind
    exact ⟨hheader, ⟨hname, ⟨word, hword, rfl⟩, hbases⟩, values,
      NodeFields.elements_eq_ok_iff.mp hvalues, rfl, rfl⟩
  · obtain ⟨name, contractKind, bases, nodes⟩ := c
    rintro ⟨hheader, ⟨hname, ⟨word, hword, hkind⟩, hbases⟩, values, hvalues, hnodes, rfl⟩
    dsimp only at hname hkind hbases hnodes
    rw [read_eq_of_header .contractDefinition hheader, NodeFields.kind, hname, hword, hbases]
    simp only [NodeFields.readMembers_bind, NodeFields.elements_eq_ok_iff.mpr hvalues, hkind,
      hnodes, Reading.liftM_ok, pure_bind, Reading.map_eq]
    rfl

end Node

namespace Json

variable {v w : Json} {id : UInt64} {c : ContractDefinition Node}

theorem HasContractHead.congr (h : v.HasContractHead id c) (hagree : AgreesExcept "nodes" v w)
    (nodes : List Node) : w.HasContractHead id { c with nodes := nodes } := by
  constructor
  · rw [← NodeFields.string_congr (hagree "name" (by decide))]
    exact h.name
  · rw [← NodeFields.string?_congr (hagree "contractKind" (by decide))]
    exact h.kind
  · rw [← NodeFields.names_congr (hagree "baseContracts" (by decide))]
    exact h.bases

theorem get?_withMembers {values members : List Json} (h : v.get? "nodes" = some (.array values)) :
    (v.withField "nodes" (.array members)).get? "nodes" = some (.array members) := by
  rw [get?_withField, h]
  rfl

/-- What is read of a value is put together, in the order of its members, from what is read of it
with each member as its only one. -/
def MembersApart (reads : Json → List Node → List Failure → Prop) (v : Json) : Prop :=
  ∀ values, v.get? "nodes" = some (.array values) → ∀ nodes failures, reads v nodes failures →
    ∃ (kept : Json → List Node) (recorded : Json → List Failure),
      (∀ e ∈ values, reads (v.withField "nodes" (.array [e])) (kept e) (recorded e)) ∧
      nodes = values.flatMap kept ∧ failures = values.flatMap recorded

end Json

namespace Node

variable {v : Json} {enclosing : Option String} {id : UInt64} {src : Span}

theorem read_sourceUnit_membersApart : v.MembersApart fun w nodes failures =>
    read ⟨false, enclosing⟩ w = ⟨failures, .ok ⟨id, src, .sourceUnit nodes⟩⟩ := by
  intro values hvalues nodes failures hread
  obtain ⟨hheader, values', hvalues', rfl, rfl⟩ := read_sourceUnit_iff.mp hread
  obtain rfl : values' = values := by simpa [hvalues'] using hvalues
  refine ⟨fun e => (memberNode? enclosing e).toList, memberFailures enclosing, fun e _ => ?_,
    List.filterMap_eq_flatMap_toList _ _, rfl⟩
  have hagree := v.agreesExcept_withField "nodes" (.array [e])
  refine read_sourceUnit_iff.mpr
    ⟨hheader.congr hagree (by decide), [e], Json.get?_withMembers hvalues, ?_, ?_⟩
  · rw [List.filterMap_eq_flatMap_toList, List.flatMap_singleton]
  · rw [List.flatMap_singleton]

theorem read_contract_membersApart (c : ContractDefinition Node) :
    v.MembersApart fun w nodes failures =>
    read ⟨false, enclosing⟩ w =
        ⟨failures, .ok ⟨id, src, .contractDefinition { c with nodes := nodes }⟩⟩ := by
  intro values hvalues nodes failures hread
  obtain ⟨hheader, hhead, values', hvalues', hnodes, rfl⟩ := read_contract_iff.mp hread
  obtain rfl : values' = values := by simpa [hvalues'] using hvalues
  dsimp only at hnodes
  subst hnodes
  refine ⟨fun e => (memberNode? (some c.name) e).toList, memberFailures (some c.name),
    fun e _ => ?_,
    List.filterMap_eq_flatMap_toList _ _, rfl⟩
  have hagree := v.agreesExcept_withField "nodes" (.array [e])
  refine read_contract_iff.mpr
    ⟨hheader.congr hagree (by decide), hhead.congr hagree _, [e],
      Json.get?_withMembers hvalues, ?_, ?_⟩
  · rw [List.filterMap_eq_flatMap_toList, List.flatMap_singleton]
  · rw [List.flatMap_singleton]

end Node

namespace SourceUnit

theorem ofJson_eq_ok_iff {v : Json} {u : SourceUnit} : ofJson v = .ok u ↔
    Node.read ⟨false, none⟩ v = ⟨u.failures, .ok ⟨u.id, u.src, .sourceUnit u.nodes⟩⟩ := by
  obtain ⟨id, src, nodes, failures⟩ := u
  rw [ofJson, read]
  obtain ⟨recorded, result⟩ := Node.read ⟨false, none⟩ v
  cases result with
  | error error => simp
  | ok n =>
    obtain ⟨id', src', kind⟩ := n
    cases kind <;> simp [and_left_comm, and_comm]

/-- **Failures stay with their member.** A file can be read leniently exactly if it has an id, the
type of a file, a location and a list of members, whatever the members are. Its members and its
failures are those that it has with each of its members alone, one after the other. The same holds
for every contract that is read. -/
theorem ofJson_membersApart (v : Json) :
    ((∃ u, ofJson v = .ok u) ↔ ∃ id src values,
      v.HasHeader "SourceUnit" id src ∧ v.get? "nodes" = some (.array values)) ∧
    v.MembersApart
      (fun w nodes failures => ∃ u, ofJson w = .ok u ∧ u.nodes = nodes ∧ u.failures = failures) ∧
    ∀ enclosing id src (c : ContractDefinition Node), v.MembersApart fun w nodes failures =>
      Node.read ⟨false, enclosing⟩ w =
        ⟨failures, .ok ⟨id, src, .contractDefinition { c with nodes := nodes }⟩⟩ := by
  refine ⟨⟨?_, ?_⟩, ?_, fun enclosing id src c => Node.read_contract_membersApart c⟩
  · rintro ⟨u, hu⟩
    obtain ⟨hheader, values, hvalues, -, -⟩ := Node.read_sourceUnit_iff.mp (ofJson_eq_ok_iff.mp hu)
    exact ⟨u.id, u.src, values, hheader, hvalues⟩
  · rintro ⟨id, src, values, hheader, hvalues⟩
    exact ⟨⟨id, src, _, _⟩, ofJson_eq_ok_iff.mpr
      (Node.read_sourceUnit_iff.mpr ⟨hheader, values, hvalues, rfl, rfl⟩)⟩
  · rintro values hvalues _ _ ⟨u, hu, rfl, rfl⟩
    obtain ⟨kept, recorded, hmembers, hnodes, hfailures⟩ :=
      Node.read_sourceUnit_membersApart values hvalues _ _ (ofJson_eq_ok_iff.mp hu)
    refine ⟨kept, recorded, fun e he => ?_, hnodes, hfailures⟩
    exact ⟨⟨u.id, u.src, kept e, recorded e⟩, ofJson_eq_ok_iff.mpr (hmembers e he), rfl, rfl⟩

/-- A function whose body cannot be read, a member that is not a node, and a directive. -/
def mixedMembers : List Json := [
  .node "FunctionDefinition" 2 [
    ("name", .string "f"),
    ("parameters", .node "ParameterList" 3 [("parameters", .array [])]),
    ("body", .bool true)],
  .null,
  .node "UsingForDirective" 4 []]

def mixedFile : Json := .node "SourceUnit" 1 [("nodes", .array mixedMembers)]

theorem ofJson_membersApart_mixedFile : ∃ u kept recorded,
    ofJson mixedFile = .ok u ∧ u.nodes.length = 2 ∧ u.failures.length = 2 ∧
    (∀ e ∈ mixedMembers, ∃ t, ofJson (mixedFile.withField "nodes" (.array [e])) = .ok t ∧
      t.nodes = kept e ∧ t.failures = recorded e) ∧
    u.nodes = mixedMembers.flatMap kept ∧ u.failures = mixedMembers.flatMap recorded := by
  have hlenient : (ofJson mixedFile).toOption.any (fun u => u.nodes.length = 2 ∧
      u.failures.length = 2) = true := by
    decide +kernel
  obtain ⟨u, hu, hlengths⟩ := exists_ok_of_any hlenient
  obtain ⟨hnodes, hfailures⟩ := of_decide_eq_true hlengths
  obtain ⟨kept, recorded, hmembers⟩ :=
    (ofJson_membersApart mixedFile).2.1 mixedMembers rfl _ _ ⟨u, hu, rfl, rfl⟩
  exact ⟨u, kept, recorded, hu, hnodes, hfailures, hmembers⟩

end SourceUnit

end ContractFlow
