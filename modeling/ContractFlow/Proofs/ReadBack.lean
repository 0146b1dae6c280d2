import ContractFlow.Proofs.FieldReading
import ContractFlow.Proofs.SpanText
import ContractFlow.Syntax.Fold
import ContractFlow.Syntax.Traversal

/-!
Syntax trees as the compiler writes them. `Node.toJson` writes each field of a node under the
compiler's name for it: an option that is absent is left out, a gap in a list is `null`, and a list
of parameters is a node of its own.

Main statement: `Node.read_toJson`. A tree whose functions all have the bodies they were written
with is read back from what is written for it, strictly and leniently, and nothing is recorded.
-/

namespace ContractFlow

/-! ## Writing -/

namespace Json

/-- The object with those of the given fields that are present. -/
def ofFields (fields : List (String × Option Json)) : Json :=
  .object (fields.filterMap fun field => field.2.map (field.1, ·))

@[simp] theorem get?_ofFields_nil (name : String) : (ofFields []).get? name = none := rfl

@[simp] theorem get?_ofFields_cons (field : String) (value : Option Json)
    (fields : List (String × Option Json))
    (name : String) : (ofFields ((field, value) :: fields)).get? name =
      if name = field then value.or ((ofFields fields).get? name)
      else (ofFields fields).get? name := by
  cases value with
  | none => simp [ofFields, get?]
  | some value =>
    by_cases h : name = field
    · simp [ofFields, get?, h]
    · simp [ofFields, get?, List.lookup_cons, h, beq_eq_false_iff_ne.mpr h]

/-- A list of parameters is a node of its own. -/
def parameterList (id : UInt64) (parameters : List Json) : Json :=
  .object [("nodeType", .string "ParameterList"), ("id", .ofNat id.toNat),
    ("parameters", .array parameters)]

/-- A base contract, by its name. -/
def baseSpecifier (name : String) : Json := .object [("baseName", .object [("name", .string name)])]

/-- A member of an enum, by its name. -/
def enumValue (name : String) : Json := .object [("name", .string name)]

@[simp] theorem present_string (s : String) : present (some (.string s)) = some (.string s) := rfl

@[simp] theorem present_map_string (o : Option String) :
    present (o.map .string) = o.map .string := by
  cases o <;> rfl

@[simp] theorem present_array (vs : List Json) : present (some (.array vs)) = some (.array vs) :=
  rfl

@[simp] theorem present_parameterList (id : UInt64) (vs : List Json) :
    present (some (parameterList id vs)) = some (parameterList id vs) := rfl

theorem toUInt64?_ofNat (id : UInt64) : toUInt64? (.ofNat id.toNat) = some id := by
  have hsize : 0 ≤ (id.toNat : Int) ∧ (id.toNat : Int) < UInt64.size :=
    ⟨Int.natCast_nonneg _, Int.ofNat_lt.mpr id.toNat_lt⟩
  rw [ofNat, toUInt64?, if_pos hsize, Int.toNat_natCast, UInt64.ofNat_toNat]

@[simp] theorem bind_toInt64? (o : Option Int64) :
    (o.map fun n => .integer n.toInt).bind toInt64? = o := by
  cases o with
  | none => rfl
  | some n =>
    rw [Option.map_some, Option.bind_some, toInt64?, if_pos ⟨n.le_toInt, n.toInt_le⟩,
      Int64.ofInt_toInt]

/-- A value has the given fields beside the type, the id and the location of a node. -/
def HasFields (v : Json) (fields : List (String × Option Json)) : Prop :=
  ∀ name, name ∉ ["nodeType", "id", "src"] → v.get? name = (ofFields fields).get? name

end Json

namespace Kind

/-- The fields of a node besides its type, id and location, from what is written for its parts. The
list of parameters in a field has an id. -/
def fields (listId : String → UInt64) : Kind Json → List (String × Option Json)
  | sourceUnit nodes => [("nodes", Json.array nodes)]
  | pragmaDirective literals => [("literals", Json.strings literals)]
  | importDirective file => [("file", Json.string file)]
  | contractDefinition c => [
      ("name", Json.string c.name),
      ("contractKind", Json.string c.contractKind),
      ("baseContracts", Json.array (c.baseContracts.map .baseSpecifier)),
      ("nodes", Json.array c.nodes)]
  | functionDefinition f => [
      ("name", Json.string f.name),
      ("kind", Json.string f.kind.word),
      ("visibility", f.visibility.map .string),
      ("stateMutability", f.stateMutability.map .string),
      ("parameters", Json.parameterList (listId "parameters") f.parameters),
      ("returnParameters", Json.parameterList (listId "returnParameters") f.returnParameters),
      ("body", f.body)]
  | modifierDefinition name parameters body => [
      ("name", Json.string name),
      ("parameters", Json.parameterList (listId "parameters") parameters),
      ("body", body)]
  | eventDefinition name parameters => [
      ("name", Json.string name),
        ("parameters", Json.parameterList (listId "parameters") parameters)]
  | errorDefinition name parameters => [
      ("name", Json.string name),
        ("parameters", Json.parameterList (listId "parameters") parameters)]
  | structDefinition name members => [("name", Json.string name), ("members", Json.array members)]
  | enumDefinition name members => [
      ("name", Json.string name), ("members", Json.array (members.map .enumValue))]
  | userDefinedValueTypeDefinition name => [("name", Json.string name)]
  | variableDeclaration name typeName value stateVariable => [
      ("name", Json.string name),
      ("typeName", typeName),
      ("value", value),
      ("stateVariable", Json.bool stateVariable)]
  | block statements => [("statements", Json.array statements)]
  | uncheckedBlock statements => [("statements", Json.array statements)]
  | variableDeclarationStatement declarations initialValue => [
      ("declarations", Json.array (declarations.map (.ofOption id))),
        ("initialValue", initialValue)]
  | expressionStatement expression => [("expression", expression)]
  | ifStatement condition trueBody falseBody => [
      ("condition", condition), ("trueBody", trueBody), ("falseBody", falseBody)]
  | whileStatement condition body => [("condition", condition), ("body", body)]
  | doWhileStatement condition body => [("condition", condition), ("body", body)]
  | forStatement initialization condition step body => [
      ("initializationExpression", initialization),
      ("condition", condition),
      ("loopExpression", step),
      ("body", body)]
  | returnStatement expression => [("expression", expression)]
  | emitStatement call => [("eventCall", call)]
  | revertStatement call => [("errorCall", call)]
  | tryStatement call clauses => [("externalCall", call), ("clauses", Json.array clauses)]
  | tryCatchClause errorName parameters handler => [
      ("errorName", Json.string errorName),
      ("parameters", Json.parameterList (listId "parameters") parameters),
      ("block", handler)]
  | binaryOperation operator left right => [
      ("operator", Json.string operator), ("leftExpression", left), ("rightExpression", right)]
  | unaryOperation operator prefixed operand => [
      ("operator", Json.string operator), ("prefix", Json.bool prefixed),
        ("subExpression", operand)]
  | assignment operator target value => [
      ("operator", Json.string operator), ("leftHandSide", target), ("rightHandSide", value)]
  | identifier name declaration => [
      ("name", Json.string name),
      ("referencedDeclaration", declaration.map fun d => .integer d.toInt)]
  | literal kind value => [("kind", Json.string kind), ("value", value.map .string)]
  | functionCall callee arguments => [("expression", callee), ("arguments", Json.array arguments)]
  | functionCallOptions callee options => [("expression", callee), ("options", Json.array options)]
  | newExpression typeName => [("typeName", typeName)]
  | memberAccess object member => [("expression", object), ("memberName", Json.string member)]
  | indexAccess base index => [("baseExpression", base), ("indexExpression", index)]
  | indexRangeAccess base start stop => [
      ("baseExpression", base), ("startExpression", start), ("endExpression", stop)]
  | tupleExpression components isInlineArray => [
      ("components", Json.array (components.map (.ofOption id))),
      ("isInlineArray", Json.bool isInlineArray)]
  | conditional condition onTrue onFalse => [
      ("condition", condition), ("trueExpression", onTrue), ("falseExpression", onFalse)]
  | elementaryTypeNameExpression typeName => [("typeName", Json.string typeName)]
  | elementaryTypeName name => [("name", Json.string name)]
  | userDefinedTypeName name => [("name", Json.string name)]
  | mapping key value => [("keyType", key), ("valueType", value)]
  | arrayTypeName element length => [("baseType", element), ("length", length)]
  | usingForDirective | breakStatement | continueStatement | placeholderStatement | inlineAssembly
  | functionTypeName => []

/-- A node from what is written for its parts. -/
def toJson (listId : UInt64 → String → UInt64) (id : UInt64) (src : Span) (k : Kind Json) : Json :=
  .ofFields <|
    ("nodeType", Json.string k.type.name) :: ("id", Json.ofNat id.toNat) ::
      ("src", Json.string src.render) ::
      k.fields (listId id)

end Kind

/-- A syntax tree as the compiler writes it. The list of parameters in a field of the node with a
given id has an id of its own, which is not part of the tree. -/
def Node.toJson (listId : UInt64 → String → UInt64) (n : Node) : Json := n.fold (Kind.toJson listId)

example :
    Node.toJson (fun _ _ => 0) ⟨7, ⟨3, 2, -1⟩,
      .returnStatement (some ⟨8, ⟨5, 1, -1⟩, .tupleExpression [none] false⟩)⟩ = .object [
      ("nodeType", .string "Return"), ("id", .integer 7), ("src", .string "3:2:-1"),
      ("expression", .object [
        ("nodeType", .string "TupleExpression"), ("id", .integer 8), ("src", .string "5:1:-1"),
        ("components", .array [.null]), ("isInlineArray", .bool false)])] := by
  rfl

/-! ## Folds -/

section Folds

variable {β : Type} (f : UInt64 → Span → Kind β → β)

@[simp] theorem foldAll_eq (ns : List Node) : foldAll f ns = ns.map (Node.fold f) := by
  induction ns with
  | nil => rw [foldAll, List.map_nil]
  | cons n ns ih => rw [foldAll, List.map_cons, ih]

@[simp] theorem foldOption_eq (o : Option Node) : foldOption f o = o.map (Node.fold f) := by
  cases o <;> rw [foldOption] <;> rfl

@[simp] theorem foldSlots_eq (slots : List (Option Node)) :
    foldSlots f slots = slots.map (Option.map (Node.fold f)) := by
  induction slots with
  | nil => rw [foldSlots, List.map_nil]
  | cons slot slots ih => rw [foldSlots, List.map_cons, ih, foldOption_eq]

theorem type_foldKind (k : Kind Node) : (foldKind f k).type = k.type := by
  cases k <;> simp only [foldKind] <;> rfl

end Folds

namespace Node

variable {listId : UInt64 → String → UInt64}

@[simp] theorem fold_toJson : fold (Kind.toJson listId) = toJson listId := rfl

theorem toJson_eq (n : Node) : n.toJson listId =
    .ofFields (("nodeType", Json.string n.type.name) :: ("id", Json.ofNat n.id.toNat) ::
      ("src", Json.string n.src.render) :: (foldKind (Kind.toJson listId) n.kind).fields
        (listId n.id)) := by
  obtain ⟨id, src, kind⟩ := n
  rw [toJson, fold, Kind.toJson, type_foldKind]
  rfl

theorem hasHeader_toJson (n : Node) : (n.toJson listId).HasHeader n.type.name n.id n.src := by
  rw [toJson_eq]
  constructor
  · simp [Json.stringAt?, Json.toString?]
  -- Step by step: `simp` would have the range check of the id run on a variable.
  · rw [Json.get?_ofFields_cons, if_neg (by decide), Json.get?_ofFields_cons, if_pos rfl,
      Option.some_or, Option.bind_some, Json.toUInt64?_ofNat]
  · simp [Json.stringAt?, Json.toString?, Span.parse?_render]

theorem hasFields_toJson (n : Node) :
    (n.toJson listId).HasFields ((foldKind (Kind.toJson listId) n.kind).fields (listId n.id)) := by
  intro name hname
  simp only [List.mem_cons, List.not_mem_nil, or_false, not_or] at hname
  simp [toJson_eq, hname]

theorem isNull_toJson (n : Node) : (n.toJson listId).isNull = false := by
  rw [toJson_eq]
  rfl

@[simp] theorem present_toJson (n : Node) :
    Json.present (some (n.toJson listId)) = some (n.toJson listId) := by
  rw [toJson_eq]
  rfl

@[simp] theorem present_map_toJson (o : Option Node) :
    Json.present (o.map (toJson listId)) = o.map (toJson listId) := by
  cases o with
  | none => rfl
  | some n => exact present_toJson n

end Node

/-! ## Reading what is written -/

theorem mapM_eq_pure {m : Type → Type} [Monad m] [LawfulMonad m] {α : Type}
    {read : α → m α} {l : List α} (h : ∀ a ∈ l, read a = pure a) : l.mapM read = pure l := by
  induction l with
  | nil => rfl
  | cons a l ih =>
    rw [List.mapM_cons, h a List.mem_cons_self, pure_bind,
      ih fun b hb => h b (List.mem_cons_of_mem _ hb), pure_bind]

namespace NodeFields

variable {v : Json} {f : NodeFields v} {field name : String}

@[simp] theorem elim_string (s : String) (absent : Except Error (Option String)) (error : Error) :
    (some (Json.string s)).elim absent
      (fun w => w.toString?.elim (.error error) fun s => .ok (some s)) =
      .ok (some s) := rfl

@[simp] theorem elim_string? (o : Option String) (error : Error) :
    o.elim (.ok none)
      ((fun w => w.toString?.elim (.error error) fun s => .ok (some s)) ∘ Json.string) =
      (.ok o : Except Error (Option String)) := by
  cases o <;> rfl

theorem names_of_get? (write : String → Json) {name? : Json → Option String} {names : List String}
    (h : v.get? field = some (.array (names.map write))) (hname : ∀ s, name? (write s) = some s) :
    f.names field name? = .ok names := by
  rw [names_eq, elements_eq_ok_iff.mpr h]
  refine Eq.trans (List.mapM_map ..) (mapM_eq_pure fun s _ => ?_)
  rw [Function.comp_apply, hname]
  rfl

theorem functionKind_of_get? {kind : FunctionKind} (h : v.get? "kind" = some (.string kind.word)) :
    f.functionKind = .ok kind := by
  rw [functionKind, string?_eq, Json.part?, h]
  cases kind <;> rfl

theorem typeName_of_get? (h : v.get? "name" = some (.string name)) : f.typeName = .ok name := by
  rw [typeName, string?_eq, Json.part?, h]
  rfl

theorem elementaryType_of_get? (h : v.get? "typeName" = some (.string name)) :
    f.elementaryType = .ok name := by
  have hoptional := f.optional_val "typeName"
  rw [Json.part?, h, Json.present_string, Option.map_eq_some_iff] at hoptional
  obtain ⟨⟨_, _⟩, hpart, rfl⟩ := hoptional
  rw [elementaryType, required, hpart]
  rfl

end NodeFields

/-- Nodes that are read back, in every context, from what is written for them. -/
def ReadBack (listId : UInt64 → String → UInt64) (ns : List Node) : Prop :=
  ∀ n ∈ ns, ∀ context, Node.read context (n.toJson listId) = pure n

namespace ReadBack

variable {listId : UInt64 → String → UInt64} {context : ReadingContext} {n : Node}
  {ns ms : List Node}

theorem cons_iff : ReadBack listId (n :: ns) ↔
    (∀ context, Node.read context (n.toJson listId) = pure n) ∧ ReadBack listId ns :=
  List.forall_mem_cons

theorem append_iff : ReadBack listId (ns ++ ms) ↔ ReadBack listId ns ∧ ReadBack listId ms :=
  List.forall_mem_append

@[simp] theorem elim_node (h : ∀ context, Node.read context (n.toJson listId) = pure n)
    (missing : Reading Node) :
    (some (n.toJson listId)).elim missing (Node.read context) = pure n := by
  rw [Option.elim_some, h]

@[simp] theorem elim_node? {o : Option Node} (h : ReadBack listId o.toList) :
    o.elim (pure none) ((fun w => some <$> Node.read context w) ∘ Node.toJson listId) = pure o := by
  cases o with
  | none => rfl
  | some n =>
    have hn := h n (by simp) context
    rw [Option.elim_some, Function.comp_apply, hn, map_pure]

@[simp] theorem mapM_nodes (h : ReadBack listId ns) :
    ns.mapM (Node.read context ∘ Node.toJson listId) = pure ns :=
  mapM_eq_pure fun n hn => h n hn context

theorem mapM_slots {slots : List (Option Node)} (h : ReadBack listId (slots.filterMap id)) :
    slots.mapM ((fun w => if w.isNull then pure none else some <$> Node.read context w) ∘
      (Json.ofOption id ∘ Option.map (Node.toJson listId))) = pure slots := by
  refine mapM_eq_pure fun slot hslot => ?_
  cases slot with
  | none => rfl
  | some n =>
    have hn : n ∈ slots.filterMap id := List.mem_filterMap.mpr ⟨some n, hslot, rfl⟩
    simp [Json.ofOption, Node.isNull_toJson, h n hn]

@[simp] theorem elim_parameters {id : UInt64} (h : ReadBack listId ns)
    (missing : Reading (List Node)) :
    (some (Json.parameterList id (ns.map (Node.toJson listId)))).elim missing
      (NodeFields.readParameters (Node.read context)) = pure ns := by
  have hid :
    (Json.parameterList id (ns.map (Node.toJson listId))).get? "id" = some (.ofNat id.toNat) := rfl
  have hlist : NodeFields.ofJson (Json.parameterList id (ns.map (Node.toJson listId))) =
      .ok ⟨"ParameterList", id⟩ := by
    refine NodeFields.ofJson_eq_ok_iff.mpr ⟨rfl, ?_⟩
    rw [hid, Option.bind_some, Json.toUInt64?_ofNat]
  rw [Option.elim_some, NodeFields.readParameters, hlist, Reading.liftM_ok, pure_bind,
    NodeFields.elements_eq_ok_iff.mpr rfl, Reading.liftM_ok, pure_bind, List.mapM_map, h.mapM_nodes]

theorem readMembers {v : Json} {members : List v.Inside} (h : ReadBack listId ns)
    (hvalues : members.map Subtype.val = ns.map (Node.toJson listId)) :
    readMembers context (fun w => Node.read context w.val) members = pure ns := by
  have hkept :
      members.mapM (readMember context fun w => Node.read context w.val) = pure (ns.map some) := by
    -- No member fails, so none is recorded or left out, whatever the context.
    induction ns generalizing members with
    | nil =>
      rw [List.map_eq_nil_iff.mp hvalues]
      rfl
    | cons n ns ih =>
      obtain ⟨hn, hns⟩ := cons_iff.mp h
      obtain ⟨w, rest, rfl, hw, hrest⟩ := List.map_eq_cons_iff.mp hvalues
      have hread : Node.read context w.val = pure n := by rw [hw, hn]
      have hmember : readMember context (fun w => Node.read context w.val) w = pure (some n) := by
        rw [readMember_of_ok (n := n) (by rw [hread]; rfl), hread]
        rfl
      rw [List.mapM_cons, hmember, pure_bind, ih hns hrest, pure_bind, List.map_cons]
  rw [ContractFlow.readMembers, hkept, pure_bind, List.filterMap_map]
  simp

/-- The members of a file or contract are found where they are written. -/
theorem exists_members {v : Json} (f : NodeFields v) (name : String) (h : ReadBack listId ns)
    (hget : v.get? name = some (.array (ns.map (Node.toJson listId)))) :
    ∃ members, f.array name = .ok members ∧ ∀ context,
      ContractFlow.readMembers context (fun w => Node.read context w.val) members = pure ns := by
  have helements := (f.array_eq name).trans (NodeFields.elements_eq_ok_iff.mpr hget)
  cases harray : f.array name with
  | error error =>
    rw [harray] at helements
    cases helements
  | ok members =>
    rw [harray] at helements
    exact ⟨members, rfl, fun _ => h.readMembers (Except.ok.inj helements)⟩

end ReadBack

section Kinds

variable {v : Json} {f : NodeFields v} {listId : UInt64 → String → UInt64} {ids : String → UInt64}
  {context : ReadingContext}

theorem function_of_fields {g : FunctionDefinition Node}
    (hget : v.HasFields ((foldKind (Kind.toJson listId) (.functionDefinition g)).fields ids))
    (h : ReadBack listId (Kind.functionDefinition g).children) (hbody : g.malformedBody = false) :
    f.function (fun w => Node.read context w.val) = pure g := by
  obtain ⟨name, kind, visibility, stateMutability, parameters, returnParameters, body,
    malformedBody⟩ := g
  cases hbody
  simp only [foldKind, Kind.fields] at hget
  simp only [Kind.children, ReadBack.append_iff] at h
  have hkind : f.functionKind = .ok kind := NodeFields.functionKind_of_get? (by simp [hget _])
  -- A part that is written is handed to its reader as a whole, by `elim_node` and
  -- `elim_parameters`.
  simp [NodeFields.function, NodeFields.functionHeader, hkind, NodeFields.string?_eq,
    NodeFields.node?_eq, NodeFields.parameters_eq, NodeFields.parameters?_eq, Json.part?, hget _, h,
    -Option.elim_some]

/-- A kind is read back from the fields that are written for it if its parts are. -/
theorem kind_of_fields {k : Kind Node}
    (hget : v.HasFields ((foldKind (Kind.toJson listId) k).fields ids))
    (h : ReadBack listId k.children)
    (hbody : ∀ g, k = .functionDefinition g → g.malformedBody = false) :
    f.kind (fun w => Node.read context w.val) (readMembers context fun w => Node.read context w.val)
      (fun name => readMembers { context with contract := some name } fun w =>
        Node.read { context with contract := some name } w.val) k.type = pure k := by
  cases k
  case functionDefinition g =>
    simp [Kind.type, NodeFields.kind, function_of_fields hget h (hbody g rfl)]
  all_goals simp only [foldKind, Kind.fields] at hget
  case sourceUnit nodes =>
    obtain ⟨members, harray, hmembers⟩ :=
      h.exists_members f "nodes" (by simp [hget _, Kind.children])
    simp [Kind.type, NodeFields.kind, harray, hmembers, Kind.children]
  case contractDefinition c =>
    obtain ⟨members, harray, hmembers⟩ :=
      h.exists_members f "nodes" (by simp [hget _, Kind.children])
    have hbases : f.names "baseContracts" NodeFields.baseName? = .ok c.baseContracts :=
      NodeFields.names_of_get? .baseSpecifier (by simp [hget _]) fun _ => rfl
    simp [Kind.type, NodeFields.kind, NodeFields.string_eq, NodeFields.string?_eq, Json.part?,
      hget _, hbases, harray, hmembers, Kind.children, -Option.elim_some]
  case pragmaDirective literals =>
    have hliterals : f.names "literals" Json.toString? = .ok literals :=
      NodeFields.names_of_get? .string (by simp [hget _, Json.strings]) fun _ => rfl
    simp [Kind.type, NodeFields.kind, hliterals]
  case enumDefinition name members =>
    have hmembers : f.names "members" (·.stringAt? "name") = .ok members :=
      NodeFields.names_of_get? .enumValue (by simp [hget _]) fun _ => rfl
    simp [Kind.type, NodeFields.kind, NodeFields.string_eq, Json.part?, hget _, hmembers]
  case variableDeclarationStatement declarations initialValue =>
    obtain ⟨hslots, hvalue⟩ := ReadBack.append_iff.mp h
    simp [Kind.type, NodeFields.kind, NodeFields.slots_eq, NodeFields.node?_eq, NodeFields.elements,
      Json.part?, Json.toArray?, hget _, hslots.mapM_slots, hvalue]
  case tupleExpression components isInlineArray =>
    simp [Kind.type, NodeFields.kind, NodeFields.slots_eq, NodeFields.elements, NodeFields.flag,
      Json.part?, Json.toArray?, Json.toBool?, hget _, ReadBack.mapM_slots h]
  case elementaryTypeNameExpression name =>
    have hname : f.elementaryType = .ok name := NodeFields.elementaryType_of_get? (by simp [hget _])
    simp [Kind.type, NodeFields.kind, hname]
  case userDefinedTypeName name =>
    have hname : f.typeName = .ok name := NodeFields.typeName_of_get? (by simp [hget _])
    simp [Kind.type, NodeFields.kind, hname]
  -- The other kinds hold strings, flags and parts only, each read by one equation.
  all_goals
    simp only [Kind.children, ReadBack.cons_iff, ReadBack.append_iff] at h
    simp [Kind.type, NodeFields.kind, NodeFields.string_eq, NodeFields.string?_eq,
      NodeFields.node_eq, NodeFields.node?_eq, NodeFields.nodes_eq, NodeFields.elements,
      NodeFields.parameters_eq, NodeFields.parameters?_eq, NodeFields.flag, Json.part?,
      Json.toArray?, Json.toBool?, hget _, h, -Option.elim_some]

end Kinds

namespace Node

/-- Every function in the tree has the body it was written with. -/
def BodiesIntact (n : Node) : Prop :=
  ∀ part ∈ n.descendants, ∀ f ∈ part.function?, f.malformedBody = false

instance (n : Node) : Decidable n.BodiesIntact :=
  inferInstanceAs
    (Decidable (∀ part ∈ n.descendants, ∀ f ∈ part.function?, f.malformedBody = false))

theorem bodiesIntact_iff {n : Node} : n.BodiesIntact ↔
    (∀ f ∈ n.function?, f.malformedBody = false) ∧ ∀ part ∈ n.children, part.BodiesIntact := by
  simp only [BodiesIntact, descendants_eq n, List.forall_mem_cons, List.forall_mem_flatMap]

/-- A node is read back if its parts are. -/
theorem read_toJson_of_children {listId : UInt64 → String → UInt64} {n : Node}
    (hbody : ∀ f ∈ n.function?, f.malformedBody = false) (h : ReadBack listId n.children)
    (context : ReadingContext) :
    read context (n.toJson listId) = pure n := by
  have hkind (g : FunctionDefinition Node) (hg : n.kind = .functionDefinition g) :
      g.malformedBody = false :=
    hbody g (by rw [function?, hg]; rfl)
  rw [read_eq_of_header n.type n.hasHeader_toJson, type, kind_of_fields n.hasFields_toJson h hkind,
    map_pure]
  cases n
  rfl

/-- Every tree is read back, strictly and leniently, from what is written for it, and nothing is
recorded. -/
theorem read_toJson (listId : UInt64 → String → UInt64) (n : Node) (h : n.BodiesIntact)
    (context : ReadingContext) :
    read context (n.toJson listId) = ⟨[], .ok n⟩ := by
  induction n using descendants.induct generalizing context with
  | case1 n ih =>
    obtain ⟨hbody, hparts⟩ := bodiesIntact_iff.mp h
    exact read_toJson_of_children hbody
      (fun part hpart => ih ⟨part, hpart⟩ (hparts part hpart)) context

/-- `contract Vault is Owned { function split(uint a) public { (, uint b) = a; } }` without the
types. -/
def vault : Node :=
  let node (id : UInt64) (kind : Kind Node) : Node := ⟨id, ⟨3, 2, -1⟩, kind⟩
  let named (id : UInt64) (name : String) : Node :=
    node id (.variableDeclaration name none none false)
  let statement := node 4 (.variableDeclarationStatement [none, some (named 5 "b")]
    (some (node 6 (.identifier "a" (some 3)))))
  node 1 (.contractDefinition ⟨"Vault", "contract", ["Owned"], [
    node 2 (.functionDefinition ⟨"split", .function, some "public", none, [named 3 "a"], [],
      some (node 7 (.block [statement])), false⟩)]⟩)

theorem read_toJson_vault : vault.BodiesIntact ∧
    read ⟨true, none⟩ (vault.toJson fun id _ => id + 100) = ⟨[], .ok vault⟩ ∧
    read ⟨false, none⟩ (vault.toJson fun id _ => id + 100) = ⟨[], .ok vault⟩ := by
  have h : vault.BodiesIntact := by decide +kernel
  exact ⟨h, read_toJson _ _ h _, read_toJson _ _ h _⟩

end Node

end ContractFlow
