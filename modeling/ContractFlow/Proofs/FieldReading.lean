import ContractFlow.Syntax.SourceUnit

/-!
What is read of a node, in terms of its fields. The readers find the parts of a node as values
inside it, so that they terminate; here each of them has an equation without this bound, in terms of
`Json.part?`, a field that is present, and `NodeFields.elements`, the values of an array field.

`Node.read_eq_of_header` opens the reader of nodes where the type, the id and the location are
known, and `Node.header_of_read` says that they are known of whatever is read. `readMember_of_ok`
and `readMember_of_error` say what leniently becomes of one member of a file or contract.
-/

namespace ContractFlow

theorem exists_ok_of_any {ε α : Type} {e : Except ε α} {p : α → Bool}
    (h : e.toOption.any p = true) :
    ∃ a, e = .ok a ∧ p a = true := by
  cases e with
  | error error => cases h
  | ok a => exact ⟨a, rfl, h⟩

/-! ## Readings -/

namespace Reading

variable {α β : Type}

private theorem id_map_reading (r : Reading α) : id <$> r = r := by
  obtain ⟨failures, result⟩ := r
  cases result <;> simp [Functor.map, Reading.bind, Reading.pure]

private theorem pure_bind_reading (a : α) (next : α → Reading β) : pure a >>= next = next a := by
  simp [bind, pure, Reading.bind, Reading.pure]

private theorem bind_assoc_reading {γ : Type} (r : Reading α) (next : α → Reading β)
    (last : β → Reading γ) :
    r >>= next >>= last = r >>= fun a => next a >>= last := by
  obtain ⟨failures, result⟩ := r
  cases result with
  | error error => simp [bind, Reading.bind]
  | ok a =>
    simp only [bind, Reading.bind]
    cases (next a).result <;> simp

instance : LawfulMonad Reading :=
  LawfulMonad.mk' Reading id_map_reading pure_bind_reading bind_assoc_reading

@[simp] theorem liftM_ok (a : α) : (liftM (Except.ok a : Except Error α) : Reading α) = pure a :=
  rfl

@[simp] theorem liftM_error (error : Error) :
    (liftM (Except.error error : Except Error α) : Reading α) = fail error := rfl

@[simp] theorem fail_bind (error : Error) (next : α → Reading β) :
    fail error >>= next = fail error := rfl

theorem map_eq (g : α → β) (r : Reading α) : g <$> r = ⟨r.failures, g <$> r.result⟩ := by
  obtain ⟨failures, result⟩ := r
  cases result <;> simp [Functor.map, Reading.bind, Reading.pure, Except.map]

theorem result_bind_of_ok {r : Reading α} {a : α} (h : r.result = .ok a) (next : α → Reading β) :
    (r >>= next).result = (next a).result := by
  obtain ⟨failures, result⟩ := r
  cases h
  rfl

theorem result_bind_eq_ok {r : Reading α} {next : α → Reading β} {b : β}
    (h : (r >>= next).result = .ok b) : ∃ a, r.result = .ok a ∧ (next a).result = .ok b := by
  obtain ⟨failures, result⟩ := r
  cases result with
  | error error => cases h
  | ok a => exact ⟨a, rfl, h⟩

theorem map_eq_ok_iff {g : α → β} {r : Reading α} {failures : List Failure} {b : β} :
    g <$> r = ⟨failures, .ok b⟩ ↔ ∃ a, r = ⟨failures, .ok a⟩ ∧ g a = b := by
  rw [map_eq]
  obtain ⟨recorded, result⟩ := r
  cases result with
  | error error => simp [Functor.map, Except.map]
  | ok a =>
    simp only [Functor.map, Except.map, Reading.mk.injEq, Except.ok.injEq]
    constructor
    · rintro ⟨rfl, rfl⟩
      exact ⟨a, ⟨rfl, rfl⟩, rfl⟩
    · rintro ⟨_, ⟨rfl, rfl⟩, rfl⟩
      exact ⟨rfl, rfl⟩

theorem liftM_bind_eq_ok_iff {e : Except Error α} {next : α → Reading β}
    {failures : List Failure} {b : β} :
    liftM e >>= next = ⟨failures, .ok b⟩ ↔ ∃ a, e = .ok a ∧ next a = ⟨failures, .ok b⟩ := by
  cases e with
  | error error =>
    rw [liftM_error, fail_bind]
    simp [fail]
  | ok a => simp

/-- Whatever is read has a property. -/
def Yields (r : Reading α) (p : α → Prop) : Prop := ∀ a, r.result = .ok a → p a

theorem Yields.pure {p : α → Prop} {a : α} (h : p a) : (pure a : Reading α).Yields p := by
  intro _ ha
  cases ha
  exact h

theorem Yields.bind {p : β → Prop} {r : Reading α} {next : α → Reading β}
    (h : ∀ a, (next a).Yields p) : (r >>= next).Yields p := by
  intro b hb
  obtain ⟨a, -, hnext⟩ := result_bind_eq_ok hb
  exact h a b hnext

end Reading

/-! ## Fields -/

namespace Json

variable {v : Json}

/-- A value that is present; `null` counts as absent. -/
def present : Option Json → Option Json
  | some .null => none
  | part => part

/-- A field that is present. -/
def part? (v : Json) (name : String) : Option Json := present (v.get? name)

theorem inside?_val (v : Json) (name : String) :
    (v.inside? name).map Subtype.val = v.get? name := by
  unfold inside?
  split <;> next h => simp [h]

theorem Inside.elements?_val (w : v.Inside) :
    w.elements?.map (List.map Subtype.val) = w.val.toArray? := by
  unfold elements?
  split
  · next elements h => simp [h, toArray?]
  · next h =>
    cases hw : w.val <;> simp [toArray?]
    exact h _ hw

end Json

namespace NodeFields

variable {v : Json} (f : NodeFields v) (name : String)

theorem ofJson_eq_ok_iff {f : NodeFields v} : ofJson v = .ok f ↔
    v.stringAt? "nodeType" = some f.type ∧ (v.get? "id").bind Json.toUInt64? = some f.id := by
  obtain ⟨type, id⟩ := f
  rw [ofJson]
  cases v.stringAt? "nodeType" <;> cases (v.get? "id").bind Json.toUInt64? <;> simp

theorem optional_val : (f.optional name).map Subtype.val = v.part? name := by
  rw [optional, Json.part?, ← Json.inside?_val]
  cases v.inside? name with
  | none => rfl
  | some w =>
    obtain ⟨w, hw⟩ := w
    cases w <;> rfl

theorem string_eq : f.string name =
    match v.part? name with
    | none => .error (f.missing name)
    | some (.string s) => .ok s
    | some _ => .error (f.invalid name) := by
  rw [string, required, ← optional_val]
  cases f.optional name with
  | none => rfl
  | some w =>
    obtain ⟨w, hw⟩ := w
    cases w <;> rfl

theorem string?_eq : f.string? name = (v.part? name).elim (.ok none) fun w =>
    w.toString?.elim (.error (f.invalid name)) fun s => .ok (some s) := by
  rw [string?, ← optional_val]
  cases f.optional name with
  | none => rfl
  | some w =>
    obtain ⟨w, hw⟩ := w
    cases w <;> rfl

/-- The values of an array field. -/
def elements : Except Error (List Json) :=
  match v.part? name with
  | none => .error (f.missing name)
  | some w =>
    match w.toArray? with
    | some values => .ok values
    | none => .error (f.invalid name)

theorem array_eq : List.map Subtype.val <$> f.array name = f.elements name := by
  rw [array, elements, required, ← optional_val]
  cases f.optional name with
  | none => rfl
  | some w =>
    simp only [Option.map_some, ← w.elements?_val, bind, Except.bind]
    cases w.elements? <;> rfl

theorem array_bind {α : Type} (next : List Json → Reading α) :
    (liftM (f.array name) >>= fun values => next (values.map Subtype.val)) =
      liftM (f.elements name) >>= next := by
  rw [← array_eq]
  cases f.array name <;> rfl

theorem names_eq (name? : Json → Option String) : f.names name name? =
    f.elements name >>= List.mapM fun w =>
      match name? w with
      | some s => .ok s
      | none => .error (f.invalid name) := by
  rw [names, ← array_eq]
  cases f.array name with
  | error error => rfl
  | ok values => exact Eq.symm (List.mapM_map ..)

section Parts

variable (read : Json → Reading Node)

theorem node_eq : f.node (fun w => read w.val) name =
    (v.part? name).elim (Reading.fail (f.missing name)) read := by
  rw [node, required, ← optional_val]
  cases f.optional name <;> simp

theorem node?_eq : f.node? (fun w => read w.val) name =
    (v.part? name).elim (pure none) fun w => some <$> read w := by
  rw [node?, ← optional_val]
  cases f.optional name <;> simp

theorem nodes_eq : f.nodes (fun w => read w.val) name =
    liftM (f.elements name) >>= List.mapM read := by
  rw [← array_bind]
  simp only [nodes, List.mapM_map, Function.comp_def]

theorem slots_eq : f.slots (fun w => read w.val) name =
    liftM (f.elements name) >>= List.mapM fun w =>
      if w.isNull then pure none else some <$> read w := by
  rw [← array_bind]
  simp only [slots, List.mapM_map, Function.comp_def]

/-- The nodes in a parameter list. -/
def readParameters (list : Json) : Reading (List Node) := do
  let inner ← NodeFields.ofJson list
  (← inner.elements "parameters").mapM read

theorem parametersIn_eq (list : v.Inside) :
    parametersIn (fun w => read w.val) list = readParameters read list.val := by
  simp only [parametersIn, readParameters, ← array_bind, List.mapM_map, Function.comp_def]
  rfl

theorem parameters_eq : f.parameters (fun w => read w.val) name =
    (v.part? name).elim (Reading.fail (f.missing name)) (readParameters read) := by
  rw [parameters, required, ← optional_val]
  cases f.optional name <;> simp [parametersIn_eq]

theorem parameters?_eq : f.parameters? (fun w => read w.val) name =
    (v.part? name).elim (pure []) (readParameters read) := by
  rw [parameters?, ← optional_val]
  cases f.optional name <;> simp [parametersIn_eq]

end Parts

section Agreement

variable {v w : Json} {type name : String} {id : UInt64}

theorem part?_congr (h : v.get? name = w.get? name) : v.part? name = w.part? name := by
  rw [Json.part?, Json.part?, h]

theorem string_congr (h : v.get? name = w.get? name) :
    (⟨type, id⟩ : NodeFields v).string name = (⟨type, id⟩ : NodeFields w).string name := by
  rw [string_eq, string_eq, part?_congr h]
  rfl

theorem string?_congr (h : v.get? name = w.get? name) :
    (⟨type, id⟩ : NodeFields v).string? name = (⟨type, id⟩ : NodeFields w).string? name := by
  rw [string?_eq, string?_eq, part?_congr h]
  rfl

theorem elements_congr (h : v.get? name = w.get? name) :
    (⟨type, id⟩ : NodeFields v).elements name = (⟨type, id⟩ : NodeFields w).elements name := by
  rw [elements, elements, part?_congr h]
  rfl

theorem names_congr (h : v.get? name = w.get? name) (name? : Json → Option String) :
    (⟨type, id⟩ : NodeFields v).names name name? =
      (⟨type, id⟩ : NodeFields w).names name name? := by
  rw [names_eq, names_eq, elements_congr h]
  rfl

end Agreement

variable {f} {name}

theorem string_eq_ok_iff {s : String} : f.string name = .ok s ↔ v.stringAt? name = some s := by
  rw [string_eq, Json.part?, Json.stringAt?]
  cases v.get? name with
  | none => simp [Json.present]
  | some w => cases w <;> simp [Json.present, Json.toString?]

theorem elements_eq_ok_iff {values : List Json} :
    f.elements name = .ok values ↔ v.get? name = some (.array values) := by
  rw [elements, Json.part?]
  cases v.get? name with
  | none => simp [Json.present]
  | some w => cases w <;> simp [Json.present, Json.toArray?]

theorem src_eq_ok_iff {src : Span} :
    f.src = .ok src ↔ (v.stringAt? "src").bind Span.parse? = some src := by
  have hparse (text : String) : Span.parse text = .ok src ↔ Span.parse? text = some src := by
    rw [Span.parse]
    cases Span.parse? text <;> simp
  rw [NodeFields.src]
  cases htext : f.string "src" with
  | ok text =>
    rw [string_eq_ok_iff.mp htext]
    exact hparse text
  | error error =>
    have hnone : ∀ text, v.stringAt? "src" ≠ some text := by
      intro text h
      rw [string_eq_ok_iff.mpr h] at htext
      cases htext
    rw [Option.eq_none_iff_forall_ne_some.mpr hnone]
    simp [bind, Except.bind]

end NodeFields

/-! ## Nodes -/

namespace NodeType

theorem ofName?_name (type : NodeType) : ofName? type.name = some type := by
  cases type <;> rfl

theorem name_injective {type type' : NodeType} (h : type.name = type'.name) : type = type' := by
  have hof := congrArg ofName? h
  rw [ofName?_name, ofName?_name] at hof
  exact Option.some.inj hof

theorem name_of_ofName? {name : String} {type : NodeType} (h : ofName? name = some type) :
    type.name = name := by
  simpa using List.find?_some h

end NodeType

/-- The type, id and location of a node. -/
structure Json.HasHeader (v : Json) (type : String) (id : UInt64) (src : Span) : Prop where
  type : v.stringAt? "nodeType" = some type
  id : (v.get? "id").bind Json.toUInt64? = some id
  src : (v.stringAt? "src").bind Span.parse? = some src

/-- A node as the compiler writes it, at the start of the source. -/
def Json.node (type : String) (id : Nat) (fields : List (String × Json)) : Json :=
  .object (("nodeType", .string type) :: ("id", .ofNat id) :: ("src", .string "0:0:0") :: fields)

theorem NodeFields.kind_type {v : Json} (f : NodeFields v) (read : v.Inside → Reading Node)
    (members : List v.Inside → Reading (List Node))
    (membersOf : String → List v.Inside → Reading (List Node)) (type : NodeType) :
    (f.kind read members membersOf type).Yields fun kind => kind.type = type := by
  cases type <;> repeat' first | exact .pure rfl | refine .bind fun _ => ?_

namespace Node

variable {v : Json} {context : ReadingContext}

/-- A node whose type, id and location are known is read by its kind. -/
theorem read_eq_of_header (type : NodeType) {id : UInt64} {src : Span}
    (h : v.HasHeader type.name id src) :
    read context v = Node.mk id src <$> (⟨type.name, id⟩ : NodeFields v).kind
      (fun w => read context w.val) (readMembers context fun w => read context w.val)
      (fun name => readMembers { context with contract := some name } fun w =>
        read { context with contract := some name } w.val) type := by
  have hfields : NodeFields.ofJson v = .ok ⟨type.name, id⟩ :=
    NodeFields.ofJson_eq_ok_iff.mpr ⟨h.type, h.id⟩
  rw [read, readNode, hfields, Reading.liftM_ok, pure_bind, NodeFields.src_eq_ok_iff.mpr h.src,
    Reading.liftM_ok, pure_bind, NodeType.ofName?_name, map_eq_pure_bind]

/-- Whatever is read has the type, the id and the location that are written. -/
theorem header_of_read {n : Node} (h : (read context v).result = .ok n) :
    v.HasHeader n.type.name n.id n.src := by
  rw [read, readNode] at h
  obtain ⟨f, hfields, h⟩ := Reading.result_bind_eq_ok h
  obtain ⟨src, hsrc, h⟩ := Reading.result_bind_eq_ok h
  cases htype : NodeType.ofName? f.type with
  | none =>
    rw [htype] at h
    cases h
  | some type =>
    rw [htype] at h
    obtain ⟨kind, hkind, h⟩ := Reading.result_bind_eq_ok h
    cases h
    obtain ⟨hname, hid⟩ := NodeFields.ofJson_eq_ok_iff.mp hfields
    refine ⟨?_, hid, NodeFields.src_eq_ok_iff.mp hsrc⟩
    rw [hname, ← NodeType.name_of_ofName? htype, ← f.kind_type _ _ _ _ _ hkind]
    rfl

end Node

/-! ## Members -/

section Members

variable {v : Json} {read : v.Inside → Reading Node} {w : v.Inside}

theorem readMember_of_ok {context : ReadingContext} {n : Node} (h : (read w).result = .ok n) :
    readMember context read w = ⟨(read w).failures, .ok (some n)⟩ := by
  rw [readMember]
  simp [Reading.attempt, h, bind, Reading.bind, pure, Reading.pure]

/-- Leniently, a member that cannot be read is recorded, and a function is read again without its
body. -/
theorem readMember_of_error {contract : Option String} {error : Error}
    (h : (read w).result = .error error) :
    readMember ⟨false, contract⟩ read w =
      if w.val.stringAt? "nodeType" = some NodeType.functionDefinition.name then
        ⟨(read w).failures ++ memberFailure contract w.val error ::
          (readMalformedFunction read w).failures,
          .ok (readMalformedFunction read w).result.toOption⟩
      else ⟨(read w).failures ++ [memberFailure contract w.val error], .ok none⟩ := by
  rw [readMember]
  simp only [Reading.attempt, Reading.record, h, bind, Reading.bind, Bool.false_eq_true, if_false]
  split <;> simp [pure, Reading.pure]

end Members

end ContractFlow
