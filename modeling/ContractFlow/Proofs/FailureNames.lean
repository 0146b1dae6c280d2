import ContractFlow.Proofs.Accounting

/-!
The names of functions whose body could not be read. A function has a name from its header: the one
that is written, or else the word for its kind, which is known from a flag where no kind is written.
The failure that is left by it has a name from the fields as they are written: the name, or else the
kind, or else the type of the node. The two agree unless neither a name nor a kind is written
(`memberName_eq`).

Main statement: `SourceUnit.ofJson_recordedName`. Such a function has the contract and the id of its
failure, and its name with this one exception.
-/

namespace ContractFlow

namespace FunctionKind

theorem word_of_ofWord? {word : String} {kind : FunctionKind} (h : ofWord? word = some kind) :
    kind.word = word := by
  unfold ofWord? at h
  split at h <;> cases h <;> rfl

end FunctionKind

namespace NodeFields

variable {v : Json} {f : NodeFields v}

theorem stringAt?_of_string? {name : String} {s : Option String} (h : f.string? name = .ok s) :
    v.stringAt? name = s := by
  rw [string?_eq, Json.part?] at h
  rw [Json.stringAt?]
  cases hget : v.get? name with
  | none =>
    rw [hget] at h
    cases h
    rfl
  | some w =>
    rw [hget] at h
    cases w <;> cases h <;> rfl

/-- A kind that is written is the kind of the function. -/
theorem word_of_functionKind {kind : FunctionKind} {word : String} (h : f.functionKind = .ok kind)
    (hword : v.stringAt? "kind" = some word) : kind.word = word := by
  rw [functionKind] at h
  cases hkind : f.string? "kind" with
  | error error =>
    rw [hkind] at h
    cases h
  | ok written =>
    obtain rfl : written = some word := (stringAt?_of_string? hkind).symm.trans hword
    rw [hkind] at h
    cases hof : FunctionKind.ofWord? word with
    | none => simp [hof, bind, Except.bind] at h
    | some kind' =>
      simp only [hof, bind, Except.bind] at h
      cases h
      exact FunctionKind.word_of_ofWord? hof

theorem names_of_functionHeader {read : v.Inside → Reading Node} {header : FunctionDefinition Node}
    (h : (f.functionHeader read).result = .ok header) :
    header.name = (v.stringAt? "name").getD "" ∧
      ∀ word, v.stringAt? "kind" = some word → header.kind.word = word := by
  obtain ⟨kind, hkind, h⟩ := Reading.result_bind_eq_ok h
  obtain ⟨name, hname, h⟩ := Reading.result_bind_eq_ok h
  obtain ⟨visibility, -, h⟩ := Reading.result_bind_eq_ok h
  obtain ⟨stateMutability, -, h⟩ := Reading.result_bind_eq_ok h
  obtain ⟨parameters, -, h⟩ := Reading.result_bind_eq_ok h
  obtain ⟨returnParameters, -, h⟩ := Reading.result_bind_eq_ok h
  cases h
  rw [stringAt?_of_string? hname]
  exact ⟨rfl, fun word hword => word_of_functionKind hkind hword⟩

end NodeFields

/-- The name in a failure, for a function with the names that are written in its header. -/
theorem memberName_eq {w : Json} {definition : FunctionDefinition Node}
    (htype : w.stringAt? "nodeType" = some NodeType.functionDefinition.name)
    (hname : definition.name = (w.stringAt? "name").getD "")
    (hkind : ∀ word, w.stringAt? "kind" = some word → definition.kind.word = word) :
    memberName w = if definition.name.isEmpty ∧ w.stringAt? "kind" = none then "FunctionDefinition"
      else definition.displayName := by
  have hfallback : memberName.fallback w = (w.stringAt? "kind").getD "FunctionDefinition" := by
    rw [memberName.fallback, htype]
    cases w.stringAt? "kind" <;> rfl
  have hmember : memberName w =
      if definition.name.isEmpty then memberName.fallback w else definition.name := by
    rw [memberName, hname]
    cases w.stringAt? "name" <;> rfl
  rw [hmember, hfallback, FunctionDefinition.displayName]
  cases definition.name.isEmpty with
  | false => simp
  | true =>
    cases hword : w.stringAt? "kind" with
    | none => simp
    | some word => simp [hkind word hword]

/-- What a malformed function has left, and the names in its header. -/
theorem memberNode?_malformed {contract : Option String} {w : Json} {n : Node}
    {definition : FunctionDefinition Node}
    (h : memberNode? contract w = some n) (hn : n.function? = some definition)
    (hmalformed : definition.malformedBody = true) :
    ∃ error, (Node.read ⟨false, contract⟩ w).result = .error error ∧
      ⟨contract, if definition.name.isEmpty ∧ w.stringAt? "kind" = none then "FunctionDefinition"
        else definition.displayName, n.id, error⟩ ∈ memberFailures contract w := by
  rcases memberNode?_cases h with hread | ⟨⟨error, hread, hmem⟩, htype, hheader⟩
  · simp [Node.intact_of_read hread hn] at hmalformed
  · obtain ⟨f, hf, hheader⟩ := Reading.result_bind_eq_ok hheader
    obtain ⟨header, hfields, hheader⟩ := Reading.result_bind_eq_ok hheader
    obtain ⟨src, -, hheader⟩ := Reading.result_bind_eq_ok hheader
    cases hheader
    cases hn
    obtain ⟨hname, hkind⟩ := NodeFields.names_of_functionHeader hfields
    rw [memberFailure, (NodeFields.ofJson_eq_ok_iff.mp hf).2,
      memberName_eq htype hname hkind] at hmem
    exact ⟨error, hread, hmem⟩

namespace SourceUnit

/-- **Malformed functions are recorded under their name.** A function whose body could not be read
comes from a member that could not be read, and the failure of this member has its contract, its id,
and its name. Only where the member has neither a name nor a kind, the failure is named by the type
of the member instead. -/
theorem ofJson_recordedName {v : Json} {u : SourceUnit} (hu : ofJson v = .ok u)
    {f : DeclaredFunction} (hf : f ∈ u.functions) (hmalformed : f.definition.malformedBody = true) :
    ∃ w error, v.IsMember f.contractName w ∧ memberNode? f.contractName w = some f.node ∧
      (Node.read ⟨false, f.contractName⟩ w).result = .error error ∧
      ⟨f.contractName,
        if f.definition.name.isEmpty ∧ w.stringAt? "kind" = none then "FunctionDefinition"
        else f.name,
        f.id, error⟩ ∈ u.failures := by
  obtain ⟨hdefinition, w, hw, hnode, hrecorded⟩ := exists_member hu hf
  obtain ⟨error, hread, hfailure⟩ := memberNode?_malformed hnode hdefinition hmalformed
  exact ⟨w, error, hw, hnode, hread, hrecorded hfailure⟩

/-- A contract with functions that have no names, and a function outside of it. None of the bodies
can be read, and the kind of the first is not written. -/
def nameless : Json :=
  let function (id : Nat) (fields : List (String × Json)) : Json := .node "FunctionDefinition" id <|
    ("parameters", .node "ParameterList" (id + 1) [("parameters", .array [])]) ::
      ("body", .bool true) :: fields
  .node "SourceUnit" 1 [("nodes", .array [
    .node "ContractDefinition" 2 [
      ("name", .string "Vault"),
      ("baseContracts", .array []),
      ("nodes", .array [
        function 3 [("name", .string ""), ("isConstructor", .bool true)],
        function 5 [("name", .string ""), ("kind", .string "fallback")]])],
    function 7 [("name", .string "total"), ("kind", .string "freeFunction")]])]

theorem ofJson_recordedName_nameless : ∃ u, ofJson nameless = .ok u ∧ u.functions.length = 3 ∧
    ∀ f ∈ u.functions, f.definition.malformedBody = true ∧
      ∃ w error, nameless.IsMember f.contractName w ∧ memberNode? f.contractName w = some f.node ∧
        (Node.read ⟨false, f.contractName⟩ w).result = .error error ∧
        ⟨f.contractName,
          if f.definition.name.isEmpty ∧ w.stringAt? "kind" = none then "FunctionDefinition"
          else f.name,
          f.id, error⟩ ∈ u.failures := by
  have h : (ofJson nameless).toOption.any (fun u => u.functions.length = 3 ∧
      u.functions.all (·.definition.malformedBody)) = true := by decide +kernel
  obtain ⟨u, hu, hfunctions⟩ := exists_ok_of_any h
  obtain ⟨hlength, hall⟩ := of_decide_eq_true hfunctions
  refine ⟨u, hu, hlength, fun f hf => ?_⟩
  have hmalformed : f.definition.malformedBody = true := List.all_eq_true.mp hall f hf
  exact ⟨hmalformed, ofJson_recordedName hu hf hmalformed⟩

/-- The constructor is not recorded under its name. -/
theorem constructor_recorded_by_type : ∃ u, ofJson nameless = .ok u ∧
    (u.functions.map fun f => (f.contractName, f.id, f.name)) =
      [(none, 7, "total"), (some "Vault", 3, "constructor"), (some "Vault", 5, "fallback")] ∧
    (u.failures.map fun failure => (failure.contract, failure.functionId, failure.function)) =
      [(some "Vault", 3, "FunctionDefinition"), (some "Vault", 5, "fallback"),
        (none, 7, "total")] := by
  have h : (ofJson nameless).toOption.any (fun u =>
      (u.functions.map fun f => (f.contractName, f.id, f.name)) =
        [(none, 7, "total"), (some "Vault", 3, "constructor"), (some "Vault", 5, "fallback")] ∧
      (u.failures.map fun failure => (failure.contract, failure.functionId, failure.function)) =
        [(some "Vault", 3, "FunctionDefinition"), (some "Vault", 5, "fallback"),
          (none, 7, "total")]) = true := by
    decide +kernel
  obtain ⟨u, hu, hnames⟩ := exists_ok_of_any h
  exact ⟨u, hu, of_decide_eq_true hnames⟩

end SourceUnit

end ContractFlow
