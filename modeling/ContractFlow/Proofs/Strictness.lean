import ContractFlow.Proofs.Correspondence
import ContractFlow.Proofs.FieldReading

/-!
Strict reading compared with lenient reading. Strictly, the first member that cannot be read is an
error; leniently it is recorded, and the reading goes on. `Reading.strictly` makes the first of the
recorded failures an error. It goes through sequences of readings
(`Reading.strictly_correspondence`), so it goes through the reader of every kind of node, and the
strict reading of a value is what it makes of the lenient one (`Node.read_strict`).
-/

namespace ContractFlow

namespace Reading

variable {α β : Type}

/-- Only the first of the failures, as an error. -/
def strictly (r : Reading α) : Reading α :=
  match r.failures with
  | [] => r
  | failure :: _ => fail failure.error

theorem strictly_of_nil {r : Reading α} (h : r.failures = []) : r.strictly = r := by
  rw [strictly, h]

theorem strictly_of_cons {r : Reading α} {failure : Failure} {rest : List Failure}
    (h : r.failures = failure :: rest) : r.strictly = fail failure.error := by
  rw [strictly, h]

theorem strictly_bind (r : Reading α) (next : α → Reading β) :
    (r >>= next).strictly = r.strictly >>= fun a => (next a).strictly := by
  obtain ⟨failures, result⟩ := r
  cases failures with
  | nil => cases result <;> simp [strictly, bind, Reading.bind]
  | cons failure rest => cases result <;> simp [strictly, bind, Reading.bind, fail]

theorem strictly_map (g : α → β) (r : Reading α) : (g <$> r).strictly = g <$> r.strictly := by
  rw [map_eq_pure_bind, strictly_bind, map_eq_pure_bind]
  rfl

/-- What comes after the first failure has no part in it. -/
theorem strictly_append_cons (failures : List Failure) (failure : Failure) (rest : List Failure)
    (result : Except Error α) :
    (Reading.mk (failures ++ failure :: rest) result).strictly =
      (Reading.mk failures (.error failure.error : Except Error α)).strictly := by
  cases failures <;> rfl

/-- What is built from values, errors and sequences may be read first and made strict afterwards. -/
theorem strictly_correspondence :
    Correspondence fun α (r r' : Reading α) => r.strictly = r' where
  pure _ := rfl
  lift _ := rfl
  bind h hnext := by rw [strictly_bind, h, funext hnext]

end Reading

/-! ## Members -/

section Members

variable {v : Json} (contract : Option String) (read : v.Inside → Reading Node)

theorem readMember_strict (w : v.Inside) :
    readMember ⟨true, contract⟩ read w = some <$> read w := by
  rw [readMember, map_eq_pure_bind]
  obtain ⟨failures, result⟩ := read w
  cases result <;> simp [Reading.attempt, Reading.fail, bind, Reading.bind]

/-- A member that cannot be read is the first failure, unless something inside it was recorded
before. -/
theorem strictly_readMember (w : v.Inside) :
    (readMember ⟨false, contract⟩ read w).strictly =
      readMember ⟨true, contract⟩ (fun w => (read w).strictly) w := by
  rw [readMember_strict, ← Reading.strictly_map, Reading.map_eq]
  cases hresult : (read w).result with
  | ok n =>
    rw [readMember_of_ok hresult]
    rfl
  | error error =>
    rw [readMember_of_error hresult]
    split <;> exact Reading.strictly_append_cons ..

theorem strictly_readMembers (members : List v.Inside) :
    (readMembers ⟨false, contract⟩ read members).strictly =
      readMembers ⟨true, contract⟩ (fun w => (read w).strictly) members := by
  have C := Reading.strictly_correspondence
  exact C.bind (C.mapM (strictly_readMember contract read) members) fun _ => rfl

end Members

/-! ## Nodes -/

/-- The strict reading of a value is its lenient reading, with the first failure as an error. -/
theorem Node.read_strict (v : Json) (contract : Option String) :
    Node.read ⟨true, contract⟩ v = (Node.read ⟨false, contract⟩ v).strictly := by
  induction hsize : sizeOf v using Nat.strongRecOn generalizing v contract with
  | ind size ih =>
    subst hsize
    have hparts (contract : Option String) (w : v.Inside) :
        Node.read ⟨true, contract⟩ w.val = (Node.read ⟨false, contract⟩ w.val).strictly :=
      ih _ w.property w.val contract rfl
    rw [Node.read, Node.read]
    simp only [hparts]
    exact (Reading.strictly_correspondence.readNode (fun w => rfl) (strictly_readMembers contract _)
      fun name => strictly_readMembers (some name) _).symm

/-! ## Files -/

namespace SourceUnit

variable {v : Json}

theorem failures_of_ofJson {u : SourceUnit} (h : ofJson v = .ok u) :
    u.failures = (Node.read ⟨false, none⟩ v).failures := by
  rw [ofJson, read] at h
  split at h <;> cases h
  rfl

theorem ofJsonStrict_of_no_failure (h : (Node.read ⟨false, none⟩ v).failures = []) :
    ofJsonStrict v = ofJson v := by
  rw [ofJsonStrict, ofJson, read, read, Node.read_strict, Reading.strictly_of_nil h]

theorem ofJsonStrict_of_failure {failure : Failure} {rest : List Failure}
    (h : (Node.read ⟨false, none⟩ v).failures = failure :: rest) :
    ofJsonStrict v = .error failure.error := by
  rw [ofJsonStrict, read, Node.read_strict, Reading.strictly_of_cons h]
  rfl

/-- **Strict and lenient reading agree.** A file that is read leniently without failures is strictly
the same file, and otherwise the error of the first failure is the strict error. What leniently is
an error is an error strictly. -/
theorem ofJsonStrict_agrees (v : Json) :
    (∀ u, ofJson v = .ok u → u.failures = [] → ofJsonStrict v = .ok u) ∧
    (∀ u failure rest, ofJson v = .ok u → u.failures = failure :: rest →
      ofJsonStrict v = .error failure.error) ∧
    ∀ error, ofJson v = .error error → ∃ error', ofJsonStrict v = .error error' := by
  refine ⟨fun u hu hfailures => ?_, fun u failure rest hu hfailures => ?_, fun error herror => ?_⟩
  · rw [failures_of_ofJson hu] at hfailures
    rw [ofJsonStrict_of_no_failure hfailures, hu]
  · rw [failures_of_ofJson hu] at hfailures
    exact ofJsonStrict_of_failure hfailures
  · cases hfailures : (Node.read ⟨false, none⟩ v).failures with
    | nil => exact ⟨error, by rw [ofJsonStrict_of_no_failure hfailures, herror]⟩
    | cons failure rest => exact ⟨failure.error, ofJsonStrict_of_failure hfailures⟩

/-- A function with a contract in its body. Both the member of the contract and the body cannot be
read. -/
def nestedFailures : Json :=
  .node "SourceUnit" 1 [("nodes", .array [
    .node "FunctionDefinition" 2 [
      ("name", .string "f"),
      ("parameters", .node "ParameterList" 3 [("parameters", .array [])]),
      ("body", .node "Block" 4 [("statements", .array [
        .node "ContractDefinition" 5 [
          ("name", .string "C"), ("baseContracts", .array []), ("nodes", .array [.null])],
        .node "YulBlock" 6 []])])]])]

theorem ofJsonStrict_agrees_nestedFailures : ∃ u inner outer, ofJson nestedFailures = .ok u ∧
    u.failures = [inner, outer] ∧ inner.contract = some "C" ∧ inner.error ≠ outer.error ∧
    ofJsonStrict nestedFailures = .error inner.error := by
  have hlenient : (ofJson nestedFailures).toOption.any (fun u => u.failures =
      [⟨some "C", "<unknown>", 0, .missingField "<unknown>" 0 "nodeType"⟩,
        ⟨none, "f", 2, .unknownNodeType "YulBlock" 6⟩]) = true := by
    decide +kernel
  obtain ⟨u, hu, hfailures⟩ := exists_ok_of_any hlenient
  rw [decide_eq_true_iff] at hfailures
  exact ⟨u, _, _, hu, hfailures, rfl, by decide,
    (ofJsonStrict_agrees nestedFailures).2.1 u _ _ hu hfailures⟩

end SourceUnit

end ContractFlow
