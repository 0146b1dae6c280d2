import ContractFlow.Proofs.Correspondence
import ContractFlow.Proofs.FieldReading

/-!
Reading with state. A converter knows the contract whose members it is reading and the failures that
it has recorded, and changes both in place as it goes: it enters a contract before its members and
leaves it after them, also where one of them cannot be read. Main statement: it reads what
`Node.read` reads in the contract it is in, it ends in that contract, and failures are only added
(`Conversion.run_node`).
-/

namespace ContractFlow

structure Converter where
  contract : Option String := none
  failures : List Failure := []

/-- A step of a converter. What it has done before it fails is not undone. -/
abbrev Conversion (α : Type) := ExceptT Error (StateM Converter) α

namespace Conversion

variable {α β : Type}

/-- Takes a step that may fail, without failing itself. -/
def attempt (x : Conversion α) : Conversion (Except Error α) := ExceptT.lift x.run

/-- Records that a member of the contract it is in cannot be read. -/
def record (w : Json) (error : Error) : Conversion Unit :=
  modify fun s => { s with failures := s.failures ++ [memberFailure s.contract w error] }

/-- Goes to another contract, and answers which one it was in. -/
def enter (contract : Option String) : Conversion (Option String) :=
  modifyGet fun s => (s.contract, { s with contract })

section Members

variable {v : Json} (strict : Bool) (read : v.Inside → Conversion Node)

/-- Reads a member, and appends it to those that were kept if it can be kept. -/
def member (kept : List Node) (w : v.Inside) : Conversion (List Node) := do
  match ← attempt (read w) with
  | .ok node => return kept ++ [node]
  | .error error =>
    if strict then throw error
    else
      record w.val error
      if w.val.stringAt? "nodeType" = some NodeType.functionDefinition.name then
        let function ← attempt (readMalformedFunction read w)
        return kept ++ function.toOption.toList
      else return kept

def members (values : List v.Inside) : Conversion (List Node) :=
  values.foldlM (member strict read) []

def membersOf (name : String) (values : List v.Inside) : Conversion (List Node) := do
  let enclosing ← enter (some name)
  let nodes ← attempt (members strict read values)
  discard (enter enclosing)
  nodes

end Members

def node (strict : Bool) (v : Json) : Conversion Node :=
  readNode v (fun w => node strict w.val) (members strict fun w => node strict w.val)
    (membersOf strict fun w => node strict w.val)
termination_by sizeOf v
decreasing_by all_goals exact w.property

/-! ## Steps that compute readings -/

theorem run_bind_of_ok {x : Conversion α} {next : α → Conversion β} {s s' : Converter} {a : α}
    (h : x.run s = (.ok a, s')) : (x >>= next).run s = (next a).run s' := by
  change ExceptT.bindCont next (x.run s).1 (x.run s).2 = _
  rw [h]
  rfl

theorem run_bind_of_error {x : Conversion α} {next : α → Conversion β} {s s' : Converter}
    {error : Error} (h : x.run s = (.error error, s')) :
    (x >>= next).run s = (.error error, s') := by
  change ExceptT.bindCont next (x.run s).1 (x.run s).2 = _
  rw [h]
  rfl

/-- In a contract, a step has the result of a reading and adds its failures to those there are. -/
def Computes (contract : Option String) (x : Conversion α) (r : Reading α) : Prop :=
  ∀ failures, x.run ⟨contract, failures⟩ = (r.result, ⟨contract, failures ++ r.failures⟩)

theorem Computes.of_no_failure {contract : Option String} {x : Conversion α} {e : Except Error α}
    (h : ∀ failures, x.run ⟨contract, failures⟩ = (e, ⟨contract, failures⟩)) :
    x.Computes contract ⟨[], e⟩ := by
  intro failures
  rw [h, List.append_nil]

theorem Computes.bind {contract : Option String} {x : Conversion α} {r : Reading α}
    {next : α → Conversion β} {next' : α → Reading β} (h : x.Computes contract r)
    (hnext : ∀ a, (next a).Computes contract (next' a)) :
    (x >>= next).Computes contract (r >>= next') := by
  intro failures
  have hx := h failures
  obtain ⟨recorded, result⟩ := r
  cases result with
  | error error => exact run_bind_of_error hx
  | ok a =>
    rw [run_bind_of_ok hx, hnext a, List.append_assoc]
    rfl

theorem correspondence (contract : Option String) :
    Correspondence fun α (x : Conversion α) (r : Reading α) => x.Computes contract r where
  pure _ := .of_no_failure fun _ => rfl
  lift _ := .of_no_failure fun _ => rfl
  bind h hnext := h.bind hnext

theorem Computes.attempt {contract : Option String} {x : Conversion α} {r : Reading α}
    (h : x.Computes contract r) : x.attempt.Computes contract r.attempt := by
  intro failures
  have hx := h failures
  change (Except.ok (x.run ⟨contract, failures⟩).1, (x.run ⟨contract, failures⟩).2) = _
  rw [hx]
  rfl

theorem computes_record (contract : Option String) (w : Json) (error : Error) :
    (record w error).Computes contract (Reading.record (memberFailure contract w error)) := by
  intro failures
  rfl

section Members

variable {v : Json} {strict : Bool} {read : v.Inside → Conversion Node}
  {read' : v.Inside → Reading Node} {contract : Option String}

theorem computes_member (h : ∀ w, (read w).Computes contract (read' w)) (kept : List Node)
    (w : v.Inside) : (member strict read kept w).Computes contract
      ((fun node => kept ++ node.toList) <$> readMember ⟨strict, contract⟩ read' w) := by
  have C := correspondence contract
  rw [readMember, map_bind]
  refine (h w).attempt.bind fun result => ?_
  cases result with
  | ok node => exact C.pure _
  | error error =>
    cases strict with
    | true => exact C.lift (.error error)
    | false =>
      simp only [Bool.false_eq_true, if_false, map_bind]
      refine (computes_record contract w.val error).bind fun _ => ?_
      split
      · rw [map_bind]
        exact (C.malformedFunction h w).attempt.bind fun function => C.pure _
      · simpa using C.pure kept

theorem computes_foldlM (h : ∀ w, (read w).Computes contract (read' w)) (kept : List Node)
    (values : List v.Inside) : (values.foldlM (member strict read) kept).Computes contract
      ((fun nodes => kept ++ nodes.filterMap id) <$>
        values.mapM (readMember ⟨strict, contract⟩ read')) := by
  induction values generalizing kept with
  | nil => simpa using (correspondence contract).pure kept
  | cons w values ih =>
    have hcons : (fun nodes => kept ++ nodes.filterMap id) <$>
        (w :: values).mapM (readMember ⟨strict, contract⟩ read') =
        (fun node => kept ++ node.toList) <$> readMember ⟨strict, contract⟩ read' w >>= fun kept =>
          (fun nodes => kept ++ nodes.filterMap id) <$>
            values.mapM (readMember ⟨strict, contract⟩ read') := by
      rw [List.mapM_cons, map_bind, bind_map_left]
      refine bind_congr fun node => ?_
      cases node <;> simp
    rw [hcons]
    exact (computes_member h kept w).bind ih

theorem computes_members (h : ∀ w, (read w).Computes contract (read' w)) (values : List v.Inside) :
    (members strict read values).Computes contract
      (readMembers ⟨strict, contract⟩ read' values) := by
  rw [readMembers, ← map_eq_pure_bind]
  exact computes_foldlM h [] values

/-- The contract that was left is entered again after the members. -/
theorem computes_membersOf (name : String) (h : ∀ w, (read w).Computes (some name) (read' w))
    (values : List v.Inside) : (membersOf strict read name values).Computes contract
      (readMembers ⟨strict, some name⟩ read' values) := by
  intro failures
  have hmembers : (members strict read values).Computes (some name) _ := computes_members h values
  rw [membersOf, run_bind_of_ok (x := enter (some name)) rfl, run_bind_of_ok (hmembers.attempt _)]
  rfl

end Members

theorem computes_node (strict : Bool) (v : Json) (contract : Option String) :
    (node strict v).Computes contract (Node.read ⟨strict, contract⟩ v) := by
  induction hsize : sizeOf v using Nat.strongRecOn generalizing v contract with
  | ind size ih =>
    subst hsize
    have hparts (contract : Option String) (w : v.Inside) :
        (node strict w.val).Computes contract (Node.read ⟨strict, contract⟩ w.val) :=
      ih _ w.property w.val contract rfl
    rw [node, Node.read]
    exact (correspondence contract).readNode (hparts contract) (computes_members (hparts contract))
      fun name => computes_membersOf name (hparts (some name))

/-- **A converter reads in the contract it is in**, returns to it, and only adds failures. -/
theorem run_node (strict : Bool) (v : Json) (s : Converter) :
    (node strict v).run s = ((Node.read ⟨strict, s.contract⟩ v).result,
      { s with failures := s.failures ++ (Node.read ⟨strict, s.contract⟩ v).failures }) :=
  computes_node strict v s.contract s.failures

end Conversion

end ContractFlow
