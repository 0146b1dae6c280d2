import ContractFlow.Flow.Access
import ContractFlow.Proofs.TreeSetOrder

/-!
What a statement or expression defines and uses, said by where names occur in it. Each part of a
node stands in a `Place` of it, and a part that is visited occurs together with the places on the
way up from it (`Node.Occurs`). An occurrence is written if this way leads through components of
tuples, bases of elements and objects of members to something that is assigned, and it is
overwritten if it leads through components only and the assignment does not read its target.

The access that is made of an occurrence is decided by the places alone: each changes the access
that is made of the whole (`Place.access`), and the accesses add up along the way
(`Access.mem_effects_iff`). Main statement: `Node.mem_effects_iff_occurs`.

A loop over a stack of nodes, each with the access to make of it, collects the same
(`Node.collects_iff`).
-/

namespace ContractFlow

/-- How a part stands in a node. -/
inductive Place where
  /-- A component of a tuple. -/
  | component
  /-- What an element or a range of elements is taken from, or the object that a member belongs
  to. -/
  | base
  /-- The left-hand side of an assignment. -/
  | target (operator : String)
  /-- The operand of a unary operator. -/
  | operand (operator : String)
  /-- An entry of a list of declarations. -/
  | entry
  | callee
  /-- The type of a declaration or of what is created, or a part of a type name. -/
  | type
  | other

/-- The parts of a node with their places, in source order. -/
def Kind.places {α : Type} : Kind α → List (α × Place)
  | variableDeclaration _ typeName value _ =>
    typeName.toList.map (·, .type) ++ value.toList.map (·, .other)
  | variableDeclarationStatement declarations value =>
    (declarations.filterMap id).map (·, .entry) ++ value.toList.map (·, .other)
  | assignment operator target value => [(target, .target operator), (value, .other)]
  | unaryOperation operator _ operand => [(operand, .operand operator)]
  | functionCall callee arguments => (callee, .callee) :: arguments.map (·, .other)
  | functionCallOptions callee options => (callee, .callee) :: options.map (·, .other)
  | newExpression typeName => [(typeName, .type)]
  | memberAccess object _ => [(object, .base)]
  | indexAccess base index => (base, .base) :: index.toList.map (·, .other)
  | indexRangeAccess base start stop =>
    (base, .base) :: (start.toList ++ stop.toList).map (·, .other)
  | tupleExpression components _ => (components.filterMap id).map (·, .component)
  | mapping key value => [(key, .type), (value, .type)]
  | arrayTypeName element length => (element, .type) :: length.toList.map (·, .type)
  | kind => kind.children.map (·, .other)

/-- Every part has its place. -/
theorem Kind.map_fst_places {α : Type} (k : Kind α) : k.places.map Prod.fst = k.children := by
  cases k <;> simp [places, children, Function.comp_def]

namespace Place

/-- Types are not visited, nor is a callee that is just a name. -/
def visits (place : Place) (part : Node) : Bool :=
  match place with
  | type => false
  | callee => !Access.isName part
  | _ => true

/-- What stands here is assigned. -/
def IsWritten : Place → Prop
  | target _ | entry => True
  | operand operator => operator = "++" ∨ operator = "--" ∨ operator = "delete"
  | _ => False

/-- What stands here is assigned without being read. -/
def IsOverwritten : Place → Prop
  | target operator => operator = "="
  | operand operator => operator = "delete"
  | entry => True
  | _ => False

/-- The way up from an occurrence leads through some places to one that is looked for. -/
def Leads (through goal : Place → Prop) (up : List Place) : Prop :=
  ∃ inner place outer, up = inner ++ place :: outer ∧ (∀ p ∈ inner, through p) ∧ goal place

/-- An occurrence with these places above it is written. -/
def Written (up : List Place) : Prop := Leads (fun p => p = component ∨ p = base) IsWritten up

/-- An occurrence with these places above it is written and not read. -/
def Overwritten (up : List Place) : Prop := Leads (fun p => p = component) IsOverwritten up

variable {through goal : Place → Prop} {p : Place} {up : List Place}

theorem not_leads_nil : ¬Leads through goal [] := by
  rintro ⟨inner, place, outer, h, -⟩
  simp at h

theorem leads_cons : Leads through goal (p :: up) ↔ goal p ∨ through p ∧ Leads through goal up := by
  constructor
  · rintro ⟨inner, place, outer, h, hinner, hgoal⟩
    cases inner with
    | nil =>
      obtain ⟨rfl, rfl⟩ := List.cons.inj h
      exact .inl hgoal
    | cons q inner =>
      obtain ⟨rfl, rfl⟩ := List.cons.inj h
      obtain ⟨hq, hinner⟩ := List.forall_mem_cons.mp hinner
      exact .inr ⟨hq, inner, place, outer, rfl, hinner, hgoal⟩
  · rintro (hgoal | ⟨hp, inner, place, outer, rfl, hinner, hgoal⟩)
    · exact ⟨[], p, up, rfl, List.forall_mem_nil _, hgoal⟩
    · exact ⟨p :: inner, place, outer, rfl, List.forall_mem_cons.mpr ⟨hp, hinner⟩, hgoal⟩

theorem written_cons :
    Written (p :: up) ↔ p.IsWritten ∨ (p = component ∨ p = base) ∧ Written up := leads_cons

theorem overwritten_cons :
    Overwritten (p :: up) ↔ p.IsOverwritten ∨ p = component ∧ Overwritten up := leads_cons

end Place

namespace Node

/-- A node occurs in another, with the places on the way up from it. -/
inductive Occurs : Node → List Place → Node → Prop
  | here : Occurs n [] n
  | inside : (part, place) ∈ n.kind.places → place.visits part = true → Occurs part up m →
    Occurs n (up ++ [place]) m

/-- A declaration of a variable with a name. -/
def Declares (m : Node) (x : String) : Prop :=
  x ≠ "" ∧ ∃ typeName value stateVariable,
    m.kind = .variableDeclaration x typeName value stateVariable

/-- An identifier other than those that are built in. -/
def Mentions (m : Node) (x : String) : Prop :=
  ∃ declaration, m.kind = .identifier x declaration ∧ ∀ d ∈ declaration, 0 ≤ d

end Node

/-! ## Accesses along the way -/

/-- The access that is made of a part in a place, from the access that is made of the whole. -/
def Place.access (place : Place) (whole : Access) : Access :=
  match place with
  | component => whole
  | base => whole.throughElement
  | target operator => .ofAssignment operator
  | operand operator => .ofUnary operator
  | entry => .write
  | callee | type | other => .read

namespace Access

variable {whole access : Access} {n m : Node} {x : String}

/-- The access that is made of an occurrence. -/
def along (whole : Access) (up : List Place) : Access := up.foldr Place.access whole

/-- The parts in some places that are visited, with the access made of each. -/
def ofPlaces (whole : Access) (places : List (Node × Place)) : List (Node × Access) :=
  (places.filter fun p => p.2.visits p.1).map fun p => (p.1, p.2.access whole)

theorem mem_ofPlaces_iff {places : List (Node × Place)} {entry : Node × Access} :
    entry ∈ whole.ofPlaces places ↔
      ∃ part place, (part, place) ∈ places ∧ place.visits part = true ∧
        (part, place.access whole) = entry := by
  simp only [ofPlaces, List.mem_map, List.mem_filter, Prod.exists, and_assoc]

theorem callParts_eq (whole : Access) (callee : Node) (arguments : List Node) :
    callParts callee arguments =
      whole.ofPlaces ((callee, .callee) :: arguments.map (·, .other)) := by
  cases h : isName callee <;>
    simp [callParts, ofPlaces, h, Place.visits, Place.access, List.filter_map, Function.comp_def]

/-- What is visited of a node, and how, is up to the places. -/
theorem parts_eq (whole : Access) (n : Node) : whole.parts n = whole.ofPlaces n.kind.places := by
  obtain ⟨_, _, kind⟩ := n
  cases kind
  case functionCall | functionCallOptions => exact callParts_eq whole _ _
  case elementaryTypeNameExpression | elementaryTypeName | userDefinedTypeName | functionTypeName =>
    rfl
  all_goals
    simp [parts, ofPlaces, Kind.places, Place.visits, Place.access, Node.children, List.filter_map,
      Function.comp_def]

theorem along_concat (whole : Access) (up : List Place) (place : Place) :
    whole.along (up ++ [place]) = (place.access whole).along up := by
  rw [along, List.foldr_append]
  rfl

section

variable {field : Effects → Names} (hfield : ∀ a b, field (a.union b) = field a ∪ field b)
include hfield

/-- A node has its own effects and those of its parts. -/
theorem mem_effects_iff_parts (whole : Access) (n : Node) (x : String) :
    x ∈ field (whole.effects n) ↔
      x ∈ field (whole.own n) ∨ ∃ part place, (part, place) ∈ n.kind.places ∧
        place.visits part = true ∧ x ∈ field ((place.access whole).effects part) := by
  have hfold : field (whole.effects n) =
      (whole.parts n).foldl (fun total part => total ∪ field (part.2.effects part.1))
        (field (whole.own n)) := by
    rw [effects_eq]
    exact (List.foldl_hom field fun total part => (hfield total (part.2.effects part.1)).symm).symm
  rw [hfold, TreeSet.mem_foldl_union, parts_eq]
  refine or_congr_right ⟨?_, ?_⟩
  · rintro ⟨_, hmem, hx⟩
    obtain ⟨part, place, hplace, hvisits, rfl⟩ := mem_ofPlaces_iff.mp hmem
    exact ⟨part, place, hplace, hvisits, hx⟩
  · rintro ⟨part, place, hplace, hvisits, hx⟩
    exact ⟨_, mem_ofPlaces_iff.mpr ⟨part, place, hplace, hvisits, rfl⟩, hx⟩

/-- **Effects are those of the occurrences**, each with the access that its places make of it. -/
theorem mem_effects_iff (whole : Access) (n : Node) (x : String) :
    x ∈ field (whole.effects n) ↔ ∃ up m, n.Occurs up m ∧ x ∈ field ((whole.along up).own m) := by
  induction hsize : sizeOf n using Nat.strongRecOn generalizing whole n with
  | ind size ih =>
    have hpart : ∀ {part place}, (part, place) ∈ n.kind.places →
        (x ∈ field ((place.access whole).effects part) ↔
        ∃ up m, part.Occurs up m ∧ x ∈ field (((place.access whole).along up).own m)) := by
      intro part place hplace
      have hchild : part ∈ n.children := by
        rw [Node.children, ← n.kind.map_fst_places]
        exact List.mem_map_of_mem hplace
      exact ih _ (hsize ▸ Node.sizeOf_lt_of_mem_children hchild) (place.access whole) part rfl
    rw [mem_effects_iff_parts hfield]
    constructor
    · rintro (hown | ⟨part, place, hplace, hvisits, hx⟩)
      · exact ⟨[], n, .here, hown⟩
      · obtain ⟨up, m, hoccurs, hx⟩ := (hpart hplace).mp hx
        exact ⟨up ++ [place], m, .inside hplace hvisits hoccurs, by rwa [along_concat]⟩
    · rintro ⟨_, m, hoccurs, hx⟩
      cases hoccurs with
      | here => exact .inl hx
      | @inside part place up _ _ hplace hvisits hoccurs =>
        rw [along_concat] at hx
        exact .inr ⟨part, place, hplace, hvisits, (hpart hplace).mpr ⟨up, m, hoccurs, hx⟩⟩

end

/-! ## Written and overwritten occurrences -/

theorem throughElement_eq_read_iff : access.throughElement = read ↔ access = read := by
  cases access <;> simp [throughElement]

theorem throughElement_ne_write (access : Access) : access.throughElement ≠ write := by
  cases access <;> simp [throughElement]

theorem ofAssignment_ne_read (operator : String) : ofAssignment operator ≠ read := by
  unfold ofAssignment
  split <;> simp

theorem ofAssignment_eq_write_iff {operator : String} :
    ofAssignment operator = write ↔ operator = "=" := by
  simp [ofAssignment]

theorem ofUnary_eq_read_iff {operator : String} :
    ofUnary operator = read ↔ ¬(operator = "++" ∨ operator = "--" ∨ operator = "delete") := by
  unfold ofUnary
  grind

theorem ofUnary_eq_write_iff {operator : String} :
    ofUnary operator = write ↔ operator = "delete" := by
  unfold ofUnary
  grind

theorem along_ne_read_iff (up : List Place) : read.along up ≠ read ↔ Place.Written up := by
  induction up with
  | nil => simp [along, Place.Written, Place.not_leads_nil]
  | cons p up ih =>
    have hstep : read.along (p :: up) = p.access (read.along up) := rfl
    rw [hstep, Place.written_cons, ← ih]
    cases p <;> simp [Place.access, Place.IsWritten, throughElement_eq_read_iff,
      ofAssignment_ne_read, ofUnary_eq_read_iff, Decidable.or_iff_not_imp_left]

theorem along_eq_write_iff (up : List Place) : read.along up = write ↔ Place.Overwritten up := by
  induction up with
  | nil => simp [along, Place.Overwritten, Place.not_leads_nil]
  | cons p up ih =>
    have hstep : read.along (p :: up) = p.access (read.along up) := rfl
    rw [hstep, Place.overwritten_cons, ← ih]
    cases p <;> simp [Place.access, Place.IsOverwritten, throughElement_ne_write,
      ofAssignment_eq_write_iff, ofUnary_eq_write_iff]

/-- What a node itself defines and uses: a name that it mentions, a variable that it declares, or
nothing. -/
theorem own_cases (access : Access) (m : Node) :
    (∃ name, access.own m = access.ofName name ∧ ∀ x, (m.Mentions x ↔ name = x) ∧ ¬m.Declares x) ∨
    (∃ name, access.own m = ⟨{name}, ∅⟩ ∧ ∀ x, (m.Declares x ↔ name = x) ∧ ¬m.Mentions x) ∨
    (access.own m = .none ∧ ∀ x, ¬m.Mentions x ∧ ¬m.Declares x) := by
  obtain ⟨id, src, kind⟩ := m
  cases kind
  case identifier name declaration =>
    have hbuiltin : declaration.any (· < 0) = true ↔ ¬∀ d ∈ declaration, 0 ≤ d := by
      cases declaration <;> simp [Int64.not_le]
    by_cases h : ∀ d ∈ declaration, 0 ≤ d
    · have hown : access.own ⟨id, src, .identifier name declaration⟩ = access.ofName name :=
        if_neg fun hany => hbuiltin.mp hany h
      exact .inl ⟨name, hown, by simpa [Node.Mentions, Node.Declares] using h⟩
    · have hown : access.own ⟨id, src, .identifier name declaration⟩ = .none :=
        if_pos (hbuiltin.mpr h)
      exact .inr (.inr ⟨hown, by simpa [Node.Mentions, Node.Declares] using h⟩)
  case variableDeclaration name typeName value stateVariable =>
    by_cases h : name = ""
    · have hown :
        access.own ⟨id, src, .variableDeclaration name typeName value stateVariable⟩ = .none :=
        if_pos (by simp [h])
      exact .inr (.inr ⟨hown, by simp [Node.Mentions, Node.Declares, h, eq_comm]⟩)
    · have hown : access.own ⟨id, src, .variableDeclaration name typeName value stateVariable⟩ =
        ⟨{name}, ∅⟩ :=
        if_neg (by simp [h])
      refine .inr (.inl ⟨name, hown, fun x => ?_⟩)
      simp only [Node.Mentions, Node.Declares]
      grind
  all_goals exact .inr (.inr ⟨rfl, by simp [Node.Mentions, Node.Declares]⟩)

theorem mem_defs_own_iff :
    x ∈ (access.own m).defs ↔ m.Declares x ∨ m.Mentions x ∧ access ≠ read := by
  rcases access.own_cases m with ⟨name, hown, hiff⟩ | ⟨name, hown, hiff⟩ | ⟨hown, hiff⟩
  · rw [hown]
    cases access <;> simp [ofName, hiff]
  · simp [hown, hiff]
  · simp [hown, hiff, Effects.none]

theorem mem_uses_own_iff : x ∈ (access.own m).uses ↔ m.Mentions x ∧ access ≠ write := by
  rcases access.own_cases m with ⟨name, hown, hiff⟩ | ⟨name, hown, hiff⟩ | ⟨hown, hiff⟩
  · rw [hown]
    cases access <;> simp [ofName, hiff]
  · simp [hown, hiff]
  · simp [hown, hiff, Effects.none]

end Access

/-- **What is defined and what is used.** A variable is defined by a node if its declaration occurs
in the node or an identifier that mentions it is written there, and it is used if such an identifier
occurs and is not just overwritten. -/
theorem Node.mem_effects_iff_occurs (n : Node) (x : String) :
    (x ∈ n.effects.defs ↔ (∃ up m, n.Occurs up m ∧ m.Declares x) ∨
      ∃ up m, n.Occurs up m ∧ m.Mentions x ∧ Place.Written up) ∧
    (x ∈ n.effects.uses ↔ ∃ up m, n.Occurs up m ∧ m.Mentions x ∧ ¬Place.Overwritten up) := by
  constructor
  · rw [effects, Access.mem_effects_iff (fun _ _ => rfl)]
    simp only [Access.mem_defs_own_iff, Access.along_ne_read_iff, and_or_left, exists_or]
  · rw [effects, Access.mem_effects_iff (fun _ _ => rfl)]
    simp only [Access.mem_uses_own_iff, ne_eq, Access.along_eq_write_iff]

/-! ## Collecting with a stack -/

instance Effects.union_associative : Std.Associative Effects.union where
  assoc a b c := congrArg₂ mk (sup_assoc a.defs b.defs c.defs) (sup_assoc a.uses b.uses c.uses)

theorem Effects.union_comm (a b : Effects) : a.union b = b.union a :=
  congrArg₂ mk (sup_comm a.defs b.defs) (sup_comm a.uses b.uses)

namespace Access

/-- What a loop has collected in the end, from the nodes still to visit and what it has collected so
far; the next node is on top of the stack, at its end. -/
inductive Collects : List (Node × Access) → Effects → Effects → Prop
  | done {total : Effects} : Collects [] total total
  | next {stack : List (Node × Access)} {n : Node} {access : Access} {total result : Effects} :
    Collects (stack ++ access.parts n) (total.union (access.own n)) result →
      Collects (stack ++ [(n, access)]) total result

/-- What has been collected after all nodes of a stack. -/
def collected (stack : List (Node × Access)) (total : Effects) : Effects :=
  (stack.map fun part => part.2.effects part.1).foldl .union total

variable {stack parts : List (Node × Access)} {total result : Effects}

theorem collected_append :
    collected (stack ++ parts) total = collected parts (collected stack total) := by
  rw [collected, List.map_append, List.foldl_append]
  rfl

theorem collected_union_right (more : Effects) :
    collected stack (total.union more) = total.union (collected stack more) :=
  List.foldl_assoc

theorem collected_union_left (more : Effects) :
    collected stack (total.union more) = (collected stack total).union more := by
  rw [total.union_comm, collected_union_right, Effects.union_comm]

theorem effects_eq_collected (access : Access) (n : Node) :
    access.effects n = collected (access.parts n) (access.own n) := by
  rw [effects_eq, collected, List.foldl_map]

theorem collected_push (n : Node) (access : Access) : collected (stack ++ [(n, access)]) total =
    collected (stack ++ access.parts n) (total.union (access.own n)) := by
  calc collected (stack ++ [(n, access)]) total
    _ = (collected stack total).union (access.effects n) := collected_append
    _ = collected (access.parts n) ((collected stack total).union (access.own n)) := by
      rw [effects_eq_collected, ← collected_union_right]
    _ = collected (stack ++ access.parts n) (total.union (access.own n)) := by
      rw [← collected_union_left, ← collected_append]

theorem Collects.eq_collected (h : Collects stack total result) :
    result = collected stack total := by
  induction h with
  | done => rfl
  | next _ ih => rw [ih, collected_push]

/-- The loop gets down to a stack again if it gets rid of each node that is put on it. -/
theorem Collects.append (h : Collects stack (collected parts total) result)
    (hparts : ∀ n access, (n, access) ∈ parts → ∀ {stack total},
      Collects stack (total.union (access.effects n)) result →
        Collects (stack ++ [(n, access)]) total result) :
    Collects (stack ++ parts) total result := by
  induction parts generalizing stack with
  | nil => simpa [collected] using h
  | cons part parts ih =>
    rw [← List.singleton_append, ← List.append_assoc]
    refine ih (hparts part.1 part.2 List.mem_cons_self ?_) fun n access hmem =>
      hparts n access (List.mem_cons_of_mem part hmem)
    rw [← collected_union_left]
    exact h

/-- The loop gets rid of every node: its parts are smaller. -/
theorem Collects.concat (n : Node) (access : Access)
    (h : Collects stack (total.union (access.effects n)) result) :
    Collects (stack ++ [(n, access)]) total result := by
  induction hsize : sizeOf n using Nat.strongRecOn generalizing n access stack total with
  | ind size ih =>
    rw [effects_eq_collected, ← collected_union_right] at h
    refine .next (h.append fun part partAccess hpart {_ _} hrest => ?_)
    have hchild := mem_children_of_mem_parts hpart
    exact ih _ (hsize ▸ Node.sizeOf_lt_of_mem_children hchild) part partAccess hrest rfl

end Access

/-- **The loop ends with the effects of the node** that it starts from. -/
theorem Node.collects_iff {n : Node} {result : Effects} :
    Access.Collects [(n, .read)] .none result ↔ result = n.effects := by
  have hnone : Effects.none.union n.effects = n.effects :=
    congrArg₂ Effects.mk (bot_sup_eq n.effects.defs) (bot_sup_eq n.effects.uses)
  constructor
  · intro h
    exact h.eq_collected.trans hnone
  · rintro rfl
    have hdone : Access.Collects [] (Effects.none.union n.effects) n.effects := by
      rw [hnone]
      exact .done
    exact hdone.concat n .read

end ContractFlow
