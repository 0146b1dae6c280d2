import ContractFlow.CallGraph
import ContractFlow.Proofs.Occurrences

/-!
What parentheses do to the definitions, uses and call sites of a statement or expression. The node
`n'` is `n` with `m'` in the place of `m` if the nodes on the way up from the one and from the other
are the same but for this part (`Node.Exchanged`); the types of these nodes and the places in them
are kept.

Parentheses are a tuple of one component, which passes on the access that is made of it. Around a
callee they still show: a callee that is just a name is not visited and names the target of the
call, and in parentheses it is visited and names nothing. A name that is built in is no use even
then, and nothing is visited inside types. What this changes in the call is handed on by the nodes
above it (`Node.AddsUses.exchanged`, `Node.Loses.exchanged`), and nothing else changes. Main
statement: `Node.parenthesized_transparent`.
-/

namespace ContractFlow

namespace Kind

variable {α β : Type}

/-- The same kind of node with other parts. -/
def map (f : α → β) : Kind α → Kind β
  | sourceUnit nodes => .sourceUnit (nodes.map f)
  | pragmaDirective literals => .pragmaDirective literals
  | importDirective file => .importDirective file
  | contractDefinition c => .contractDefinition { c with nodes := c.nodes.map f }
  | functionDefinition d => .functionDefinition { d with
      parameters := d.parameters.map f
      returnParameters := d.returnParameters.map f
      body := d.body.map f }
  | modifierDefinition name parameters body =>
    .modifierDefinition name (parameters.map f) (body.map f)
  | eventDefinition name parameters => .eventDefinition name (parameters.map f)
  | errorDefinition name parameters => .errorDefinition name (parameters.map f)
  | structDefinition name members => .structDefinition name (members.map f)
  | enumDefinition name members => .enumDefinition name members
  | userDefinedValueTypeDefinition name => .userDefinedValueTypeDefinition name
  | usingForDirective => .usingForDirective
  | variableDeclaration name typeName value stateVariable =>
    .variableDeclaration name (typeName.map f) (value.map f) stateVariable
  | block statements => .block (statements.map f)
  | uncheckedBlock statements => .uncheckedBlock (statements.map f)
  | variableDeclarationStatement declarations value =>
    .variableDeclarationStatement (declarations.map (·.map f)) (value.map f)
  | expressionStatement expression => .expressionStatement (f expression)
  | ifStatement condition trueBody falseBody =>
    .ifStatement (f condition) (trueBody.map f) (falseBody.map f)
  | whileStatement condition body => .whileStatement (f condition) (f body)
  | doWhileStatement condition body => .doWhileStatement (f condition) (f body)
  | forStatement initialization condition step body =>
    .forStatement (initialization.map f) (condition.map f) (step.map f) (f body)
  | returnStatement expression => .returnStatement (expression.map f)
  | breakStatement => .breakStatement
  | continueStatement => .continueStatement
  | placeholderStatement => .placeholderStatement
  | emitStatement call => .emitStatement (f call)
  | revertStatement call => .revertStatement (f call)
  | inlineAssembly => .inlineAssembly
  | tryStatement call clauses => .tryStatement (f call) (clauses.map f)
  | tryCatchClause errorName parameters handler =>
    .tryCatchClause errorName (parameters.map f) (f handler)
  | binaryOperation operator left right => .binaryOperation operator (f left) (f right)
  | unaryOperation operator prefixed operand => .unaryOperation operator prefixed (f operand)
  | assignment operator target value => .assignment operator (f target) (f value)
  | identifier name declaration => .identifier name declaration
  | literal kind value => .literal kind value
  | functionCall callee arguments => .functionCall (f callee) (arguments.map f)
  | functionCallOptions callee options => .functionCallOptions (f callee) (options.map f)
  | newExpression typeName => .newExpression (f typeName)
  | memberAccess object member => .memberAccess (f object) member
  | indexAccess base index => .indexAccess (f base) (index.map f)
  | indexRangeAccess base start stop => .indexRangeAccess (f base) (start.map f) (stop.map f)
  | tupleExpression components isInlineArray =>
    .tupleExpression (components.map (·.map f)) isInlineArray
  | conditional condition onTrue onFalse => .conditional (f condition) (f onTrue) (f onFalse)
  | elementaryTypeNameExpression typeName => .elementaryTypeNameExpression typeName
  | elementaryTypeName name => .elementaryTypeName name
  | userDefinedTypeName name => .userDefinedTypeName name
  | mapping key value => .mapping (f key) (f value)
  | arrayTypeName element length => .arrayTypeName (f element) (length.map f)
  | functionTypeName => .functionTypeName

/-- The same kind of node without its parts. -/
def shape (k : Kind α) : Kind Unit := k.map fun _ => ()

/-- Two nodes are the same but for the part in one place, which is `m` in the one and `m'` in the
other. -/
structure SameBut (k : Kind α) (place : Place) (m m' : α) (k' : Kind α) : Prop where
  shape : k.shape = k'.shape
  places : ∃ before after, k.places = before ++ (m, place) :: after ∧
    k'.places = before ++ (m', place) :: after

theorem SameBut.functionCall (m m' : α) (arguments : List α) :
    (functionCall m arguments).SameBut .callee m m' (functionCall m' arguments) :=
  ⟨rfl, [], _, rfl, rfl⟩

theorem SameBut.functionCallOptions (m m' : α) (options : List α) :
    (functionCallOptions m options).SameBut .callee m m' (functionCallOptions m' options) :=
  ⟨rfl, [], _, rfl, rfl⟩

theorem SameBut.expressionStatement (m m' : α) :
    (expressionStatement m).SameBut .other m m' (expressionStatement m') :=
  ⟨rfl, [], _, rfl, rfl⟩

theorem SameBut.children {place : Place} {m m' : α} {k k' : Kind α} (h : k.SameBut place m m' k') :
    ∃ before after, k.children = before ++ m :: after ∧ k'.children = before ++ m' :: after := by
  obtain ⟨-, before, after, hk, hk'⟩ := h
  refine ⟨before.map Prod.fst, after.map Prod.fst, ?_, ?_⟩
  · rw [← map_fst_places, hk, List.map_append, List.map_cons]
  · rw [← map_fst_places, hk', List.map_append, List.map_cons]

end Kind

namespace Node

/-- The node `n'` is `n` with `m'` in the place of `m`. The way up from `m` to `n` leads through
places in nodes of some types. -/
inductive Exchanged : List (NodeType × Place) → Node → Node → Node → Node → Prop
  | here {n n' : Node} : Exchanged [] n n' n n'
  | inside {up : List (NodeType × Place)} {place : Place} {id : UInt64} {src : Span}
    {k k' : Kind Node}
    {m m' n n' : Node} : k.SameBut place m m' k' → Exchanged up ⟨id, src, k⟩ ⟨id, src, k'⟩ n n' →
      Exchanged ((k.type, place) :: up) m m' n n'

/-- A node in parentheses. -/
def parenthesized (id : UInt64) (src : Span) (e : Node) : Node :=
  ⟨id, src, .tupleExpression [some e] false⟩

end Node

namespace Access

/-- What a node itself defines and uses, from its shape. -/
def ownOfShape (access : Access) : Kind Unit → Effects
  | .identifier name declaration => if declaration.any (· < 0) then .none else access.ofName name
  | .variableDeclaration name .. => if name.isEmpty then .none else ⟨{name}, ∅⟩
  | _ => .none

theorem own_eq_ownOfShape (access : Access) (n : Node) :
    access.own n = access.ownOfShape n.kind.shape := by
  obtain ⟨id, src, kind⟩ := n
  cases kind <;> rfl

theorem isName_eq_false {n : Node} (h : n.children ≠ []) : isName n = false := by
  obtain ⟨id, src, kind⟩ := n
  cases kind with
  | identifier => exact absurd rfl h
  | _ => rfl

theorem isName_of_mentions {e : Node} {x : String} (h : e.Mentions x) : isName e = true := by
  obtain ⟨declaration, hkind, -⟩ := h
  rw [isName, hkind]

theorem not_declares_of_isName {e : Node} (h : isName e = true) (x : String) : ¬e.Declares x := by
  rintro ⟨-, typeName, value, stateVariable, hkind⟩
  rw [isName, hkind] at h
  cases h

/-- Just a name has no parts. -/
theorem effects_of_isName {e : Node} (h : isName e = true) (access : Access) :
    access.effects e = access.own e := by
  obtain ⟨id, src, kind⟩ := e
  cases kind <;> cases h
  rw [effects_eq]
  rfl

section

variable {field : Effects → Names} (hfield : ∀ a b, field (a.union b) = field a ∪ field b)
include hfield

/-- The effects of a node are those of one part, if it is visited, and those of the rest. -/
theorem mem_effects_iff_part {n m : Node} {place : Place} {before after : List (Node × Place)}
    (h : n.kind.places = before ++ (m, place) :: after) (whole : Access) (x : String) :
    x ∈ field (whole.effects n) ↔ (x ∈ field (whole.own n) ∨ ∃ part p, (part, p) ∈ before ++ after ∧
      p.visits part = true ∧ x ∈ field ((p.access whole).effects part)) ∨
      place.visits m = true ∧ x ∈ field ((place.access whole).effects m) := by
  rw [mem_effects_iff_parts hfield, h]
  grind

/-- Nodes that are the same but for one part have the same effects, if the part has. -/
theorem mem_effects_sameBut {place : Place} {m m' : Node} {k k' : Kind Node}
    (h : k.SameBut place m m' k')
    {id : UInt64} {src : Span} {whole : Access} {x : String} {p : Prop}
    (hpart : place.visits m' = true ∧ x ∈ field ((place.access whole).effects m') ↔
      place.visits m = true ∧ x ∈ field ((place.access whole).effects m) ∨ p) :
    x ∈ field (whole.effects ⟨id, src, k'⟩) ↔ x ∈ field (whole.effects ⟨id, src, k⟩) ∨ p := by
  obtain ⟨hshape, before, after, hk, hk'⟩ := h
  have hown : whole.own ⟨id, src, k⟩ = whole.own ⟨id, src, k'⟩ := by
    rw [own_eq_ownOfShape, own_eq_ownOfShape, hshape]
  rw [mem_effects_iff_part hfield (n := ⟨id, src, k⟩) hk,
    mem_effects_iff_part hfield (n := ⟨id, src, k'⟩) hk', hown, hpart, or_assoc (c := p)]

end

end Access

/-! ## Definitions and uses -/

namespace Node

/-- However two nodes are accessed, they define the same, and the second uses what the first does
and some more names. -/
structure AddsUses (more : String → Prop) (m m' : Node) : Prop where
  defs : ∀ (access : Access) (x : String), x ∈ (access.effects m').defs ↔
    x ∈ (access.effects m).defs
  uses : ∀ (access : Access) (x : String), x ∈ (access.effects m').uses ↔
    x ∈ (access.effects m).uses ∨ more x

variable {more more' : String → Prop} {m m' n n' : Node} {up : List (NodeType × Place)}

theorem AddsUses.congr (h : AddsUses more m m') (hmore : ∀ x, more x ↔ more' x) :
    AddsUses more' m m' :=
  ⟨h.defs, fun access x => (h.uses access x).trans (or_congr_right (hmore x))⟩

section

variable {place : Place} {k k' : Kind Node} {id : UInt64} {src : Span}

theorem addsUses_of_sameBut (hk : k.SameBut place m m' k')
    (hdefs : ∀ (access : Access) (x : String), place.visits m' = true ∧
      x ∈ ((place.access access).effects m').defs ↔
      place.visits m = true ∧ x ∈ ((place.access access).effects m).defs)
    (huses : ∀ (access : Access) (x : String), place.visits m' = true ∧
      x ∈ ((place.access access).effects m').uses ↔
      place.visits m = true ∧ x ∈ ((place.access access).effects m).uses ∨ more x) :
    AddsUses more ⟨id, src, k⟩ ⟨id, src, k'⟩ := by
  constructor
  · intro access x
    have hfalse : x ∈ (access.effects ⟨id, src, k'⟩).defs ↔
      x ∈ (access.effects ⟨id, src, k⟩).defs ∨ False :=
      Access.mem_effects_sameBut (fun _ _ => rfl) hk (by rw [hdefs, or_false])
    rwa [or_false] at hfalse
  · intro access x
    exact Access.mem_effects_sameBut (fun _ _ => rfl) hk (huses access x)

/-- A node that is not just a name is visited in all places but types. -/
theorem AddsUses.inside (h : AddsUses more m m') (hm : Access.isName m = false)
    (hm' : Access.isName m' = false)
    (hk : k.SameBut place m m' k') : AddsUses (fun x => place ≠ .type ∧ more x) ⟨id, src, k⟩
      ⟨id, src, k'⟩ := by
  have hvisits {part : Node} (hpart : Access.isName part = false) : place.visits part = true ↔
      place ≠ .type := by
    cases place <;> simp [Place.visits, hpart]
  apply addsUses_of_sameBut hk
  · intro access x
    rw [hvisits hm, hvisits hm', h.defs]
  · intro access x
    rw [hvisits hm, hvisits hm', h.uses, and_or_left]

/-- Parentheses by themselves change nothing. -/
theorem addsUses_parenthesized (id : UInt64) (src : Span) (e : Node) :
    AddsUses (fun _ => False) e (e.parenthesized id src) := by
  have hplaces : (e.parenthesized id src).kind.places = [] ++ (e, .component) :: [] := rfl
  have hown (access : Access) : access.own (e.parenthesized id src) = .none := rfl
  constructor
  · intro access x
    rw [Access.mem_effects_iff_part (fun _ _ => rfl) hplaces, hown]
    simp [Effects.none, Place.visits, Place.access]
  · intro access x
    rw [Access.mem_effects_iff_part (fun _ _ => rfl) hplaces, hown]
    simp [Effects.none, Place.visits, Place.access]

/-- A callee that is just a name is not visited, but it is when it stands in parentheses. -/
theorem addsUses_inside_parenthesized {id' : UInt64} {src' : Span} {e : Node}
    (hk : k.SameBut place e (e.parenthesized id' src') k') :
    AddsUses (fun x => place = .callee ∧ e.Mentions x) ⟨id, src, k⟩ ⟨id, src, k'⟩ := by
  have hsame := addsUses_parenthesized id' src' e
  by_cases hcallee : place = .callee ∧ Access.isName e = true
  · obtain ⟨rfl, hname⟩ := hcallee
    have hskipped : Place.callee.visits e = false := by simp [Place.visits, hname]
    have hvisited : Place.callee.visits (e.parenthesized id' src') = true := rfl
    apply addsUses_of_sameBut hk
    · intro access x
      rw [hskipped, hvisited, hsame.defs, Access.effects_of_isName hname, Access.mem_defs_own_iff]
      simp [Place.access, Access.not_declares_of_isName hname]
    · intro access x
      rw [hskipped, hvisited, hsame.uses, Access.effects_of_isName hname, Access.mem_uses_own_iff]
      simp [Place.access]
  · have hvisits : place.visits (e.parenthesized id' src') = place.visits e := by
      cases place with
      | callee =>
        have hname : Access.isName e = false := by simpa using hcallee
        rw [Place.visits, Place.visits, hname]
        rfl
      | _ => rfl
    have hmore (x : String) : ¬(place = .callee ∧ e.Mentions x) :=
      fun h => hcallee ⟨h.1, Access.isName_of_mentions h.2⟩
    apply addsUses_of_sameBut hk
    · intro access x
      rw [hvisits, hsame.defs]
    · intro access x
      rw [hvisits, hsame.uses, or_false, iff_false_intro (hmore x), or_false]

end

theorem isName_of_sameBut {place : Place} {k k' : Kind Node} (id : UInt64) (src : Span)
    (hk : k.SameBut place m m' k') :
    Access.isName ⟨id, src, k⟩ = false ∧ Access.isName ⟨id, src, k'⟩ = false := by
  obtain ⟨before, after, hchildren, hchildren'⟩ := hk.children
  constructor
  · exact Access.isName_eq_false (by simp [Node.children, hchildren])
  · exact Access.isName_eq_false (by simp [Node.children, hchildren'])

/-- Uses are added all the way up, if it does not lead through a type. -/
theorem AddsUses.exchanged (h : AddsUses more m m') (hm : Access.isName m = false)
    (hm' : Access.isName m' = false) (hup : Exchanged up m m' n n') :
    AddsUses (fun x => (∀ step ∈ up, step.2 ≠ .type) ∧ more x) n n' := by
  induction hup generalizing more with
  | here => exact h.congr (by simp)
  | inside hk _ ih =>
    obtain ⟨hname, hname'⟩ := isName_of_sameBut _ _ hk
    refine (ih (h.inside hm hm' hk) hname hname').congr fun x => ?_
    rw [List.forall_mem_cons]
    grind

/-- What stands here is a callee, and the way up from the call does not lead through a type. -/
def IsVisitedCallee : List (NodeType × Place) → Prop
  | [] => False
  | (_, place) :: up => place = .callee ∧ ∀ step ∈ up, step.2 ≠ .type

theorem Exchanged.addsUses {id : UInt64} {src : Span} {e : Node}
    (hup : Exchanged up e (e.parenthesized id src) n n') :
    AddsUses (fun x => IsVisitedCallee up ∧ e.Mentions x) n n' := by
  cases hup with
  | here => exact (addsUses_parenthesized id src _).congr (by simp [IsVisitedCallee])
  | inside hk hup =>
    obtain ⟨hname, hname'⟩ := isName_of_sameBut _ _ hk
    refine ((addsUses_inside_parenthesized hk).exchanged hname hname' hup).congr fun x => ?_
    simp only [IsVisitedCallee]
    grind

end Node

/-! ## Calls -/

namespace Kind

variable {α : Type}

/-- What is called, or what call options are given for. -/
def callee? : Kind α → Option α
  | functionCall callee _ | functionCallOptions callee _ => some callee
  | _ => none

theorem type_shape (k : Kind α) : k.shape.type = k.type := by
  cases k <;> rfl

theorem callee?_shape (k : Kind α) : k.shape.callee? = k.callee?.map fun _ => () := by
  cases k <;> rfl

theorem type_of_callee? {k : Kind α} {callee : α} (h : k.callee? = some callee) :
    k.type = .functionCall ∨ k.type = .functionCallOptions := by
  cases k with
  | functionCall => exact .inl rfl
  | functionCallOptions => exact .inr rfl
  | _ => cases h

/-- The callee is the first part, and no other part stands in its place. -/
theorem places_of_callee? {k : Kind α} {callee : α} (h : k.callee? = some callee) :
    ∃ arguments : List α, k.places = (callee, .callee) :: arguments.map (·, .other) := by
  cases k with
  | functionCall _ arguments | functionCallOptions _ arguments =>
    cases h
    exact ⟨arguments, rfl⟩
  | _ => cases h

theorem ne_callee_of_mem_places {k : Kind α} (h : k.callee? = none) {part : α} {place : Place}
    (hplace : (part, place) ∈ k.places) : place ≠ .callee := by
  rintro rfl
  cases k with
  | functionCall | functionCallOptions => cases h
  | _ => simp [places] at hplace

/-- Nodes that are the same but for one part have the same callee, unless it is this part. -/
theorem SameBut.callee? {place : Place} {m m' : α} {k k' : Kind α} (h : k.SameBut place m m' k') :
    (place = .callee ∧ k.callee? = some m ∧ k'.callee? = some m') ∨
      (place ≠ .callee ∧ k.callee? = k'.callee?) := by
  obtain ⟨hshape, before, after, hk, hk'⟩ := h
  have hcallee : k.callee?.map (fun _ => ()) = k'.callee?.map fun _ => () := by
    rw [← callee?_shape, ← callee?_shape, hshape]
  cases hc : k.callee? with
  | none =>
    have hc' : k'.callee? = none := by simpa [hc] using hcallee
    have hmem : (m, place) ∈ k.places := by simp [hk]
    exact .inr ⟨ne_callee_of_mem_places hc hmem, hc'.symm⟩
  | some callee =>
    obtain ⟨callee', hc'⟩ : ∃ callee', k'.callee? = some callee' := by
      rw [hc] at hcallee
      exact (Option.map_eq_some_iff.mp hcallee.symm).imp fun _ => And.left
    obtain ⟨arguments, harguments⟩ := places_of_callee? hc
    obtain ⟨arguments', harguments'⟩ := places_of_callee? hc'
    rw [harguments] at hk
    rw [harguments'] at hk'
    cases before with
    | nil =>
      obtain ⟨hm, hplace⟩ := Prod.mk.inj (List.cons.inj hk).1
      obtain ⟨hm', -⟩ := Prod.mk.inj (List.cons.inj hk').1
      exact .inl ⟨hplace.symm, by rw [hm], by rw [hc', hm']⟩
    | cons first before =>
      obtain ⟨hfirst, hrest⟩ := List.cons.inj hk
      have hsame : callee = callee' := (Prod.mk.inj (hfirst.trans (List.cons.inj hk').1.symm)).1
      have hmem : (m, place) ∈ arguments.map (·, Place.other) := by simp [hrest]
      obtain ⟨_, -, hother⟩ := List.mem_map.mp hmem
      cases hother
      exact .inr ⟨by simp, by rw [hc', hsame]⟩

end Kind

namespace Node

theorem callSites_eq (n : Node) :
    n.callSites = n.callTarget?.toList ++ n.children.flatMap callSites := by
  have hcallSites : (fun part : Node => part.descendants.filterMap callTarget?) = callSites := rfl
  rw [callSites, descendants_eq, List.filterMap_cons, List.filterMap_flatMap, hcallSites]
  cases n.callTarget? <;> rfl

theorem callTarget?_eq (n : Node) :
    n.callTarget? = if n.type = .functionCall then n.kind.callee?.bind calleeName? else none := by
  obtain ⟨id, src, kind⟩ := n
  cases kind <;> rfl

/-- The name that a node goes by as a callee, if it has no call options. -/
def ownName? : Kind Unit → Option String
  | .identifier name _ => some name
  | .memberAccess _ member => some member
  | _ => none

theorem calleeName?_eq (n : Node) : n.calleeName? =
    if n.type = .functionCallOptions then n.kind.callee?.bind calleeName?
    else ownName? n.kind.shape := by
  obtain ⟨id, src, kind⟩ := n
  cases kind <;> simp [calleeName?, ownName?, Node.type, Kind.type, Kind.callee?,
    Kind.shape, Kind.map]

variable {m m' n n' : Node} {up : List (NodeType × Place)} {place : Place} {k k' : Kind Node}

/-- A callee goes by the same name, if the part that is exchanged does. -/
theorem names_of_sameBut (id : UInt64) (src : Span) (hk : k.SameBut place m m' k')
    (h : place = .callee → m.calleeName? = m'.calleeName?) :
    (⟨id, src, k⟩ : Node).calleeName? = (⟨id, src, k'⟩ : Node).calleeName? ∧
      (⟨id, src, k⟩ : Node).callTarget? = (⟨id, src, k'⟩ : Node).callTarget? := by
  have htype : k.type = k'.type := by rw [← k.type_shape, ← k'.type_shape, hk.shape]
  have hcallee : k.callee?.bind calleeName? = k'.callee?.bind calleeName? := by
    rcases hk.callee? with ⟨hplace, hm, hm'⟩ | ⟨-, hsame⟩
    · rw [hm, hm', Option.bind_some, Option.bind_some, h hplace]
    · rw [hsame]
  constructor
  · rw [calleeName?_eq, calleeName?_eq, Node.type, Node.type, htype, hcallee, hk.shape]
  · rw [callTarget?_eq, callTarget?_eq, Node.type, Node.type, htype, hcallee]

/-- A list without one of its elements, or the same list. -/
def Loses (lost : Option String) (l l' : List String) : Prop :=
  ∃ before after, l = before ++ lost.toList ++ after ∧ l' = before ++ after

theorem Loses.refl (l : List String) : Loses none l l := ⟨l, [], by simp, by simp⟩

theorem Loses.between {lost : Option String} {l l' : List String} (h : Loses lost l l')
    (u w : List String) :
    Loses lost (u ++ l ++ w) (u ++ l' ++ w) := by
  obtain ⟨before, after, rfl, rfl⟩ := h
  exact ⟨u ++ before, after ++ w, by simp, by simp⟩

theorem callSites_of_sameBut (id : UInt64) (src : Span) (hk : k.SameBut place m m' k') :
    ∃ before after,
    (⟨id, src, k⟩ : Node).callSites =
      (⟨id, src, k⟩ : Node).callTarget?.toList ++ (before ++ m.callSites ++ after) ∧
    (⟨id, src, k'⟩ : Node).callSites =
      (⟨id, src, k'⟩ : Node).callTarget?.toList ++ (before ++ m'.callSites ++ after) := by
  obtain ⟨before, after, hchildren, hchildren'⟩ := hk.children
  refine ⟨before.flatMap callSites, after.flatMap callSites, ?_, ?_⟩
  · rw [callSites_eq, Node.children, hchildren, List.flatMap_append, List.flatMap_cons,
      List.append_assoc]
  · rw [callSites_eq, Node.children, hchildren', List.flatMap_append, List.flatMap_cons,
      List.append_assoc]

/-- A call site that is lost in a part is lost all the way up, and no other. -/
theorem Loses.exchanged {lost : Option String} (h : Loses lost m.callSites m'.callSites)
    (hname : m.calleeName? = m'.calleeName?) (hup : Exchanged up m m' n n') :
    Loses lost n.callSites n'.callSites := by
  induction hup with
  | here => exact h
  | inside hk _ ih =>
    obtain ⟨hnames, htargets⟩ := names_of_sameBut _ _ hk fun _ => hname
    obtain ⟨before, after, hsites, hsites'⟩ := callSites_of_sameBut _ _ hk
    refine ih ?_ hnames
    rw [hsites, hsites', htargets]
    simpa using h.between (_ ++ before) after

/-- What stands here is called, possibly with call options. -/
def IsCalled : List (NodeType × Place) → Bool
  | (.functionCall, .callee) :: _ => true
  | (.functionCallOptions, .callee) :: up => IsCalled up
  | _ => false

theorem isCalled_of_ne (type : NodeType) (h : place ≠ .callee) :
    IsCalled ((type, place) :: up) = false := by
  cases place with
  | callee => exact absurd rfl h
  | _ => cases type <;> rfl

/-- A call goes by its callee's name, but a callee that is a call has no name. -/
theorem names_of_functionCall {n callee : Node} (htype : n.type = .functionCall)
    (h : n.kind.callee? = some callee) :
    n.callTarget? = callee.calleeName? ∧ n.calleeName? = none := by
  obtain ⟨id, src, kind⟩ := n
  cases kind <;> cases htype
  cases h
  exact ⟨rfl, by rw [calleeName?_eq]; rfl⟩

/-- Call options are no call, but a callee with them goes by the name it has without them. -/
theorem names_of_functionCallOptions {n callee : Node} (htype : n.type = .functionCallOptions)
    (h : n.kind.callee? = some callee) : n.callTarget? = none ∧
      n.calleeName? = callee.calleeName? := by
  obtain ⟨id, src, kind⟩ := n
  cases kind <;> cases htype
  cases h
  exact ⟨rfl, by rw [calleeName?_eq]; rfl⟩

/-- A name that does not show any more is lost to the call that is made by it, if there is one. -/
theorem Exchanged.loses (hname : m'.calleeName? = none) (hsites : m.callSites = m'.callSites)
    (hup : Exchanged up m m' n n') :
    Loses (if IsCalled up then m.calleeName? else none) n.callSites n'.callSites := by
  induction hup with
  | here =>
    rw [hsites]
    exact .refl _
  | @inside up place id src k k' m m' n n' hk hup ih =>
    obtain ⟨before, after, hcalls, hcalls'⟩ := callSites_of_sameBut id src hk
    rcases hk.callee? with ⟨rfl, hm, hm'⟩ | ⟨hplace, -⟩
    · have htype : k'.type = k.type := by rw [← k.type_shape, ← k'.type_shape, hk.shape]
      rcases Kind.type_of_callee? hm with hcall | hoptions
      · -- The call has lost its target. It has no name itself, so nothing happens further up.
        obtain ⟨htarget, hnone⟩ := names_of_functionCall (n := ⟨id, src, k⟩) hcall hm
        obtain ⟨htarget', hnone'⟩ :=
          names_of_functionCall (n := ⟨id, src, k'⟩) (htype.trans hcall) hm'
        rw [hcall]
        refine Loses.exchanged ?_ (hnone.trans hnone'.symm) hup
        rw [hcalls, hcalls', htarget, htarget', hname, hsites]
        exact ⟨[], _, rfl, rfl⟩
      · -- The callee of a call further up has lost its name.
        obtain ⟨htarget, hsame⟩ := names_of_functionCallOptions (n := ⟨id, src, k⟩) hoptions hm
        obtain ⟨htarget', hsame'⟩ :=
          names_of_functionCallOptions (n := ⟨id, src, k'⟩) (htype.trans hoptions) hm'
        rw [hoptions, IsCalled, ← hsame]
        exact ih (hsame'.trans hname) (by rw [hcalls, hcalls', htarget, htarget', hsites])
    · obtain ⟨hnames, htargets⟩ := names_of_sameBut id src hk fun heq => absurd heq hplace
      rw [isCalled_of_ne k.type hplace]
      refine Loses.exchanged ?_ hnames hup
      rw [hcalls, hcalls', htargets, hsites]
      exact .refl _

theorem callSites_parenthesized (id : UInt64) (src : Span) (e : Node) :
    (e.parenthesized id src).callSites = e.callSites := by
  have hchildren : (e.parenthesized id src).children = [e] := rfl
  rw [callSites_eq, hchildren, List.flatMap_singleton]
  rfl

/-- **Parentheses.** They never change definitions. They add a use exactly if they are around a
callee that is just a name, other than a built-in one, and its call is not inside a type; and a call
site is lost exactly if they are around what is called and it has a name. -/
theorem parenthesized_transparent {id : UInt64} {src : Span} {e : Node}
    (hup : Exchanged up e (e.parenthesized id src) n n') :
    (∀ x, x ∈ n'.effects.defs ↔ x ∈ n.effects.defs) ∧
      (∀ x, x ∈ n'.effects.uses ↔ x ∈ n.effects.uses ∨ IsVisitedCallee up ∧ e.Mentions x) ∧
      Loses (if IsCalled up then e.calleeName? else none) n.callSites n'.callSites := by
  have hname : (e.parenthesized id src).calleeName? = none := by
    rw [calleeName?_eq]
    rfl
  exact ⟨hup.addsUses.defs .read, hup.addsUses.uses .read,
    hup.loses hname (callSites_parenthesized id src e).symm⟩

/-- The name `pay`. -/
def payName : Node := ⟨1, ⟨0, 3, 0⟩, .identifier "pay" none⟩

/-- The statement `pay{value: sum}(to);` with something in the place of `pay`. -/
def payment (callee : Node) : Node :=
  ⟨2, ⟨0, 20, 0⟩, .expressionStatement ⟨3, ⟨0, 19, 0⟩, .functionCall
    ⟨4, ⟨0, 15, 0⟩, .functionCallOptions callee [⟨5, ⟨11, 3, 0⟩, .identifier "sum" none⟩]⟩
    [⟨6, ⟨16, 2, 0⟩, .identifier "to" none⟩]⟩⟩

theorem exchanged_payment (callee callee' : Node) :
    Exchanged
      [(.functionCallOptions, .callee), (.functionCall, .callee), (.expressionStatement, .other)]
      callee callee' (payment callee) (payment callee') :=
  .inside (.functionCallOptions ..)
    (.inside (.functionCall ..) (.inside (.expressionStatement ..) .here))

theorem parenthesized_transparent_payment :
    Exchanged
      [(.functionCallOptions, .callee), (.functionCall, .callee), (.expressionStatement, .other)]
        payName (payName.parenthesized 7 ⟨0, 5, 0⟩) (payment payName)
          (payment (payName.parenthesized 7 ⟨0, 5, 0⟩)) ∧
      "pay" ∈ (payment (payName.parenthesized 7 ⟨0, 5, 0⟩)).effects.uses ∧
      Loses (some "pay") (payment payName).callSites
        (payment (payName.parenthesized 7 ⟨0, 5, 0⟩)).callSites := by
  have hup := exchanged_payment payName (payName.parenthesized 7 ⟨0, 5, 0⟩)
  obtain ⟨-, huses, hcalls⟩ := parenthesized_transparent hup
  refine ⟨hup, (huses "pay").mpr (.inr ⟨?_, none, rfl, ?_⟩), hcalls⟩
  · simp [IsVisitedCallee]
  · simp

/-- Parentheses around the name in `pay()` are seen by both analyses. -/
theorem parenthesized_seen :
    ∃ up n n', Exchanged up payName (payName.parenthesized 7 ⟨0, 5, 0⟩) n n' ∧
    (n.callSites = ["pay"] ∧ n'.callSites = []) ∧
      ("pay" ∉ n.effects.uses ∧ "pay" ∈ n'.effects.uses) :=
  ⟨_, ⟨3, ⟨0, 5, 0⟩, .functionCall payName []⟩,
    ⟨3, ⟨0, 5, 0⟩, .functionCall (payName.parenthesized 7 ⟨0, 5, 0⟩) []⟩,
    .inside (.functionCall ..) .here, by decide +kernel, by decide +kernel⟩

end Node

end ContractFlow
