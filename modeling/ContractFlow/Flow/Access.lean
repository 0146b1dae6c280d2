import ContractFlow.Json.Value
import ContractFlow.Syntax.Traversal

/-!
The variables a statement or expression defines and uses. Each part of an expression is visited with
the access its context makes of it: the target of an assignment is written, the rest is read.
Writing an element or a member reads and writes the variable it belongs to. Names of callees,
members and types are no uses, nor are the names the language itself provides.
-/

namespace ContractFlow

/-- The names that are written and the names that are read before they are written. -/
structure Effects where
  defs : Names
  uses : Names
  deriving DecidableEq

namespace Effects

def none : Effects := ⟨∅, ∅⟩

/-- The effects of two parts whose order does not matter. -/
def union (a b : Effects) : Effects := ⟨a.defs ∪ b.defs, a.uses ∪ b.uses⟩

/-- The effects of `a` and then `b`. -/
def andThen (a b : Effects) : Effects := ⟨a.defs ∪ b.defs, a.uses ∪ (b.uses \ a.defs)⟩

end Effects

inductive Access where
  | read | write | readWrite
  deriving DecidableEq, Repr

namespace Access

/-- The access to the variable that an accessed element or member belongs to. -/
def throughElement : Access → Access
  | read => read
  | write | readWrite => readWrite

/-- The access that an assignment makes of its target. -/
def ofAssignment (operator : String) : Access :=
  if operator = "=" then write else readWrite

/-- The access that a unary operator makes of its operand. -/
def ofUnary (operator : String) : Access :=
  if operator = "++" ∨ operator = "--" then readWrite
  else if operator = "delete" then write
  else read

/-- What accessing a name defines and uses. -/
def ofName (access : Access) (name : String) : Effects :=
  match access with
  | read => ⟨∅, {name}⟩
  | write => ⟨{name}, ∅⟩
  | readWrite => ⟨{name}, {name}⟩

/-- What a node itself defines and uses, apart from its parts. -/
def own (access : Access) (n : Node) : Effects :=
  match n.kind with
  | .identifier name declaration =>
    if declaration.any (· < 0) then .none else access.ofName name
  | .variableDeclaration name .. => if name.isEmpty then .none else ⟨{name}, ∅⟩
  | _ => .none

def isName (n : Node) : Bool :=
  match n.kind with
  | .identifier .. => true
  | _ => false

/-- The parts of a call that are visited: its callee unless that is just a name, and its
arguments. -/
def callParts (callee : Node) (arguments : List Node) : List (Node × Access) :=
  (if isName callee then [] else [(callee, read)]) ++ arguments.map (·, read)

/-- The parts of a node that are visited, with the access made of each. -/
def parts (access : Access) (n : Node) : List (Node × Access) :=
  match n.kind with
  | .variableDeclaration _ _ value _ => value.toList.map (·, read)
  | .variableDeclarationStatement declarations value =>
    (declarations.filterMap id).map (·, write) ++ value.toList.map (·, read)
  | .assignment operator target value => [(target, ofAssignment operator), (value, read)]
  | .unaryOperation operator _ operand => [(operand, ofUnary operator)]
  | .indexAccess base index => (base, access.throughElement) :: index.toList.map (·, read)
  | .indexRangeAccess base start stop =>
    (base, access.throughElement) :: (start.toList ++ stop.toList).map (·, read)
  | .memberAccess object _ => [(object, access.throughElement)]
  | .tupleExpression components _ => (components.filterMap id).map (·, access)
  | .functionCall callee arguments => callParts callee arguments
  | .functionCallOptions callee options => callParts callee options
  | .newExpression _ | .elementaryTypeNameExpression _ | .elementaryTypeName _
  | .userDefinedTypeName _ | .mapping .. | .arrayTypeName .. | .functionTypeName => []
  | _ => n.children.map (·, read)

theorem mem_children_of_mem_callParts {callee : Node} {arguments : List Node}
    {part : Node × Access} (h : part ∈ callParts callee arguments) :
    part.1 ∈ callee :: arguments := by
  unfold callParts at h
  rcases List.mem_append.mp h with h | h
  · split at h
    · cases h
    · simp_all
  · obtain ⟨a, ha, rfl⟩ := List.mem_map.mp h
    exact List.mem_cons_of_mem _ ha

/-- What is visited is part of the node. -/
theorem mem_children_of_mem_parts {access : Access} {n : Node} {part : Node × Access}
    (h : part ∈ access.parts n) : part.1 ∈ n.children := by
  obtain ⟨_, _, kind⟩ := n
  delta parts Node.children at h
  delta Node.children Kind.children
  cases kind
  case functionCall | functionCallOptions => exact mem_children_of_mem_callParts h
  all_goals
    delta Kind.children at h
    dsimp only at h ⊢
    grind

/-- What is defined and used when a node is accessed in a given way. -/
def effects (access : Access) (n : Node) : Effects :=
  (access.parts n).attach.foldl (fun total part => total.union (part.val.2.effects part.val.1))
    (access.own n)
termination_by sizeOf n
decreasing_by exact Node.sizeOf_lt_of_mem_children (mem_children_of_mem_parts part.property)

theorem effects_eq (access : Access) (n : Node) :
    access.effects n =
      (access.parts n).foldl (fun total part => total.union (part.2.effects part.1))
        (access.own n) := by
  rw [effects]
  exact List.foldl_attach (l := access.parts n)
    (f := fun total part => total.union (part.2.effects part.1)) (b := access.own n)

end Access

/-- What a statement or expression defines and uses. -/
def Node.effects (n : Node) : Effects := Access.read.effects n

end ContractFlow
