import ContractFlow.Syntax.Node

/-!
Walking a syntax tree. The parts of a node are smaller than the node, so `Node.descendants` can be
defined by descending to all parts at once.
-/

namespace ContractFlow

private theorem sizeOf_lt_of_mem_filterMap {α : Type} [SizeOf α] {part : α}
    {slots : List (Option α)} (h : part ∈ slots.filterMap id) : sizeOf part < sizeOf slots := by
  have hmem : some part ∈ slots := by simpa using h
  have := List.sizeOf_lt_of_mem hmem
  simp only [Option.some.sizeOf_spec] at this
  omega

private theorem sizeOf_lt_of_mem_toList {α : Type} [SizeOf α] {part : α}
    {slot : Option α} (h : part ∈ slot.toList) : sizeOf part < sizeOf slot := by
  cases slot with
  | none => simp at h
  | some value =>
    simp only [Option.toList_some, List.mem_singleton] at h
    subst h
    simp

theorem Kind.sizeOf_lt_of_mem_children {α : Type} [SizeOf α] {k : Kind α} {part : α}
    (h : part ∈ k.children) : sizeOf part < sizeOf k := by
  have hlist {l : List α} (hl : part ∈ l) := List.sizeOf_lt_of_mem hl
  have hslots {l : List (Option α)} (hl : part ∈ l.filterMap id) :=
    sizeOf_lt_of_mem_filterMap hl
  have hslot {o : Option α} (ho : part ∈ o.toList) := sizeOf_lt_of_mem_toList ho
  delta children at h
  cases k
  case contractDefinition c =>
    cases c
    dsimp only at h
    have := hlist h
    simp only [contractDefinition.sizeOf_spec, ContractDefinition.mk.sizeOf_spec]
    omega
  case functionDefinition f =>
    cases f
    simp only [List.mem_append] at h
    simp only [functionDefinition.sizeOf_spec, FunctionDefinition.mk.sizeOf_spec]
    grind
  all_goals
    simp only [List.mem_append, List.mem_cons, List.not_mem_nil, or_false] at h
  all_goals
    simp
    grind

theorem Node.sizeOf_lt_of_mem_children {n part : Node} (h : part ∈ n.children) :
    sizeOf part < sizeOf n := by
  have := Kind.sizeOf_lt_of_mem_children h
  cases n
  simp only [Node.mk.sizeOf_spec] at this ⊢
  omega

namespace Node

/-- Every node of the tree under `n`, itself first, then the nodes under each part in turn. -/
def descendants (n : Node) : List Node :=
  n :: (n.children.attach.map fun part => part.val.descendants).flatten
termination_by sizeOf n
decreasing_by exact sizeOf_lt_of_mem_children part.property

theorem descendants_eq (n : Node) : n.descendants = n :: n.children.flatMap descendants := by
  rw [descendants]
  simp [List.flatMap]

end Node

end ContractFlow
