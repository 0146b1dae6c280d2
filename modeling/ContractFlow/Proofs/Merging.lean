import ContractFlow.Proofs.LeastSolution

/-!
Statements that are merged into one node. A node keeps only what its statements define and what they
use before they define it, one after another. For the analyses of live variables and of reaching
definitions this is enough: effects act on states (`Effects.liveBefore`,
`Effects.definitionsAfter`), and the effects of two parts that follow each other act like the one
part and then the other.

Main statement: `FlowNode.transfer_merged`. What a node makes of a state is what its statements make
of it in turn.
-/

namespace ContractFlow

namespace Effects

/-- The variables that are live before something with these effects, from those that are live after
it. -/
def liveBefore (e : Effects) (after : Names) : Names := e.uses ∪ (after \ e.defs)

/-- The definitions that hold after something with these effects in a node, from those that hold
before it. -/
def definitionsAfter (e : Effects) (node : String) (before : Definitions) : Definitions :=
  before.except e.defs ∪ .ofNames e.defs node

variable {e a b : Effects} {after : Names} {before : Definitions} {node x : String} {d : Definition}

theorem mem_liveBefore : x ∈ e.liveBefore after ↔ x ∈ e.uses ∨ x ∈ after ∧ x ∉ e.defs := by
  rw [liveBefore, Std.ExtTreeSet.mem_union_iff, Std.ExtTreeSet.mem_diff_iff]

theorem mem_definitionsAfter : d ∈ e.definitionsAfter node before ↔
    d ∈ before ∧ d.name ∉ e.defs ∨ d.name ∈ e.defs ∧ d.node = node := by
  rw [definitionsAfter, Std.ExtTreeSet.mem_union_iff, Definitions.mem_except,
    Definitions.mem_ofNames]

theorem mem_defs_andThen : x ∈ (a.andThen b).defs ↔ x ∈ a.defs ∨ x ∈ b.defs := by
  rw [andThen, Std.ExtTreeSet.mem_union_iff]

theorem mem_uses_andThen : x ∈ (a.andThen b).uses ↔ x ∈ a.uses ∨ x ∈ b.uses ∧ x ∉ a.defs := by
  rw [andThen, Std.ExtTreeSet.mem_union_iff, Std.ExtTreeSet.mem_diff_iff]

theorem liveBefore_none (after : Names) : none.liveBefore after = after := by
  refine Std.ExtTreeSet.ext_mem fun x => ?_
  rw [mem_liveBefore]
  simp [none]

theorem definitionsAfter_none (node : String) (before : Definitions) :
    none.definitionsAfter node before = before := by
  refine Std.ExtTreeSet.ext_mem fun d => ?_
  rw [mem_definitionsAfter]
  simp [none]

/-- What is live before the first part is what it makes of what is live between the two. A variable
that the second part uses is live between them, and before the first part unless that one defines
it. -/
theorem liveBefore_andThen (a b : Effects) (after : Names) :
    (a.andThen b).liveBefore after = a.liveBefore (b.liveBefore after) := by
  refine Std.ExtTreeSet.ext_mem fun x => ?_
  rw [mem_liveBefore, mem_liveBefore, mem_liveBefore, mem_defs_andThen, mem_uses_andThen]
  tauto

/-- A variable that both parts define has one definition in the node, whichever of them has made
it. -/
theorem definitionsAfter_andThen (a b : Effects) (node : String) (before : Definitions) :
    (a.andThen b).definitionsAfter node before =
      b.definitionsAfter node (a.definitionsAfter node before) := by
  refine Std.ExtTreeSet.ext_mem fun d => ?_
  rw [mem_definitionsAfter, mem_definitionsAfter, mem_definitionsAfter, mem_defs_andThen]
  tauto

end Effects

namespace FlowNode

/-- A node that statements have been pushed into, one after another. -/
def merged (id : String) (role : Role) (statements : List Statement) : FlowNode :=
  statements.foldl push { id, role }

theorem effects_push (n : FlowNode) (s : Statement) :
    (n.push s).effects = n.effects.andThen s.effects := by
  simp only [effects, push, List.foldl_append, List.foldl_cons, List.foldl_nil]

/-- What the analyses make of a state is up to the effects of the node. -/
theorem transfer_live (n : FlowNode) (after : Names) :
    Analysis.live.transfer n (some after) = .ok (n.effects.liveBefore after) := rfl

theorem transfer_reaching (n : FlowNode) (before : Definitions) :
    Analysis.reaching.transfer n (some before) = .ok (n.effects.definitionsAfter n.id before) := rfl

theorem id_foldl_push (n : FlowNode) (statements : List Statement) :
    (statements.foldl push n).id = n.id := by
  induction statements generalizing n with
  | nil => rfl
  | cons s rest ih => exact ih (n.push s)

/-- What is pushed later is passed first on the way back. -/
theorem liveBefore_foldl_push (n : FlowNode) (statements : List Statement) (after : Names) :
    (statements.foldl push n).effects.liveBefore after =
      n.effects.liveBefore (statements.foldr (fun s live => s.effects.liveBefore live) after) := by
  induction statements generalizing n with
  | nil => rfl
  | cons s rest ih =>
    rw [List.foldl_cons, ih, effects_push, Effects.liveBefore_andThen, List.foldr_cons]

theorem definitionsAfter_foldl_push (n : FlowNode) (statements : List Statement) (node : String)
    (before : Definitions) :
    (statements.foldl push n).effects.definitionsAfter node before =
      statements.foldl (fun held s => s.effects.definitionsAfter node held)
        (n.effects.definitionsAfter node before) := by
  induction statements generalizing n with
  | nil => rfl
  | cons s rest ih =>
    rw [List.foldl_cons, ih, effects_push, Effects.definitionsAfter_andThen, List.foldl_cons]

/-- **Merging loses nothing.** For a node that any statements have been pushed into, live variables
are passed back through the statements from the last to the first, and definitions are passed on
from the first to the last. -/
theorem transfer_merged (id : String) (role : Role) (statements : List Statement) :
    (∀ live, Analysis.live.transfer (merged id role statements) (some live) =
      .ok (statements.foldr (fun s after => s.uses ∪ (after \ s.defs)) live)) ∧
    ∀ definitions, Analysis.reaching.transfer (merged id role statements) (some definitions) =
      .ok (statements.foldl (fun before s => before.except s.defs ∪ .ofNames s.defs id)
        definitions) := by
  constructor
  · intro live
    rw [transfer_live, merged, liveBefore_foldl_push]
    exact congrArg Except.ok (Effects.liveBefore_none _)
  · intro definitions
    rw [transfer_reaching, merged, id_foldl_push, definitionsAfter_foldl_push]
    exact congrArg (fun start => Except.ok (statements.foldl _ start))
      (Effects.definitionsAfter_none id definitions)

end FlowNode

end ContractFlow
