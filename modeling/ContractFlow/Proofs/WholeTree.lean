import Mathlib.Control.Traversable.Instances
import Mathlib.Data.List.Nodup
import Mathlib.Data.List.Perm.Basic
import Mathlib.Tactic.DeriveTraversable
import ContractFlow.Proofs.CallResolution
import ContractFlow.Proofs.Parentheses

/-!
What a walk over a syntax tree meets. Which parts a kind of node stores follows from its type:
`Kind.stored` gathers them with the traversal that is derived from the constructors and their
fields. A kind is its shape with these parts filled in (`Kind.eq_of_shape_of_stored`), so that no
part is kept anywhere else, and `Kind.children` lists the same parts in the order of the source
(`Kind.children_perm_stored`).

The nodes of a tree are told apart by their places, which say what stored part to take on each level
(`Node.nodeAt?`). A walk with a stack takes the node on top and puts its parts there instead, the
first one on top (`Node.Visits`). Main statement: `Node.walked_once`.
-/

namespace ContractFlow

deriving instance Traversable for ContractDefinition
deriving instance Traversable for FunctionDefinition

-- With `Kind.map` as the map there is nothing but the traversal to derive.
instance : Functor Kind where
  map := Kind.map

deriving instance Traversable for Kind

/-! ## The parts of one node -/

/-- What an action that only notes down parts leaves behind. -/
structure Noted (α β : Type) where
  parts : List α

namespace Noted

variable {α β γ : Type}

instance : Applicative (Noted α) where
  pure _ := ⟨[]⟩
  seq first second := ⟨first.parts ++ (second ()).parts⟩

/-- Notes down one part. -/
def note (part : α) : Noted α β := ⟨[part]⟩

@[simp] theorem parts_note (part : α) : (note part : Noted α β).parts = [part] := rfl

@[simp] theorem parts_pure (x : β) : (pure x : Noted α β).parts = [] := rfl

@[simp] theorem parts_seq (first : Noted α (β → γ)) (second : Noted α β) :
    (first <*> second).parts = first.parts ++ second.parts := rfl

theorem parts_map (f : β → γ) (x : Noted α β) : (f <$> x).parts = x.parts := rfl

@[simp] theorem parts_traverse_list (f : β → Noted α γ) (l : List β) :
    (List.traverse f l).parts = l.flatMap fun x => (f x).parts := by
  induction l with
  | nil => rfl
  | cons x l ih => rw [List.traverse, parts_seq, parts_map, ih, List.flatMap_cons]

@[simp] theorem parts_traverse_option (slot : Option α) :
    (Option.traverse note slot : Noted α (Option β)).parts = slot.toList := by
  cases slot <;> rfl

end Noted

namespace Kind

variable {α : Type}

/-- The parts that a kind of node stores, field by field. -/
def stored (k : Kind α) : List α := (Traversable.traverse Noted.note k : Noted α (Kind α)).parts

theorem children_perm_stored (k : Kind α) : k.children.Perm k.stored := by
  cases k
  -- The body comes first in the source, and the condition first in the node.
  case doWhileStatement condition body => exact List.Perm.swap condition body []
  all_goals
    refine List.Perm.of_eq ?_
    simp [stored, children, Traversable.traverse, traverse, ContractDefinition.traverse,
      FunctionDefinition.traverse, List.filterMap_eq_flatMap_toList]

example : (doWhileStatement 0 1).stored = [0, 1] ∧ (doWhileStatement 0 1).children = [1, 0] := by
  decide

/-- Takes the next part from a list. -/
def takePart : StateT (List α) Option α
  | [] => none
  | part :: rest => some (part, rest)

theorem run_takePart (part : α) (rest : List α) : takePart.run (part :: rest) = some (part, rest) :=
  rfl

theorem run_traverse_list (parts rest : List α) :
    (List.traverse (fun _ => takePart) (parts.map fun _ => ())).run (parts ++ rest) =
      some (parts, rest) := by
  induction parts with
  | nil => rfl
  | cons part parts ih =>
    simp only [List.map_cons, List.traverse, List.cons_append]
    simp [-List.map_const', StateT.run_seq, ih, run_takePart]

theorem run_traverse_option (slot : Option α) (rest : List α) :
    (Option.traverse (fun _ => takePart) (slot.map fun _ => ())).run (slot.toList ++ rest) =
      some (slot, rest) := by
  cases slot <;> rfl

theorem run_traverse_slots (slots : List (Option α)) (rest : List α) :
    (List.traverse (Option.traverse fun _ => takePart) (slots.map (Option.map fun _ => ()))).run
      (slots.flatMap Option.toList ++ rest) = some (slots, rest) := by
  induction slots with
  | nil => rfl
  | cons slot slots ih =>
    simp only [List.map_cons, List.traverse, List.flatMap_cons, List.append_assoc]
    simp [StateT.run_seq, ih, run_traverse_option]

/-- Filling the shape of a kind with its stored parts gives it back. -/
theorem run_traverse_shape (k : Kind α) (rest : List α) :
    (Traversable.traverse (fun _ => takePart) k.shape : StateT (List α) Option (Kind α)).run
      (k.stored ++ rest) =
      some (k, rest) := by
  cases k
  all_goals
    simp [-List.map_const', stored, shape, map, Traversable.traverse, traverse,
      ContractDefinition.traverse, FunctionDefinition.traverse, StateT.run_seq, run_takePart,
      run_traverse_list, run_traverse_option, run_traverse_slots]

theorem eq_of_shape_of_stored {k k' : Kind α} (hshape : k.shape = k'.shape)
    (hstored : k.stored = k'.stored) :
    k = k' := by
  have hk := run_traverse_shape k []
  rw [hshape, hstored, run_traverse_shape k' [], Option.some.injEq] at hk
  exact (congrArg Prod.fst hk).symm

/-- The numbers of the stored parts in the order of the source. -/
theorem exists_order (k : Kind α) : ∃ order : List Nat, order.Perm (List.range k.stored.length) ∧
    List.Forall₂ (fun part i => k.stored[i]? = some part) k.children order := by
  have hstored : List.Forall₂ (fun part i => k.stored[i]? = some part) k.stored
      (List.range k.stored.length) := by
    rw [List.forall₂_iff_get]
    refine ⟨List.length_range.symm, fun i hi _ => ?_⟩
    simp [hi]
  obtain ⟨order, horder, hperm⟩ := List.perm_comp_forall₂ k.children_perm_stored hstored
  exact ⟨order, hperm, horder⟩

end Kind

namespace Node

/-! ## Places -/

/-- The node at a place in a tree. A place is the way down to it, on each level the number of a
stored part. -/
def nodeAt? : Node → List Nat → Option Node
  | n, [] => some n
  | n, i :: place => n.kind.stored[i]?.bind fun part => part.nodeAt? place

/-- The nodes `l` are those of the tree `n`, each met at a place of its own. -/
structure Located (n : Node) (l : List Node) (places : List (List Nat)) : Prop where
  /-- Each node that is met is the one at its place. -/
  nodes : places.map n.nodeAt? = l.map some
  /-- No place is met twice. -/
  nodup : places.Nodup
  /-- Every place of the tree is met. -/
  mem_iff : ∀ place, place ∈ places ↔ (n.nodeAt? place).isSome

namespace Located

theorem mem_nodes_iff {n m : Node} {l : List Node} {places : List (List Nat)}
    (h : Located n l places) :
    m ∈ l ↔ ∃ place, n.nodeAt? place = some m := by
  have hmem : m ∈ l ↔ some m ∈ places.map n.nodeAt? := by simp [h.nodes]
  rw [hmem, List.mem_map]
  constructor
  · rintro ⟨place, _, hat⟩
    exact ⟨place, hat⟩
  · rintro ⟨place, hat⟩
    exact ⟨place, (h.mem_iff place).mpr (by rw [hat]; rfl), hat⟩

theorem nodes_parts {n : Node} {parts : List Node} {order : List Nat}
    {below : Nat → List (List Nat)}
    (horder : List.Forall₂ (fun part i => n.kind.stored[i]? = some part) parts order)
    (hbelow : ∀ i part, n.kind.stored[i]? = some part → Located part part.descendants (below i)) :
    (order.flatMap fun i => (below i).map (i :: ·)).map n.nodeAt? =
      (parts.flatMap descendants).map some := by
  induction horder with
  | nil => rfl
  | @cons part i parts order hi _ ih =>
    have hpart : ((below i).map (i :: ·)).map n.nodeAt? = part.descendants.map some := by
      rw [← (hbelow i part hi).nodes, List.map_map]
      refine List.map_congr_left fun place _ => ?_
      rw [Function.comp_apply, nodeAt?, hi, Option.bind_some]
    rw [List.flatMap_cons, List.flatMap_cons, List.map_append, List.map_append, hpart, ih]

/-- The places in a tree from those in its parts, which are met in some order. -/
theorem node {n : Node} {order : List Nat} {below : Nat → List (List Nat)}
    (hperm : order.Perm (List.range n.kind.stored.length))
    (horder : List.Forall₂ (fun part i => n.kind.stored[i]? = some part) n.children order)
    (hbelow : ∀ i part, n.kind.stored[i]? = some part → Located part part.descendants (below i)) :
    Located n n.descendants ([] :: order.flatMap fun i => (below i).map (i :: ·)) where
  nodes := by
    rw [descendants_eq, List.map_cons, List.map_cons, nodes_parts horder hbelow, nodeAt?]
  nodup := by
    have hdistinct : order.Nodup := hperm.nodup_iff.mpr List.nodup_range
    rw [List.nodup_cons, List.nodup_flatMap]
    refine ⟨by simp, fun i hi => ?_, hdistinct.imp fun hne => ?_⟩
    · have hlt : i < n.kind.stored.length := List.mem_range.mp (hperm.mem_iff.mp hi)
      exact (hbelow i _ (List.getElem?_eq_getElem hlt)).nodup.map List.cons_injective
    · intro place h₁ h₂
      obtain ⟨_, _, rfl⟩ := List.mem_map.mp h₁
      obtain ⟨_, _, heq⟩ := List.mem_map.mp h₂
      exact hne (List.cons.inj heq).1.symm
  mem_iff place := by
    cases place with
    | nil => simp [nodeAt?]
    | cons i place =>
      have hmem : i :: place ∈ [] :: order.flatMap (fun i => (below i).map (i :: ·)) ↔
          i < n.kind.stored.length ∧ place ∈ below i := by
        simp [hperm.mem_iff]
      rw [hmem, nodeAt?]
      constructor
      · rintro ⟨hlt, hplace⟩
        have hi := List.getElem?_eq_getElem hlt
        rw [hi, Option.bind_some]
        exact ((hbelow i _ hi).mem_iff place).mp hplace
      · intro h
        obtain ⟨m, hat⟩ := Option.isSome_iff_exists.mp h
        obtain ⟨part, hi, hat⟩ := Option.bind_eq_some_iff.mp hat
        have hplace :=
          ((hbelow i part hi).mem_iff place).mpr (Option.isSome_iff_exists.mpr ⟨m, hat⟩)
        exact ⟨(List.getElem?_eq_some_iff.mp hi).1, hplace⟩

end Located

theorem exists_located (n : Node) : ∃ places, Located n n.descendants places := by
  induction n using descendants.induct with
  | case1 n ih =>
    obtain ⟨order, hperm, horder⟩ := n.kind.exists_order
    have hbelow (i : Nat) : ∃ places, ∀ part, n.kind.stored[i]? = some part →
        Located part part.descendants places := by
      cases hi : n.kind.stored[i]? with
      | none =>
        refine ⟨[], fun _ h => ?_⟩
        cases h
      | some part =>
        have hpart : part ∈ n.children :=
          n.kind.children_perm_stored.mem_iff.mpr (List.mem_of_getElem? hi)
        obtain ⟨places, hplaces⟩ := ih ⟨part, hpart⟩
        refine ⟨places, fun _ h => ?_⟩
        cases h
        exact hplaces
    choose below hbelow using hbelow
    exact ⟨_, .node hperm horder hbelow⟩

/-! ## A walk with a stack -/

/-- The nodes that a walk visits, from the nodes still to visit; the next one is on top of the
stack, at its end. -/
inductive Visits : List Node → List Node → Prop
  | done : Visits [] []
  | next {stack : List Node} {n : Node} {l : List Node} :
    Visits (stack ++ n.children.reverse) l → Visits (stack ++ [n]) (n :: l)

/-- The nodes below all nodes of a stack, from its top on. -/
def pending (stack : List Node) : List Node := stack.reverse.flatMap descendants

theorem pending_push (stack : List Node) (n : Node) :
    pending (stack ++ [n]) = n :: pending (stack ++ n.children.reverse) := by
  simp only [pending, List.reverse_append, List.reverse_reverse, List.reverse_singleton,
    List.singleton_append, List.flatMap_cons, List.flatMap_append]
  rw [descendants_eq n, List.cons_append]

theorem Visits.eq_pending {stack l : List Node} (h : Visits stack l) : l = pending stack := by
  induction h with
  | done => rfl
  | next _ ih => rw [ih, pending_push]

theorem visits_pending (stack : List Node) : Visits stack (pending stack) := by
  -- The stack may grow, and what is pending gets shorter.
  induction h : pending stack generalizing stack with
  | nil =>
    rcases List.eq_nil_or_concat stack with rfl | ⟨below, n, rfl⟩
    · exact .done
    · rw [List.concat_eq_append, pending_push] at h
      cases h
  | cons m l ih =>
    rcases List.eq_nil_or_concat stack with rfl | ⟨below, n, rfl⟩
    · cases h
    · rw [List.concat_eq_append, pending_push] at h
      obtain ⟨rfl, hrest⟩ := List.cons.inj h
      rw [List.concat_eq_append]
      exact .next (ih _ hrest)

theorem visits_iff {n : Node} {l : List Node} : Visits [n] l ↔ l = n.descendants := by
  have hpending : pending [n] = n.descendants := by simp [pending]
  rw [← hpending]
  exact ⟨Visits.eq_pending, fun h => h ▸ visits_pending [n]⟩

/-! ## What is found on the way -/

theorem createdContract?_eq_some_iff {n : Node} {name : String} : n.createdContract? = some name ↔
    ∃ typeName, n.kind = .newExpression typeName ∧ typeName.kind = .userDefinedTypeName name := by
  unfold createdContract?
  split
  · next id src written hkind =>
    rw [hkind]
    constructor
    · rintro ⟨⟩
      exact ⟨_, rfl, rfl⟩
    · rintro ⟨_, ⟨⟩, ⟨⟩⟩
      rfl
  · next hnone =>
    constructor
    · rintro ⟨⟩
    · rintro ⟨⟨id, src, kind⟩, hkind, rfl⟩
      exact absurd hkind (hnone id src name)

/-- **The walk over a whole tree.** The descendants of `n` are in pre-order, and a walk with a stack
visits them in this order. Each node of the tree is among them once, so that what is found in a tree
is found in all its nodes. -/
structure Walked (n : Node) : Prop where
  /-- The walk with a stack ends, and has then visited the descendants. -/
  visits_iff : ∀ l, Visits [n] l ↔ l = n.descendants
  preorder : n.descendants = n :: n.children.flatMap descendants
  /-- There is no part of the node that is not stored in it. -/
  stored_all : ∀ k : Kind Node, k.shape = n.kind.shape → k.stored = n.kind.stored → k = n.kind
  /-- The descendants are met at all places of the tree, at each of them once. -/
  located : ∃ places, Located n n.descendants places
  callSites_eq : n.callSites = n.callTarget?.toList ++ n.children.flatMap callSites
  callTarget_iff : ∀ name, n.callTarget? = some name ↔
    ∃ callee arguments, n.kind = .functionCall callee arguments ∧ callee.GoesBy name
  /-- The contracts that are created at any place of the tree. -/
  mem_created_iff : ∀ name, name ∈ n.createdContracts ↔
    ∃ place m typeName, n.nodeAt? place = some m ∧ m.kind = .newExpression typeName ∧
      typeName.kind = .userDefinedTypeName name

/-- **A tree is walked over as a whole**, in pre-order and meeting each node once. -/
theorem walked_once (n : Node) : Walked n where
  visits_iff _ := visits_iff
  preorder := descendants_eq n
  stored_all _ := Kind.eq_of_shape_of_stored
  located := exists_located n
  callSites_eq := callSites_eq n
  callTarget_iff _ := callTarget?_eq_some_iff
  mem_created_iff name := by
    obtain ⟨places, hplaces⟩ := n.exists_located
    simp only [createdContracts, Std.ExtTreeSet.mem_ofList, List.contains_iff_mem,
      List.mem_filterMap, hplaces.mem_nodes_iff, createdContract?_eq_some_iff]
    constructor
    · rintro ⟨m, ⟨place, hat⟩, typeName, hkind, hname⟩
      exact ⟨place, m, typeName, hat, hkind, hname⟩
    · rintro ⟨place, m, typeName, hat, hkind, hname⟩
      exact ⟨m, ⟨place, hat⟩, typeName, hkind, hname⟩

end Node

end ContractFlow
