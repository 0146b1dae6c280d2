import ContractFlow.Syntax.Reading

/-!
A node is put together from its parts in the same way in every monad that errors can be raised in.
So two ways of reading that correspond on the parts of a node correspond on the node, whatever is
kept besides (`Correspondence.readNode`). All that is asked is that they correspond on values and on
errors, and that steps which correspond can be sequenced.
-/

namespace ContractFlow

variable {m n : Type → Type} [Monad m] [MonadLift (Except Error) m] [Monad n]
  [MonadLift (Except Error) n]

/-- A relation between the steps of two monads that goes through all that is built from values,
errors and sequences. -/
structure Correspondence (R : ∀ ⦃α : Type⦄, m α → n α → Prop) : Prop where
  pure {α : Type} (a : α) : R (Pure.pure a : m α) (Pure.pure a : n α)
  lift {α : Type} (e : Except Error α) : R (liftM e : m α) (liftM e : n α)
  bind {α β : Type} {x : m α} {y : n α} {next : α → m β} {next' : α → n β} :
    R x y → (∀ a, R (next a) (next' a)) → R (x >>= next) (y >>= next')

namespace Correspondence

variable [LawfulMonad m] [LawfulMonad n] {R : ∀ ⦃α : Type⦄, m α → n α → Prop} {α β : Type}

theorem map (C : Correspondence R) (g : α → β) {x : m α} {y : n α} (h : R x y) :
    R (g <$> x) (g <$> y) := by
  rw [map_eq_pure_bind, map_eq_pure_bind]
  exact C.bind h fun a => C.pure (g a)

theorem mapM (C : Correspondence R) {read : α → m β} {read' : α → n β}
    (h : ∀ a, R (read a) (read' a)) (l : List α) : R (l.mapM read) (l.mapM read') := by
  induction l with
  | nil => exact C.pure []
  | cons a l ih =>
    rw [List.mapM_cons, List.mapM_cons]
    exact C.bind (h a) fun b => C.bind ih fun bs => C.pure (b :: bs)

/-! ## Parts of a node -/

section Parts

variable {v : Json} {read : v.Inside → m Node} {read' : v.Inside → n Node}

omit [LawfulMonad m] [LawfulMonad n] in
theorem node (C : Correspondence R) (h : ∀ w, R (read w) (read' w)) (f : NodeFields v)
    (name : String) : R (f.node read name) (f.node read' name) :=
  C.bind (C.lift _) h

theorem node? (C : Correspondence R) (h : ∀ w, R (read w) (read' w)) (f : NodeFields v)
    (name : String) : R (f.node? read name) (f.node? read' name) := by
  rw [NodeFields.node?, NodeFields.node?]
  cases f.optional name with
  | none => exact C.pure none
  | some w => exact C.map some (h w)

theorem nodes (C : Correspondence R) (h : ∀ w, R (read w) (read' w)) (f : NodeFields v)
    (name : String) : R (f.nodes read name) (f.nodes read' name) :=
  C.bind (C.lift _) (C.mapM h)

theorem slots (C : Correspondence R) (h : ∀ w, R (read w) (read' w)) (f : NodeFields v)
    (name : String) : R (f.slots read name) (f.slots read' name) := by
  refine C.bind (C.lift _) (C.mapM fun w => ?_)
  split
  · exact C.pure none
  · exact C.map some (h w)

theorem parametersIn (C : Correspondence R) (h : ∀ w, R (read w) (read' w)) (list : v.Inside) :
    R (NodeFields.parametersIn read list) (NodeFields.parametersIn read' list) :=
  C.bind (C.lift _) fun _ => C.bind (C.lift _) (C.mapM fun w => h (list.lift w))

theorem parameters (C : Correspondence R) (h : ∀ w, R (read w) (read' w)) (f : NodeFields v)
    (name : String) : R (f.parameters read name) (f.parameters read' name) :=
  C.bind (C.lift _) (C.parametersIn h)

theorem parameters? (C : Correspondence R) (h : ∀ w, R (read w) (read' w)) (f : NodeFields v)
    (name : String) : R (f.parameters? read name) (f.parameters? read' name) := by
  rw [NodeFields.parameters?, NodeFields.parameters?]
  cases f.optional name with
  | none => exact C.pure []
  | some list => exact C.parametersIn h list

theorem functionHeader (C : Correspondence R) (h : ∀ w, R (read w) (read' w)) (f : NodeFields v) :
    R (f.functionHeader read) (f.functionHeader read') := by
  refine C.bind (C.lift _) fun kind => C.bind (C.lift _) fun name => ?_
  refine C.bind (C.lift _) fun visibility => C.bind (C.lift _) fun stateMutability => ?_
  refine C.bind (C.parameters h f _) fun parameters => ?_
  exact C.bind (C.parameters? h f _) fun returnParameters => C.pure _

theorem function (C : Correspondence R) (h : ∀ w, R (read w) (read' w)) (f : NodeFields v) :
    R (f.function read) (f.function read') :=
  C.bind (C.functionHeader h f) fun _ => C.bind (C.node? h f _) fun _ => C.pure _

theorem malformedFunction (C : Correspondence R) (h : ∀ w, R (read w) (read' w)) (w : v.Inside) :
    R (readMalformedFunction read w) (readMalformedFunction read' w) :=
  C.bind (C.lift _) fun f => C.bind (C.functionHeader (fun u => h (w.lift u)) f) fun _ =>
    C.bind (C.lift _) fun _ => C.pure _

end Parts

/-! ## Nodes -/

section Nodes

variable {v : Json} {read : v.Inside → m Node} {read' : v.Inside → n Node}
  {members : List v.Inside → m (List Node)} {members' : List v.Inside → n (List Node)}
  {membersOf : String → List v.Inside → m (List Node)}
  {membersOf' : String → List v.Inside → n (List Node)}

/-- The readers of all kinds are sequences of the readers of parts. -/
theorem kind (C : Correspondence R) (hread : ∀ w, R (read w) (read' w))
    (hmembers : ∀ l, R (members l) (members' l))
    (hmembersOf : ∀ name l, R (membersOf name l) (membersOf' name l)) (f : NodeFields v)
    (type : NodeType) :
    R (f.kind read members membersOf type) (f.kind read' members' membersOf' type) := by
  cases type <;> repeat' first
    | exact C.pure _
    | exact C.lift _
    | exact C.node hread f _
    | exact C.node? hread f _
    | exact C.nodes hread f _
    | exact C.slots hread f _
    | exact C.parameters hread f _
    | exact C.parameters? hread f _
    | exact C.function hread f
    | exact hmembers _
    | exact hmembersOf _ _
    | refine C.bind ?_ fun _ => ?_

/-- **Ways of reading correspond on a node** if they do on its parts and on its members. -/
theorem readNode (C : Correspondence R) (hread : ∀ w, R (read w) (read' w))
    (hmembers : ∀ l, R (members l) (members' l))
    (hmembersOf : ∀ name l, R (membersOf name l) (membersOf' name l)) :
    R (readNode v read members membersOf) (readNode v read' members' membersOf') := by
  refine C.bind (C.lift _) fun f => C.bind (C.lift _) fun src => ?_
  cases NodeType.ofName? f.type with
  | none => exact C.lift _
  | some type => exact C.bind (C.kind hread hmembers hmembersOf f type) fun kind => C.pure _

end Nodes

end Correspondence

end ContractFlow
