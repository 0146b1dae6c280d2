import ContractFlow.Proofs.Admission
import ContractFlow.Proofs.Inventory
import ContractFlow.Proofs.Wiring

/-!
The local shape of control flow graphs: which edges leave and enter a node of each role. The layout
of a supported statement has the right shape (`wired_ofNode`), and each loop has a condition of its
own (`loopsKept`). Main statement: `FlowGraph.ofFunction_shape`.
-/

namespace ContractFlow

open Build

variable {placed : Tag → Nat → Prop} {loops : UInt64 → Bool → Prop}

/-! ## Statements -/

/-- Whether a statement is a loop, and if so, whether it has a condition. -/
def Node.loop? (n : Node) : Option Bool :=
  match n.kind with
  | .whileStatement .. | .doWhileStatement .. => some true
  | .forStatement _ condition _ _ => some condition.isSome
  | _ => none

section Statements

variable (placed : Tag → Nat → Prop) (loops : UInt64 → Bool → Prop)

def Listed (l : List Node) : Prop :=
  ∀ s ∈ l, ∀ conditional, s.loop? = some conditional → loops s.id conditional

def AllPlaced (base : Nat) (tags : List Tag) : Prop :=
  ∀ t k, (t, k) ∈ tags.zipIdx base → placed t k

/-- The command of a statement has a layout of the right shape. -/
def WiredStatement (inLoop : Bool) (n : Node) : Prop :=
  ∀ targets current base, targets.isSome = inLoop → (∀ i, current = some i → i < base) →
    (∀ k, Sink targets k → k < base) → Listed loops n.statements →
    AllPlaced placed base ((Command.ofNode n).layout targets current base).tags →
    Wired placed loops targets current base ((Command.ofNode n).layout targets current base)

end Statements

variable {inLoop : Bool}

theorem AllPlaced.append {base : Nat} {tags tags' : List Tag} :
    AllPlaced placed base (tags ++ tags') ↔
      AllPlaced placed base tags ∧ AllPlaced placed (base + tags.length) tags' := by
  simp only [AllPlaced, List.zipIdx_append, List.mem_append, or_imp, forall_and]

theorem AllPlaced.cons {base : Nat} {t : Tag} {tags : List Tag} :
    AllPlaced placed base (t :: tags) ↔ placed t base ∧ AllPlaced placed (base + 1) tags := by
  simp only [AllPlaced, List.zipIdx_cons, List.mem_cons, Prod.mk.injEq, or_imp, forall_and]
  exact and_congr_left fun _ => ⟨fun h => h t base ⟨rfl, rfl⟩, by rintro h _ _ ⟨rfl, rfl⟩; exact h⟩

theorem Listed.append {l l' : List Node} :
    Listed loops (l ++ l') ↔ Listed loops l ∧ Listed loops l' :=
  List.forall_mem_append

theorem Listed.cons {n : Node} {l : List Node} : Listed loops (n :: l) ↔
    (∀ conditional, n.loop? = some conditional → loops n.id conditional) ∧ Listed loops l :=
  List.forall_mem_cons

theorem wired_ofNodes {l : List Node} (h : ∀ s ∈ l, WiredStatement placed loops inLoop s) :
    ∀ {targets : Option LoopTargets} {current : Option Nat} {base : Nat}, targets.isSome = inLoop →
    (∀ i, current = some i → i < base) → (∀ k, Sink targets k → k < base) →
    Listed loops (Node.statementsAll l) →
    AllPlaced placed base ((Command.ofNodes l).layout targets current base).tags →
    Wired placed loops targets current base ((Command.ofNodes l).layout targets current base) := by
  induction l with
  | nil => exact fun _ _ _ _ _ => .skip
  | cons n rest ih =>
    intro targets current base hloop hcurrent hsink hlisted hplaced
    rw [List.forall_mem_cons] at h
    obtain ⟨hfirst, hrest⟩ := Listed.append.mp hlisted
    obtain ⟨hplaced, hplaced'⟩ := AllPlaced.append.mp hplaced
    refine (h.1 targets current base hloop hcurrent hsink hfirst hplaced).seq hcurrent hsink ?_
    refine ih h.2 hloop (fun i hi => ?_) (fun k hk => ?_) hrest hplaced'
    · rcases Command.layout_result_bounds _ hi with hi | hi
      · have := hcurrent i hi
        omega
      · exact hi.2
    · exact Nat.lt_add_right _ (hsink k hk)

theorem wired_ofNode? {o : Option Node} (h : ∀ s ∈ o, WiredStatement placed loops inLoop s)
    {targets : Option LoopTargets} {id : UInt64} {head : Nat} {outcome : Branch} {base : Nat}
    (hloop : targets.isSome = inLoop) (hhead : head < base) (hsink : ∀ k, Sink targets k → k < base)
    (hlisted : Listed loops (Node.statements? o)) (hcondition : placed ⟨id, .branchCondition⟩ head)
    (hplaced : AllPlaced placed base
      (Command.layoutArm targets id head outcome base (Command.ofNode? o)).tags) :
    WiredArm placed loops targets head outcome base
      (Command.layoutArm targets id head outcome base (Command.ofNode? o)) := by
  cases o with
  | none => exact .missing
  | some n =>
    refine .present hhead hsink hcondition
      (h n rfl targets (some base) (base + 1) hloop ?_ ?_ hlisted ?_)
    · rintro _ ⟨⟩
      exact Nat.lt_succ_self base
    · exact fun k hk => Nat.lt_succ_of_lt (hsink k hk)
    · exact (AllPlaced.cons.mp hplaced).2

theorem wired_ofNode {n : Node} (h : n.Supported inLoop) :
    WiredStatement placed loops inLoop n := by
  induction h with
  | block _ ih =>
    intro targets current base hloop hcurrent hsink hlisted hplaced
    exact wired_ofNodes ih hloop hcurrent hsink (Listed.cons.mp hlisted).2 hplaced
  | uncheckedBlock _ ih =>
    intro targets current base hloop hcurrent hsink hlisted hplaced
    exact wired_ofNodes ih hloop hcurrent hsink (Listed.cons.mp hlisted).2 hplaced
  | declaration => exact fun _ _ _ _ _ _ _ _ => .simple _
  | expression => exact fun _ _ _ _ _ _ _ _ => .simple _
  | emit => exact fun _ _ _ _ _ _ _ _ => .simple _
  | revert => exact fun _ _ _ _ _ _ _ _ => .simple _
  | placeholder => exact fun _ _ _ _ _ _ _ _ => .simple _
  | «return» => exact fun _ _ _ _ hcurrent _ _ _ => .return hcurrent _
  | branch _ _ iht ihf =>
    intro targets current base hloop hcurrent hsink hlisted hplaced
    obtain ⟨hlt, hlf⟩ := Listed.append.mp (Listed.cons.mp hlisted).2
    obtain ⟨hhead, hplaced⟩ := AllPlaced.cons.mp hplaced
    obtain ⟨hpt, hplaced⟩ := AllPlaced.append.mp (AllPlaced.append.mp hplaced).2
    obtain ⟨hpf, -⟩ := AllPlaced.append.mp hplaced
    refine Wired.branch hcurrent hsink (Condition.outgoing_layout _ fun i hi => ?_)
      (Condition.incoming_layout _) (wired_ofNode? iht hloop ?_ (fun k hk => ?_) hlt hhead hpt)
      (wired_ofNode? ihf hloop ?_ (fun k hk => ?_) hlf hhead hpf) rfl
    · have := hcurrent i hi
      omega
    · omega
    · have := hsink k hk
      omega
    · omega
    · have := hsink k hk
      omega
  | whileLoop _ ih =>
    intro targets current base hloop hcurrent hsink hlisted hplaced
    obtain ⟨hlisted, hbody⟩ := Listed.cons.mp hlisted
    obtain ⟨hown, hplaced⟩ := AllPlaced.append.mp hplaced
    have hexit := hsink _ (.inl rfl)
    refine .whileLoop hcurrent (hlisted true rfl) (hown _ _ (by simp)) (hown _ _ (by simp))
      (ih _ _ _ rfl ?_ (sink_lt ?_ ?_ ?_) hbody hplaced)
    · rintro _ ⟨⟩
      omega
    · omega
    · omega
    · omega
  | doWhileLoop _ ih =>
    intro targets current base hloop hcurrent hsink hlisted hplaced
    obtain ⟨hlisted, hbody⟩ := Listed.cons.mp hlisted
    obtain ⟨hown, hplaced⟩ := AllPlaced.append.mp hplaced
    have hexit := hsink _ (.inl rfl)
    refine .doWhileLoop hcurrent (hlisted true rfl) (hown _ _ (by simp)) (hown _ _ (by simp))
      (ih _ _ _ rfl ?_ (sink_lt ?_ ?_ ?_) hbody hplaced)
    · rintro _ ⟨⟩
      omega
    · omega
    · omega
    · omega
  | forLoop _ _ _ ih =>
    intro targets current base hloop hcurrent hsink hlisted hplaced
    obtain ⟨hlisted, hbody⟩ := Listed.cons.mp hlisted
    obtain ⟨hown, hplaced⟩ := AllPlaced.append.mp hplaced
    have hexit := hsink _ (.inl rfl)
    refine .forLoop hcurrent (hlisted _ rfl) (hown _ _ (by simp)) (hown _ _ (by simp))
      (ih _ _ _ rfl ?_ (sink_lt ?_ ?_ ?_) (Listed.append.mp (Listed.append.mp hbody).2).2 hplaced)
    · rintro _ ⟨⟩
      omega
    · omega
    · omega
    · omega
  | «break» =>
    intro targets current base hloop hcurrent hsink hlisted hplaced
    obtain ⟨loop, rfl⟩ := Option.isSome_iff_exists.mp hloop
    exact .jump hsink _ _
  | «continue» =>
    intro targets current base hloop hcurrent hsink hlisted hplaced
    obtain ⟨loop, rfl⟩ := Option.isSome_iff_exists.mp hloop
    exact .jump hsink _ _

/-! ## Loops -/

/-- The ids of the loops among some statements. -/
def loopIds (l : List Node) : List UInt64 :=
  (l.filter (·.loop?.isSome)).map Node.id

/-- The ids of the loops that conditions have been created for. -/
def loopOwners (tags : List Tag) : List UInt64 :=
  (tags.filter (·.role = .loopCondition)).map Tag.owner

@[simp] theorem loopIds_append (l l' : List Node) :
    loopIds (l ++ l') = loopIds l ++ loopIds l' := by
  simp [loopIds]

theorem loopIds_cons_none {n : Node} (h : n.loop? = none) (l : List Node) :
    loopIds (n :: l) = loopIds l := by
  simp [loopIds, h]

theorem loopIds_cons_some {n : Node} {conditional : Bool} (h : n.loop? = some conditional)
    (l : List Node) : loopIds (n :: l) = n.id :: loopIds l := by
  simp [loopIds, h]

@[simp] theorem loopOwners_append (tags tags' : List Tag) :
    loopOwners (tags ++ tags') = loopOwners tags ++ loopOwners tags' := by
  simp [loopOwners]

theorem loopOwners_cons_of_ne {t : Tag} (h : t.role ≠ .loopCondition) (tags : List Tag) :
    loopOwners (t :: tags) = loopOwners tags := by
  simp [loopOwners, h]

theorem loopOwners_nodup {tags : List Tag} (h : tags.Nodup) : (loopOwners tags).Nodup := by
  refine (h.filter _).map_on fun t ht t' ht' howner => ?_
  have hrole := (List.mem_filter.mp ht).2
  have hrole' := (List.mem_filter.mp ht').2
  cases t
  cases t'
  simp_all

/-- No loop begins in a condition. -/
theorem loopOwners_condition (c : Condition) (current : Option Nat) (outcome : Option Branch)
    (holder base : Nat) : loopOwners (c.layout current outcome holder base).tags = [] := by
  induction c generalizing current outcome holder base with
  | plain => rfl
  | logical node operator left right ihl ihr =>
    have hl : (left.operandTag node .shortCircuitLeft).role ≠ .loopCondition := by
      cases left <;> simp [Condition.operandTag]
    have hr : (right.operandTag node .shortCircuitRight).role ≠ .loopCondition := by
      cases right <;> simp [Condition.operandTag]
    rw [Condition.layout, loopOwners_cons_of_ne hl, loopOwners_append, ihl,
      loopOwners_cons_of_ne (by simp), loopOwners_cons_of_ne hr, ihr]
    rfl

theorem loopOwners_meetingLayout (id : UInt64) (ends : List (Nat × Option Branch)) (base : Nat) :
    loopOwners (Command.meetingLayout id ends base).tags = [] := by
  unfold Command.meetingLayout
  split <;> rfl

theorem loopIds_clause {o : Option Node} (h : ∀ clause ∈ o, clause.IsClause) :
    loopIds o.toList = [] := by
  cases o with
  | none => rfl
  | some clause =>
    obtain ⟨id, src, kind⟩ := clause
    cases kind <;> first | rfl | rcases h _ rfl with h | h <;> cases h

/-- The loops of a statement have conditions of their own. -/
def LoopsKept (n : Node) : Prop :=
  ∀ targets current base,
    loopOwners ((Command.ofNode n).layout targets current base).tags = loopIds n.statements

theorem loopOwners_ofNodes {l : List Node} (h : ∀ s ∈ l, LoopsKept s) (targets : Option LoopTargets)
    (current : Option Nat) (base : Nat) :
    loopOwners ((Command.ofNodes l).layout targets current base).tags =
      loopIds (Node.statementsAll l) := by
  induction l generalizing current base with
  | nil => rfl
  | cons n rest ih =>
    rw [List.forall_mem_cons] at h
    rw [Node.statementsAll, loopIds_append, ← h.1 targets current base, ← ih h.2,
      ← loopOwners_append]
    rfl

theorem loopOwners_ofNode? {o : Option Node} (h : ∀ s ∈ o, LoopsKept s)
    (targets : Option LoopTargets) (id : UInt64) (head : Nat) (outcome : Branch) (base : Nat) :
    loopOwners (Command.layoutArm targets id head outcome base (Command.ofNode? o)).tags =
      loopIds (Node.statements? o) := by
  cases o with
  | none => rfl
  | some n =>
    have hrole : outcome.arm ≠ .loopCondition := by cases outcome <;> simp [Branch.arm]
    rw [Node.statements?, ← h n rfl targets (some base) (base + 1)]
    exact loopOwners_cons_of_ne hrole _

theorem loopsKept {n : Node} (h : n.Supported inLoop) : LoopsKept n := by
  induction h with
  | block _ ih => exact fun targets current base => loopOwners_ofNodes ih targets current base
  | uncheckedBlock _ ih =>
    exact fun targets current base => loopOwners_ofNodes ih targets current base
  | declaration => exact fun targets current base => by cases current <;> rfl
  | expression => exact fun targets current base => by cases current <;> rfl
  | emit => exact fun targets current base => by cases current <;> rfl
  | revert => exact fun targets current base => by cases current <;> rfl
  | placeholder => exact fun targets current base => by cases current <;> rfl
  | «return» => exact fun targets current base => rfl
  | branch _ _ iht ihf =>
    intro targets current base
    rw [Node.statements, loopIds_cons_none rfl, loopIds_append, Command.ofNode, Command.layout,
      loopOwners_cons_of_ne (by simp), loopOwners_append, loopOwners_append, loopOwners_append,
      loopOwners_condition, loopOwners_ofNode? iht, loopOwners_ofNode? ihf,
      loopOwners_meetingLayout]
    simp
  | whileLoop _ ih =>
    intro targets current base
    rw [Node.statements, loopIds_cons_some rfl, ← ih]
    rfl
  | doWhileLoop _ ih =>
    intro targets current base
    rw [Node.statements, loopIds_cons_some rfl, ← ih]
    rfl
  | forLoop hi hs _ ih =>
    intro targets current base
    rw [Node.statements, loopIds_cons_some rfl, loopIds_append, loopIds_append, loopIds_clause hi,
      loopIds_clause hs, ← ih]
    rfl
  | «break» => exact fun targets current base => by cases targets <;> cases current <;> rfl
  | «continue» => exact fun targets current base => by cases targets <;> cases current <;> rfl

/-! ## Functions -/

namespace FlowGraph

/-- The shape of the layout of a function. Its body begins with a block that its entry leads to. -/
theorem functionLayout_shape {body : Option Node} (hbody : ∀ b ∈ body, b.Supported false)
    (hlisted : Listed loops (Node.statements? body))
    (hplaced : AllPlaced placed 2 (functionLayout body).tags) :
    entrancesOf (functionLayout body).edges entry = 0 ∧
      FallsThrough (exitsOf (functionLayout body).edges entry) ∧
      exitsOf (functionLayout body).edges exit = 0 ∧
      ∀ t k, (t, k) ∈ (functionLayout body).tags.zipIdx 2 →
        Finished placed loops t (exitsOf (functionLayout body).edges k) ∧
        ((∃ b, body = some b ∧ t = ⟨b.id, .basicBlock⟩ ∧
            entrancesOf (functionLayout body).edges k = {(none, entry)}) ∨
          Entered placed t (entrancesOf (functionLayout body).edges k)) := by
  cases body with
  | none => exact ⟨by simp [functionLayout, entry, exit], ⟨exit, by simp [functionLayout]⟩,
      by simp [functionLayout, entry, exit], nofun⟩
  | some body =>
    have P : Wired placed loops none (some 2) 3 ((Command.ofNode body).layout none (some 2) 3) := by
      refine wired_ofNode (hbody body rfl) none (some 2) 3 rfl ?_ ?_ hlisted
        (AllPlaced.cons.mp hplaced).2
      · rintro _ ⟨⟩
        decide
      · rintro _ (rfl | ⟨_, _, ⟨⟩, _⟩)
        decide
    simp only [functionLayout] at *
    generalize (Command.ofNode body).layout none (some 2) 3 = p at *
    have hblock : ∀ i, Outgoing placed loops 2 [⟨body.id, .basicBlock⟩]
        ([⟨entry, 2, none⟩] ++ linkEdges (some 2) i none) (some entry) none :=
      outgoing_node (by decide) fun exits h => h
    have O : Outgoing placed loops 2 (⟨body.id, .basicBlock⟩ :: p.tags)
        (⟨entry, 2, none⟩ :: (p.edges ++ linkEdges p.result exit none)) (some entry) none :=
      .replace (by rintro _ ⟨⟩; decide) rfl hblock (P.outgoing exit)
    obtain ⟨i, houtside⟩ := O.outside
    have hlink : ∀ k, k ≠ exit → entrancesOf (linkEdges p.result exit none) k = 0 := fun k hk =>
      entrancesOf_eq_zero fun e he h => hk (h.symm.trans (tail_of_mem_linkEdges he))
    have hsink : ∀ k, k ≠ exit → ¬Sink none k := by
      rintro k hk (rfl | ⟨_, _, ⟨⟩, _⟩)
      exact hk rfl
    refine ⟨?_, ⟨i, houtside entry (.inl (by decide))⟩, houtside exit (.inl (by decide)),
      fun t k hk => ?_⟩
    · rw [entrancesOf_cons, entrancesOf_append, hlink entry (by decide),
        P.incoming.entrances_eq_zero (.inl (by decide)) (hsink entry (by decide))]
      rfl
    · refine ⟨O.inside t k hk, ?_⟩
      rw [List.zipIdx_cons, List.mem_cons, Prod.mk.injEq] at hk
      rw [entrancesOf_cons, entrancesOf_append]
      rcases hk with ⟨rfl, rfl⟩ | hk
      · rw [hlink 2 (by decide),
          P.incoming.entrances_eq_zero (.inl (by decide)) (hsink 2 (by decide))]
        exact .inl ⟨body, rfl, rfl, rfl⟩
      · obtain ⟨hle, -⟩ := List.mem_zipIdx hk
        have hk₁ : k ≠ exit := fun h => by rw [h] at hle; exact absurd hle (by decide)
        rw [if_neg (show 2 ≠ k by omega), hlink k hk₁, zero_add, add_zero]
        exact .inr (P.incoming.inside t k hk)

theorem loopOwners_functionLayout {body : Option Node} (hbody : ∀ b ∈ body, b.Supported false) :
    loopOwners (functionLayout body).tags = loopIds (Node.statements? body) := by
  cases body with
  | none => rfl
  | some body =>
    rw [Node.statements?, ← loopsKept (hbody body rfl) none (some 2) 3]
    exact loopOwners_cons_of_ne (by simp) _

/-- The node with the given index has been created for a tag. -/
def Places (g : FlowGraph) (t : Tag) (i : Nat) : Prop :=
  ∃ n, g.node i = .ok n ∧ n.id = t.id ∧ n.role = t.role

/-- One of the statements is a loop with the given id, with a condition or without. -/
def HasLoop (statements : List Node) (id : UInt64) (conditional : Bool) : Prop :=
  ∃ s ∈ statements, s.id = id ∧ s.loop? = some conditional

/-- The first node is the entry and the second one the exit of a function, and they are the only
ones. The entry is not entered and leads on by one edge, and nothing leaves the exit. The edges that
leave any other node are those for its role, and so are those that enter it, apart from the block
that the body begins with. Loops have different ids, so that `HasLoop` says which one a condition is
of. -/
structure Shaped (g : FlowGraph) (body : Option Node) : Prop where
  entry_node : ∃ n, g.node entry = .ok n ∧ n.role = .functionEntry
  exit_node : ∃ n, g.node exit = .ok n ∧ n.role = .functionExit
  entry_unique : ∀ i n, g.node i = .ok n → n.role = .functionEntry → i = entry
  exit_unique : ∀ i n, g.node i = .ok n → n.role = .functionExit → i = exit
  entry_entrances : entrancesOf g.edges entry = 0
  entry_exits : FallsThrough (exitsOf g.edges entry)
  exit_exits : exitsOf g.edges exit = 0
  loop_ids : (loopIds (Node.statements? body)).Nodup
  inner : ∀ i n, g.node i = .ok n → i ≠ entry → i ≠ exit → ∃ owner, n.id = Tag.id ⟨owner, n.role⟩ ∧
    Finished g.Places (HasLoop (Node.statements? body)) ⟨owner, n.role⟩ (exitsOf g.edges i) ∧
    ((∃ first, body = some first ∧ owner = first.id ∧ n.role = .basicBlock ∧
        entrancesOf g.edges i = {(none, entry)}) ∨
      Entered g.Places ⟨owner, n.role⟩ (entrancesOf g.edges i))

variable {function : Node} {source : String} {g : FlowGraph}

theorem WellFormed.exists_node_iff (H : g.WellFormed) {x : String × Role} {i : Nat} :
    (∃ n, g.node i = .ok n ∧ n.id = x.1 ∧ n.role = x.2) ↔ g.headers[i]? = some x := by
  rw [H.getElem?_headers]
  cases hn : g.node i with
  | error err => simp [Except.toOption]
  | ok n => simp [Except.toOption, FlowNode.header, Prod.ext_iff]

section Headers

variable {id : UInt64} {name : String} {tags : List Tag} {i : Nat} {n : FlowNode}

theorem WellFormed.places_of_mem (H : g.WellFormed)
    (hheaders : g.headers = endHeaders id name ++ tags.map Tag.header) :
    AllPlaced g.Places 2 tags := by
  intro t k hk
  obtain ⟨hle, hk⟩ := List.mem_zipIdx_iff_le_and_getElem?_sub.mp hk
  refine (H.exists_node_iff (x := t.header)).mpr ?_
  rw [hheaders, List.getElem?_append_right hle, List.getElem?_map]
  exact congrArg (Option.map Tag.header) hk

theorem WellFormed.node_cases (H : g.WellFormed)
    (hheaders : g.headers = endHeaders id name ++ tags.map Tag.header) (hn : g.node i = .ok n) :
    i = entry ∧ n.role = .functionEntry ∨ i = exit ∧ n.role = .functionExit ∨
      ∃ t, (t, i) ∈ tags.zipIdx 2 ∧ n.id = t.id ∧ n.role = t.role := by
  have hi := H.getElem?_headers i
  rw [hn, hheaders] at hi
  match i with
  | 0 =>
    have hi : some _ = some n.header := hi
    exact .inl ⟨rfl, (congrArg Prod.snd (Option.some.inj hi)).symm⟩
  | 1 =>
    have hi : some _ = some n.header := hi
    exact .inr (.inl ⟨rfl, (congrArg Prod.snd (Option.some.inj hi)).symm⟩)
  | i + 2 =>
    have hi : (tags.map Tag.header)[i]? = some n.header := hi
    rw [List.getElem?_map, Option.map_eq_some_iff] at hi
    obtain ⟨t, ht, hheader⟩ := hi
    refine .inr (.inr ⟨t, ?_, (congrArg Prod.fst hheader).symm, (congrArg Prod.snd hheader).symm⟩)
    exact List.mem_zipIdx_iff_le_and_getElem?_sub.mpr ⟨by omega, ht⟩

theorem WellFormed.nodup_tags (H : g.WellFormed) (hplaced : AllPlaced g.Places 2 tags) :
    tags.Nodup := by
  refine List.nodup_iff_getElem?_ne_getElem?.mpr fun i j hij hj heq => ?_
  have hplace : ∀ k, tags[k]? = some tags[j] → g.Places tags[j] (k + 2) := fun k hk =>
    hplaced _ _ (List.mem_zipIdx_iff_le_and_getElem?_sub.mpr ⟨Nat.le_add_left 2 k, hk⟩)
  have hget := List.getElem?_eq_getElem hj
  obtain ⟨m, hm, hid, -⟩ := hplace i (heq.trans hget)
  obtain ⟨n, hn, hid', -⟩ := hplace j hget
  have := H.distinct hm hn (hid.trans hid'.symm)
  omega

end Headers

/-- **Local shape.** Every graph of a function is made of nodes with the edges that belong to their
roles. -/
theorem ofFunction_shape (h : ofFunction function source = .ok g) :
    ∃ definition, function.function? = some definition ∧ g.Shaped definition.body := by
  obtain ⟨definition, hdefinition, L⟩ := ofFunction_laidOut h
  have H := L.wellFormed
  have hplaced := H.places_of_mem L.headers
  have hlisted :
    Listed (HasLoop (Node.statements? definition.body)) (Node.statements? definition.body) :=
    fun s hs conditional hloop => ⟨s, hs, rfl, hloop⟩
  obtain ⟨hentrances, hexits, hexit, hinner⟩ := functionLayout_shape L.supported hlisted hplaced
  rw [← L.edges] at hentrances hexits hexit hinner
  refine ⟨definition, hdefinition, ?_, ?_, fun i n hn hrole => ?_,
    fun i n hn hrole => ?_, hentrances,
    hexits, hexit, ?_, fun i n hn hentry hexit => ?_⟩
  · obtain ⟨n, hn, -, hrole⟩ := H.exists_node_iff.mpr (congrArg (·[entry]?) L.headers)
    exact ⟨n, hn, hrole⟩
  · obtain ⟨n, hn, -, hrole⟩ := H.exists_node_iff.mpr (congrArg (·[exit]?) L.headers)
    exact ⟨n, hn, hrole⟩
  · rcases H.node_cases L.headers hn with ⟨rfl, -⟩ | ⟨-, h⟩ | ⟨t, ht, -, h⟩
    · rfl
    · cases hrole.symm.trans h
    · exact absurd (h.symm.trans hrole) (hinner t i ht).1.role_ne.1
  · rcases H.node_cases L.headers hn with ⟨-, h⟩ | ⟨rfl, -⟩ | ⟨t, ht, -, h⟩
    · cases hrole.symm.trans h
    · rfl
    · exact absurd (h.symm.trans hrole) (hinner t i ht).1.role_ne.2
  · rw [← loopOwners_functionLayout L.supported]
    exact loopOwners_nodup (H.nodup_tags hplaced)
  · rcases H.node_cases L.headers hn with ⟨rfl, -⟩ | ⟨rfl, -⟩ | ⟨⟨owner, role⟩, ht, hid, rfl⟩
    · exact absurd rfl hentry
    · exact absurd rfl hexit
    · obtain ⟨hfinished, hentered⟩ := hinner _ i ht
      refine ⟨owner, hid, hfinished, hentered.imp_left ?_⟩
      rintro ⟨first, hfirst, htag, hentrances⟩
      rw [Tag.mk.injEq] at htag
      exact ⟨first, hfirst, htag.1, htag.2, hentrances⟩

theorem ofFunction_shape_countdown :
    ∃ g, ofFunction countdown "" = .ok g ∧
      ∃ definition, countdown.function? = some definition ∧ g.Shaped definition.body := by
  obtain ⟨g, hg⟩ := countdown_builds
  exact ⟨g, hg, ofFunction_shape hg⟩

end FlowGraph

end ContractFlow
