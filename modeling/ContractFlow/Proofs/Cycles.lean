import ContractFlow.Proofs.DepthFirst
import ContractFlow.Proofs.Shape

/-!
Cycles of control flow graphs. The nodes of a layout can be lined up so that its edges lead forward,
apart from those that leave the condition of a loop (`LinedUp`). Nodes do not stand in the line as
they are created: the condition of a branch comes after its operands, and the condition of a loop,
with its increment and what follows, comes after the body. There is one lemma for each kind of
command.

Main statement: `FlowGraph.ofFunction_cycles`. Every cycle goes through the condition of a loop.
-/

namespace ContractFlow

open Build

theorem perm_range'_cons {l : List Nat} {base n : Nat} (h : l.Perm (List.range' (base + 1) n)) :
    (base :: l).Perm (List.range' base (n + 1)) :=
  h.cons base

theorem perm_range'_append {l l' : List Nat} {base m n : Nat} (h : l.Perm (List.range' base m))
    (h' : l'.Perm (List.range' (base + m) n)) : (l ++ l').Perm (List.range' base (m + n)) := by
  rw [← List.range'_append_1]
  exact h.append h'

/-- The nodes that a command may jump to. -/
def sinks (targets : Option LoopTargets) : List Nat :=
  targets.toList.flatMap (fun loop => [loop.continueTo, loop.breakTo]) ++ [FlowGraph.exit]

section Lines

variable (placed : Tag → Nat → Prop)

/-- Edges lead forward in a line of nodes, unless they leave the condition of a loop. -/
def Forward (line : List Nat) (edges : List FlowEdge) : Prop :=
  ∀ e ∈ edges, (∃ owner, placed ⟨owner, .loopCondition⟩ e.head) ∨ [e.head, e.tail].Sublist line

/-- **The nodes of a layout in a line.** What control comes from stands before the line, and what
can be jumped to after it. What is left to build on is one of these nodes. -/
structure LinedUp {α : Type} (targets : Option LoopTargets) (current : Option Nat) (base : Nat)
    (p : Layout α) (ends line : List Nat) : Prop where
  perm : line.Perm (List.range' base p.tags.length)
  forward : Forward placed (current.toList ++ (line ++ sinks targets)) p.edges
  last : ends ⊆ current.toList ++ line

end Lines

variable {placed : Tag → Nat → Prop}

namespace Forward

variable {line line' : List Nat} {edges edges' : List FlowEdge} {i j : Nat}
  {outcome : Option Branch}

theorem nil : Forward placed line [] := nofun

theorem append : Forward placed line (edges ++ edges') ↔
    Forward placed line edges ∧ Forward placed line edges' :=
  List.forall_mem_append

theorem mono (h : line.Sublist line') (H : Forward placed line edges) :
    Forward placed line' edges :=
  fun e he => (H e he).imp_right (·.trans h)

theorem cons (h : [i, j].Sublist line) (H : Forward placed line edges) :
    Forward placed line (⟨i, j, outcome⟩ :: edges) :=
  List.forall_mem_cons.mpr ⟨.inr h, H⟩

theorem cons_loop {owner : UInt64} (h : placed ⟨owner, .loopCondition⟩ i)
    (H : Forward placed line edges) :
    Forward placed line (⟨i, j, outcome⟩ :: edges) :=
  List.forall_mem_cons.mpr ⟨.inl ⟨owner, h⟩, H⟩

theorem link {current : Option Nat} (h : ∀ i, current = some i → [i, j].Sublist line) :
    Forward placed line (linkEdges current j outcome) := by
  cases current with
  | none => exact nil
  | some i => exact cons (h i rfl) nil

/-- What control comes from leads on into the line. -/
theorem link_append {current : Option Nat} (h : j ∈ line) :
    Forward placed (current.toList ++ line) (linkEdges current j outcome) :=
  link fun i hi => pair_sublist_append (by simp [hi]) h

end Forward

/-! ## Conditions -/

/-- The operands of a short-circuit operation, each with the node that holds its value. The left one
leads to the right one or past it, and from there control goes on to the node that holds the
result. -/
theorem Forward.logical {before l r : List Nat} {edges edges' : List FlowEdge}
    {left bypass right holder : Nat}
    {settling : Option Branch} (L : Forward placed (before ++ (l ++ [left])) edges)
    (R : Forward placed ([left] ++ (r ++ [right])) edges') :
    Forward placed (before ++ (l ++ left :: (r ++ [bypass, right]) ++ [holder]))
      (edges ++ ⟨left, bypass, settling⟩ ::
        (edges' ++ [⟨bypass, holder, none⟩, ⟨right, holder, none⟩])) := by
  have hline : before ++ (l ++ left :: (r ++ [bypass, right]) ++ [holder]) =
      (before ++ l) ++ ((left :: r) ++ [bypass, right, holder]) := by simp
  have hrest := List.sublist_append_right (before ++ l) ((left :: r) ++ [bypass, right, holder])
  have hend := (List.sublist_append_right (left :: r) [bypass, right, holder]).trans hrest
  rw [hline]
  refine append.mpr ⟨L.mono (by simp),
    .cons ((pair_sublist_append (by simp) (by simp)).trans hrest) ?_⟩
  refine append.mpr ⟨R.mono (.trans (by simp) hrest),
    .cons (.trans ?_ hend) (.cons (.trans ?_ hend) .nil)⟩
  · simp
  · simp

/-- The nodes of a condition stand before the one that holds its value. -/
theorem Condition.exists_line (c : Condition) :
    ∀ (current : Option Nat) (outcome : Option Branch) (holder base : Nat),
    ∃ line, line.Perm (List.range' base (c.layout current outcome holder base).tags.length) ∧
      Forward placed (current.toList ++ (line ++ [holder]))
        (c.layout current outcome holder base).edges := by
  induction c with
  | plain node => exact fun current outcome holder base => ⟨[], .nil, .link_append (by simp)⟩
  | logical node operator left right ihl ihr =>
    intro current outcome holder base
    simp only [layout]
    obtain ⟨l, hl, L⟩ := ihl current outcome base (base + 1)
    generalize left.layout current outcome base (base + 1) = p at *
    obtain ⟨r, hr, R⟩ := ihr (some base) (some operator.continuing) (base + 1 + p.tags.length + 1)
      (base + 1 + p.tags.length + 2)
    refine ⟨l ++ base :: (r ++ [base + 1 + p.tags.length, base + 1 + p.tags.length + 1]),
      ?_, L.logical R⟩
    refine List.perm_middle.trans (perm_range'_cons ?_)
    rw [List.length_append]
    refine perm_range'_append hl (List.perm_append_comm.trans ?_)
    exact perm_range'_cons (perm_range'_cons hr)

/-! ## Commands -/

section Constructs

variable {targets : Option LoopTargets} {current : Option Nat} {base : Nat} {id : UInt64}

theorem exit_mem_sinks : FlowGraph.exit ∈ sinks targets := by
  simp [sinks]

theorem target_mem_sinks {loop : LoopTargets} (way : Jump) :
    loop.target way ∈ sinks (some loop) := by
  cases way <;> simp [sinks, LoopTargets.target]

/-- A jump leads forward. -/
theorem pair_sublist_sinks {before line : List Nat} {i j : Nat} (hi : i ∈ before ++ line)
    (hj : j ∈ sinks targets) :
    [i, j].Sublist (before ++ (line ++ sinks targets)) := by
  rw [← List.append_assoc]
  exact pair_sublist_append hi hj

namespace LinedUp

variable {p q : Layout (Option Nat)} {line line' : List Nat}

theorem skip : LinedUp placed targets current base ⟨[], [], current⟩ current.toList [] :=
  ⟨.nil, .nil, by simp⟩

theorem seq (P : LinedUp placed targets current base p p.result.toList line)
    (Q : LinedUp placed targets p.result (base + p.tags.length) q q.result.toList line') :
    LinedUp placed targets current base ⟨p.tags ++ q.tags, p.edges ++ q.edges, q.result⟩
      q.result.toList
      (line ++ line') := by
  have hmiddle : p.result.toList.Sublist (current.toList ++ line) := by
    cases hp : p.result with
    | none => simp
    | some i => exact List.singleton_sublist.mpr (P.last (by simp [hp]))
  refine ⟨?_, Forward.append.mpr ⟨P.forward.mono ?_, Q.forward.mono ?_⟩, ?_⟩
  · rw [List.length_append]
    exact perm_range'_append P.perm Q.perm
  · simp
  · simpa [List.append_assoc] using hmiddle.append (List.Sublist.refl (line' ++ sinks targets))
  · intro j hj
    rw [← List.append_assoc]
    rcases List.mem_append.mp (Q.last hj) with hj | hj
    · exact List.mem_append_left _ (hmiddle.subset hj)
    · exact List.mem_append_right _ hj

theorem simple : LinedUp placed targets current base
    ⟨(Command.blockLayout current base id).tags, (Command.blockLayout current base id).edges,
      some (Command.blockLayout current base id).result⟩
    [(Command.blockLayout current base id).result]
    (List.range' base (Command.blockLayout current base id).tags.length) := by
  cases current with
  | none => exact ⟨.rfl, .nil, by simp [Command.blockLayout]⟩
  | some i => exact ⟨.rfl, .nil, by simp [Command.blockLayout]⟩

theorem jump {loop : LoopTargets} (way : Jump) :
    LinedUp (α := Option Nat) placed (some loop) current base
    ⟨(Command.blockLayout current base id).tags, (Command.blockLayout current base id).edges ++
      [⟨(Command.blockLayout current base id).result, loop.target way, none⟩], none⟩ []
    (List.range' base (Command.blockLayout current base id).tags.length) := by
  have S : LinedUp placed (some loop) current base
    ⟨_, _, some (Command.blockLayout current base id).result⟩ _ _ := simple
  refine ⟨.rfl, Forward.append.mpr ⟨S.forward, .cons ?_ .nil⟩, List.nil_subset _⟩
  exact pair_sublist_sinks (S.last List.mem_cons_self) (target_mem_sinks way)

theorem «return» : LinedUp (α := Option Nat) placed targets current base
    ⟨[⟨id, .return⟩], linkEdges current base none ++ [⟨base, FlowGraph.exit, none⟩], none⟩
      [] [base] := by
  refine ⟨.rfl, Forward.append.mpr ⟨.link_append (by simp), .cons ?_ .nil⟩, List.nil_subset _⟩
  exact pair_sublist_sinks (by simp) exit_mem_sinks

section Loops

variable {body : Layout (Option Nat)}

/-- The body of a loop stands between the nodes of the loop that come before it and those that come
after it. -/
theorem loop {own : List Tag} {entering leaving : List FlowEdge} {first back after : Nat}
    {front rear : List Nat} (hown : (front ++ rear).Perm (List.range' base own.length))
    (hedges : Forward placed (current.toList ++ (front ++ rear)) (entering ++ leaving))
    (hfirst : first ∈ front) (hrear : [back, after].Sublist rear)
    (B : LinedUp placed (some ⟨back, after⟩) (some first)
      (base + own.length) body body.result.toList line) :
    LinedUp placed targets current base (Command.loopLayout own entering leaving back after body)
      [after]
      (front ++ (line ++ rear)) := by
  have hinner : ([first] ++ (line ++ sinks (some ⟨back, after⟩))).Sublist
      (current.toList ++ (front ++ (line ++ rear) ++ sinks targets)) := by
    have hfront := List.singleton_sublist.mpr hfirst
    have hsinks : (sinks (some ⟨back, after⟩)).Sublist (rear ++ sinks targets) :=
      hrear.append (List.singleton_sublist.mpr exit_mem_sinks)
    have := (hfront.append ((List.Sublist.refl line).append hsinks)).trans
      (List.sublist_append_right current.toList _)
    simpa [List.append_assoc] using this
  have houter : (current.toList ++ (front ++ rear)).Sublist
      (current.toList ++ (front ++ (line ++ rear) ++ sinks targets)) := by
    simp
  obtain ⟨hentering, hleaving⟩ := Forward.append.mp (hedges.mono houter)
  refine ⟨?_, Forward.append.mpr ⟨hentering, Forward.append.mpr ⟨B.forward.mono hinner,
    Forward.append.mpr ⟨.link fun i hi => ?_, hleaving⟩⟩⟩, ?_⟩
  · rw [Command.loopLayout, List.length_append, ← List.append_assoc]
    have hparts : (front ++ line ++ rear).Perm ((front ++ rear) ++ line) := by
      simpa [List.append_assoc] using List.perm_append_comm.append_left front
    exact hparts.trans (perm_range'_append hown B.perm)
  · exact (pair_sublist_sinks (B.last (by simp [hi])) (target_mem_sinks .continue)).trans hinner
  · have hafter := hrear.subset (List.mem_cons_of_mem _ List.mem_cons_self)
    simp [hafter]

theorem whileLoop (hhead : placed ⟨id, .loopCondition⟩ base)
    (B : LinedUp placed (some ⟨base, base + 2⟩) (some (base + 1))
      (base + 3) body body.result.toList line) :
    LinedUp placed targets current base
      (Command.loopLayout [⟨id, .loopCondition⟩, ⟨id, .loopBody⟩, ⟨id, .afterLoop⟩]
        (linkEdges current base none ++ [⟨base, base + 1, some .onTrue⟩])
        [⟨base, base + 2, some .onFalse⟩] base (base + 2) body)
      [base + 2] ([base + 1] ++ (line ++ [base, base + 2])) := by
  refine loop (.swap ..) ?_ (by simp) (by simp) B
  rw [List.append_assoc]
  exact Forward.append.mpr ⟨.link_append (by simp), .cons_loop hhead (.cons_loop hhead .nil)⟩

theorem doWhileLoop (hhead : placed ⟨id, .loopCondition⟩ (base + 1))
    (B : LinedUp placed (some ⟨base + 1, base + 2⟩) (some base)
      (base + 3) body body.result.toList line) :
    LinedUp placed targets current base
      (Command.loopLayout [⟨id, .loopBody⟩, ⟨id, .loopCondition⟩, ⟨id, .afterLoop⟩]
        (linkEdges current base none)
        [⟨base + 1, base, some .onTrue⟩, ⟨base + 1, base + 2, some .onFalse⟩] (base + 1) (base + 2)
        body)
      [base + 2] ([base] ++ (line ++ [base + 1, base + 2])) := by
  refine loop .rfl ?_ (by simp) (by simp) B
  exact Forward.append.mpr ⟨.link_append (by simp), .cons_loop hhead (.cons_loop hhead .nil)⟩

theorem forLoop {condition : Option Node} (hhead : placed ⟨id, .loopCondition⟩ (base + 1))
    (B : LinedUp placed (some ⟨base + 3, base + 4⟩) (some (base + 2))
      (base + 5) body body.result.toList line) :
    LinedUp placed targets current base
      (Command.loopLayout [⟨id, .loopInit⟩, ⟨id, .loopCondition⟩, ⟨id, .loopBody⟩,
        ⟨id, .loopIncrement⟩,
          ⟨id, .afterLoop⟩]
        (linkEdges current base none ++
          [⟨base, base + 1, none⟩, ⟨base + 1, base + 2, condition.map fun _ => .onTrue⟩])
        (⟨base + 3, base + 1, none⟩ ::
          linkEdges (condition.map fun _ => base + 1) (base + 4) (some .onFalse))
        (base + 3) (base + 4) body)
      [base + 4] ([base, base + 2] ++ (line ++ [base + 3, base + 1, base + 4])) := by
  have hown : ([base, base + 2] ++ [base + 3, base + 1, base + 4]).Perm (List.range' base 5) :=
    perm_range'_cons (@List.perm_middle _ (base + 1) [base + 2, base + 3] [base + 4])
  refine loop hown ?_ (by simp) (by simp) B
  rw [List.append_assoc]
  have hrest :=
    List.sublist_append_right current.toList ([base, base + 2] ++ [base + 3, base + 1, base + 4])
  refine Forward.append.mpr ⟨.link_append (by simp), .cons (.trans ?_ hrest) (.cons_loop hhead
    (.cons (.trans ?_ hrest) ?_))⟩
  · exact pair_sublist_append (by simp) (by simp)
  · simp
  · cases condition with
    | none => exact .nil
    | some test => exact .cons_loop hhead .nil

end Loops

/-- A missing arm leads on from the head of the branch. -/
theorem missingArm {head : Nat} {outcome : Branch} :
    LinedUp (α := List (Nat × Option Branch)) placed targets (some head) base
      ⟨[], [], [(head, some outcome)]⟩
      [head] [] :=
  ⟨.nil, .nil, by simp⟩

theorem arm {head : Nat} {outcome : Branch}
    (P : LinedUp placed targets (some base) (base + 1) p p.result.toList line) :
    LinedUp placed targets (some head) base
      ⟨⟨id, outcome.arm⟩ :: p.tags, ⟨head, base, some outcome⟩ :: p.edges,
        p.result.toList.map (·, none (α := Branch))⟩
      p.result.toList (base :: line) :=
  ⟨perm_range'_cons P.perm, .cons (by simp) (P.forward.mono (by simp)),
    fun _ hj => List.mem_cons_of_mem _ (P.last hj)⟩

section Branches

/-- Where the arms of a branch meet, edges lead from their ends to the node that is left to build
on. -/
theorem meeting (id : UInt64) (ends : List (Nat × Option Branch)) (base : Nat)
    {m : Layout (Option Nat)} (hm : m = Command.meetingLayout id ends base) :
    m.result.toList.Perm (List.range' base m.tags.length) ∧
      ∀ e ∈ m.edges, e.head ∈ ends.map Prod.fst ∧ e.tail ∈ m.result.toList := by
  rw [hm, Command.meetingLayout]
  split
  · exact ⟨.nil, nofun⟩
  · refine ⟨.rfl, List.forall_mem_map.mpr fun last hlast => ?_⟩
    exact ⟨List.mem_map_of_mem hlast, List.mem_singleton_self base⟩

variable {c : Layout Unit} {onTrue onFalse : Layout (List (Nat × Option Branch))}
  {tested : List Nat}

theorem branch (hc : tested.Perm (List.range' (base + 1) c.tags.length))
    (C : Forward placed (current.toList ++ (tested ++ [base])) c.edges)
    (T : LinedUp placed targets (some base) (base + 1 + c.tags.length) onTrue
      (onTrue.result.map Prod.fst) line)
    (F : LinedUp placed targets (some base) (base + 1 + c.tags.length + onTrue.tags.length) onFalse
      (onFalse.result.map Prod.fst) line')
    {m : Layout (Option Nat)}
    (hm : m = Command.meetingLayout id (onTrue.result ++ onFalse.result)
      (base + 1 + c.tags.length + onTrue.tags.length + onFalse.tags.length)) :
    LinedUp placed targets current base
      { tags := ⟨id, .branchCondition⟩ :: (c.tags ++ (onTrue.tags ++ (onFalse.tags ++ m.tags)))
        edges := c.edges ++ (onTrue.edges ++ (onFalse.edges ++ m.edges))
        result := m.result }
      m.result.toList (tested ++ base :: (line ++ (line' ++ m.result.toList))) := by
  obtain ⟨hmeeting, hends⟩ := meeting _ _ _ hm
  have hrest := List.sublist_append_right (current.toList ++ tested)
    ((base :: (line ++ line')) ++ (m.result.toList ++ sinks targets))
  have hline :
      current.toList ++ (tested ++ base :: (line ++ (line' ++ m.result.toList)) ++ sinks targets) =
      (current.toList ++ tested) ++
        ((base :: (line ++ line')) ++ (m.result.toList ++ sinks targets)) := by
    simp
  refine ⟨?_, ?_, fun j hj => by simp [hj]⟩
  · refine List.perm_middle.trans (perm_range'_cons ?_)
    simp only [List.length_append]
    exact perm_range'_append hc (perm_range'_append T.perm (perm_range'_append F.perm hmeeting))
  · rw [hline]
    refine Forward.append.mpr ⟨C.mono (by simp),
      Forward.append.mpr ⟨T.forward.mono (.trans ?_ hrest),
      Forward.append.mpr ⟨F.forward.mono (.trans ?_ hrest), fun e he => .inr (.trans ?_ hrest)⟩⟩⟩
    · simp
    · simp
    · -- the ends of the arms stand before the node where they meet
      obtain ⟨hhead, htail⟩ := hends e he
      refine pair_sublist_append ?_ (List.mem_append_left _ htail)
      rw [List.map_append] at hhead
      rcases List.mem_append.mp hhead with hhead | hhead
      · exact ((List.sublist_append_left line line').cons_cons base).subset (T.last hhead)
      · exact ((List.sublist_append_right line line').cons_cons base).subset (F.last hhead)

end Branches

end LinedUp

end Constructs

/-! ## Statements -/

namespace Command

mutual

/-- **Lines of commands.** The nodes of every command can be lined up. -/
theorem exists_line :
    ∀ (c : Command) {targets : Option LoopTargets} {current : Option Nat} {base : Nat},
    AllPlaced placed base (c.layout targets current base).tags →
    ∃ line, LinedUp placed targets current base (c.layout targets current base)
      (c.layout targets current base).result.toList line
  | skip, targets, current, base, _ => ⟨[], .skip⟩
  | seq first second, targets, current, base, hplaced => by
    obtain ⟨hfirst, hsecond⟩ := AllPlaced.append.mp hplaced
    obtain ⟨line, P⟩ := first.exists_line hfirst
    obtain ⟨line', Q⟩ := second.exists_line hsecond
    exact ⟨line ++ line', P.seq Q⟩
  | simple id _ _, targets, current, base, _ => ⟨_, .simple⟩
  | branch id condition onTrue onFalse, targets, current, base, hplaced => by
    obtain ⟨-, hplaced⟩ := AllPlaced.cons.mp hplaced
    obtain ⟨-, hplaced⟩ := AllPlaced.append.mp hplaced
    obtain ⟨htrue, hplaced⟩ := AllPlaced.append.mp hplaced
    obtain ⟨tested, hc, C⟩ := condition.exists_line current none base (base + 1)
    obtain ⟨line, T⟩ := exists_arm_line onTrue htrue
    obtain ⟨line', F⟩ := exists_arm_line onFalse (AllPlaced.append.mp hplaced).1
    exact ⟨_, .branch hc C T F rfl⟩
  | whileLoop id _ body, targets, current, base, hplaced => by
    obtain ⟨hown, hplaced⟩ := AllPlaced.append.mp hplaced
    obtain ⟨line, B⟩ := body.exists_line hplaced
    exact ⟨_, .whileLoop (hown _ _ (by simp)) B⟩
  | doWhileLoop id _ body, targets, current, base, hplaced => by
    obtain ⟨hown, hplaced⟩ := AllPlaced.append.mp hplaced
    obtain ⟨line, B⟩ := body.exists_line hplaced
    exact ⟨_, .doWhileLoop (hown _ _ (by simp)) B⟩
  | forLoop id _ condition _ body, targets, current, base, hplaced => by
    obtain ⟨hown, hplaced⟩ := AllPlaced.append.mp hplaced
    obtain ⟨line, B⟩ := body.exists_line hplaced
    exact ⟨_, .forLoop (hown _ _ (by simp)) B⟩
  | .return node, targets, current, base, _ => ⟨_, .return⟩
  | jump way node, targets, current, base, _ => by
    cases targets with
    | none => exact ⟨[], .nil, .nil, List.nil_subset _⟩
    | some loop => exact ⟨_, .jump way⟩
  | unsupported _, targets, current, base, _ => ⟨[], .nil, .nil, List.nil_subset _⟩

theorem exists_arm_line :
    ∀ (arm : Option Command) {targets : Option LoopTargets} {id : UInt64} {head : Nat}
    {outcome : Branch} {base : Nat},
      AllPlaced placed base (layoutArm targets id head outcome base arm).tags →
    ∃ line, LinedUp placed targets (some head) base (layoutArm targets id head outcome base arm)
      ((layoutArm targets id head outcome base arm).result.map Prod.fst) line
  | none, targets, id, head, outcome, base, _ => ⟨[], .missingArm⟩
  | some arm, targets, id, head, outcome, base, hplaced => by
    obtain ⟨line, P⟩ := arm.exists_line (AllPlaced.cons.mp hplaced).2
    refine ⟨base :: line, ?_⟩
    have hends : (layoutArm targets id head outcome base (some arm)).result.map Prod.fst =
        (arm.layout targets (some base) (base + 1)).result.toList := by
      rw [layoutArm, List.map_map]
      exact List.map_id _
    rw [hends]
    exact .arm P

end

end Command

/-! ## Functions -/

namespace FlowGraph

open Relation

/-- The nodes of a function, from its entry to its exit. -/
theorem functionLayout_forward {body : Option Node}
    (hplaced : AllPlaced placed 2 (functionLayout body).tags) :
    ∃ line : List Nat, line.Nodup ∧ Forward placed line (functionLayout body).edges := by
  cases body with
  | none => exact ⟨[entry, exit], by decide, .cons (by simp) .nil⟩
  | some body =>
    obtain ⟨line, P⟩ := (Command.ofNode body).exists_line (AllPlaced.cons.mp hplaced).2
    refine ⟨entry :: ([2] ++ (line ++ sinks none)), ?_,
      .cons (by simp) (Forward.append.mpr ⟨?_, .link fun i hi => ?_⟩)⟩
    · have hnodup : line.Nodup := P.perm.nodup_iff.mpr List.nodup_range'
      have hfresh : ∀ k < 3, k ∉ line := fun k hlt hk =>
        Nat.not_le.mpr hlt (List.mem_range'_1.mp (P.perm.mem_iff.mp hk)).1
      have hparts : (line ++ sinks none).Nodup :=
        List.nodup_append'.mpr ⟨hnodup, by simp [sinks], by simp [sinks, exit, hfresh]⟩
      refine List.nodup_cons.mpr ⟨?_, List.nodup_cons.mpr ⟨?_, hparts⟩⟩
      · simp [sinks, entry, exit, hfresh]
      · simp [sinks, exit, hfresh]
    · exact P.forward.mono (List.sublist_cons_self ..)
    · exact (pair_sublist_sinks (P.last (by simp [hi])) exit_mem_sinks).trans
        (List.sublist_cons_self ..)

variable {function : Node} {source : String} {g : FlowGraph}

/-- A node is the condition of a loop. -/
def IsLoopCondition (g : FlowGraph) (i : Nat) : Prop :=
  ∃ n, g.node i = .ok n ∧ n.role = .loopCondition

/-- A directed cycle: edges that follow each other, the first one after the last one. -/
structure IsCycle (g : FlowGraph) (path : List FlowEdge) : Prop where
  nonempty : path ≠ []
  edges : ∀ e ∈ path, e ∈ g.edges
  chained : path.IsChain fun e e' => e.tail = e'.head
  closed : ∀ e ∈ path.getLast?, ∀ e' ∈ path.head?, e.tail = e'.head

/-- There is a rank that grows along all edges but those that leave the condition of a loop. -/
theorem exists_rank (h : ofFunction function source = .ok g) :
    ∃ rank : Nat → Nat, ∀ e ∈ g.edges, g.IsLoopCondition e.head ∨ rank e.head < rank e.tail := by
  obtain ⟨definition, -, -, H, hheaders, hedges, -⟩ := ofFunction_laidOut h
  obtain ⟨line, hline, hforward⟩ := functionLayout_forward (H.places_of_mem hheaders)
  refine ⟨line.idxOf, fun e he => ?_⟩
  rcases hforward e (hedges ▸ he) with ⟨owner, n, hn, -, hrole⟩ | hsublist
  · exact .inl ⟨n, hn, hrole⟩
  · exact .inr (idxOf_lt_of_sublist hline hsublist)

section Ranks

variable {rank : Nat → Nat}

theorem rank_lt_of_isChain {e : FlowEdge} {rest : List FlowEdge}
    (hchain : (e :: rest).IsChain fun e e' => e.tail = e'.head)
    (hrank : ∀ e' ∈ e :: rest, rank e'.head < rank e'.tail) :
    ∀ last ∈ (e :: rest).getLast?, rank e.head < rank last.tail := by
  induction rest generalizing e with
  | nil =>
    rintro _ ⟨⟩
    exact hrank e List.mem_cons_self
  | cons e' rest ih =>
    intro last hlast
    obtain ⟨hnext, hchain⟩ := List.isChain_cons_cons.mp hchain
    obtain ⟨hfirst, hrest⟩ := List.forall_mem_cons.mp hrank
    calc rank e.head < rank e.tail := hfirst
      _ = rank e'.head := by rw [hnext]
      _ < rank last.tail := ih hchain hrest last (by rwa [List.getLast?_cons_cons] at hlast)

theorem IsCycle.exists_loopCondition {path : List FlowEdge} (C : g.IsCycle path)
    (hrank : ∀ e ∈ g.edges, g.IsLoopCondition e.head ∨ rank e.head < rank e.tail) :
    ∃ e ∈ path, g.IsLoopCondition e.head := by
  by_contra! hnone
  have hgrows : ∀ e ∈ path, rank e.head < rank e.tail := fun e he =>
    (hrank e (C.edges e he)).resolve_left (hnone e he)
  cases path with
  | nil => exact C.nonempty rfl
  | cons e rest =>
    obtain ⟨last, hlast⟩ :=
      Option.isSome_iff_exists.mp (List.getLast?_isSome.mpr (List.cons_ne_nil e rest))
    have hlt := rank_lt_of_isChain C.chained hgrows last hlast
    rw [C.closed last hlast e rfl] at hlt
    exact Nat.lt_irrefl _ hlt

theorem not_transGen_of_rank_lt {r : Nat → Nat → Prop}
    (hr : ∀ i j, r i j → rank i < rank j) (i : Nat) :
    ¬TransGen r i i := by
  have hgrows : ∀ j, TransGen r i j → rank i < rank j := by
    intro j hj
    induction hj with
    | single h => exact hr _ _ h
    | tail _ h ih => exact ih.trans (hr _ _ h)
  exact fun h => Nat.lt_irrefl _ (hgrows i h)

end Ranks

/-- Without loops there are no conditions of loops. -/
theorem not_isLoopCondition {definition : FunctionDefinition Node}
    (h : ofFunction function source = .ok g) (hdefinition : function.function? = some definition)
    (hloops : ∀ s ∈ Node.statements? definition.body, s.loop? = none) (i : Nat) :
    ¬g.IsLoopCondition i := by
  rintro ⟨n, hn, hrole⟩
  obtain ⟨_, hdefinition', L⟩ := ofFunction_laidOut h
  cases hdefinition.symm.trans hdefinition'
  have hnone : loopIds (Node.statements? definition.body) = [] := by
    rw [loopIds, List.filter_eq_nil_iff.mpr fun s hs => by simp [hloops s hs]]
    rfl
  rcases L.wellFormed.node_cases L.headers hn with ⟨-, h⟩ | ⟨-, h⟩ | ⟨t, ht, -, h⟩
  · cases hrole.symm.trans h
  · cases hrole.symm.trans h
  · have howner : t.owner ∈ loopOwners (functionLayout definition.body).tags := by
      refine List.mem_map_of_mem (List.mem_filter.mpr ⟨?_, decide_eq_true (h.symm.trans hrole)⟩)
      exact List.mem_of_getElem? (List.mem_zipIdx_iff_le_and_getElem?_sub.mp ht).2
    rw [loopOwners_functionLayout L.supported, hnone] at howner
    cases howner

/-- **Cycles.** Every directed cycle of the graph of a function, reachable or not, goes through the
condition of a loop. Without these conditions the graph is acyclic, and a function without loops has
no loops in its graph. -/
theorem ofFunction_cycles (h : ofFunction function source = .ok g) :
    (∀ path, g.IsCycle path → ∃ e ∈ path, g.IsLoopCondition e.head) ∧
    (∀ i, ¬TransGen
      (fun i j => g.graph.Adjacent i j ∧ ¬g.IsLoopCondition i ∧ ¬g.IsLoopCondition j) i i) ∧
    ∀ definition, function.function? = some definition →
      (∀ s ∈ Node.statements? definition.body, s.loop? = none) → g.hasLoops = false := by
  obtain ⟨rank, hrank⟩ := exists_rank h
  refine ⟨fun path C => C.exists_loopCondition hrank, ?_, fun definition hdefinition hloops => ?_⟩
  · apply not_transGen_of_rank_lt
    rintro _ _ ⟨⟨e, he, rfl, rfl⟩, hhead, -⟩
    exact (hrank e he).resolve_left hhead
  · obtain ⟨_, -, -, H, hheaders, -⟩ := ofFunction_laidOut h
    obtain ⟨n, hn, -⟩ := H.exists_node_iff.mpr (congrArg (·[entry]?) hheaders)
    have hentry : g.graph.hasVertex entry = true := Digraph.hasVertex_iff.mpr ⟨n, hn⟩
    have hacyclic : g.graph.ReachesNoCycle entry := by
      intro v _
      apply not_transGen_of_rank_lt
      rintro _ _ ⟨e, he, rfl, rfl⟩
      exact (hrank e he).resolve_left (not_isLoopCondition h hdefinition hloops e.head)
    rw [hasLoops, (H.consistent.isAcyclic_iff hentry).mpr hacyclic]
    rfl

/-- `if (k || done) return k;` as the body of a function. -/
def guarded : Node :=
  let node (id : UInt64) (kind : Kind Node) : Node := ⟨id, ⟨0, 0, 0⟩, kind⟩
  let name (id : UInt64) (name : String) : Node := node id (.identifier name none)
  let test := node 10 (.binaryOperation "||" (name 11 "k") (name 12 "done"))
  node 1 (.functionDefinition {
    name := "guarded"
    kind := .function
    visibility := none
    stateMutability := none
    parameters := []
    returnParameters := []
    body := some (node 2 (.block [
      node 3 (.ifStatement test (some (node 4 (.returnStatement (some (name 13 "k"))))) none)]))
    malformedBody := false })

theorem ofFunction_cycles_countdown :
    (∃ g, ofFunction countdown "" = .ok g ∧
      (∃ path, g.IsCycle path ∧ ∃ e ∈ path, g.IsLoopCondition e.head) ∧
      ∀ i, ¬TransGen (fun i j => g.graph.Adjacent i j ∧ ¬g.IsLoopCondition i ∧
        ¬g.IsLoopCondition j) i i) ∧
    ∃ g, ofFunction guarded "" = .ok g ∧ g.hasLoops = false := by
  constructor
  · obtain ⟨g, hg⟩ := countdown_builds
    obtain ⟨hcycles, hacyclic, -⟩ := ofFunction_cycles hg
    refine ⟨g, hg, ?_, hacyclic⟩
    obtain ⟨_, ⟨⟩, L⟩ := ofFunction_laidOut hg
    -- past the condition of the branch and back to that of the loop
    let path : List FlowEdge :=
      [⟨3, 4, some .onTrue⟩, ⟨4, 7, none⟩, ⟨7, 9, some .onFalse⟩, ⟨9, 6, none⟩,
      ⟨6, 11, some .onFalse⟩, ⟨11, 3, none⟩]
    have hpath : path = [2, 3, 5, 7, 10, 11].filterMap fun k => g.edges[k]? := by
      rw [L.edges]
      rfl
    have C : g.IsCycle path := by
      refine ⟨nofun, fun e he => ?_, by simp [path], by simp [path]⟩
      rw [hpath] at he
      obtain ⟨k, -, hk⟩ := List.mem_filterMap.mp he
      exact List.mem_of_getElem? hk
    exact ⟨path, C, hcycles path C⟩
  · have h : (ofFunction guarded "").toOption.isSome = true := by decide +kernel
    cases hg : ofFunction guarded "" with
    | ok g => exact ⟨g, rfl, (ofFunction_cycles hg).2.2 _ rfl (by decide)⟩
    | error err => simp [hg, Except.toOption] at h

end FlowGraph

end ContractFlow
