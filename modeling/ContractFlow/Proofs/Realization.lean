import ContractFlow.Proofs.Conditions

/-!
What commands do. `Command.Realizes` says of a command that wherever it is drawn, what can be read
from the node that it is drawn from is an execution of the statement that it stands for, followed by
what can be read where that execution ends: after the command, at the exit, or at a target of the
innermost loop. Each construct realizes its statement if its parts realize theirs.
-/

namespace ContractFlow

/-! ## Finished outlines -/

/-- A finished outline agrees with what was drawn between two outlines, except that the result may
have been drawn on. -/
structure Outline.Settles (G o : Outline) (current result : Option Nat) (o' : Outline) : Prop where
  fixed : ∀ k, current = some k ∨ o.size ≤ k → k < o'.size → result ≠ some k →
    G.events k = o'.events k ∧ G.exits k = o'.exits k
  extended : ∀ j, result = some j → o'.events j <+: G.events j

namespace Outline.Settles

variable {G o o₁ o₂ : Outline} {current middle result : Option Nat}

theorem first (S : G.Settles o current result o₂) (G₁ : Grows current o middle o₁)
    (G₂ : Grows middle o₁ result o₂) : G.Settles o current middle o₁ := by
  refine ⟨fun k hk hlt hne => ?_, fun j hj => ?_⟩
  · obtain ⟨he, hx⟩ := S.fixed k hk (Nat.lt_of_lt_of_le hlt G₂.size_le) (G₂.result_ne hlt hne)
    obtain ⟨he', hx'⟩ := G₂.kept k hlt hne
    exact ⟨he.trans he', hx.trans hx'⟩
  · obtain ⟨hlt, hor, -⟩ := G₁.pending j hj
    refine (G₂.extended j hj).trans ?_
    by_cases hr : result = some j
    · exact S.extended j hr
    · rw [(S.fixed j hor (Nat.lt_of_lt_of_le hlt G₂.size_le) hr).1]

theorem second (S : G.Settles o current result o₂) (G₁ : Grows current o middle o₁) :
    G.Settles o₁ middle result o₂ := by
  refine ⟨fun k hk => S.fixed k ?_, S.extended⟩
  rcases hk with hk | hk
  · exact (G₁.pending k hk).2.1
  · exact .inr (G₁.size_le.trans hk)

theorem fixed_of_ne {i j k : Nat} (S : G.Settles o (some i) (some j) o₁) (hk : i = k ∨ o.size ≤ k)
    (hlt : k < o₁.size) (hne : k ≠ j) : G.events k = o₁.events k ∧ G.exits k = o₁.exits k := by
  apply S.fixed k _ hlt
  · simpa using hne.symm
  · simpa using hk

end Outline.Settles

/-- What lies below both the node that was drawn from and the new nodes lies below the result. -/
theorem Outline.Grows.lt_result {o o' : Outline} {i j k : Nat} (H : Grows (some i) o (some j) o')
    (hi : k < i) (ho : k < o.size) : k < j := by
  rcases (H.pending j rfl).2.1 with h | h
  · cases h
    exact hi
  · exact Nat.lt_of_lt_of_le ho h

/-- What can be read from the node that was left to draw on, if any. -/
def Outline.Open (G o : Outline) : Option Nat → Future
  | some j => G.Reads (o.events j) j
  | none => fun _ _ => False

/-- What can be read where a command ends. -/
def Continues (G : Outline) (targets : Option LoopTargets) (After : Future) : Ending → Future
  | .normal => After
  | .returned => G.Reads [] FlowGraph.exit
  | .jumped way =>
    match targets with
    | some loop => G.Reads [] (loop.target way)
    | none => fun _ _ => False

/-- The endings that there is a way on from. -/
def CanEnd (targets : Option LoopTargets) (result : Option Nat) : Ending → Prop
  | .normal => result.isSome
  | .returned => True
  | .jumped _ => targets.isSome

namespace Command

/-- A command is drawn from a node that nothing leaves yet. -/
structure DrawsFrom (c : Command) (targets : Option LoopTargets) (i : Nat) (o : Outline)
    (result : Option Nat) (o' : Outline) : Prop where
  draws : c.Draws targets (some i) o result o'
  fresh : o.Fresh
  pending : o.Pending (some i)
  exit_lt : FlowGraph.exit < i

/-- A command does what a statement does. -/
structure Realizes (c : Command) (R : List Event → Ending → Prop) : Prop where
  canEnd : ∀ {targets i o result o'}, c.DrawsFrom targets i o result o' →
    ∀ {t e}, R t e → CanEnd targets result e
  refines : ∀ {targets i o result o'}, c.DrawsFrom targets i o result o' →
    ∀ {G}, G.Settles o (some i) result o' →
      Refines (G.Reads (o.events i) i) R (Continues G targets (G.Open o' result))

variable {c d : Command} {targets : Option LoopTargets} {i : Nat} {o o' : Outline}
  {result : Option Nat} {G : Outline}

namespace DrawsFrom

theorem grows (D : c.DrawsFrom targets i o result o') : Outline.Grows (some i) o result o' :=
  c.drawingGrows D.draws D.fresh D.pending

theorem exit_lt_size (D : c.DrawsFrom targets i o result o') : FlowGraph.exit < o.size :=
  Nat.lt_trans D.exit_lt (D.pending i rfl).1

theorem exit_lt_result {j : Nat} (D : c.DrawsFrom targets i o (some j) o') : FlowGraph.exit < j :=
  D.grows.lt_result D.exit_lt D.exit_lt_size

theorem kept (D : c.DrawsFrom targets i o result o') {k : Nat} (hk : k < o.size) (hne : k ≠ i) :
    result ≠ some k ∧ o'.events k = o.events k ∧ o'.exits k = o.exits k := by
  have hne' : some i ≠ some k := by simpa using hne.symm
  exact ⟨D.grows.result_ne hk hne', D.grows.kept k hk hne'⟩

/-- A node from before a command is drawn that is not drawn on: what is drawn afterwards adds to it
as it was then. -/
theorem settled {o₀ o₁ : Outline} {first j k : Nat} (D : c.DrawsFrom targets first o result o')
    (S : G.Settles o₀ (some i) (some j) o₁) (hsize : o₁.size = o'.size) (hk : i = k ∨ o₀.size ≤ k)
    (hlt : k < o.size) (hfirst : k ≠ first) (hj : k ≠ j) :
    (G.events k = o₁.events k ∧ G.exits k = o₁.exits k) ∧ result ≠ some k ∧
      o'.events k = o.events k ∧ o'.exits k = o.exits k := by
  have hlt' : k < o₁.size := by
    rw [hsize]
    exact Nat.lt_of_lt_of_le hlt D.grows.size_le
  exact ⟨S.fixed_of_ne hk hlt' hj, D.kept hlt hfirst⟩

end DrawsFrom

theorem Realizes.congr {R R' : List Event → Ending → Prop} (H : c.Realizes R)
    (h : ∀ t e, R t e ↔ R' t e) : c.Realizes R' :=
  ⟨fun D _ _ hr => H.canEnd D ((h _ _).mpr hr), fun D _ S => (H.refines D S).congr h⟩

/-! ## Sequences -/

theorem realizes_skip : skip.Realizes (Execution (.sequence [])) := by
  refine ⟨fun B t e hrun => ?_, fun {targets i o _ o'} B G S => ?_⟩
  · obtain ⟨rfl, -⟩ := B.draws.skip
    cases hrun
    rfl
  · obtain ⟨rfl, rfl⟩ := B.draws.skip
    have P : Passes (G.Reads (o'.events i) i) []
      (Continues G targets (G.Open o' (some i)) .normal) := .refl _
    refine (Refines.of_passes P).congr fun t e => ?_
    constructor
    · rintro ⟨rfl, rfl⟩
      exact .nil
    · rintro ⟨⟩
      exact ⟨rfl, rfl⟩

theorem Realizes.seq {n : Node} {l : List Node} (hc : c.Realizes (Execution (.statement n)))
    (hd : d.Realizes (Execution (.sequence l))) :
    (c.seq d).Realizes (Execution (.sequence (n :: l))) := by
  refine ⟨fun {targets i o result o'} B t e hrun => ?_, fun {targets i o result o'} B G S => ?_⟩ <;>
    obtain ⟨middle, o₁, h₁, h₂⟩ := B.draws.seq
  all_goals
    have B₁ : c.DrawsFrom targets i o middle o₁ := ⟨h₁, B.fresh, B.pending, B.exit_lt⟩
    have B₂ : ∀ {j}, middle = some j → d.DrawsFrom targets j o₁ result o' := by
      rintro j rfl
      exact ⟨h₂, B₁.grows.fresh B.fresh, B₁.grows.toPending, B₁.exit_lt_result⟩
  · cases hrun with
    | next hrun hrest =>
      obtain ⟨j, hj⟩ := Option.isSome_iff_exists.mp (hc.canEnd B₁ hrun)
      exact hd.canEnd (B₂ hj) hrest
    | stop hrun hne =>
      have := hc.canEnd B₁ hrun
      cases e with
      | normal => exact absurd rfl hne
      | _ => exact this
  · have G₂ := d.drawingGrows h₂ (B₁.grows.fresh B.fresh) B₁.grows.toPending
    have R₁ := hc.refines B₁ (S.first B₁.grows G₂)
    have R₂ : ∀ {j}, middle = some j → _ := fun {j} hj =>
      hd.refines (B₂ hj) (hj ▸ S.second B₁.grows)
    constructor
    · intro t n hread
      obtain ⟨t₁, e, t₂, m, rfl, hrun, hend, hm⟩ := R₁.sound hread
      cases e with
      | normal =>
        cases middle with
        | none => exact hend.elim
        | some j =>
          obtain ⟨t₃, e, t₄, m', rfl, hrest, hend', hm'⟩ := (R₂ rfl).sound hend
          exact ⟨t₁ ++ t₃, e, t₄, m', (List.append_assoc ..).symm, .next hrun hrest, hend',
            hm'.trans hm⟩
      | _ => exact ⟨t₁, _, t₂, m, rfl, .stop hrun nofun, hend, hm⟩
    · intro t₁ e t₂ m hrun hend
      cases hrun with
      | next hrun hrest =>
        obtain ⟨j, rfl⟩ := Option.isSome_iff_exists.mp (hc.canEnd B₁ hrun)
        obtain ⟨n, hread⟩ := (R₂ rfl).complete hrest hend
        obtain ⟨n', hread'⟩ := R₁.complete (e := .normal) hrun hread
        exact ⟨n', by simpa using hread'⟩
      | stop hrun hne =>
        cases e with
        | normal => exact absurd rfl hne
        | _ => exact R₁.complete hrun hend

/-! ## Simple statements -/

/-- The statement of one event. -/
def Emits (event : Event) (ending : Ending) (t : List Event) (e : Ending) : Prop :=
  t = [event] ∧ e = ending

/-- A statement goes into the node that a command is drawn from. -/
theorem Places.of_some {index : Nat} (h : Places (some i) o index o') : index = i ∧ o' = o := by
  rcases h with ⟨hi, ho⟩ | ⟨hi, -⟩
  · exact ⟨(Option.some.inj hi).symm, ho⟩
  · cases hi

theorem realizes_simple {id : UInt64} {kind : StatementKind} {node : Node} :
    (simple id kind node).Realizes (Emits (.statement kind node) .normal) := by
  refine ⟨fun B t e hrun => ?_, fun {_ i o _ _} B G S => ?_⟩ <;>
    obtain ⟨index, o₁, hplaces, rfl, h'⟩ := B.draws.simple
  · rw [hrun.2]
    rfl
  · obtain ⟨rfl, rfl⟩ := hplaces.of_some
    refine Refines.of_passes (e := Ending.normal) ?_
    rw [h'] at S
    simp only [Continues, Outline.Open, h', Outline.push_events, if_true]
    exact Outline.passes_push (by simpa using S.extended index rfl)

theorem realizes_return {node : Node} :
    (Command.return node).Realizes (Emits (.statement .return node) .returned) := by
  refine ⟨fun B t e hrun => ?_, fun {_ i o _ _} B G S => ?_⟩
  · rw [hrun.2]
    trivial
  · obtain ⟨rfl, h'⟩ := B.draws.return
    refine Refines.of_passes (e := Ending.returned) ?_
    obtain ⟨hlt, hx⟩ := B.pending i rfl
    have hfresh := B.fresh _ (Nat.le_refl _)
    have hi : G.events i = o.events i ∧ G.exits i = [(none, o.size)] := by
      obtain ⟨he, hx'⟩ := S.fixed i (.inl rfl) (by simp [h']; omega) nofun
      rw [he, hx', h']
      simp [hx, Nat.ne_of_lt hlt]
    have hs : G.events o.size = [.statement .return node] ∧
        G.exits o.size = [(none, FlowGraph.exit)] := by
      obtain ⟨he, hx'⟩ := S.fixed o.size (.inr (Nat.le_refl _)) (by simp [h']) nofun
      rw [he, hx', h']
      simp [hfresh, Nat.ne_of_lt hlt]
    have P := Outline.passes_out (Nat.ne_of_lt B.exit_lt) hi.1 hi.2
    have Q := (Outline.passes_events hs.1).trans
      (Outline.passes_edge (Nat.ne_of_lt B.exit_lt_size) hs.2)
    exact P.trans Q

theorem realizes_jump {way : Jump} {node : Node} :
    (jump way node).Realizes (Emits (.statement way.statement node) (.jumped way)) := by
  refine ⟨fun B t e hrun => ?_, fun {_ i o _ _} B G S => ?_⟩ <;>
    obtain ⟨loop, index, o₁, rfl, hplaces, rfl, h'⟩ := B.draws.jump
  · rw [hrun.2]
    rfl
  · obtain ⟨rfl, rfl⟩ := hplaces.of_some
    refine Refines.of_passes (e := Ending.jumped way) ?_
    obtain ⟨hlt, hx⟩ := B.pending index rfl
    have hi : G.events index = o₁.events index ++ [.statement way.statement node] ∧
        G.exits index = [(none, loop.target way)] := by
      obtain ⟨he, hx'⟩ := S.fixed index (.inl rfl) (by simpa [h'] using hlt) nofun
      rw [he, hx', h']
      simp [hx]
    have P := Outline.passes_push (G := G) (by rw [hi.1])
    exact P.trans (Outline.passes_out (Nat.ne_of_lt B.exit_lt) hi.1 hi.2)

/-! ## Loops -/

/-- A command whose result, if any, leads to a node and to nothing else. -/
theorem Realizes.joined {R : List Event → Ending → Prop} {tail : Nat} (hc : c.Realizes R)
    (B : c.DrawsFrom targets i o result o')
    (hG : ∀ k, i = k ∨ o.size ≤ k → k < o'.size →
      G.events k = o'.events k ∧
        G.exits k = o'.exits k ++ if result = some k then [(none, tail)] else []) :
    Refines (G.Reads (o.events i) i) R (Continues G targets (G.Reads [] tail)) := by
  have S : G.Settles o (some i) result o' := by
    refine ⟨fun k hk hlt hne => ?_, fun j hj => ?_⟩
    · simpa [hne] using hG k (by simpa using hk) hlt
    · obtain ⟨hlt, hor, -⟩ := B.grows.pending j hj
      rw [(hG j (by simpa using hor) hlt).1]
  refine (hc.refines B S).follow fun {t e} hrun => ?_
  cases e with
  | normal =>
    obtain ⟨j, rfl⟩ := Option.isSome_iff_exists.mp (hc.canEnd B hrun)
    obtain ⟨hlt, hor, hx⟩ := B.grows.pending j rfl
    obtain ⟨he', hx'⟩ := hG j (by simpa using hor) hlt
    exact Outline.passes_out (Nat.ne_of_lt B.exit_lt_result) he' (by simpa [hx] using hx')
  | _ => exact .refl _

/-- The body of a loop. Closing the loop adds to the nodes of the body only that its result leads
back. -/
theorem Realizes.round {b : Node} {first back after : Nat} {o₀ o₁ : Outline}
    (hc : c.Realizes (Execution (.statement b))) (outer : Option LoopTargets)
    (B : c.DrawsFrom (some ⟨back, after⟩) first o result o')
    (S : G.Settles o₀ (some i) (some after) o₁) (hsize : o₁.size = o'.size) (hle : o₀.size ≤ first)
    (hlt : after < o.size) (hne : after ≠ first)
    (hclosed : ∀ k, first = k ∨ o.size ≤ k → o₁.events k = o'.events k ∧
      o₁.exits k = o'.exits k ++ if result = some k then [(none, back)] else [])
    (hfirst : o.events first = []) (hafter : o₁.events after = []) :
    Refines (G.Reads [] first) (Execution (.statement b))
      (roundEnd (G.Reads [] back) (Continues G outer (G.Open o₁ (some after)))) := by
  have hfirst_lt := (B.pending first rfl).1
  have R := hc.joined (G := G) B fun k hk hlt => by
    obtain ⟨he, hx⟩ := S.fixed_of_ne (.inr (by omega)) (hsize ▸ hlt) (by omega)
    obtain ⟨he', hx'⟩ := hclosed k hk
    exact ⟨he.trans he', hx.trans hx'⟩
  rw [hfirst] at R
  refine R.follow fun {t e} _ => ?_
  rcases e with _ | _ | ⟨_ | _⟩
  · exact .refl _
  · exact .refl _
  · show Passes _ [] (G.Open o₁ (some after))
    rw [Outline.Open, hafter]
    exact .refl _
  · exact .refl _

theorem ofBody_ne_jumped {e : Ending} {way : Jump} : e.ofBody ≠ some (.jumped way) := by
  rcases e with _ | _ | ⟨_ | _⟩ <;> nofun

/-- Jumps do not leave a loop. -/
theorem loop_ne_jumped {condition step : Option Node} {b : Node} {t : List Event} {e : Ending}
    (h : Execution (.loop condition step b) t e) (way : Jump) : e ≠ .jumped way := by
  generalize htask : Task.loop condition step b = task at h
  induction h with
  | loopDone => nofun
  | loopLeft _ he =>
    rintro rfl
    exact ofBody_ne_jumped he
  | loopAgain _ _ _ _ _ _ ih => exact ih (by cases htask; rfl)
  | _ => cases htask

theorem doWhile_ne_jumped {id : UInt64} {src : Span} {condition b : Node}
    {t : List Event} {e : Ending}
    (h : Execution (.statement ⟨id, src, .doWhileStatement condition b⟩) t e) (way : Jump) :
    e ≠ .jumped way := by
  generalize htask : Task.statement ⟨id, src, .doWhileStatement condition b⟩ = task at h
  induction h with
  | doDone => nofun
  | doLeft _ he =>
    rintro rfl
    exact ofBody_ne_jumped he
  | doAgain _ _ _ _ ih => exact ih (by cases htask; rfl)
  | _ => cases htask

theorem canEnd_of_ne_jumped {j : Nat} {e : Ending} (h : ∀ way, e ≠ .jumped way) :
    CanEnd targets (some j) e := by
  cases e with
  | normal => rfl
  | returned => trivial
  | jumped way => exact absurd rfl (h way)

theorem execution_clause {o : Option Node} {t : List Event}
    (h : ∀ node, o.map Clause.ofNode ≠ some (.unsupported node)) :
    Execution (.optional o) t .normal ↔ t = ((o.map Clause.ofNode).map Clause.events).getD [] := by
  rcases o with _ | ⟨id, src, kind⟩
  · constructor
    · rintro ⟨⟩
      rfl
    · rintro rfl
      exact .absent
  cases kind with
  | variableDeclarationStatement l v =>
    constructor
    · intro h
      cases h with
      | present h => cases h; rfl
    · rintro rfl
      exact .present .declaration
  | expressionStatement x =>
    constructor
    · intro h
      cases h with
      | present h => cases h; rfl
    · rintro rfl
      exact .present .expression
  | _ => exact absurd rfl (h _)

/-- A clause in the header of a loop. -/
theorem refines_clause {o : Option Node} {A C : Future}
    (h : ∀ node, o.map Clause.ofNode ≠ some (.unsupported node))
    (P : Passes A (((o.map Clause.ofNode).map Clause.events).getD []) C) :
    Refines A (fun t (_ : Unit) => Execution (.optional o) t .normal) fun _ => C := by
  refine Refines.congr (.of_passes (K := fun _ => C) (e := ()) P) fun t _ => ?_
  simp [execution_clause h]

theorem Realizes.whileLoop {id id' : UInt64} {src : Span} {condition b : Node}
    (hc : c.Realizes (Execution (.statement b))) :
    (whileLoop id condition c).Realizes
      (Execution (.statement ⟨id', src, .whileStatement condition b⟩)) := by
  have hiff : ∀ t e, Execution (.loop (some condition) none b) t e ↔
      Execution (.statement ⟨id', src, .whileStatement condition b⟩) t e :=
    fun t e => ⟨.whileLoop, fun | .whileLoop h => h⟩
  refine Realizes.congr ⟨fun B t e hrun => ?_, fun {targets i o _ o'} B G S => ?_⟩ hiff <;>
    obtain ⟨s, o₁, last, o₂, hs, hopened, h₁, hbody, h', rfl⟩ := B.draws.whileLoop
  · exact canEnd_of_ne_jumped (loop_ne_jumped hrun)
  obtain ⟨hlt, hx⟩ := B.pending i rfl
  have hexit := B.exit_lt
  have hfresh : ∀ k, s ≤ k → o.events k = [] ∧ o.exits k = [] :=
    fun k hk => B.fresh k (hs ▸ hk)
  have hs₁ : o₁.size = s + 3 := by simp [h₁, hs]
  have B₁ : c.DrawsFrom (some ⟨s, s + 2⟩) (s + 1) o₁ last o₂ := by
    refine ⟨hbody, hopened B.fresh B.pending, ?_, by omega⟩
    rintro _ ⟨⟩
    simp [h₁, hfresh, show i ≠ s + 1 by omega, ← hs]
  have hs₂ := B₁.grows.size_le
  have hs' : o'.size = o₂.size := by simp [h']
  have hi : G.events i = o.events i ∧ G.exits i = [(none, s)] := by
    obtain ⟨⟨he, hx'⟩, hkept⟩ := B₁.settled S hs' (.inl rfl) (by omega) (by omega) (by omega)
    rw [he, hx', h']
    simp [hkept, h₁, hx, show i ≠ s by omega]
  have hhead : G.events s = [.statement .condition condition] ∧
      G.exits s = [(some .onTrue, s + 1), (some .onFalse, s + 2)] := by
    obtain ⟨⟨he, hx'⟩, hkept⟩ :=
      B₁.settled S hs' (k := s) (.inr hs.ge) (by omega) (by omega) (by omega)
    rw [he, hx', h']
    simp [hkept, h₁, hfresh, show i ≠ s by omega]
  have hafter : o'.events (s + 2) = [] := by
    have hkept := B₁.kept (k := s + 2) (by omega) (by omega)
    simp [h', hkept, h₁, hfresh]
  have hfirst : o₁.events (s + 1) = [] := by simp [h₁, hfresh]
  have R := hc.round targets B₁ S hs' (by omega) (by omega) (by omega)
    (fun k hk => by
      rw [h']
      by_cases hl : last = some k <;> simp [hl, show k ≠ s by omega])
    hfirst hafter
  refine Refines.enter (Outline.passes_out (Nat.ne_of_lt hexit) hi.1 hi.2) (Refines.loop ?_ R ?_)
  · rw [Continues, Outline.Open, hafter]
    exact Outline.tests_head (by omega) hhead.1 hhead.2
  · exact refines_clause nofun (.refl _)

theorem Realizes.doWhileLoop {id id' : UInt64} {src : Span} {condition b : Node}
    (hc : c.Realizes (Execution (.statement b))) :
    (doWhileLoop id condition c).Realizes
      (Execution (.statement ⟨id', src, .doWhileStatement condition b⟩)) := by
  refine ⟨fun B t e hrun => ?_, fun {targets i o _ o'} B G S => ?_⟩ <;>
    obtain ⟨s, o₁, last, o₂, hs, hopened, h₁, hbody, h', rfl⟩ := B.draws.doWhileLoop
  · exact canEnd_of_ne_jumped (doWhile_ne_jumped hrun)
  obtain ⟨hlt, hx⟩ := B.pending i rfl
  have hexit := B.exit_lt
  have hfresh : ∀ k, s ≤ k → o.events k = [] ∧ o.exits k = [] :=
    fun k hk => B.fresh k (hs ▸ hk)
  have hs₁ : o₁.size = s + 3 := by simp [h₁, hs]
  have B₁ : c.DrawsFrom (some ⟨s + 1, s + 2⟩) s o₁ last o₂ := by
    refine ⟨hbody, hopened B.fresh B.pending, ?_, by omega⟩
    rintro _ ⟨⟩
    simp [h₁, hfresh, show i ≠ s by omega, ← hs]
    omega
  have hs₂ := B₁.grows.size_le
  have hs' : o'.size = o₂.size := by simp [h']
  have hi : G.events i = o.events i ∧ G.exits i = [(none, s)] := by
    obtain ⟨⟨he, hx'⟩, hkept⟩ := B₁.settled S hs' (.inl rfl) (by omega) (by omega) (by omega)
    rw [he, hx', h']
    simp [hkept, h₁, hx, show i ≠ s + 1 by omega]
  have hhead : G.events (s + 1) = [.statement .condition condition] ∧
      G.exits (s + 1) = [(some .onTrue, s), (some .onFalse, s + 2)] := by
    obtain ⟨⟨he, hx'⟩, hkept⟩ :=
      B₁.settled S hs' (k := s + 1) (.inr (by omega)) (by omega) (by omega) (by omega)
    rw [he, hx', h']
    simp [hkept, h₁, hfresh, show i ≠ s + 1 by omega]
  have hafter : o'.events (s + 2) = [] := by
    have hkept := B₁.kept (k := s + 2) (by omega) (by omega)
    simp [h', hkept, h₁, hfresh]
  have hfirst : o₁.events s = [] := by simp [h₁, hfresh]
  have R := hc.round targets B₁ S hs' (by omega) (by omega) (by omega)
    (fun k hk => by
      rw [h']
      by_cases hl : last = some k <;> simp [hl, show k ≠ s + 1 by omega])
    hfirst hafter
  refine Refines.enter (Outline.passes_out (Nat.ne_of_lt hexit) hi.1 hi.2) (Refines.doWhile ?_ R)
  rw [Continues, Outline.Open, hafter]
  exact Outline.tests_head (by omega) hhead.1 hhead.2

theorem Realizes.forLoop {id id' : UInt64} {src : Span}
    {initialization condition step : Option Node}
    {b : Node} (hc : c.Realizes (Execution (.statement b))) :
    (forLoop id (initialization.map .ofNode) condition (step.map .ofNode) c).Realizes
      (Execution (.statement ⟨id', src, .forStatement initialization condition step b⟩)) := by
  refine ⟨fun B t e hrun => ?_, fun {targets i o _ o'} B G S => ?_⟩ <;>
    obtain ⟨s, o₁, last, o₂, hs, hopened, hinit, hstep, h₁, hbody, h', rfl⟩ := B.draws.forLoop
  · cases hrun with
    | forLoop _ hrun => exact canEnd_of_ne_jumped (loop_ne_jumped hrun)
  obtain ⟨hlt, hx⟩ := B.pending i rfl
  have hexit := B.exit_lt
  have hfresh : ∀ k, s ≤ k → o.events k = [] ∧ o.exits k = [] :=
    fun k hk => B.fresh k (hs ▸ hk)
  have hs₁ : o₁.size = s + 5 := by simp [h₁, hs]
  have B₁ : c.DrawsFrom (some ⟨s + 3, s + 4⟩) (s + 2) o₁ last o₂ := by
    refine ⟨hbody, hopened B.fresh B.pending, ?_, by omega⟩
    rintro _ ⟨⟩
    simp [h₁, hfresh, show i ≠ s + 2 by omega, ← hs]
  have hs₂ := B₁.grows.size_le
  have hs' : o'.size = o₂.size := by simp [h']
  have htest : ∀ k, k ≠ s + 1 → (condition.map fun _ => s + 1) ≠ some k :=
    fun k => testing_ne condition
  have hi : G.events i = o.events i ∧ G.exits i = [(none, s)] := by
    obtain ⟨⟨he, hx'⟩, hkept⟩ := B₁.settled S hs' (.inl rfl) (by omega) (by omega) (by omega)
    rw [he, hx', h']
    simp [hkept, h₁, hx, htest, show i ≠ s by omega, show i ≠ s + 1 by omega,
      show i ≠ s + 3 by omega]
  have hstart : G.events s = ((initialization.map .ofNode).map Clause.events).getD [] ∧
      G.exits s = [(none, s + 1)] := by
    obtain ⟨⟨he, hx'⟩, hkept⟩ :=
      B₁.settled S hs' (k := s) (.inr hs.ge) (by omega) (by omega) (by omega)
    rw [he, hx', h']
    simp [hkept, h₁, hfresh, htest, show i ≠ s by omega]
  have hhead : G.events (s + 1) = condition.toList.map (.statement .condition) ∧
      G.exits (s + 1) = (condition.map fun _ => .onTrue, s + 2) ::
        condition.toList.map fun _ => (some .onFalse, s + 4) := by
    obtain ⟨⟨he, hx'⟩, hkept⟩ :=
      B₁.settled S hs' (k := s + 1) (.inr (by omega)) (by omega) (by omega) (by omega)
    rw [he, hx', h']
    cases condition <;> simp [hkept, h₁, hfresh, show i ≠ s + 1 by omega]
  have hback : G.events (s + 3) = ((step.map .ofNode).map Clause.events).getD [] ∧
      G.exits (s + 3) = [(none, s + 1)] := by
    obtain ⟨⟨he, hx'⟩, hkept⟩ :=
      B₁.settled S hs' (k := s + 3) (.inr (by omega)) (by omega) (by omega) (by omega)
    rw [he, hx', h']
    simp [hkept, h₁, hfresh, htest, show i ≠ s + 3 by omega]
  have hafter : o'.events (s + 4) = [] := by
    have hkept := B₁.kept (k := s + 4) (by omega) (by omega)
    simp [h', hkept, h₁, hfresh]
  have hfirst : o₁.events (s + 2) = [] := by simp [h₁, hfresh]
  have R := hc.round targets B₁ S hs' (by omega) (by omega) (by omega)
    (fun k hk => by
      rw [h']
      by_cases hl : last = some k <;>
        simp [hl, htest k (by omega), show k ≠ s + 3 by omega])
    hfirst hafter
  have L := Refines.loop (by
      rw [Continues, Outline.Open, hafter]
      exact Outline.tests_head (by omega) hhead.1 hhead.2) R
    (refines_clause hstep (by
      simpa using (Outline.passes_events hback.1).trans (Outline.passes_edge (by omega) hback.2)))
  have P := ((Outline.passes_out (Nat.ne_of_lt hexit) hi.1 hi.2).trans
    (Outline.passes_events hstart.1)).trans (Outline.passes_edge (by omega) hstart.2)
  rw [outcomeEvents_none, List.nil_append, List.append_nil] at P
  refine (Refines.after P L).congr fun t e => ?_
  constructor
  · rintro ⟨t', rfl, hrun⟩
    exact .forLoop ((execution_clause hinit).mpr rfl) hrun
  · rintro ⟨⟩
    next t t' hinit' hrun =>
    exact ⟨t', by rw [(execution_clause hinit).mp hinit'], hrun⟩

/-! ## Branches -/

/-- The node that an arm begins in, which is where the arms meet if the arm is missing. -/
def armStart (arm : Option Command) (first meeting : Nat) : Nat :=
  match arm with
  | some _ => first
  | none => meeting

/-- The edges that connect the ends of arms which are at a node. -/
def meetingEdges (ends : List (Nat × Option Branch)) (meeting k : Nat) :
    List (Option Branch × Nat) :=
  (ends.filter (·.1 = k)).map fun e => (e.2, meeting)

theorem meetingEdges_append {ends ends' : List (Nat × Option Branch)} {meeting k : Nat} :
    meetingEdges (ends ++ ends') meeting k =
      meetingEdges ends meeting k ++ meetingEdges ends' meeting k := by
  simp [meetingEdges]

theorem meetingEdges_eq_nil {ends : List (Nat × Option Branch)} {meeting k : Nat}
    (h : ∀ e ∈ ends, e.1 ≠ k) : meetingEdges ends meeting k = [] := by
  rw [meetingEdges, List.filter_eq_nil_iff.mpr (by simpa using h), List.map_nil]

theorem meetingEdges_toList {last : Option Nat} {meeting k : Nat} :
    meetingEdges (last.toList.map (·, none)) meeting k =
      if last = some k then [(none, meeting)] else [] := by
  cases last with
  | none => rfl
  | some j => by_cases h : j = k <;> simp [meetingEdges, h]

section Arms

variable {id : UInt64} {head meeting : Nat} {outcome : Branch} {part : Option Node}
  {ends : List (Nat × Option Branch)} {After : Future}

/-- An arm adds one way out of the node where the branch is made. -/
theorem ArmDraws.mem_exits {arm : Option Command}
    (h : ArmDraws arm targets id head outcome o ends o')
    (F : o.Fresh) (hhead : head < o.size) (meeting : Nat) (x : Option Branch × Nat) :
    x ∈ o'.exits head ++ meetingEdges ends meeting head ↔
      x ∈ o.exits head ∨ x = (some outcome, armStart arm o.size meeting) := by
  cases arm with
  | none =>
    obtain ⟨rfl, rfl⟩ := h.absent
    simp [meetingEdges, armStart]
  | some arm =>
    obtain ⟨o₁, last, h₁, harm, rfl⟩ := h.present
    have hopened : o₁.Fresh := h₁ ▸ F.grow.connect (Nat.lt_succ_of_lt hhead) _ _
    have A := arm.drawingGrows harm hopened (by
      rintro i ⟨⟩
      simp [h₁, show o.size ≠ head by omega, (F _ (Nat.le_refl _)).2])
    have hlt : head < o₁.size := by simp [h₁]; omega
    have hne : some o.size ≠ some head := by simp; omega
    rw [meetingEdges_toList, if_neg (A.result_ne hlt hne), (A.kept head hlt hne).2, h₁]
    simp [armStart]

theorem ArmDraws.drawsFrom {arm : Command}
    (h : ArmDraws (some arm) targets id head outcome o ends o')
    (F : o.Fresh) (hexit : FlowGraph.exit < head) (hhead : head < o.size) :
    ∃ o₁ last, arm.DrawsFrom targets o.size o₁ last o' ∧ o₁.size = o.size + 1 ∧
      o₁.events o.size = [] ∧ ends = last.toList.map (·, none) := by
  obtain ⟨o₁, last, h₁, harm, rfl⟩ := h.present
  have hfresh := F _ (Nat.le_refl _)
  have hopened : o₁.Fresh := h₁ ▸ F.grow.connect (Nat.lt_succ_of_lt hhead) _ _
  refine ⟨o₁, last, ⟨harm, hopened, ?_, by omega⟩, by simp [h₁], by simp [h₁, hfresh], rfl⟩
  rintro i ⟨⟩
  simp [h₁, show o.size ≠ head by omega, hfresh]

theorem canEnd_arm (hn : ∀ n, part = some n → (ofNode n).Realizes (Execution (.statement n)))
    (h : ArmDraws (ofNode? part) targets id head outcome o ends o') (F : o.Fresh)
    (hexit : FlowGraph.exit < head) (hhead : head < o.size) (hresult : ends ≠ [] → result.isSome)
    {t : List Event} {e : Ending} (hrun : Execution (.optional part) t e) :
    CanEnd targets result e := by
  cases hrun with
  | absent =>
    obtain ⟨rfl, -⟩ := ArmDraws.absent h
    exact hresult (by simp)
  | present hrun =>
    obtain ⟨o₁, last, B, -, -, rfl⟩ := ArmDraws.drawsFrom h F hexit hhead
    have := (hn _ rfl).canEnd B hrun
    cases e with
    | normal =>
      obtain ⟨j, rfl⟩ := Option.isSome_iff_exists.mp this
      exact hresult (by simp)
    | _ => exact this

theorem refines_arm (hn : ∀ n, part = some n → (ofNode n).Realizes (Execution (.statement n)))
    (h : ArmDraws (ofNode? part) targets id head outcome o ends o') (F : o.Fresh)
    (hexit : FlowGraph.exit < head) (hhead : head < o.size)
    (hafter : ends ≠ [] → After = G.Reads [] meeting)
    (hG : ∀ k, o.size ≤ k → k < o'.size →
      G.events k = o'.events k ∧ G.exits k = o'.exits k ++ meetingEdges ends meeting k) :
    Refines (G.Reads [] (armStart (ofNode? part) o.size meeting)) (Execution (.optional part))
      (Continues G targets After) := by
  cases part with
  | none =>
    obtain ⟨rfl, -⟩ := ArmDraws.absent h
    rw [hafter (by simp)]
    have P : Passes (G.Reads [] meeting) []
      (Continues G targets (G.Reads [] meeting) .normal) := .refl _
    exact (Refines.of_passes P).congr fun t e =>
      ⟨fun ⟨ht, he⟩ => ht ▸ he ▸ .absent, fun | .absent => ⟨rfl, rfl⟩⟩
  | some n =>
    obtain ⟨o₁, last, B, hs₁, he, rfl⟩ := ArmDraws.drawsFrom h F hexit hhead
    have R := (hn n rfl).joined B fun k hk hlt => by
      rw [← meetingEdges_toList]
      exact hG k (by omega) hlt
    rw [he] at R
    refine (R.follow fun {t e} hrun => ?_).congr fun t e => ⟨.present, fun | .present h => h⟩
    cases e with
    | normal =>
      obtain ⟨j, rfl⟩ := Option.isSome_iff_exists.mp ((hn n rfl).canEnd B hrun)
      rw [hafter (by simp)]
      exact .refl _
    | _ => exact .refl _

end Arms

/-- The arms of a branch at `s` as they are in a finished outline, where their ends meet. -/
structure ArmsMeet (G : Outline) (i s : Nat) (o₁ o₂ o₃ : Outline)
    (trueEnds falseEnds : List (Nat × Option Branch)) : Prop where
  lt_size : s < o₁.size
  onTrue : Outline.ArmGrows s o₁ trueEnds o₂
  onFalse : Outline.ArmGrows s o₂ falseEnds o₃
  met : ∀ k, i = k ∨ s ≤ k → k < o₃.size → G.events k = o₃.events k ∧
    G.exits k = o₃.exits k ++ meetingEdges (trueEnds ++ falseEnds) o₃.size k

namespace ArmsMeet

variable {s k : Nat} {o₁ o₂ o₃ : Outline} {trueEnds falseEnds : List (Nat × Option Branch)}

theorem meetingEdges_falseEnds (M : ArmsMeet G i s o₁ o₂ o₃ trueEnds falseEnds) (hk : k ≠ s)
    (hlt : k < o₂.size) : meetingEdges falseEnds o₃.size k = [] := by
  refine meetingEdges_eq_nil fun e he => ?_
  rcases M.onFalse.ends_mem e he with h | h <;> omega

theorem meetingEdges_trueEnds (M : ArmsMeet G i s o₁ o₂ o₃ trueEnds falseEnds) (hk : k ≠ s)
    (hlt : k < o₁.size ∨ o₂.size ≤ k) : meetingEdges trueEnds o₃.size k = [] := by
  refine meetingEdges_eq_nil fun e he => ?_
  rcases M.onTrue.ends_mem e he with h | h <;> omega

/-- What was there before the arms is as it was, except at the head of the branch. -/
theorem kept (M : ArmsMeet G i s o₁ o₂ o₃ trueEnds falseEnds) (hk : i = k ∨ s ≤ k) (hne : k ≠ s)
    (hlt : k < o₁.size) : G.events k = o₁.events k ∧ G.exits k = o₁.exits k := by
  have hs₂ := M.onTrue.size_le
  have hs₃ := M.onFalse.size_le
  obtain ⟨he, hx⟩ := M.met k hk (by omega)
  obtain ⟨heF, hxF⟩ := M.onFalse.kept k (by omega) hne
  obtain ⟨heT, hxT⟩ := M.onTrue.kept k hlt hne
  rw [he, hx, heF, hxF, heT, hxT, meetingEdges_append, M.meetingEdges_trueEnds hne (.inl hlt),
    M.meetingEdges_falseEnds hne (by omega), List.append_nil, List.append_nil]
  exact ⟨rfl, rfl⟩

theorem events_head (M : ArmsMeet G i s o₁ o₂ o₃ trueEnds falseEnds) :
    G.events s = o₁.events s := by
  have hs₁ := M.lt_size
  have hs₂ := M.onTrue.size_le
  have hs₃ := M.onFalse.size_le
  rw [(M.met s (.inr (Nat.le_refl _)) (by omega)).1, M.onFalse.events_head, M.onTrue.events_head]

theorem trueArm (M : ArmsMeet G i s o₁ o₂ o₃ trueEnds falseEnds) (hle : o₁.size ≤ k)
    (hlt : k < o₂.size) : G.events k = o₂.events k ∧
      G.exits k = o₂.exits k ++ meetingEdges trueEnds o₃.size k := by
  have hs₁ := M.lt_size
  have hs₃ := M.onFalse.size_le
  obtain ⟨he, hx⟩ := M.met k (.inr (by omega)) (by omega)
  obtain ⟨heF, hxF⟩ := M.onFalse.kept k hlt (by omega)
  rw [he, hx, heF, hxF, meetingEdges_append, M.meetingEdges_falseEnds (by omega) hlt,
    List.append_nil]
  exact ⟨rfl, rfl⟩

theorem falseArm (M : ArmsMeet G i s o₁ o₂ o₃ trueEnds falseEnds) (hle : o₂.size ≤ k)
    (hlt : k < o₃.size) : G.events k = o₃.events k ∧
      G.exits k = o₃.exits k ++ meetingEdges falseEnds o₃.size k := by
  have hs₁ := M.lt_size
  have hs₂ := M.onTrue.size_le
  obtain ⟨he, hx⟩ := M.met k (.inr (by omega)) hlt
  rw [he, hx, meetingEdges_append, M.meetingEdges_trueEnds (by omega) (.inr hle), List.nil_append]
  exact ⟨rfl, rfl⟩

end ArmsMeet

/-- The stages of drawing a branch. -/
theorem DrawsFrom.branch {id : UInt64} {condition : Condition} {onTrue onFalse : Option Command}
    (B : (branch id condition onTrue onFalse).DrawsFrom targets i o result o') :
    ∃ o₁ o₂ o₃ trueEnds falseEnds,
      condition.Draws .condition (some i) none o.size o.grow o₁ ∧
      condition.Grows .condition (some i) none o.size o.grow o₁ ∧ o₁.Fresh ∧
      ArmDraws onTrue targets id o.size .onTrue o₁ trueEnds o₂ ∧
      Outline.ArmGrows o.size o₁ trueEnds o₂ ∧ o₂.Fresh ∧
      ArmDraws onFalse targets id o.size .onFalse o₂ falseEnds o₃ ∧
      Outline.ArmGrows o.size o₂ falseEnds o₃ ∧ o₃.Fresh ∧
      ((trueEnds ++ falseEnds = [] ∧ result = none ∧ o' = o₃) ∨
        (trueEnds ++ falseEnds ≠ [] ∧ result = some o₃.size ∧
          o' = o₃.grow.connectAll (trueEnds ++ falseEnds) o₃.size)) := by
  obtain ⟨_, _, o₁, o₂, o₃, trueEnds, falseEnds, rfl, rfl, hcond, htrue, hfalse, h'⟩ :=
    B.draws.branch
  have C := hcond.grows (fun j hj => Nat.lt_succ_of_lt (B.pending j hj).1) (Nat.lt_succ_self _)
  have hs₁ : o.size < o₁.size := C.size_le
  have F₁ := C.fresh B.fresh.grow
  have T := armDrawingGrows onTrue htrue F₁ hs₁
  have F₂ := T.fresh F₁
  have hs₂ := T.size_le
  have E := armDrawingGrows onFalse hfalse F₂ (by omega)
  exact ⟨o₁, o₂, o₃, trueEnds, falseEnds, hcond, C, F₁, htrue, T, F₂, hfalse, E, E.fresh F₂, h'⟩

theorem Realizes.branch {id id' : UInt64} {src : Span} {condition : Node}
    {onTrue onFalse : Option Node}
    (ht : ∀ n, onTrue = some n → (ofNode n).Realizes (Execution (.statement n)))
    (hf : ∀ n, onFalse = some n → (ofNode n).Realizes (Execution (.statement n))) :
    (branch id (.ofNode condition) (ofNode? onTrue) (ofNode? onFalse)).Realizes
      (Execution (.statement ⟨id', src, .ifStatement condition onTrue onFalse⟩)) := by
  refine ⟨fun {targets i o r o'} B t e hrun => ?_, fun {targets i o r o'} B G S => ?_⟩ <;>
    obtain ⟨o₁, o₂, o₃, trueEnds, falseEnds, hcond, C, F₁, htrue, T, F₂, hfalse, F, F₃, h'⟩ :=
      B.branch <;>
    have hexit := B.exit_lt_size <;>
    have hs₁ : o.size < o₁.size := C.size_le <;>
    have hs₂ := T.size_le
  · have hresult : trueEnds ++ falseEnds ≠ [] → r.isSome := by
      intro hne
      rcases h' with ⟨h, -⟩ | ⟨-, rfl, -⟩
      · exact absurd h hne
      · rfl
    cases hrun with
    | ifTrue _ hrun =>
      exact canEnd_arm ht htrue F₁ hexit hs₁ (fun h => hresult (by simp [h])) hrun
    | ifFalse _ hrun =>
      exact canEnd_arm hf hfalse F₂ hexit (by omega) (fun h => hresult (by simp [h])) hrun
  obtain ⟨hlt, hx⟩ := B.pending i rfl
  have hfresh := B.fresh _ (Nat.le_refl _)
  have M : ArmsMeet G i o.size o₁ o₂ o₃ trueEnds falseEnds := by
    refine ⟨hs₁, T, F, fun k hk hlt => ?_⟩
    rcases h' with ⟨hnil, rfl, rfl⟩ | ⟨-, rfl, h'⟩
    · obtain ⟨he, hx⟩ := S.fixed k (by simpa using hk) hlt nofun
      rw [hnil, meetingEdges, List.filter_nil, List.map_nil, List.append_nil]
      exact ⟨he, hx⟩
    · obtain ⟨he, hx⟩ := S.fixed k (by simpa using hk) (by simp [h']; omega) (by simp; omega)
      rw [he, hx, h', Outline.connectAll_events, Outline.connectAll_exits]
      exact ⟨rfl, rfl⟩
  have hafter : trueEnds ++ falseEnds ≠ [] →
      G.Open o' r = G.Reads [] o₃.size := by
    intro hne
    rcases h' with ⟨h, -⟩ | ⟨-, rfl, h'⟩
    · exact absurd h hne
    · rw [Outline.Open, h', Outline.connectAll_events, Outline.grow_events,
        (F₃ _ (Nat.le_refl _)).1]
  have hi : G.events i = o.events i ∧
      G.exits i = [(none, (Condition.ofNode condition).start o.size o.grow.size)] := by
    obtain ⟨he, hx'⟩ := M.kept (.inl rfl) (by omega) (by omega)
    rw [he, hx', C.events_kept i (Nat.lt_succ_of_lt hlt) (by omega), C.entered i rfl]
    simp [hx]
  have hevents : G.events o.size = [(Condition.ofNode condition).result .condition] := by
    rw [M.events_head, C.held, Outline.grow_events, hfresh.1, List.nil_append]
  have hchoice : ∀ x, x ∈ G.exits o.size ↔
      x = (some .onTrue, armStart (ofNode? onTrue) o₁.size o₃.size) ∨
        x = (some .onFalse, armStart (ofNode? onFalse) o₂.size o₃.size) := by
    intro x
    have hs₃ := F.size_le
    have hnil : o₁.exits o.size = [] := by
      rw [C.exits_kept _ (Nat.lt_succ_self _) (by simp; omega), Outline.grow_exits, hfresh.2]
    have hmemT := htrue.mem_exits F₁ hs₁ o₃.size x
    have hmemF := hfalse.mem_exits F₂ (by omega) o₃.size x
    rw [(M.met _ (.inr (Nat.le_refl _)) (by omega)).2, meetingEdges_append]
    simp only [List.mem_append, hnil, List.not_mem_nil, false_or] at hmemT hmemF ⊢
    rw [← hmemT, or_right_comm, ← hmemF, or_right_comm, or_assoc]
  have hs₀ : o.grow.size = o.size + 1 := rfl
  have hcondition := (Condition.realizes condition).refines (G := G) hcond B.fresh.grow
    (by rintro j ⟨⟩; omega) (by omega) (by omega)
    (fun k hk hlt => M.kept (.inr (by omega)) (by omega) hlt) hevents
  refine Refines.enter (Outline.passes_out (Nat.ne_of_lt B.exit_lt) hi.1 hi.2)
    (Refines.branch (Nat.ne_of_lt hexit) hchoice hcondition ?_ ?_)
  · exact refines_arm ht htrue F₁ hexit hs₁ (fun h => hafter (by simp [h])) fun k => M.trueArm
  · exact refines_arm hf hfalse F₂ hexit (by omega) (fun h => hafter (by simp [h]))
      fun k => M.falseArm

end Command

end ContractFlow
