import ContractFlow.Proofs.Realization

/-!
The graph of a function has its control flow. Every statement is realized by its command
(`Command.realizes_ofNode`), and what can be read in the outline of a graph is what its paths read
(`FlowGraph.WellFormed.trail_iff`). Together, `FlowGraph.ofFunction_trail_iff`: what is read from
the entry to the exit of the graph of a function is exactly the complete executions of the function.
-/

namespace ContractFlow

namespace Command

theorem realizes_unsupported {node : Node} {R : List Event → Ending → Prop} :
    (unsupported node).Realizes R :=
  ⟨fun B => B.draws.unsupported.elim, fun B => B.draws.unsupported.elim⟩

/-- The statements of one event that control falls through. -/
theorem realizes_of_emits {c : Command} {event : Event} {ending : Ending} {task : Task}
    (hc : c.Realizes (Emits event ending)) (hrun : Execution task [event] ending)
    (honly : ∀ {t e}, Execution task t e → t = [event] ∧ e = ending) :
    c.Realizes (Execution task) := by
  refine hc.congr fun t e => ⟨?_, honly⟩
  rintro ⟨rfl, rfl⟩
  exact hrun

theorem realizes_ofNode (n : Node) : (ofNode n).Realizes (Execution (.statement n)) := by
  refine ofNode.induct (fun n => (ofNode n).Realizes (Execution (.statement n)))
    (fun o => ∀ n, o = some n → (ofNode n).Realizes (Execution (.statement n)))
    (fun l => (ofNodes l).Realizes (Execution (.sequence l)))
    ?block ?uncheckedBlock ?declaration ?expression ?emit ?revert ?placeholder ?branch ?whileLoop
    ?doWhileLoop ?forLoop ?returning ?breaking ?continuing ?unsupported ?nil ?cons ?some ?none n
  case block =>
    intro id src statements ih
    rw [ofNode]
    exact ih.congr fun t e => ⟨.block, fun h => by cases h; assumption⟩
  case uncheckedBlock =>
    intro id src statements ih
    rw [ofNode]
    exact ih.congr fun t e => ⟨.uncheckedBlock, fun h => by cases h; assumption⟩
  case declaration =>
    intro id src declarations value
    rw [ofNode]
    exact realizes_of_emits realizes_simple .declaration fun h => by cases h; exact ⟨rfl, rfl⟩
  case expression =>
    intro id src expression
    rw [ofNode]
    exact realizes_of_emits realizes_simple .expression fun h => by cases h; exact ⟨rfl, rfl⟩
  case emit =>
    intro id src call
    rw [ofNode]
    exact realizes_of_emits realizes_simple .emit fun h => by cases h; exact ⟨rfl, rfl⟩
  case revert =>
    intro id src call
    rw [ofNode]
    exact realizes_of_emits realizes_simple .revert fun h => by cases h; exact ⟨rfl, rfl⟩
  case placeholder =>
    intro id src
    rw [ofNode]
    exact realizes_of_emits realizes_simple .placeholder fun h => by cases h; exact ⟨rfl, rfl⟩
  case branch =>
    intro id src condition onTrue onFalse iht ihf
    rw [ofNode]
    exact .branch iht ihf
  case whileLoop =>
    intro id src condition body ih
    rw [ofNode]
    exact ih.whileLoop
  case doWhileLoop =>
    intro id src condition body ih
    rw [ofNode]
    exact ih.doWhileLoop
  case forLoop =>
    intro id src initialization condition step body ih
    rw [ofNode]
    exact ih.forLoop
  case returning =>
    intro id src expression
    rw [ofNode]
    exact realizes_of_emits realizes_return .return fun h => by cases h; exact ⟨rfl, rfl⟩
  case breaking =>
    intro id src
    rw [ofNode]
    exact realizes_of_emits realizes_jump .break fun h => by cases h; exact ⟨rfl, rfl⟩
  case continuing =>
    intro id src
    rw [ofNode]
    exact realizes_of_emits realizes_jump .continue fun h => by cases h; exact ⟨rfl, rfl⟩
  case unsupported =>
    intro node h₁ h₂ h₃ h₄ h₅ h₆ h₇ h₈ h₉ h₁₀ h₁₁ h₁₂ h₁₃ h₁₄
    have hnode : ofNode node = unsupported node := by
      simp only [ofNode]
    rw [hnode]
    exact realizes_unsupported
  case nil => exact realizes_skip
  case cons => exact fun node rest ih ihs => ih.seq ihs
  case some =>
    rintro node ih _ ⟨⟩
    exact ih
  case none => nofun

end Command

namespace FlowGraph

variable {function : Node} {source : String} {g : FlowGraph}

/-- What the paths from a node to the exit read is what can be read from the node in the outline. -/
theorem WellFormed.trail_iff (H : g.WellFormed) {i : Nat} (hi : i < g.outline.size)
    {t : List Event} :
    g.Trail i exit t ↔ ∃ n, g.outline.Reads [] i t n := by
  constructor
  · intro h
    generalize hj : exit = j at h
    induction h with
    | stop hn =>
      subst hj
      exact ⟨0, _, [], outline_events hn, (List.append_nil _).symm, .exit⟩
    | step hn he _ ih =>
      next v e _ _ _ =>
      subst hj
      obtain ⟨m, rest, t', hrest, rfl, hlead⟩ := ih ((H.dense _).mp (H.consistent.ends e he).2) rfl
      have hstep := Outline.Leads.step (mem_outline_exits.mpr ⟨e, he, rfl, rfl, rfl⟩) hlead
      refine ⟨m + 1, v.events, _, outline_events hn, ?_, hstep⟩
      simp [hrest, outcomeEvents]
  · rintro ⟨n, rest, t', he, rfl, hlead⟩
    obtain ⟨v, hv⟩ := H.exists_node hi
    rw [outline_events hv, List.nil_append] at he
    subst he
    clear hi
    induction hlead generalizing v with
    | exit =>
      rw [List.append_nil]
      exact .stop hv
    | step hmem _ ih =>
      obtain ⟨e, hedge, rfl, rfl, rfl⟩ := mem_outline_exits.mp hmem
      obtain ⟨w, hw⟩ := H.exists_node ((H.dense _).mp (H.consistent.ends e hedge).2)
      have := Trail.step hv hedge (ih w hw)
      simpa [outline_events hw, outcomeEvents] using this

/-- Nothing is read from the exit on. -/
theorem reads_exit_iff {G : Outline} (he : G.events exit = []) (hx : G.exits exit = [])
    {t : List Event} {n : Nat} : G.Reads [] exit t n ↔ t = [] ∧ n = 0 := by
  constructor
  · rintro ⟨rest, t', hrest, rfl, hlead⟩
    cases hlead with
    | exit => exact ⟨by simpa [he] using hrest.symm, rfl⟩
    | step hmem _ => simp [hx] at hmem
  · rintro ⟨rfl, rfl⟩
    exact ⟨[], [], by simpa using he, rfl, .exit⟩

section Functions

variable {id : UInt64} {name : String} {body : Node}

/-- The body of a function is drawn from its first block. -/
theorem LaidOut.drawsFrom (L : g.LaidOut id name (some body)) :
    ∃ o last o', (Command.ofNode body).DrawsFrom none 2 o last o' ∧
      o = ends.grow.connect entry 2 none ∧ g.outline = o'.link last exit none := by
  refine ⟨_, _, _, ⟨⟨?_, rfl, rfl⟩, ?_, ?_, by decide⟩, rfl, ?_⟩
  · simpa [bodyOffences] using L.offences
  · have F : ends.Fresh := fun _ _ => ⟨rfl, rfl⟩
    exact F.grow.connect (by decide) _ _
  · rintro _ ⟨⟩
    simp [ends, entry]
  · rw [L.outline_eq]
    simp only [Outline.connect_eq_extend, Outline.grow_eq_extend, Outline.link_eq_extend,
      Outline.extend_extend, Outline.extend_size, functionLayout, bodyRecords]
    congr 1
    simp [ends, Nat.add_comm]

theorem LaidOut.trail_iff (L : g.LaidOut id name (some body)) (t : List Event) :
    g.Trail entry exit t ↔
      Execution (.statement body) t .normal ∨ Execution (.statement body) t .returned := by
  obtain ⟨o, last, o', B, ho, h'⟩ := L.drawsFrom
  have hs : o.size = 3 := by rw [ho]; rfl
  have hs' := B.grows.size_le
  have hkept : ∀ k, k < 2 → g.outline.events k = [] ∧ g.outline.exits k = o.exits k := by
    intro k hk
    obtain ⟨hlast, he, hx⟩ := B.kept (k := k) (by omega) (by omega)
    rw [h', Outline.link_events, Outline.link_exits, if_neg hlast, he, hx, ho]
    exact ⟨rfl, rfl⟩
  have hentry : g.outline.exits entry = [(none, 2)] := by
    rw [(hkept entry (by decide)).2, ho]
    rfl
  have hexit : ∀ {t n}, g.outline.Reads [] exit t n ↔ t = [] ∧ n = 0 :=
    reads_exit_iff (hkept exit (by decide)).1 (by rw [(hkept exit (by decide)).2, ho]; rfl)
  have hlink : ∀ k, 2 = k ∨ o.size ≤ k → k < o'.size → g.outline.events k = o'.events k ∧
      g.outline.exits k = o'.exits k ++ if last = some k then [(none, exit)] else [] := by
    intro k _ _
    rw [h', Outline.link_events, Outline.link_exits]
    by_cases hl : last = some k <;> simp [hl]
  have R := (Command.realizes_ofNode body).joined B hlink
  rw [show o.events 2 = [] by rw [ho]; rfl] at R
  have R' := Refines.enter (Outline.passes_out (by decide) (hkept entry (by decide)).1 hentry) R
  rw [L.wellFormed.trail_iff (by rw [h', Outline.link_size]; show 0 < _; omega)]
  constructor
  · rintro ⟨n, hread⟩
    obtain ⟨t₁, e, t₂, m, rfl, hrun, hend, -⟩ := R'.sound hread
    cases e with
    | normal =>
      obtain ⟨rfl, -⟩ := hexit.mp hend
      exact .inl (by simpa using hrun)
    | returned =>
      obtain ⟨rfl, -⟩ := hexit.mp hend
      exact .inr (by simpa using hrun)
    | jumped => exact hend.elim
  · rintro (hrun | hrun)
    · simpa using R'.complete (e := .normal) hrun (hexit.mpr ⟨rfl, rfl⟩)
    · simpa using R'.complete (e := .returned) hrun (hexit.mpr ⟨rfl, rfl⟩)

theorem LaidOut.trail_iff_eq_nil (L : g.LaidOut id name none) (t : List Event) :
    g.Trail entry exit t ↔ t = [] := by
  have h' : g.outline = ends.connect entry exit none := by
    rw [L.outline_eq, Outline.connect_eq_extend]
    rfl
  have hentry : g.outline.exits entry = [(none, exit)] := by
    rw [h']
    rfl
  have P : Passes (g.outline.Reads [] entry) (outcomeEvents none) (g.outline.Reads [] exit) :=
    Outline.passes_out (by decide) (by rw [h']; rfl) hentry
  have hexit : ∀ {t n}, g.outline.Reads [] exit t n ↔ t = [] ∧ n = 0 :=
    reads_exit_iff (by rw [h']; rfl) (by rw [h']; rfl)
  rw [L.wellFormed.trail_iff (by rw [h']; decide)]
  constructor
  · rintro ⟨n, hread⟩
    obtain ⟨t', m, rfl, hread', -⟩ := P.sound hread
    exact (hexit.mp hread').1
  · rintro rfl
    simpa using P.complete (hexit.mpr ⟨rfl, rfl⟩)

end Functions

/-- **Control flow is preserved.** What is read along the paths from the entry to the exit of the
graph of a function is exactly the complete executions of the function. -/
theorem ofFunction_trail_iff (h : ofFunction function source = .ok g) :
    ∃ definition, function.function? = some definition ∧
      ∀ t, g.Trail entry exit t ↔ definition.Completes t := by
  obtain ⟨definition, hdef, L⟩ := ofFunction_laidOut h
  refine ⟨definition, hdef, fun t => ?_⟩
  have hoptional : ∀ {n e}, Execution (.optional (some n)) t e ↔ Execution (.statement n) t e :=
    ⟨fun h => by cases h; assumption, .present⟩
  rw [FunctionDefinition.Completes]
  cases hbody : definition.body with
  | none =>
    rw [hbody] at L
    rw [L.trail_iff_eq_nil]
    constructor
    · rintro rfl
      exact .inl .absent
    · rintro (h | h)
      · cases h
        rfl
      · cases h
  | some body =>
    rw [hbody] at L
    rw [L.trail_iff, hoptional, hoptional]

theorem ofFunction_trail_iff_countdown : ∃ g, ofFunction countdown "" = .ok g ∧
    ∃ definition, countdown.function? = some definition ∧
      ∀ t, g.Trail entry exit t ↔ definition.Completes t := by
  obtain ⟨g, hg⟩ := countdown_builds
  exact ⟨g, hg, ofFunction_trail_iff hg⟩

end FlowGraph

end ContractFlow
