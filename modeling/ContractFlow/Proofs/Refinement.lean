import ContractFlow.Proofs.Growth

/-!
What can be read from a node to the exit. `Outline.Leads` is what the paths from a node to the exit
read after its statements, and `Outline.Reads` what they read when some of its statements are done;
both count the edges of the path.

Two relations take apart what can be read. `Passes A events K` says that it is some events followed
by what can be read elsewhere, and `Refines A R K` that it is an execution followed by what can be
read where the execution ends. `Refines.loop` and `Refines.doWhile` are the rules for loops, by
induction on the length of paths and on executions.
-/

namespace ContractFlow

/-- What can be read from some point on, with the number of edges that it takes. -/
abbrev Future := List Event → Nat → Prop

/-- What can be read is the given events followed by what can be read elsewhere. -/
structure Passes (A : Future) (events : List Event) (K : Future) : Prop where
  sound : ∀ {t n}, A t n → ∃ t' m, t = events ++ t' ∧ K t' m ∧ m ≤ n
  complete : ∀ {t m}, K t m → ∃ n, A (events ++ t) n

/-- What can be read is an execution followed by what can be read where it ends. -/
structure Refines {ι : Type} (A : Future) (R : List Event → ι → Prop) (K : ι → Future) : Prop where
  sound : ∀ {t n}, A t n → ∃ t₁ e t₂ m, t = t₁ ++ t₂ ∧ R t₁ e ∧ K e t₂ m ∧ m ≤ n
  complete : ∀ {t₁ e t₂ m}, R t₁ e → K e t₂ m → ∃ n, A (t₁ ++ t₂) n

variable {A B C : Future} {events events' : List Event}

namespace Passes

theorem refl (A : Future) : Passes A [] A :=
  ⟨fun h => ⟨_, _, rfl, h, Nat.le_refl _⟩, fun h => ⟨_, h⟩⟩

theorem trans (P : Passes A events B) (Q : Passes B events' C) :
    Passes A (events ++ events') C := by
  constructor
  · intro t n h
    obtain ⟨_, m, rfl, hB, hm⟩ := P.sound h
    obtain ⟨t', m', rfl, hC, hm'⟩ := Q.sound hB
    exact ⟨t', m', by simp, hC, hm'.trans hm⟩
  · intro t m h
    obtain ⟨n, hB⟩ := Q.complete h
    obtain ⟨n', hA⟩ := P.complete hB
    exact ⟨n', by simpa using hA⟩

end Passes

namespace Refines

variable {ι : Type} {R R' : List Event → ι → Prop} {K K' : ι → Future}

theorem congr (H : Refines A R K) (h : ∀ t e, R t e ↔ R' t e) : Refines A R' K := by
  constructor
  · intro t n hA
    obtain ⟨t₁, e, t₂, m, ht, hR, hK⟩ := H.sound hA
    exact ⟨t₁, e, t₂, m, ht, (h t₁ e).mp hR, hK⟩
  · exact fun hR hK => H.complete ((h _ _).mpr hR) hK

/-- Executions that end where nothing new can be read may be followed on. -/
theorem follow (H : Refines A R K) (hK : ∀ {t e}, R t e → Passes (K e) [] (K' e)) :
    Refines A R K' := by
  constructor
  · intro t n hA
    obtain ⟨t₁, e, t₂, m, rfl, hR, hk, hm⟩ := H.sound hA
    obtain ⟨_, m', rfl, hk', hm'⟩ := (hK hR).sound hk
    exact ⟨t₁, e, _, m', rfl, hR, hk', hm'.trans hm⟩
  · intro t₁ e t₂ m hR hk
    obtain ⟨n, hk'⟩ := (hK hR).complete hk
    exact H.complete hR hk'

/-- Executions after some events. -/
theorem after (P : Passes A events B) (H : Refines B R K) :
    Refines A (fun t e => ∃ t', t = events ++ t' ∧ R t' e) K := by
  constructor
  · intro t n hA
    obtain ⟨_, m, rfl, hB, hm⟩ := P.sound hA
    obtain ⟨t₁, e, t₂, m', rfl, hR, hK, hm'⟩ := H.sound hB
    exact ⟨events ++ t₁, e, t₂, m', (List.append_assoc ..).symm, ⟨t₁, rfl, hR⟩, hK, hm'.trans hm⟩
  · rintro _ e t₂ m ⟨t₁, rfl, hR⟩ hK
    obtain ⟨n, hB⟩ := H.complete hR hK
    obtain ⟨n', hA⟩ := P.complete hB
    exact ⟨n', by simpa using hA⟩

theorem enter (P : Passes A [] B) (H : Refines B R K) : Refines A R K :=
  (after P H).congr fun t e => by simp

/-- Executions of one kind only. -/
theorem of_passes {e : ι} (P : Passes A events (K e)) :
    Refines A (fun t e' => t = events ∧ e' = e) K := by
  constructor
  · intro t n hA
    obtain ⟨t', m, rfl, hK, hm⟩ := P.sound hA
    exact ⟨events, e, t', m, rfl, ⟨rfl, rfl⟩, hK, hm⟩
  · rintro _ _ t₂ m ⟨rfl, rfl⟩ hK
    exact P.complete hK

end Refines

/-! ## Loops -/

/-- What can be read where the body of a loop ends: another round, or where the loop ends. -/
def roundEnd (again : Future) (K : Ending → Future) (e : Ending) : Future :=
  match e.ofBody with
  | none => again
  | some e' => K e'

/-- The head of a loop leads by one edge into the body or, if it has a condition, out of the
loop. -/
def Tests (condition : Option Node) (Head Body After : Future) : Prop :=
  ∀ t n, Head t n ↔ (∃ c t' m, condition = some c ∧ t = leaving c ++ t' ∧ After t' m ∧ n = m + 1) ∨
    ∃ t' m, t = entering condition ++ t' ∧ Body t' m ∧ n = m + 1

section Loops

variable {Head Body Back : Future} {K : Ending → Future} {condition step : Option Node}
  {c body : Node}

/-- A loop that tests its condition first. Each round takes an edge, so that what can be read is
some number of rounds. -/
theorem Refines.loop (hhead : Tests condition Head Body (K .normal))
    (hbody : Refines Body (Execution (.statement body)) (roundEnd Back K))
    (hstep : Refines Back (fun t (_ : Unit) => Execution (.optional step) t .normal)
      fun _ => Head) :
    Refines Head (Execution (.loop condition step body)) K := by
  have henter : ∀ {t m}, Body t m → ∃ n, Head (entering condition ++ t) n :=
    fun {t m} h => ⟨m + 1, (hhead _ _).mpr (.inr ⟨t, m, rfl, h, rfl⟩)⟩
  constructor
  · intro t n
    induction n using Nat.strongRecOn generalizing t with
    | ind n ih =>
      intro h
      rcases (hhead t n).mp h with ⟨c, t', m, rfl, rfl, hK, rfl⟩ | ⟨_, m, rfl, hB, rfl⟩
      · exact ⟨_, .normal, t', m, rfl, .loopDone, hK, by omega⟩
      obtain ⟨t₁, e, t₂, m₂, rfl, hrun, hend, hm₂⟩ := hbody.sound hB
      cases he : e.ofBody with
      | some e' =>
        simp only [roundEnd, he] at hend
        exact ⟨_, e', t₂, m₂, (List.append_assoc ..).symm, .loopLeft hrun he, hend, by omega⟩
      | none =>
        simp only [roundEnd, he] at hend
        obtain ⟨t₃, -, t₄, m₄, rfl, hrun', hhead', hm₄⟩ := hstep.sound hend
        obtain ⟨t₅, e', t₆, m₆, rfl, hrest, hK, hm₆⟩ := ih m₄ (by omega) hhead'
        exact ⟨_, e', t₆, m₆, by simp, .loopAgain hrun he hrun' hrest, hK, by omega⟩
  · intro t₁ e t₂ m hrun hK
    generalize htask : Task.loop condition step body = task at hrun
    induction hrun with
    | loopDone =>
      cases htask
      exact ⟨m + 1, (hhead _ _).mpr (.inl ⟨_, t₂, m, rfl, rfl, hK, rfl⟩)⟩
    | loopLeft hrun he =>
      cases htask
      obtain ⟨n, hB⟩ := hbody.complete hrun (by simpa only [roundEnd, he] using hK)
      obtain ⟨n', hH⟩ := henter hB
      exact ⟨n', by simpa using hH⟩
    | loopAgain hrun he hrun' _ _ _ ih =>
      cases htask
      obtain ⟨n₁, hH⟩ := ih hK rfl
      obtain ⟨n₂, hback⟩ := hstep.complete (e := ()) hrun' hH
      obtain ⟨n₃, hB⟩ := hbody.complete hrun (by simpa only [roundEnd, he] using hback)
      obtain ⟨n₄, hH'⟩ := henter hB
      exact ⟨n₄, by simpa using hH'⟩
    | _ => cases htask

/-- A loop that tests its condition after its body. -/
theorem Refines.doWhile {i : UInt64} {s : Span} (hhead : Tests (some c) Head Body (K .normal))
    (hbody : Refines Body (Execution (.statement body)) (roundEnd Head K)) :
    Refines Body (Execution (.statement ⟨i, s, .doWhileStatement c body⟩)) K := by
  constructor
  · intro t n
    induction n using Nat.strongRecOn generalizing t with
    | ind n ih =>
      intro h
      obtain ⟨t₁, e, t₂, m₂, rfl, hrun, hend, hm₂⟩ := hbody.sound h
      cases he : e.ofBody with
      | some e' =>
        simp only [roundEnd, he] at hend
        exact ⟨t₁, e', t₂, m₂, rfl, .doLeft hrun he, hend, hm₂⟩
      | none =>
        simp only [roundEnd, he] at hend
        rcases (hhead t₂ m₂).mp hend with ⟨_, t', m, ⟨⟩, rfl, hK, rfl⟩ | ⟨_, m, rfl, hB, rfl⟩
        · exact ⟨_, .normal, t', m, (List.append_assoc ..).symm, .doDone hrun he, hK, by omega⟩
        obtain ⟨t₅, e', t₆, m₆, rfl, hrest, hK, hm₆⟩ := ih m (by omega) hB
        exact ⟨_, e', t₆, m₆, by simp, .doAgain hrun he hrest, hK, by omega⟩
  · intro t₁ e t₂ m hrun hK
    generalize htask : Task.statement ⟨i, s, .doWhileStatement c body⟩ = task at hrun
    have hback : ∀ {t t' e' m}, Execution (.statement body) t e' → e'.ofBody = none → Head t' m →
        ∃ n, Body (t ++ t') n :=
      fun hrun he hH => hbody.complete hrun (by simpa only [roundEnd, he] using hH)
    induction hrun with
    | doLeft hrun he =>
      cases htask
      exact hbody.complete hrun (by simpa only [roundEnd, he] using hK)
    | doDone hrun he =>
      cases htask
      obtain ⟨n, hB⟩ := hback hrun he ((hhead _ _).mpr (.inl ⟨_, t₂, m, rfl, rfl, hK, rfl⟩))
      exact ⟨n, by simpa using hB⟩
    | doAgain hrun he _ _ ih =>
      cases htask
      obtain ⟨n₁, hB⟩ := ih hK rfl
      obtain ⟨n₂, hB'⟩ := hback hrun he ((hhead _ _).mpr (.inr ⟨_, n₁, rfl, hB, rfl⟩))
      exact ⟨n₂, by simpa using hB'⟩
    | _ => cases htask

end Loops

/-! ## Outlines -/

/-- The event of an edge, if it has an outcome. -/
def outcomeEvents (outcome : Option Branch) : List Event := outcome.toList.map .outcome

@[simp] theorem outcomeEvents_none : outcomeEvents none = [] := rfl

namespace Outline

/-- What is read after the statements of a node on a path of `n` edges to the exit. -/
inductive Leads (G : Outline) : Nat → List Event → Nat → Prop
  | exit : G.Leads FlowGraph.exit [] 0
  | step : (outcome, j) ∈ G.exits i → G.Leads j t n →
    G.Leads i (outcomeEvents outcome ++ G.events j ++ t) (n + 1)

/-- What is read from a node to the exit after the events that are done in it. -/
def Reads (G : Outline) (done : List Event) (i : Nat) : Future := fun t n =>
  ∃ rest t', G.events i = done ++ rest ∧ t = rest ++ t' ∧ G.Leads i t' n

variable {G : Outline} {i j n : Nat} {done events t : List Event} {outcome : Option Branch}

theorem leads_iff (hi : FlowGraph.exit ≠ i) :
    G.Leads i t n ↔ ∃ outcome j t' m, (outcome, j) ∈ G.exits i ∧ G.Reads [] j t' m ∧
      t = outcomeEvents outcome ++ t' ∧ n = m + 1 := by
  constructor
  · rintro (_ | ⟨hj, hlead⟩)
    · exact absurd rfl hi
    · exact ⟨_, _, _, _, hj, ⟨_, _, rfl, rfl, hlead⟩, by simp, rfl⟩
  · rintro ⟨outcome, j, _, m, hj, ⟨rest, t', he, rfl, hlead⟩, rfl, rfl⟩
    rw [List.nil_append] at he
    rw [← he, ← List.append_assoc]
    exact .step hj hlead

theorem passes_edge (hi : FlowGraph.exit ≠ i) (hx : G.exits i = [(outcome, j)]) :
    Passes (G.Leads i) (outcomeEvents outcome) (G.Reads [] j) := by
  constructor
  · intro t n h
    obtain ⟨_, _, t', m, hmem, hread, rfl, rfl⟩ := (leads_iff hi).mp h
    rw [hx] at hmem
    cases List.mem_singleton.mp hmem
    exact ⟨t', m, rfl, hread, by omega⟩
  · intro t m h
    exact ⟨m + 1, (leads_iff hi).mpr ⟨_, _, t, m, by simp [hx], h, rfl, rfl⟩⟩

/-- A node with two ways out, each with an outcome. -/
theorem leads_choice {b c : Branch} {k : Nat} (hi : FlowGraph.exit ≠ i)
    (hx : ∀ x, x ∈ G.exits i ↔ x = (some b, j) ∨ x = (some c, k)) :
    G.Leads i t n ↔ (∃ t' m, t = .outcome b :: t' ∧ G.Reads [] j t' m ∧ n = m + 1) ∨
      ∃ t' m, t = .outcome c :: t' ∧ G.Reads [] k t' m ∧ n = m + 1 := by
  rw [leads_iff hi]
  constructor
  · rintro ⟨outcome, l, t', m, hmem, hread, rfl, rfl⟩
    rcases (hx _).mp hmem with h | h
    · cases h
      exact .inl ⟨t', m, rfl, hread, rfl⟩
    · cases h
      exact .inr ⟨t', m, rfl, hread, rfl⟩
  · rintro (⟨t', m, rfl, hread, rfl⟩ | ⟨t', m, rfl, hread, rfl⟩)
    · exact ⟨some b, j, t', m, (hx _).mpr (.inl rfl), hread, rfl, rfl⟩
    · exact ⟨some c, k, t', m, (hx _).mpr (.inr rfl), hread, rfl, rfl⟩

theorem passes_push (hp : done ++ events <+: G.events i) :
    Passes (G.Reads done i) events (G.Reads (done ++ events) i) := by
  obtain ⟨rest, hrest⟩ := hp
  constructor
  · rintro _ n ⟨rest', t', he, rfl, h⟩
    have : rest' = events ++ rest := by
      rw [← hrest, List.append_assoc] at he
      exact (List.append_cancel_left he).symm
    exact ⟨rest ++ t', n, by simp [this], ⟨rest, t', hrest.symm, rfl, h⟩, Nat.le_refl _⟩
  · rintro _ m ⟨rest', t', he, rfl, h⟩
    exact ⟨m, events ++ rest', t', by simp [he], by simp, h⟩

/-- At the end of a node nothing of it is left to read. -/
theorem passes_end (he : G.events i = done) : Passes (G.Reads done i) [] (G.Leads i) := by
  constructor
  · rintro _ n ⟨rest, t', he', rfl, h⟩
    have : rest = [] := by simpa [he] using he'
    exact ⟨t', n, by simp [this], h, Nat.le_refl _⟩
  · exact fun {t m} h => ⟨m, [], t, by simpa using he, rfl, h⟩

/-- The end of a node and the only edge that leaves it. -/
theorem passes_out (hi : FlowGraph.exit ≠ i) (he : G.events i = done)
    (hx : G.exits i = [(outcome, j)]) :
    Passes (G.Reads done i) (outcomeEvents outcome) (G.Reads [] j) :=
  (passes_end he).trans (passes_edge hi hx)

theorem passes_events (he : G.events i = events) :
    Passes (G.Reads [] i) events (G.Leads i) := by
  have P : Passes (G.Reads [] i) events (G.Reads ([] ++ events) i) := passes_push (by simp [he])
  simpa using P.trans (passes_end he)

/-- The node at the head of a loop. -/
theorem tests_head {condition : Option Node} {k : Nat} (hi : FlowGraph.exit ≠ i)
    (he : G.events i = condition.toList.map (.statement .condition))
    (hx : G.exits i = (condition.map fun _ => .onTrue, j) ::
      condition.toList.map fun _ => (some .onFalse, k)) :
    Tests condition (G.Reads [] i) (G.Reads [] j) (G.Reads [] k) := by
  intro t n
  have hreads : G.Reads [] i t n ↔
      ∃ t', t = condition.toList.map (.statement .condition) ++ t' ∧ G.Leads i t' n := by
    simp only [Reads, List.nil_append, he]
    exact ⟨fun ⟨_, t', h, ht, hl⟩ => ⟨t', h ▸ ht, hl⟩, fun ⟨t', ht, hl⟩ => ⟨_, t', rfl, ht, hl⟩⟩
  rw [hreads]
  cases condition with
  | none =>
    simp only [leads_iff hi, hx]
    constructor
    · rintro ⟨_, rfl, _, _, t', m, hmem, hread, rfl, rfl⟩
      cases List.mem_singleton.mp hmem
      exact .inr ⟨t', m, rfl, hread, rfl⟩
    · rintro (⟨_, _, _, ⟨⟩, _⟩ | ⟨_, m, rfl, hread, rfl⟩)
      exact ⟨t, rfl, none, j, t, m, List.mem_singleton_self _, hread, rfl, rfl⟩
  | some c =>
    simp only [leads_choice hi (fun x => by rw [hx]; exact List.mem_pair)]
    constructor
    · rintro ⟨_, rfl, ⟨t', m, rfl, hread, rfl⟩ | ⟨t', m, rfl, hread, rfl⟩⟩
      · exact .inr ⟨t', m, rfl, hread, rfl⟩
      · exact .inl ⟨c, t', m, rfl, rfl, hread, rfl⟩
    · rintro (⟨_, t', m, ⟨⟩, rfl, hread, rfl⟩ | ⟨t', m, rfl, hread, rfl⟩)
      · exact ⟨_, rfl, .inr ⟨t', m, rfl, hread, rfl⟩⟩
      · exact ⟨_, rfl, .inl ⟨t', m, rfl, hread, rfl⟩⟩

end Outline

end ContractFlow
