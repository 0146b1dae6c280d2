import ContractFlow.Proofs.VisitOrder

/-!
Solving monotone analyses by visits. A visit of a node replaces its state by what the states of its
sources now make of it. From the empty progress these states only ascend and stay below every
assignment that visits cannot raise (`Analysis.Sound`), so that a bound on how often they can ascend
bounds the visits of both strategies (`Analysis.ChangesWithin`), and whatever is settled in the end
is the least assignment.
-/

namespace ContractFlow

/-- **Monotone analyses.** States are joined by their least upper bound, nothing fails, and a node
makes more of more. A node that no state has reached is treated like one that the least state has
reached. -/
structure Analysis.IsMonotone {σ : Type} [SemilatticeSup σ] [OrderBot σ]
    (a : Analysis σ) : Prop where
  bottom_eq : a.bottom = ⊥
  join_eq : ∀ x y, a.join x y = .ok (x ⊔ y)
  transfer_none : ∀ n, a.transfer n none = a.transfer n (some ⊥)
  transfer_eq : ∀ n, ∃ f : σ → σ, Monotone f ∧ ∀ x, a.transfer n (some x) = .ok (f x)

/-- The states that flow out of the nodes, as far as there are any. -/
def Progress.states {σ : Type} (p : Progress σ) : Nat → Option σ := fun i => p.outputs[i]?

namespace Analysis

section Visits

variable {σ : Type} [DecidableEq σ] {a : Analysis σ} {g : FlowGraph} {p p' : Progress σ} {i : Nat}
  {changed : Bool}

/-- What a visit takes and leaves. -/
theorem visit_eq_ok (h : a.visit g i p = .ok (changed, p')) :
    ∃ n input output, g.node i = .ok n ∧
      a.joinAll ((a.direction.sources g i).filterMap p.states) = .ok input ∧
      a.transfer n input = .ok output ∧ changed = decide (p.states i ≠ some output) ∧
      p'.inputs = p.inputs.insert i input ∧
      p'.states = Function.update p.states i (some output) := by
  unfold visit at h
  rw [show (p.outputs[·]?) = p.states from rfl] at h
  cases hjoin : a.joinAll ((a.direction.sources g i).filterMap p.states) with
  | error err => simp [hjoin, bind, Except.bind] at h
  | ok input =>
    cases hnode : g.node i with
    | error err => simp [hjoin, hnode, bind, Except.bind] at h
    | ok n =>
      cases htransfer : a.transfer n input with
      | error err => simp [hjoin, hnode, htransfer, bind, Except.bind] at h
      | ok output =>
        simp only [hjoin, hnode, htransfer, bind, Except.bind, pure, Except.pure, Except.ok.injEq,
          Prod.mk.injEq] at h
        obtain ⟨rfl, rfl⟩ := h
        refine ⟨n, input, output, rfl, rfl, htransfer, rfl, rfl, funext fun k => ?_⟩
        by_cases hout : p.outputs[i]? = some output <;> by_cases hk : k = i
        · simp [Progress.states, hk, hout]
        · simp [Progress.states, hk, hout]
        · simp [Progress.states, hk, hout]
        · simp [Progress.states, hk, hout, Std.ExtTreeMap.getElem?_insert, Ne.symm hk]

end Visits

section Monotone

variable {σ : Type} [SemilatticeSup σ] [OrderBot σ] {a : Analysis σ} {g : FlowGraph} {i j k : Nat}

/-- The state of a node; the least one as long as it has none. -/
def value (s : Nat → Option σ) (i : Nat) : σ := (s i).getD ⊥

/-- What the sources of a node make arrive at it. -/
def arriving (a : Analysis σ) (g : FlowGraph) (out : Nat → σ) (i : Nat) : σ :=
  (a.direction.sources g i).toFinset.sup out

/-- What the node with the given index makes of a state. -/
def effect (a : Analysis σ) (g : FlowGraph) (i : Nat) (x : σ) : σ :=
  ((g.node i).toOption.bind fun n => (a.transfer n (some x)).toOption).getD ⊥

/-- What a visit makes of the state after a node. -/
def next (a : Analysis σ) (g : FlowGraph) (out : Nat → σ) (i : Nat) : σ :=
  a.effect g i (a.arriving g out i)

theorem value_of_eq {s : Nat → Option σ} {x : σ} (h : s i = some x) : value s i = x := by
  rw [value, h, Option.getD_some]

theorem arriving_le_iff {out : Nat → σ} {x : σ} :
    a.arriving g out i ≤ x ↔ ∀ j ∈ a.direction.sources g i, out j ≤ x := by
  simp [arriving]

theorem arriving_mono {out out' : Nat → σ} (h : ∀ j ∈ a.direction.sources g i, out j ≤ out' j) :
    a.arriving g out i ≤ a.arriving g out' i :=
  Finset.sup_mono_fun fun j hj => h j (List.mem_toFinset.mp hj)

theorem arriving_congr {out out' : Nat → σ} (h : ∀ j ∈ a.direction.sources g i, out j = out' j) :
    a.arriving g out i = a.arriving g out' i :=
  Finset.sup_congr rfl fun j hj => h j (List.mem_toFinset.mp hj)

namespace IsMonotone

theorem effect_eq (M : a.IsMonotone) {n : FlowNode} (hn : g.node i = .ok n) (x : σ) :
    a.transfer n (some x) = .ok (a.effect g i x) := by
  obtain ⟨f, -, hf⟩ := M.transfer_eq n
  simp [effect, hn, hf, Except.toOption]

theorem effect_mono (M : a.IsMonotone) : Monotone (a.effect g i) := by
  intro x y hxy
  cases hn : g.node i with
  | error err => simp [effect, hn, Except.toOption]
  | ok n =>
    obtain ⟨f, hmono, hf⟩ := M.transfer_eq n
    simpa [effect, hn, hf, Except.toOption] using hmono hxy

theorem next_mono (M : a.IsMonotone) {out out' : Nat → σ}
    (h : ∀ j ∈ a.direction.sources g i, out j ≤ out' j) : a.next g out i ≤ a.next g out' i :=
  M.effect_mono (arriving_mono h)

theorem joinAll_eq (M : a.IsMonotone) (l : List σ) :
    ∃ input, a.joinAll l = .ok input ∧ ∀ x, input.getD ⊥ ≤ x ↔ ∀ y ∈ l, y ≤ x := by
  have hfold : ∀ (l : List σ) (y : σ), ∃ z, l.foldlM a.join y = .ok z ∧
      ∀ x, z ≤ x ↔ y ≤ x ∧ ∀ y ∈ l, y ≤ x := by
    intro l
    induction l with
    | nil => exact fun y => ⟨y, rfl, by simp⟩
    | cons w l ih =>
      intro y
      obtain ⟨z, hz, hle⟩ := ih (y ⊔ w)
      refine ⟨z, ?_, fun x => ?_⟩
      · rw [List.foldlM_cons, M.join_eq]
        exact hz
      · rw [hle, sup_le_iff, List.forall_mem_cons, and_assoc]
  cases l with
  | nil => exact ⟨none, rfl, by simp⟩
  | cons y l =>
    obtain ⟨z, hz, hle⟩ := hfold l y
    refine ⟨some z, ?_, fun x => ?_⟩
    · rw [joinAll, hz]
      rfl
    · rw [Option.getD_some, hle, List.forall_mem_cons]

/-- A visit of a node succeeds, takes what arrives at it and leaves what it makes of it. -/
theorem visit_eq [DecidableEq σ] (M : a.IsMonotone) (H : g.WellFormed)
    (hi : i < g.graph.vertexCount) (p : Progress σ) :
    ∃ p', a.visit g i p = .ok (decide (p.states i ≠ some (a.next g (value p.states) i)), p') ∧
      p'.states = Function.update p.states i (some (a.next g (value p.states) i)) ∧
      ∀ k, (p'.inputs.getD k none).getD ⊥ =
        if k = i then a.arriving g (value p.states) i else (p.inputs.getD k none).getD ⊥ := by
  obtain ⟨n, hn⟩ := H.exists_node hi
  obtain ⟨input, hjoin, hle⟩ := M.joinAll_eq ((a.direction.sources g i).filterMap p.states)
  have hinput : input.getD ⊥ = a.arriving g (value p.states) i := by
    refine eq_of_forall_ge_iff fun x => ?_
    rw [hle, arriving_le_iff]
    simp only [List.mem_filterMap, forall_exists_index, and_imp]
    constructor
    · intro h j hj
      cases hout : p.states j with
      | none => simp [value, hout]
      | some y => exact (value_of_eq hout).le.trans (h y j hj hout)
    · intro h y j hj hout
      exact (value_of_eq hout).ge.trans (h j hj)
  have htransfer : a.transfer n input = .ok (a.next g (value p.states) i) := by
    rw [next, ← hinput, ← M.effect_eq hn]
    cases input with
    | none => exact M.transfer_none n
    | some x => rfl
  obtain ⟨p', hvisit⟩ : ∃ p', a.visit g i p =
      .ok (decide (p.states i ≠ some (a.next g (value p.states) i)), p') := by
    unfold visit
    simp only [show (p.outputs[·]?) = p.states from rfl, hjoin, hn, htransfer, bind, Except.bind,
      pure, Except.pure]
    exact ⟨_, rfl⟩
  obtain ⟨n', input', output, hn', hjoin', htransfer', -, hinputs, hstates⟩ := visit_eq_ok hvisit
  obtain rfl : n = n' := by simpa [hn] using hn'
  obtain rfl : input = input' := by simpa [hjoin] using hjoin'
  obtain rfl : a.next g (value p.states) i = output := by simpa [htransfer] using htransfer'
  refine ⟨p', hvisit, hstates, fun k => ?_⟩
  rw [hinputs, Std.ExtTreeMap.getD_insert]
  by_cases hk : k = i
  · simp [hk, hinput]
  · simp [hk, Ne.symm hk]

end IsMonotone

/-! ## States ascend to the least assignment -/

/-- The states after a visit of a node. -/
def raise (a : Analysis σ) (g : FlowGraph) (s : Nat → Option σ) (i : Nat) : Nat → Option σ :=
  Function.update s i (some (a.next g (value s) i))

@[simp] theorem raise_self {s : Nat → Option σ} :
    a.raise g s i i = some (a.next g (value s) i) :=
  Function.update_self ..

@[simp] theorem raise_of_ne {s : Nat → Option σ} (h : k ≠ i) : a.raise g s i k = s k :=
  Function.update_of_ne h ..

/-- Visits raise nothing in an assignment. -/
def Closed (a : Analysis σ) (g : FlowGraph) (out : Nat → σ) : Prop :=
  ∀ i, i < g.graph.vertexCount → a.next g out i ≤ out i

/-- **States on the way up.** A visit leaves at least what a node has, and no node has more than in
an assignment that visits do not raise. -/
structure Sound (a : Analysis σ) (g : FlowGraph) (s : Nat → Option σ) : Prop where
  ascending : ∀ {i x}, s i = some x → x ≤ a.next g (value s) i
  below : ∀ {out}, a.Closed g out → ∀ i, value s i ≤ out i

variable {s : Nat → Option σ}

theorem Sound.empty : a.Sound g (fun _ => none) :=
  ⟨nofun, fun _ _ => bot_le⟩

theorem Sound.value_le_raise (S : a.Sound g s) (i k : Nat) :
    value s k ≤ value (a.raise g s i) k := by
  by_cases hk : k = i
  · subst hk
    rw [value_of_eq raise_self]
    cases hs : s k with
    | none => simp [value, hs]
    | some x => exact (value_of_eq hs).le.trans (S.ascending hs)
  · simp [value, hk]

theorem Sound.raise (M : a.IsMonotone) (S : a.Sound g s) (hi : i < g.graph.vertexCount) :
    a.Sound g (a.raise g s i) := by
  have hle : ∀ k, a.next g (value s) k ≤ a.next g (value (a.raise g s i)) k :=
    fun k => M.next_mono fun j _ => S.value_le_raise i j
  constructor
  · intro k x hx
    by_cases hk : k = i
    · subst hk
      rw [raise_self] at hx
      cases hx
      exact hle k
    · rw [raise_of_ne hk] at hx
      exact (S.ascending hx).trans (hle k)
  · intro out hout k
    by_cases hk : k = i
    · subst hk
      rw [value_of_eq raise_self]
      exact (M.next_mono fun j _ => S.below hout j).trans (hout k hi)
    · have := S.below hout k
      simpa [value, hk] using this

/-- A node is settled if it has taken what arrives at it and has what it makes of that. -/
structure SettledAt (a : Analysis σ) (g : FlowGraph) (p : Progress σ) (i : Nat) : Prop where
  output : p.states i = some (a.next g (value p.states) i)
  input : (p.inputs.getD i none).getD ⊥ = a.arriving g (value p.states) i

/-! ## How often states can change -/

/-- At most `n` visits can still change a state. -/
def ChangesWithin (a : Analysis σ) (g : FlowGraph) : Nat → (Nat → Option σ) → Prop
  | 0, s => ∀ i, i < g.graph.vertexCount → s i = some (a.next g (value s) i)
  | n + 1, s => ∀ i, i < g.graph.vertexCount → s i ≠ some (a.next g (value s) i) →
    a.ChangesWithin g n (a.raise g s i)

theorem ChangesWithin.succ {n : Nat} (h : a.ChangesWithin g n s) : a.ChangesWithin g (n + 1) s := by
  induction n generalizing s with
  | zero => exact fun i hi hne => absurd (h i hi) hne
  | succ n ih => exact fun i hi hne => ih (h i hi hne)

theorem ChangesWithin.mono {m n : Nat} (h : a.ChangesWithin g m s) (hmn : m ≤ n) :
    a.ChangesWithin g n s := by
  induction hmn with
  | refl => exact h
  | step _ ih => exact ih.succ

/-- A change leaves fewer changes. -/
theorem ChangesWithin.raise {n : Nat} (h : a.ChangesWithin g n s) (hi : i < g.graph.vertexCount)
    (hne : s i ≠ some (a.next g (value s) i)) :
    ∃ m, n = m + 1 ∧ a.ChangesWithin g m (a.raise g s i) := by
  cases n with
  | zero => exact absurd (h i hi) hne
  | succ m => exact ⟨m, rfl, h i hi hne⟩

/-- The state of a node, where none is less than any. -/
def level (s : Nat → Option σ) (i : Nat) : WithBot σ := s i

/-- A visit that changes a state raises it. -/
theorem Sound.level_lt_raise (S : a.Sound g s) (hne : s i ≠ some (a.next g (value s) i)) :
    level s i < level (a.raise g s i) i := by
  rw [level, level, raise_self]
  cases hs : s i with
  | none => exact WithBot.bot_lt_coe _
  | some x =>
    refine WithBot.coe_lt_coe.mpr (lt_of_le_of_ne (S.ascending hs) fun h => hne ?_)
    rw [hs, ← h]

/-- Without infinite ascent, only so many visits change a state. -/
theorem Sound.exists_changesWithin [WellFoundedGT σ] (M : a.IsMonotone) (S : a.Sound g s) :
    ∃ n, a.ChangesWithin g n s := by
  let profile (s : Nat → Option σ) : Fin g.graph.vertexCount → (WithBot σ)ᵒᵈ :=
    fun i => .toDual (level s i)
  induction hs : profile s using WellFoundedLT.induction generalizing s with
  | ind _ ih =>
    subst hs
    have hlower : ∀ i : Fin g.graph.vertexCount, s i ≠ some (a.next g (value s) i) →
        profile (a.raise g s i) < profile s := by
      intro i hne
      refine Pi.lt_def.mpr ⟨fun k => ?_, i, OrderDual.toDual_lt_toDual.mpr (S.level_lt_raise hne)⟩
      by_cases hk : k = i
      · subst hk
        exact OrderDual.toDual_le_toDual.mpr (S.level_lt_raise hne).le
      · simp [profile, level, Fin.val_ne_of_ne hk]
    have hbound : ∀ i : Fin g.graph.vertexCount, ∃ n, s i ≠ some (a.next g (value s) i) →
        a.ChangesWithin g n (a.raise g s i) := by
      intro i
      by_cases hne : s i = some (a.next g (value s) i)
      · exact ⟨0, fun h => absurd hne h⟩
      · obtain ⟨n, hn⟩ := ih _ (hlower i hne) (S.raise M i.isLt) rfl
        exact ⟨n, fun _ => hn⟩
    choose bound hbound using hbound
    refine ⟨Finset.univ.sup bound + 1, fun i hi hne => ?_⟩
    exact (hbound ⟨i, hi⟩ hne).mono (Finset.le_sup (f := bound) (Finset.mem_univ _))

/-- How far the states can still rise to the top by their rank. -/
def room (rank : σ → Nat) (top : σ) (g : FlowGraph) (s : Nat → Option σ) : Nat :=
  ∑ i ∈ Finset.range g.graph.vertexCount, (rank top + 1 - (s i).elim 0 (rank · + 1))

theorem Sound.room_raise_lt {rank : σ → Nat} {top : σ} (M : a.IsMonotone) (S : a.Sound g s)
    (hrank : StrictMono rank) (htop : a.Closed g fun _ => top) (hi : i < g.graph.vertexCount)
    (hne : s i ≠ some (a.next g (value s) i)) :
    room rank top g (a.raise g s i) < room rank top g s := by
  have hnext : rank (a.next g (value s) i) ≤ rank top := by
    refine hrank.monotone ?_
    have := (S.raise M hi).below htop i
    rwa [value_of_eq raise_self] at this
  have hlt : (s i).elim 0 (rank · + 1) < rank (a.next g (value s) i) + 1 := by
    cases hs : s i with
    | none => exact Nat.succ_pos _
    | some x =>
      refine Nat.succ_lt_succ (hrank (lt_of_le_of_ne (S.ascending hs) fun h => hne ?_))
      rw [hs, ← h]
  refine Finset.sum_lt_sum (fun k _ => ?_) ⟨i, Finset.mem_range.mpr hi, ?_⟩
  · by_cases hk : k = i
    · subst hk
      rw [raise_self, Option.elim_some]
      omega
    · rw [raise_of_ne hk]
  · rw [raise_self, Option.elim_some]
    omega

/-- A strictly monotone rank bounds how many visits change a state. -/
theorem Sound.changesWithin_of_rank {rank : σ → Nat} {top : σ} (M : a.IsMonotone)
    (hrank : StrictMono rank) (htop : a.Closed g fun _ => top) {n : Nat} (S : a.Sound g s)
    (hn : room rank top g s ≤ n) : a.ChangesWithin g n s := by
  induction n generalizing s with
  | zero =>
    intro i hi
    by_contra hne
    have := S.room_raise_lt M hrank htop hi hne
    omega
  | succ n ih =>
    intro i hi hne
    have := S.room_raise_lt M hrank htop hi hne
    exact ih (S.raise M hi) (by omega)

omit [SemilatticeSup σ] [OrderBot σ] in
theorem room_empty {rank : σ → Nat} {top : σ} :
    room rank top g (fun _ => none) = g.graph.vertexCount * (rank top + 1) := by
  simp [room]

/-! ## The strategies -/

section Strategies

variable {p p' : Progress σ} {changed : Bool}

/-- Every node of the graph is settled, in states that are on the way up. -/
structure Settled (a : Analysis σ) (g : FlowGraph) (p : Progress σ) : Prop where
  sound : a.Sound g p.states
  settled : ∀ i, i < g.graph.vertexCount → a.SettledAt g p i

theorem mem_enqueue {queue indices : List Nat} :
    k ∈ enqueue queue indices ↔ k ∈ queue ∨ k ∈ indices := by
  induction indices generalizing queue with
  | nil => simp [enqueue]
  | cons i rest ih =>
    refine ih.trans ?_
    by_cases hi : i ∈ queue
    · simp only [hi, if_true, List.mem_cons]
      constructor
      · exact fun h => h.imp_right .inr
      · rintro (h | rfl | h)
        · exact .inl h
        · exact .inl hi
        · exact .inr h
    · simp [hi, or_assoc]

theorem length_enqueue_le {queue indices : List Nat} :
    (enqueue queue indices).length ≤ queue.length + indices.length := by
  induction indices generalizing queue with
  | nil => exact Nat.le_refl _
  | cons i rest ih =>
    refine Nat.le_trans ih ?_
    by_cases hi : i ∈ queue
    · simp [hi]
    · simp [hi]
      omega

/-- The nodes that are not queued are settled. -/
structure Queued (a : Analysis σ) (g : FlowGraph) (queue : List Nat) (p : Progress σ) : Prop where
  sound : a.Sound g p.states
  lt_count : ∀ i ∈ queue, i < g.graph.vertexCount
  settled : ∀ i, i < g.graph.vertexCount → i ∉ queue → a.SettledAt g p i

/-- What a visit of a node does to progress. -/
inductive Visited (a : Analysis σ) (g : FlowGraph) (i : Nat) (p p' : Progress σ) : Bool → Prop
  | kept : p.states i = some (a.next g (value p.states) i) → p'.states = p.states →
    (∀ k, (p'.inputs.getD k none).getD ⊥ = if k = i then a.arriving g (value p.states) i else
      (p.inputs.getD k none).getD ⊥) → a.Visited g i p p' false
  | raised : p.states i ≠ some (a.next g (value p.states) i) → p'.states = a.raise g p.states i →
    (∀ k, (p'.inputs.getD k none).getD ⊥ = if k = i then a.arriving g (value p.states) i else
      (p.inputs.getD k none).getD ⊥) → a.Visited g i p p' true

theorem IsMonotone.visited [DecidableEq σ] (M : a.IsMonotone) (H : g.WellFormed)
    (hi : i < g.graph.vertexCount) (p : Progress σ) :
    ∃ changed p', a.visit g i p = .ok (changed, p') ∧ a.Visited g i p p' changed := by
  obtain ⟨p', hvisit, hstates, hinputs⟩ := M.visit_eq H hi p
  refine ⟨_, p', hvisit, ?_⟩
  by_cases h : p.states i = some (a.next g (value p.states) i)
  · rw [decide_eq_false (not_not.mpr h)]
    exact .kept h (by rw [hstates, ← h, Function.update_eq_self]) hinputs
  · rw [decide_eq_true h]
    exact .raised h hstates hinputs

theorem Visited.sound (V : a.Visited g i p p' changed)
    (M : a.IsMonotone) (S : a.Sound g p.states) (hi : i < g.graph.vertexCount) :
    a.Sound g p'.states := by
  cases V with
  | kept _ hstates _ => rwa [hstates]
  | raised _ hstates _ =>
    rw [hstates]
    exact S.raise M hi

/-- A visited node is settled, and others stay settled, unless the node has changed and is a source
of theirs. -/
theorem Visited.settledAt (V : a.Visited g i p p' changed)
    (hk : k = i ∨ a.SettledAt g p k) (hsource : changed = true → i ∉ a.direction.sources g k) :
    a.SettledAt g p' k := by
  have harriving : a.arriving g (value p'.states) k = a.arriving g (value p.states) k := by
    cases V with
    | kept _ hstates _ => rw [hstates]
    | raised _ hstates _ =>
      refine arriving_congr fun j hj => ?_
      have hji : j ≠ i := fun h => hsource rfl (h ▸ hj)
      rw [hstates, value, value, raise_of_ne hji]
  by_cases hki : k = i
  · subst hki
    cases V with
    | kept hsame hstates hinputs =>
      exact ⟨by rw [hstates, hsame], by rw [hinputs, if_pos rfl, hstates]⟩
    | raised _ hstates hinputs =>
      exact ⟨by rw [hstates, raise_self, ← hstates, next, next, harriving],
        by rw [hinputs, if_pos rfl, harriving]⟩
  · have hsettled := hk.resolve_left hki
    cases V with
    | kept _ hstates hinputs =>
      exact ⟨by rw [hstates, hsettled.output],
        by rw [hinputs, if_neg hki, hsettled.input, harriving]⟩
    | raised _ hstates hinputs =>
      exact ⟨by rw [next, harriving, hstates, raise_of_ne hki, hsettled.output, next],
        by rw [hinputs, if_neg hki, hsettled.input, harriving]⟩

theorem Queued.visit {queue : List Nat} (M : a.IsMonotone)
    (H : g.WellFormed) (Q : a.Queued g (i :: queue) p) (V : a.Visited g i p p' changed) :
    a.Queued g (if changed then enqueue queue (a.direction.sinks g i) else queue) p' := by
  have hi := Q.lt_count i List.mem_cons_self
  have hsub :
      ∀ k, k ∈ queue → k ∈ if changed then enqueue queue (a.direction.sinks g i) else queue := by
    intro k hk
    cases changed
    · exact hk
    · exact mem_enqueue.mpr (.inl hk)
  refine ⟨V.sound M Q.sound hi, fun k hk => ?_, fun k hk hnot => V.settledAt ?_ ?_⟩
  · cases changed with
    | false => exact Q.lt_count k (List.mem_cons_of_mem _ hk)
    | true =>
      rcases mem_enqueue.mp hk with hk | hk
      · exact Q.lt_count k (List.mem_cons_of_mem _ hk)
      · exact (((Direction.mem_sinks_iff H hi).mp hk).lt_size H).2
  · by_cases hki : k = i
    · exact .inl hki
    · refine .inr (Q.settled k hk fun h => ?_)
      rcases List.mem_cons.mp h with h | h
      · exact hki h
      · exact hnot (hsub k h)
  · rintro rfl hsource
    refine hnot (mem_enqueue.mpr (.inr ?_))
    exact (Direction.mem_sinks_iff H hi).mpr ((Direction.mem_sources_iff H hk).mp hsource)

/-- A worklist runs empty: each visit takes a node from the queue, and only a change adds some. -/
theorem Queued.runWorklist [DecidableEq σ] {limit fuel n : Nat} {queue : List Nat}
    (M : a.IsMonotone)
    (H : g.WellFormed) (Q : a.Queued g queue p) (C : a.ChangesWithin g n p.states)
    (hfuel : queue.length + g.graph.vertexCount * n ≤ fuel) :
    ∃ q, a.runWorklist g limit fuel queue p = .ok q ∧ a.Settled g q := by
  induction fuel generalizing queue p n with
  | zero =>
    cases queue with
    | nil => exact ⟨p, rfl, Q.sound, fun i hi => Q.settled i hi List.not_mem_nil⟩
    | cons i queue =>
      rw [List.length_cons] at hfuel
      omega
  | succ fuel ih =>
    cases queue with
    | nil => exact ⟨p, rfl, Q.sound, fun i hi => Q.settled i hi List.not_mem_nil⟩
    | cons i queue =>
      have hi := Q.lt_count i List.mem_cons_self
      obtain ⟨changed, p', hvisit, V⟩ := M.visited H hi p
      have Q' := Q.visit M H V
      rw [List.length_cons] at hfuel
      obtain ⟨q, hq, S⟩ : ∃ q, a.runWorklist g limit fuel
          (if changed then enqueue queue (a.direction.sinks g i) else queue) p' = .ok q ∧
            a.Settled g q := by
        cases V with
        | kept _ hstates _ => exact ih Q' (hstates ▸ C) (by simpa using by omega)
        | raised hne hstates _ =>
          obtain ⟨m, rfl, C'⟩ := C.raise hi hne
          refine ih Q' (hstates ▸ C') ?_
          have hlen : (enqueue queue (a.direction.sinks g i)).length ≤
              queue.length + (a.direction.sinks g i).length := length_enqueue_le
          have hsinks := Direction.length_sinks_le (d := a.direction) H hi
          rw [Nat.mul_succ] at hfuel
          simp only [if_true]
          omega
      refine ⟨q, ?_, S⟩
      rw [Analysis.runWorklist, hvisit]
      exact hq

/-- A sweep that changes nothing settles every node that it visits; one that changes something
leaves fewer changes. -/
theorem Sound.sweep [DecidableEq σ] {n : Nat} {l : List Nat} (M : a.IsMonotone) (H : g.WellFormed)
    (S : a.Sound g p.states) (C : a.ChangesWithin g n p.states)
    (hl : ∀ i ∈ l, i < g.graph.vertexCount) :
    ∃ changed p', a.sweep g l p = .ok (changed, p') ∧ a.Sound g p'.states ∧
      (changed = true → ∃ m, n = m + 1 ∧ a.ChangesWithin g m p'.states) ∧
      (changed = false → p'.states = p.states ∧
        ∀ i, i ∈ l ∨ a.SettledAt g p i → a.SettledAt g p' i) := by
  induction l generalizing p n with
  | nil => exact ⟨false, p, rfl, S, nofun, fun _ => ⟨rfl, by simp⟩⟩
  | cons i l ih =>
    have hi := hl i List.mem_cons_self
    have hl' : ∀ k ∈ l, k < g.graph.vertexCount := fun k hk => hl k (List.mem_cons_of_mem _ hk)
    obtain ⟨first, p₁, hvisit, V⟩ := M.visited H hi p
    have hsweep : ∀ {later p'}, a.sweep g l p₁ = .ok (later, p') →
        a.sweep g (i :: l) p = .ok (first || later, p') := by
      intro later p' h
      rw [Analysis.sweep, hvisit]
      simp only [bind, Except.bind, h]
      rfl
    have S₁ := V.sound M S hi
    cases V with
    | kept hsame hstates hinputs =>
      have V : a.Visited g i p p₁ false := .kept hsame hstates hinputs
      obtain ⟨later, p', hlater, S', hchanged, hkept⟩ := ih S₁ (hstates ▸ C) hl'
      refine ⟨later, p', hsweep hlater, S', hchanged, fun h => ?_⟩
      obtain ⟨hstates', hsettled⟩ := hkept h
      refine ⟨hstates'.trans hstates, fun k hk => hsettled k ?_⟩
      rcases hk with hk | hk
      · rcases List.mem_cons.mp hk with hk | hk
        · exact .inr (V.settledAt (.inl hk) nofun)
        · exact .inl hk
      · exact .inr (V.settledAt (.inr hk) nofun)
    | raised hne hstates _ =>
      obtain ⟨m, rfl, C₁⟩ := C.raise hi hne
      rw [← hstates] at C₁
      obtain ⟨later, p', hlater, S', hchanged, hkept⟩ := ih S₁ C₁ hl'
      refine ⟨true, p', hsweep hlater, S', fun _ => ⟨m, rfl, ?_⟩, nofun⟩
      cases later with
      | true =>
        obtain ⟨m', rfl, C'⟩ := hchanged rfl
        exact C'.succ
      | false => rwa [(hkept rfl).1]

theorem Sound.runRoundRobin [DecidableEq σ] {limit fuel n : Nat} {order : List Nat}
    (M : a.IsMonotone) (H : g.WellFormed) (S : a.Sound g p.states)
    (C : a.ChangesWithin g n p.states) (horder : ∀ i, i ∈ order ↔ i < g.graph.vertexCount)
    (hfuel : n < fuel) :
    ∃ q, a.runRoundRobin g limit order fuel p = .ok q ∧ a.Settled g q := by
  induction fuel generalizing p n with
  | zero => omega
  | succ fuel ih =>
    obtain ⟨changed, p', hsweep, S', hchanged, hkept⟩ := S.sweep M H C fun i => (horder i).mp
    cases changed with
    | true =>
      obtain ⟨m, rfl, C'⟩ := hchanged rfl
      obtain ⟨q, hq, hsettled⟩ := ih S' C' (by omega)
      refine ⟨q, ?_, hsettled⟩
      rw [Analysis.runRoundRobin, hsweep]
      exact hq
    | false =>
      refine ⟨p', ?_, S', fun i hi => (hkept rfl).2 i (.inl ((horder i).mpr hi))⟩
      rw [Analysis.runRoundRobin, hsweep]
      rfl

/-- Both strategies settle every node within a limit. -/
theorem IsMonotone.run_settles [DecidableEq σ] {n limit : Nat} (M : a.IsMonotone) (R : g.Rooted)
    (C : a.ChangesWithin g n fun _ => none)
    (hlimit : 1 + g.graph.vertexCount + g.graph.vertexCount * n ≤ limit) (strategy : Strategy) :
    ∃ q, a.run g strategy limit = .ok q ∧ a.Settled g q := by
  have hempty : ({} : Progress σ).states = fun _ => none := by
    funext i
    simp [Progress.states]
  have S : a.Sound g ({} : Progress σ).states := hempty ▸ .empty
  have H := R.toWellFormed
  obtain ⟨order, hrun, hlength, horder⟩ := Direction.order_spec R a.direction
  rw [run, hrun]
  cases strategy with
  | worklist =>
    have Q : a.Queued g order {} :=
      ⟨S, fun i => (horder i).mp, fun i hi hnot => absurd ((horder i).mpr hi) hnot⟩
    exact Q.runWorklist M H (hempty ▸ C) (by omega)
  | roundRobin =>
    rcases Nat.eq_zero_or_pos g.graph.vertexCount with hzero | hpos
    · have C₀ : a.ChangesWithin g 0 fun _ => none := fun i hi => absurd hi (by omega)
      exact S.runRoundRobin M H (hempty ▸ C₀) horder (by omega)
    · have := Nat.le_mul_of_pos_left n hpos
      exact S.runRoundRobin M H (hempty ▸ C) horder (by omega)

end Strategies

end Monotone

end Analysis

end ContractFlow
