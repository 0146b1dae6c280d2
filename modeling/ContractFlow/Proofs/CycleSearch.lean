import ContractFlow.Proofs.DepthFirst

/-!
The search for a cycle. `Search.Marking` is the recursive search with two kinds of marks: a vertex
has a temporary mark while its successors are searched and a permanent mark once they all have been,
and meeting a temporary mark is meeting a cycle. A search that fails has a cycle below it
(`Search.Marking.exists_cycle`). One that succeeds leaves behind permanent marks that nothing leads
out of and no cycle goes through (`Search.Marking.settled`).

Main statement: `Digraph.ofInsertions_isAcyclic`. In every graph that is made by insertions, the
answer for any index is the one of the marking search, and what `Digraph.DecidesCycles` says holds
of it.
-/

namespace ContractFlow

open Relation

namespace Search

/-- **The marking search.** It starts with temporary marks, permanent marks and what is pending, and
ends with the permanent marks that there are then and with its answer, which is `false` if a cycle
was met. -/
inductive Marking {α : Type} (next : α → List α) : List α → List α → List α → List α → Bool → Prop
  | done : Marking next temporary permanent [] permanent true
  | pass : x ∈ permanent → Marking next temporary permanent pending permanent' answer →
    Marking next temporary permanent (x :: pending) permanent' answer
  | back : x ∉ permanent → x ∈ temporary →
    Marking next temporary permanent (x :: pending) permanent false
  | fail : x ∉ permanent → x ∉ temporary →
    Marking next (x :: temporary) permanent (next x) permanent' false →
    Marking next temporary permanent (x :: pending) permanent' false
  | mark : x ∉ permanent → x ∉ temporary →
    Marking next (x :: temporary) permanent (next x) permanent' true →
    Marking next temporary (x :: permanent') pending permanent'' answer →
    Marking next temporary permanent (x :: pending) permanent'' answer

/-- Nothing leads out of what is marked, and no cycle goes through it. -/
structure Settled {α : Type} (next : α → List α) (marked : List α) : Prop where
  closed : ∀ x ∈ marked, next x ⊆ marked
  acyclic : ∀ x ∈ marked, ¬TransGen (fun a b => b ∈ next a) x x

namespace Settled

variable {α : Type} {next : α → List α} {marked : List α} {x y : α}

theorem nil : Settled next [] := ⟨by simp, by simp⟩

theorem mem_of_reaches (S : Settled next marked) (hx : x ∈ marked)
    (h : ReflTransGen (fun a b => b ∈ next a) x y) : y ∈ marked := by
  induction h with
  | refl => exact hx
  | tail _ hstep ih => exact S.closed _ ih hstep

/-- A vertex may be marked once its successors are. -/
theorem cons (S : Settled next marked) (hx : next x ⊆ marked) : Settled next (x :: marked) where
  closed y hy := by
    rcases List.mem_cons.mp hy with rfl | hy
    · exact fun z hz => List.mem_cons_of_mem _ (hx hz)
    · exact fun z hz => List.mem_cons_of_mem _ (S.closed y hy hz)
  acyclic y hy hcycle := by
    rcases List.mem_cons.mp hy with rfl | hy
    · -- a cycle through the new vertex comes back to it through a marked one,
      -- so it was marked before
      obtain ⟨z, hz, hback⟩ := TransGen.head'_iff.mp hcycle
      exact S.acyclic y (S.mem_of_reaches (hx hz) hback) hcycle
    · exact S.acyclic y hy hcycle

end Settled

namespace Marking

variable {α : Type} {next : α → List α} {temporary permanent permanent' pending : List α}
  {answer : Bool}

theorem permanent_subset (h : Marking next temporary permanent pending permanent' answer) :
    permanent ⊆ permanent' := by
  induction h with
  | done | back => exact List.Subset.refl _
  | pass _ _ ih | fail _ _ _ ih => exact ih
  | mark _ _ _ _ ih₁ ih₂ => exact fun y hy => ih₂ (List.mem_cons_of_mem _ (ih₁ hy))

/-- **A search that succeeds** has marked all that was pending, and settled it. -/
theorem settled (h : Marking next temporary permanent pending permanent' answer)
    (hanswer : answer = true)
    (S : Settled next permanent) : Settled next permanent' ∧ pending ⊆ permanent' := by
  induction h with
  | done => exact ⟨S, List.nil_subset _⟩
  | pass hx h ih =>
    obtain ⟨S', hpending⟩ := ih hanswer S
    exact ⟨S', List.cons_subset.mpr ⟨h.permanent_subset hx, hpending⟩⟩
  | back | fail => cases hanswer
  | mark _ _ _ h ih₁ ih₂ =>
    obtain ⟨S₁, hnext⟩ := ih₁ rfl S
    obtain ⟨S₂, hpending⟩ := ih₂ hanswer (S₁.cons hnext)
    exact ⟨S₂, List.cons_subset.mpr ⟨h.permanent_subset List.mem_cons_self, hpending⟩⟩

/-- **A search that fails** has a cycle below something that was pending. The temporary marks are on
the way to what is pending, so meeting one of them closes a cycle. -/
theorem exists_cycle (h : Marking next temporary permanent pending permanent' answer)
    (hanswer : answer = false)
    (hway : ∀ t ∈ temporary, ∀ y ∈ pending, TransGen (fun a b => b ∈ next a) t y) :
    ∃ y ∈ pending, ∃ v, ReflTransGen (fun a b => b ∈ next a) y v ∧
      TransGen (fun a b => b ∈ next a) v v := by
  induction h with
  | done => cases hanswer
  | pass _ _ ih | mark _ _ _ _ _ ih =>
    obtain ⟨y, hy, hcycle⟩ := ih hanswer fun t ht y hy => hway t ht y (List.mem_cons_of_mem _ hy)
    exact ⟨y, List.mem_cons_of_mem _ hy, hcycle⟩
  | @back _ x _ _ _ hx => exact ⟨x, List.mem_cons_self, x, .refl, hway x hx x List.mem_cons_self⟩
  | @fail _ x temporary _ _ _ _ _ ih =>
    have hbelow : ∀ t ∈ x :: temporary, ∀ y ∈ next x, TransGen (fun a b => b ∈ next a) t y := by
      intro t ht y hy
      rcases List.mem_cons.mp ht with rfl | ht
      · exact .single hy
      · exact (hway t ht x List.mem_cons_self).tail hy
    obtain ⟨y, hy, v, hv, hcycle⟩ := ih rfl hbelow
    exact ⟨x, List.mem_cons_self, v, .head hy hv, hcycle⟩

/-- The search from one vertex answers whether no cycle can be reached from it. -/
theorem answer_iff {root : α} (h : Marking next [] [] [root] permanent' answer) :
    answer = true ↔ ∀ v, ReflTransGen (fun a b => b ∈ next a) root v →
      ¬TransGen (fun a b => b ∈ next a) v v := by
  constructor
  · intro hanswer v hv
    obtain ⟨S, hroot⟩ := h.settled hanswer .nil
    exact S.acyclic v (S.mem_of_reaches (hroot List.mem_cons_self) hv)
  · intro hacyclic
    refine Bool.eq_true_of_not_eq_false fun hanswer => ?_
    obtain ⟨y, hy, v, hv, hcycle⟩ := h.exists_cycle hanswer (by simp)
    obtain rfl := List.mem_singleton.mp hy
    exact hacyclic v hv hcycle

end Marking

/-- The marking search ends if it stays in a finite domain. -/
theorem exists_marking {α : Type} [DecidableEq α] {domain : List α} {next : α → List α}
    (hnext : ∀ x ∈ domain, next x ⊆ domain) (temporary permanent pending : List α)
    (hpending : pending ⊆ domain) :
    ∃ permanent' answer, Marking next temporary permanent pending permanent' answer := by
  -- marks of either kind are only added on the way down, and a mark that turns permanent stays
  induction hn : unvisited domain (temporary ++ permanent) using Nat.strongRecOn
    generalizing temporary permanent pending with
  | ind n ih =>
    induction pending with
    | nil => exact ⟨permanent, true, .done⟩
    | cons x pending ihpending =>
      obtain ⟨hx, hpending⟩ := List.cons_subset.mp hpending
      by_cases hpermanent : x ∈ permanent
      · obtain ⟨permanent', answer, h⟩ := ihpending hpending
        exact ⟨permanent', answer, .pass hpermanent h⟩
      by_cases htemporary : x ∈ temporary
      · exact ⟨permanent, false, .back hpermanent htemporary⟩
      have hlt : unvisited domain (x :: (temporary ++ permanent)) < n :=
        hn ▸ unvisited_cons_lt hx (by simp [hpermanent, htemporary])
      obtain ⟨permanent₁, answer, h₁⟩ :=
        ih _ hlt (x :: temporary) permanent (next x) (hnext x hx) rfl
      cases answer with
      | false => exact ⟨permanent₁, false, .fail hpermanent htemporary h₁⟩
      | true =>
        have hkept : x :: (temporary ++ permanent) ⊆ temporary ++ x :: permanent₁ := by
          intro y hy
          have hsub : y ∈ permanent → y ∈ permanent₁ := fun h => h₁.permanent_subset h
          simp only [List.mem_cons, List.mem_append] at hy ⊢
          tauto
        obtain ⟨permanent₂, answer, h₂⟩ :=
          ih _ ((unvisited_le_of_subset hkept).trans_lt hlt) temporary
            (x :: permanent₁) pending hpending rfl
        exact ⟨permanent₂, answer, .mark hpermanent htemporary h₁ h₂⟩

end Search

namespace Digraph

variable {V E : Type} {g : Digraph V E} {e : Edge E} {root i j : Nat}

/-- **What the search for a cycle answers.** It is what the marking search from the root answers,
which ends: `false` exactly if the root is a vertex and can reach one that lies on a cycle. An edge
that runs in parallel to others changes nothing, nor does an edge to what the root could reach
before, unless it closes a cycle. -/
structure DecidesCycles (g : Digraph V E) (root : Nat) : Prop where
  false_iff : g.isAcyclic root = false ↔
    g.hasVertex root = true ∧ ∃ v, ReflTransGen g.Adjacent root v ∧ TransGen g.Adjacent v v
  marking : ∀ answer,
    (∃ permanent, Search.Marking g.successorList [] [] [root] permanent answer) ↔
      g.isAcyclic root = answer
  parallel : ∀ e : Edge E, g.Adjacent e.head e.tail →
    (g.perform (.edge e)).2.isAcyclic root = g.isAcyclic root
  diamond : ∀ e : Edge E, ReflTransGen g.Adjacent root e.tail →
    ¬ReflTransGen g.Adjacent e.tail e.head →
    (g.perform (.edge e)).2.isAcyclic root = g.isAcyclic root

namespace Consistent

/-- Outside the graph there are no edges, and no cycles. -/
theorem reachesNoCycle_of_absent (H : g.Consistent) (hroot : g.hasVertex root = false) :
    g.ReachesNoCycle root := by
  intro v hv hcycle
  have hstart : ∃ w, g.Adjacent root w := by
    rcases ReflTransGen.cases_head hv with rfl | ⟨w, hw, -⟩
    · obtain ⟨w, hw, -⟩ := TransGen.head'_iff.mp hcycle
      exact ⟨w, hw⟩
    · exact ⟨w, hw⟩
  obtain ⟨w, hw⟩ := hstart
  simp [(H.hasVertex_of_adjacent hw).1] at hroot

theorem isAcyclic_eq_true_iff (H : g.Consistent) :
    g.isAcyclic root = true ↔ g.ReachesNoCycle root := by
  cases hroot : g.hasVertex root with
  | true => exact H.isAcyclic_iff hroot
  | false =>
    have hanswer : g.isAcyclic root = true := by simp [isAcyclic, Digraph.postOrder, hroot]
    exact iff_of_true hanswer (H.reachesNoCycle_of_absent hroot)

theorem isAcyclic_eq_false_iff (H : g.Consistent) : g.isAcyclic root = false ↔
    g.hasVertex root = true ∧ ∃ v, ReflTransGen g.Adjacent root v ∧ TransGen g.Adjacent v v := by
  have hcycle : g.isAcyclic root = false ↔ ∃ v, ReflTransGen g.Adjacent root v ∧
      TransGen g.Adjacent v v := by
    rw [← Bool.not_eq_true, H.isAcyclic_eq_true_iff]
    simp [ReachesNoCycle]
  refine hcycle.trans ⟨fun h => ⟨?_, h⟩, And.right⟩
  refine Bool.eq_true_of_not_eq_false fun hroot => ?_
  obtain ⟨v, hv, hv'⟩ := h
  exact H.reachesNoCycle_of_absent hroot v hv hv'

theorem marking_iff (H : g.Consistent) (answer : Bool) :
    (∃ permanent, Search.Marking g.successorList [] [] [root] permanent answer) ↔
      g.isAcyclic root = answer := by
  have hanswer :
      ∀ {permanent answer}, Search.Marking g.successorList [] [] [root] permanent answer →
      (answer = true ↔ g.isAcyclic root = true) := by
    intro permanent answer h
    have hstep : (fun a b => b ∈ g.successorList a) = g.Adjacent := by
      funext a b
      exact propext H.mem_successorList_iff
    rw [h.answer_iff, H.isAcyclic_eq_true_iff, hstep, ReachesNoCycle]
  constructor
  · rintro ⟨permanent, h⟩
    exact (Bool.eq_iff_iff.mpr (hanswer h)).symm
  · rintro rfl
    have hdomain : ∀ i ∈ root :: g.indices, g.successorList i ⊆ root :: g.indices :=
      fun i _ j hj => List.mem_cons_of_mem _ (H.successorList_subset_indices i hj)
    obtain ⟨permanent, answer, h⟩ := Search.exists_marking hdomain [] [] [root] (by simp)
    rw [← Bool.eq_iff_iff.mpr (hanswer h)]
    exact ⟨permanent, h⟩

/-- Only what leads where matters for cycles. -/
theorem isAcyclic_congr {g' : Digraph V E} (H : g.Consistent) (H' : g'.Consistent)
    (h : g'.ReachesNoCycle root ↔ g.ReachesNoCycle root) : g'.isAcyclic root = g.isAcyclic root :=
  Bool.eq_iff_iff.mpr (H'.isAcyclic_eq_true_iff.trans (h.trans H.isAcyclic_eq_true_iff.symm))

end Consistent

/-- An edge that is inserted leads from its head to its tail; one that is refused changes
nothing. -/
theorem perform_edge_adjacent (g : Digraph V E) (e : Edge E) : (g.perform (.edge e)).2 = g ∨
    ∀ i j, (g.perform (.edge e)).2.Adjacent i j ↔ g.Adjacent i j ∨ i = e.head ∧ j = e.tail := by
  cases hanswer : (g.perform (.edge e)).1 with
  | error err => exact .inl (g.insertionLaws.refused _ err hanswer)
  | ok answer =>
    refine .inr fun i j => ?_
    simp only [Adjacent, (g.insertionLaws.edge_inserted e answer hanswer).1, Array.toList_push,
      List.mem_append, List.mem_singleton, or_and_right, exists_or, exists_eq_left,
      @eq_comm _ e.head, @eq_comm _ e.tail]

section NewEdge

variable {g' : Digraph V E}
  (hnew : ∀ i j, g'.Adjacent i j ↔ g.Adjacent i j ∨ i = e.head ∧ j = e.tail)
include hnew

/-- A path in the larger graph is one in the smaller graph, or leads to the new edge and on from
it. -/
theorem reaches_of_new_edge (h : TransGen g'.Adjacent i j) :
    TransGen g.Adjacent i j ∨ ReflTransGen g.Adjacent i e.head ∧
      ReflTransGen g.Adjacent e.tail j := by
  induction h with
  | single hstep =>
    rcases (hnew _ _).mp hstep with hstep | ⟨rfl, rfl⟩
    · exact .inl (.single hstep)
    · exact .inr ⟨.refl, .refl⟩
  | tail _ hstep ih =>
    rcases (hnew _ _).mp hstep with hstep | ⟨rfl, rfl⟩
    · exact ih.imp (fun h => h.tail hstep) (fun ⟨hhead, htail⟩ => ⟨hhead, htail.tail hstep⟩)
    · exact .inr ⟨ih.elim TransGen.to_reflTransGen And.left, .refl⟩

theorem reachesNoCycle_of_new_edge (htail : ReflTransGen g.Adjacent root e.tail)
    (hback : ¬ReflTransGen g.Adjacent e.tail e.head) : g'.ReachesNoCycle root ↔
      g.ReachesNoCycle root := by
  have hle : ∀ i j, g.Adjacent i j → g'.Adjacent i j := fun i j h => (hnew i j).mpr (.inl h)
  constructor
  · intro hacyclic v hv hcycle
    exact hacyclic v (ReflTransGen.mono hle _ _ hv) (TransGen.mono hle _ _ hcycle)
  · intro hacyclic v hv hcycle
    have hv : ReflTransGen g.Adjacent root v := by
      rcases reflTransGen_iff_eq_or_transGen.mp hv with rfl | hv
      · exact .refl
      · exact (reaches_of_new_edge hnew hv).elim TransGen.to_reflTransGen fun h => htail.trans h.2
    rcases reaches_of_new_edge hnew hcycle with hcycle | ⟨hhead, hrest⟩
    · exact hacyclic v hv hcycle
    · exact hback (hrest.trans hhead)

end NewEdge

/-- **Cycles are found.** Whatever has been inserted into a graph, and from whichever index, the
search for a cycle ends and answers whether one can be reached. -/
theorem ofInsertions_isAcyclic (insertions : List (Insertion V E)) (root : Nat) :
    (ofInsertions insertions).DecidesCycles root := by
  have H := consistent_ofInsertions insertions
  refine ⟨H.isAcyclic_eq_false_iff, H.marking_iff, fun e hparallel => ?_, fun e htail hback => ?_⟩
  · rcases perform_edge_adjacent (ofInsertions insertions) e with hsame | hnew
    · rw [hsame]
    · have hadjacent : ((ofInsertions insertions).perform (.edge e)).2.Adjacent =
          (ofInsertions insertions).Adjacent := by
        funext i j
        rw [hnew i j]
        refine propext (or_iff_left_of_imp ?_)
        rintro ⟨rfl, rfl⟩
        exact hparallel
      exact H.isAcyclic_congr (H.perform _) (by rw [ReachesNoCycle, ReachesNoCycle, hadjacent])
  · rcases perform_edge_adjacent (ofInsertions insertions) e with hsame | hnew
    · rw [hsame]
    · exact H.isAcyclic_congr (H.perform _) (reachesNoCycle_of_new_edge hnew htail hback)

end Digraph

end ContractFlow
