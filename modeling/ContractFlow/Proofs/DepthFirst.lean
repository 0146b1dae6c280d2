import ContractFlow.Proofs.Insertions

/-!
The order in which a depth-first search leaves vertices. `Search.DepthFirst` is the recursive
search: it takes what is pending in order, passes over what has been visited, and searches the
successors of anything else before it leaves it. The search with a stack leaves vertices in the same
order (`Search.DepthFirst.leave_eq`), and it meets them in the order in which the recursive search
enters them (`Search.DepthFirst.explore_eq`).

Main statement: `Digraph.ofInsertions_postOrder`. In every graph that is made by insertions, the
post-order from a vertex is the one of the recursive search, and what `Digraph.LeftInOrder` says
holds of it. With it, a graph is found acyclic exactly if no cycle can be reached
(`Digraph.Consistent.isAcyclic_iff`).
-/

namespace ContractFlow

open Relation

/-- In a list without duplicates, order is the order of positions. -/
theorem idxOf_lt_of_sublist {α : Type} [DecidableEq α] {l : List α} (hl : l.Nodup) {a b : α}
    (h : [a, b].Sublist l) : l.idxOf a < l.idxOf b := by
  induction l with
  | nil => cases h
  | cons x l ih =>
    obtain ⟨hx, hl⟩ := List.nodup_cons.mp hl
    cases h with
    | cons _ h =>
      have ha : x ≠ a := fun heq => hx (heq ▸ h.subset (by simp))
      have hb : x ≠ b := fun heq => hx (heq ▸ h.subset (by simp))
      rw [List.idxOf_cons_ne l ha, List.idxOf_cons_ne l hb]
      exact Nat.succ_lt_succ (ih hl h)
    | cons_cons _ h =>
      have hb : a ≠ b := fun heq => hx (heq ▸ h.subset (by simp))
      rw [List.idxOf_cons_self, List.idxOf_cons_ne l hb]
      exact Nat.succ_pos _

/-- Two members follow each other if they come from parts that do. -/
theorem pair_sublist_append {α : Type} {l l' : List α} {a b : α} (ha : a ∈ l) (hb : b ∈ l') :
    [a, b].Sublist (l ++ l') :=
  (List.singleton_sublist.mpr ha).append (List.singleton_sublist.mpr hb)

/-- Of two members, the one that comes first comes last in the reverse. -/
theorem idxOf_reverse_lt {α : Type} [DecidableEq α] {l : List α} (hl : l.Nodup)
    {a b : α} (hb : b ∈ l) (h : l.idxOf a < l.idxOf b) : l.reverse.idxOf b < l.reverse.idxOf a := by
  induction l with
  | nil => simp at hb
  | cons x l ih => grind

namespace Search

/-- **The recursive depth-first search.** It starts with what has been visited and what is pending,
and ends with what has been visited then and with the order in which vertices were left. -/
inductive DepthFirst {α : Type} (next : α → List α) : List α → List α → List α → List α → Prop
  | done : DepthFirst next visited [] visited []
  | pass : x ∈ visited → DepthFirst next visited pending visited' order →
    DepthFirst next visited (x :: pending) visited' order
  | enter : x ∉ visited → DepthFirst next (x :: visited) (next x) visited' order →
    DepthFirst next visited' pending visited'' order' →
    DepthFirst next visited (x :: pending) visited'' (order ++ x :: order')

namespace DepthFirst

variable {α : Type} {next : α → List α} {visited visited' visited'' pending order order' : List α}

theorem unique (h : DepthFirst next visited pending visited' order)
    (h' : DepthFirst next visited pending visited'' order') : visited' = visited'' ∧
      order = order' := by
  induction h generalizing visited'' order' with
  | done =>
    cases h'
    exact ⟨rfl, rfl⟩
  | pass hx _ ih =>
    cases h' with
    | pass _ h' => exact ih h'
    | enter hx' => exact absurd hx hx'
  | enter hx _ _ ih₁ ih₂ =>
    cases h' with
    | pass hx' => exact absurd hx' hx
    | enter _ h₁ h₂ =>
      obtain ⟨rfl, rfl⟩ := ih₁ h₁
      obtain ⟨rfl, rfl⟩ := ih₂ h₂
      exact ⟨rfl, rfl⟩

/-- What is left has been visited meanwhile, and nothing else has. -/
theorem mem_visited_iff (h : DepthFirst next visited pending visited' order) {x : α} :
    x ∈ visited' ↔ x ∈ visited ∨ x ∈ order := by
  induction h with
  | done => simp
  | pass _ _ ih => exact ih
  | enter _ _ _ ih₁ ih₂ =>
    simp only [ih₂, ih₁, List.mem_cons, List.mem_append]
    grind

theorem visited_subset (h : DepthFirst next visited pending visited' order) : visited ⊆ visited' :=
  fun _ hx => h.mem_visited_iff.mpr (.inl hx)

theorem not_mem_of_mem_order (h : DepthFirst next visited pending visited' order) {x : α}
    (hx : x ∈ order) :
    x ∉ visited := by
  induction h with
  | done => simp at hx
  | pass _ _ ih => exact ih hx
  | enter hy h₁ _ ih₁ ih₂ =>
    rcases List.mem_append.mp hx with hx | hx
    · exact fun hvisited => ih₁ hx (List.mem_cons_of_mem _ hvisited)
    · rcases List.mem_cons.mp hx with rfl | hx
      · exact hy
      · exact fun hvisited => ih₂ hx (h₁.visited_subset (List.mem_cons_of_mem _ hvisited))

theorem nodup_order (h : DepthFirst next visited pending visited' order) : order.Nodup := by
  induction h with
  | done => exact .nil
  | pass _ _ ih => exact ih
  | @enter visited x visited₁ inner pending visited₂ later hx h₁ h₂ ih₁ ih₂ =>
    have hinner : x ∉ inner := fun hx => h₁.not_mem_of_mem_order hx List.mem_cons_self
    have hlater : ∀ y ∈ later, y ∉ x :: visited ∧ y ∉ inner := fun y hy =>
      not_or.mp fun hy' => h₂.not_mem_of_mem_order hy (h₁.mem_visited_iff.mpr hy')
    refine List.nodup_append.mpr ⟨ih₁,
      List.nodup_cons.mpr ⟨fun hx => (hlater x hx).1 List.mem_cons_self, ih₂⟩, ?_⟩
    rintro y hy _ hz rfl
    rcases List.mem_cons.mp hz with rfl | hz
    · exact hinner hy
    · exact (hlater y hz).2 hy

/-- Everything that was pending has been visited in the end. -/
theorem pending_subset (h : DepthFirst next visited pending visited' order) :
    pending ⊆ visited' := by
  induction h with
  | done => simp
  | pass hx h ih => exact List.cons_subset.mpr ⟨h.visited_subset hx, ih⟩
  | enter _ h₁ h₂ _ ih₂ =>
    exact List.cons_subset.mpr ⟨h₂.visited_subset (h₁.visited_subset List.mem_cons_self), ih₂⟩

/-- Nothing is left before its successors have been visited. -/
theorem next_subset (h : DepthFirst next visited pending visited' order) {x : α} (hx : x ∈ order) :
    next x ⊆ visited' := by
  induction h with
  | done => simp at hx
  | pass _ _ ih => exact ih hx
  | enter _ h₁ h₂ ih₁ ih₂ =>
    rcases List.mem_append.mp hx with hx | hx
    · exact fun y hy => h₂.visited_subset (ih₁ hx hy)
    · rcases List.mem_cons.mp hx with rfl | hx
      · exact fun y hy => h₂.visited_subset (h₁.pending_subset hy)
      · exact ih₂ hx

/-- What is left can be reached from something that was pending. -/
theorem reaches (h : DepthFirst next visited pending visited' order) {x : α} (hx : x ∈ order) :
    ∃ y ∈ pending, ReflTransGen (fun a b => b ∈ next a) y x := by
  induction h with
  | done => simp at hx
  | pass _ _ ih =>
    obtain ⟨y, hy, hreach⟩ := ih hx
    exact ⟨y, List.mem_cons_of_mem _ hy, hreach⟩
  | enter _ _ _ ih₁ ih₂ =>
    rcases List.mem_append.mp hx with hx | hx
    · obtain ⟨y, hy, hreach⟩ := ih₁ hx
      exact ⟨_, List.mem_cons_self, .head hy hreach⟩
    · rcases List.mem_cons.mp hx with rfl | hx
      · exact ⟨_, List.mem_cons_self, .refl⟩
      · obtain ⟨y, hy, hreach⟩ := ih₂ hx
        exact ⟨y, List.mem_cons_of_mem _ hy, hreach⟩

/-- Nothing is visited twice. -/
theorem nodup_visited (h : DepthFirst next visited pending visited' order)
    (hvisited : visited.Nodup) :
    visited'.Nodup := by
  induction h with
  | done => exact hvisited
  | pass _ _ ih => exact ih hvisited
  | enter hx _ _ ih₁ ih₂ => exact ih₂ (ih₁ (List.nodup_cons.mpr ⟨hx, hvisited⟩))

/-- The search from one vertex leaves what can be reached from it. -/
theorem mem_order_iff {root : α} (h : DepthFirst next [] [root] visited order) (x : α) :
    x ∈ order ↔ ReflTransGen (fun a b => b ∈ next a) root x := by
  have hvisited : ∀ y, y ∈ visited ↔ y ∈ order := fun y => by simpa using h.mem_visited_iff (x := y)
  constructor
  · intro hx
    obtain ⟨y, hy, hreach⟩ := h.reaches hx
    exact List.mem_singleton.mp hy ▸ hreach
  · intro hreach
    induction hreach with
    | refl => exact (hvisited root).mp (h.pending_subset List.mem_cons_self)
    | tail _ hstep ih => exact (hvisited _).mp (h.next_subset ih hstep)

/-- **The order of an edge.** A successor has been left earlier, unless the vertex can be reached
from it again. -/
theorem sublist_or_reaches (h : DepthFirst next visited pending visited' order) {x y : α}
    (hx : x ∈ order) (hy : y ∈ next x) (hnew : y ∉ visited) :
    [y, x].Sublist order ∨ ReflTransGen (fun a b => b ∈ next a) y x := by
  induction h with
  | done => simp at hx
  | pass _ _ ih => exact ih hx hnew
  | @enter visited z visited₁ inner pending visited₂ later hz h₁ h₂ ih₁ ih₂ =>
    rcases List.mem_append.mp hx with hx | hx
    · -- `x` is left below `z`: it is reached from `z`, and any other successor is below `z` too
      obtain ⟨w, hw, hreach⟩ := h₁.reaches hx
      by_cases hyz : y = z
      · exact .inr (hyz ▸ .head hw hreach)
      · refine (ih₁ hx (by simp [hyz, hnew])).imp_left fun hsub => ?_
        exact hsub.trans (List.sublist_append_left ..)
    by_cases hyinner : y ∈ inner
    · exact .inl (pair_sublist_append hyinner hx)
    rcases List.mem_cons.mp hx with rfl | hx
    · have hself : y = x := by simpa [h₁.mem_visited_iff, hnew, hyinner] using h₁.pending_subset hy
      exact .inr (hself ▸ .refl)
    · by_cases hyz : y = z
      · have hsub : [z, x].Sublist (z :: later) := (List.singleton_sublist.mpr hx).cons_cons z
        exact .inl (hyz ▸ hsub.trans (List.sublist_append_right ..))
      · refine (ih₂ hx (by simp [h₁.mem_visited_iff, hyz, hnew, hyinner])).imp_left fun hsub => ?_
        exact (hsub.cons z).trans (List.sublist_append_right ..)

end DepthFirst

variable {α : Type} [DecidableEq α] {domain : List α} {next : α → List α}
  {visited visited' pending order : List α}

theorem unvisited_le_of_subset (h : visited ⊆ visited') :
    unvisited domain visited' ≤ unvisited domain visited := by
  unfold unvisited
  simp only [← List.countP_eq_length_filter]
  apply List.countP_mono_left
  intro x _ hx
  simp only [decide_eq_true_eq] at hx ⊢
  exact fun hvisited => hx (h hvisited)

/-- The recursive search ends if it stays in a finite domain. -/
theorem exists_depthFirst (hnext : ∀ x ∈ domain, next x ⊆ domain) (visited pending : List α)
    (hpending : pending ⊆ domain) :
    ∃ visited' order, DepthFirst next visited pending visited' order := by
  -- entering a vertex leaves fewer to visit, and passing over one leaves less pending
  induction hn : unvisited domain visited using Nat.strongRecOn generalizing visited pending with
  | ind n ih =>
    induction pending with
    | nil => exact ⟨visited, [], .done⟩
    | cons x pending ihpending =>
      obtain ⟨hx, hpending⟩ := List.cons_subset.mp hpending
      by_cases hvisited : x ∈ visited
      · obtain ⟨visited', order, h⟩ := ihpending hpending
        exact ⟨visited', order, .pass hvisited h⟩
      · have hlt := unvisited_cons_lt hx hvisited
        obtain ⟨visited₁, inner, h₁⟩ := ih _ (hn ▸ hlt) (x :: visited) (next x) (hnext x hx) rfl
        have hle : unvisited domain visited₁ ≤ unvisited domain (x :: visited) :=
          unvisited_le_of_subset h₁.visited_subset
        obtain ⟨visited₂, later, h₂⟩ := ih _ (hn ▸ hle.trans_lt hlt) visited₁ pending hpending rfl
        exact ⟨visited₂, inner ++ x :: later, .enter hvisited h₁ h₂⟩

/-- **The stack of the search.** What is on top of the stack is searched like the recursion does,
and then left. -/
theorem DepthFirst.leave_eq (hnext : ∀ x ∈ domain, next x ⊆ domain)
    (h : DepthFirst next visited pending visited' order) (hpending : pending ⊆ domain) (x : α)
    (stack : List (α × List α)) :
    leave domain next visited ((x, pending) :: stack) =
      order ++ x :: leave domain next visited' stack := by
  induction h generalizing x stack with
  | done => rw [leave, List.nil_append]
  | pass hy _ ih =>
    rw [leave, if_pos (.inl hy)]
    exact ih (fun z hz => hpending (List.mem_cons_of_mem _ hz)) x stack
  | @enter visited y visited₁ inner pending visited₂ later hy h₁ h₂ ih₁ ih₂ =>
    have hdomain := hpending List.mem_cons_self
    rw [leave, if_neg (by simp [hy, hdomain]), ih₁ (hnext y hdomain),
      ih₂ (fun z hz => hpending (List.mem_cons_of_mem _ hz)), List.append_assoc, List.cons_append]

/-- What is on top of the stack is explored like the recursion does. It marks what it enters, the
last first. -/
theorem DepthFirst.explore_eq (hnext : ∀ x ∈ domain, next x ⊆ domain)
    (h : DepthFirst next visited pending visited' order) (hpending : pending ⊆ domain)
    (stack : List α) :
    ∃ entered, visited' = entered.reverse ++ visited ∧
      explore domain next visited (pending ++ stack) =
        entered ++ explore domain next visited' stack := by
  induction h generalizing stack with
  | done => exact ⟨[], rfl, rfl⟩
  | pass hx _ ih =>
    rw [List.cons_append, explore, if_pos hx]
    exact ih (fun y hy => hpending (List.mem_cons_of_mem _ hy)) stack
  | @enter visited x visited₁ inner pending visited₂ later hx h₁ h₂ ih₁ ih₂ =>
    have hdomain := hpending List.mem_cons_self
    obtain ⟨entered₁, rfl, heq₁⟩ := ih₁ (hnext x hdomain) (pending ++ stack)
    obtain ⟨entered₂, rfl, heq₂⟩ := ih₂ (fun y hy => hpending (List.mem_cons_of_mem _ hy)) stack
    refine ⟨x :: (entered₁ ++ entered₂), by simp, ?_⟩
    rw [List.cons_append, explore, if_neg hx, if_pos hdomain, heq₁, heq₂, List.cons_append,
      List.append_assoc]

/-- A search with a stack leaves its vertices like the recursive search from the root. -/
theorem depthFirst_postOrder (hnext : ∀ x ∈ domain, next x ⊆ domain) {root : α}
    (hroot : root ∈ domain) :
    ∃ visited, DepthFirst next [] [root] visited (postOrder domain next root) := by
  obtain ⟨visited, order, h⟩ := exists_depthFirst hnext [root] (next root) (hnext root hroot)
  have heq : postOrder domain next root = order ++ [root] := by
    rw [postOrder, h.leave_eq hnext (hnext root hroot), leave]
  exact ⟨visited, heq ▸ .enter List.not_mem_nil h .done⟩

/-- A pending vertex that occurs again is passed over then. -/
theorem DepthFirst.of_eraseDups (l : List α) {seen : List α} (hseen : seen ⊆ visited)
    (h : DepthFirst next visited (l.filter (· ∉ seen)).eraseDups visited' order) :
    DepthFirst next visited l visited' order := by
  induction l generalizing visited seen order with
  | nil => exact h
  | cons x l ih =>
    by_cases hx : x ∈ seen
    · rw [List.filter_cons_of_neg (by simpa using hx)] at h
      exact .pass (hseen hx) (ih hseen h)
    · have hrest : (l.filter (· ∉ seen)).filter (fun y => !y == x) = l.filter (· ∉ x :: seen) := by
        rw [List.filter_filter]
        apply List.filter_congr
        intro y _
        by_cases y = x <;> simp_all
      rw [List.filter_cons_of_pos (by simpa using hx), List.eraseDups_cons, hrest] at h
      cases h with
      | pass hvisited h => exact .pass hvisited (ih (List.cons_subset.mpr ⟨hvisited, hseen⟩) h)
      | enter hnew h₁ h₂ =>
        exact .enter hnew h₁
          (ih (fun y hy => h₁.visited_subset (List.cons_subset_cons x hseen hy)) h₂)

theorem DepthFirst.of_eraseDups_next
    (h : DepthFirst (fun x => (next x).eraseDups) visited pending visited' order) :
    DepthFirst next visited pending visited' order := by
  induction h with
  | done => exact .done
  | pass hx _ ih => exact .pass hx ih
  | enter hx _ _ ih₁ ih₂ =>
    exact .enter hx (.of_eraseDups _ (List.nil_subset _) (by simpa using ih₁)) ih₂

end Search

namespace Digraph

variable {V E : Type} {g : Digraph V E} {root i j : Nat}

/-- Where the edges that leave a vertex lead, in the order of insertion. -/
def targets (g : Digraph V E) (i : Nat) : List Nat :=
  (g.edges.toList.filter (·.head = i)).map (·.tail)

theorem mem_targets_iff : j ∈ g.targets i ↔ g.Adjacent i j := by
  simp [targets, Adjacent, and_assoc]

theorem targets_eq_adjacent : (fun i j => j ∈ g.targets i) = g.Adjacent := by
  funext i j
  exact propext mem_targets_iff

namespace Consistent

theorem successorList_eq (H : g.Consistent) :
    g.successorList = fun i => (g.targets i).eraseDups := by
  funext i
  cases hi : g.hasVertex i with
  | true => exact H.successorList hi
  | false =>
    have hnone : g.targets i = [] := List.eq_nil_iff_forall_not_mem.mpr fun j hj => by
      simp [(H.hasVertex_of_adjacent (mem_targets_iff.mp hj)).1] at hi
    rw [H.successorList_of_absent hi, hnone]
    rfl

theorem mem_successorList_iff (H : g.Consistent) : j ∈ g.successorList i ↔ g.Adjacent i j := by
  rw [H.successorList_eq, List.mem_eraseDups, mem_targets_iff]

theorem successorList_subset_indices (H : g.Consistent) (i : Nat) :
    g.successorList i ⊆ g.indices := by
  intro j hj
  exact mem_indices_iff.mpr (H.hasVertex_of_adjacent (H.mem_successorList_iff.mp hj)).2

end Consistent

/-- No cycle can be reached from a vertex. -/
def ReachesNoCycle (g : Digraph V E) (root : Nat) : Prop :=
  ∀ v, ReflTransGen g.Adjacent root v → ¬TransGen g.Adjacent v v

/-- **A depth-first post-order.** It is the one of the recursive search that follows edges in the
order of insertion. It lists what can be reached once each, with the root at the end. The end of an
edge comes before its start, unless the edge lies on a cycle; so the reverse is a topological order
if there is no cycle. -/
structure LeftInOrder (g : Digraph V E) (root : Nat) (order : List Nat) : Prop where
  recursive : ∀ l, (∃ visited, Search.DepthFirst g.targets [] [root] visited l) ↔ l = order
  nodup : order.Nodup
  mem_iff : ∀ v, v ∈ order ↔ ReflTransGen g.Adjacent root v
  last : order.getLast? = some root
  edge : ∀ u v, ReflTransGen g.Adjacent root u → g.Adjacent u v →
    ¬order.idxOf v < order.idxOf u → ReflTransGen g.Adjacent v u
  topological : g.ReachesNoCycle root → ∀ u v, ReflTransGen g.Adjacent root u → g.Adjacent u v →
    order.reverse.idxOf u < order.reverse.idxOf v

section

variable {visited order : List Nat} (h : Search.DepthFirst g.targets [] [root] visited order)
include h

theorem mem_order_iff_reachable (v : Nat) : v ∈ order ↔ ReflTransGen g.Adjacent root v := by
  rw [h.mem_order_iff, targets_eq_adjacent]

theorem getLast?_order : order.getLast? = some root := by
  cases h with
  | pass hroot => simp at hroot
  | enter _ _ h =>
    cases h
    exact List.getLast?_concat ..

theorem idxOf_lt_or_reachable {u v : Nat} (hu : ReflTransGen g.Adjacent root u)
    (huv : g.Adjacent u v) :
    order.idxOf v < order.idxOf u ∨ ReflTransGen g.Adjacent v u := by
  have hu := (mem_order_iff_reachable h u).mpr hu
  rcases h.sublist_or_reaches hu (mem_targets_iff.mpr huv) List.not_mem_nil with hsub | hreach
  · exact .inl (idxOf_lt_of_sublist h.nodup_order hsub)
  · exact .inr (targets_eq_adjacent ▸ hreach)

theorem idxOf_lt_of_reachesNoCycle (hcycle : g.ReachesNoCycle root) {u v : Nat}
    (hu : ReflTransGen g.Adjacent root u) (huv : g.Adjacent u v) :
    order.idxOf v < order.idxOf u := by
  apply (idxOf_lt_or_reachable h hu huv).resolve_right
  exact fun hback => hcycle u hu (.head' huv hback)

theorem leftInOrder : g.LeftInOrder root order where
  recursive _ := ⟨fun ⟨_, hl⟩ => (hl.unique h).2, fun hl => ⟨visited, hl ▸ h⟩⟩
  nodup := h.nodup_order
  mem_iff := mem_order_iff_reachable h
  last := getLast?_order h
  edge _ _ hu huv hlt := (idxOf_lt_or_reachable h hu huv).resolve_left hlt
  topological hcycle u _ hu huv :=
    idxOf_reverse_lt h.nodup_order ((mem_order_iff_reachable h u).mpr hu)
      (idxOf_lt_of_reachesNoCycle h hcycle hu huv)

end

theorem Consistent.postOrder (H : g.Consistent) (hroot : g.hasVertex root = true) :
    ∃ visited order, g.postOrder root = .ok order ∧
      Search.DepthFirst g.targets [] [root] visited order := by
  obtain ⟨visited, hsearch⟩ := Search.depthFirst_postOrder
    (fun i _ => H.successorList_subset_indices i) (mem_indices_iff.mpr hroot)
  refine ⟨visited, _, by rw [Digraph.postOrder, if_pos hroot], ?_⟩
  rw [H.successorList_eq] at hsearch ⊢
  exact hsearch.of_eraseDups_next

/-- The search for a cycle finds one exactly if there is one. -/
theorem Consistent.isAcyclic_iff (H : g.Consistent) (hroot : g.hasVertex root = true) :
    g.isAcyclic root = true ↔ g.ReachesNoCycle root := by
  obtain ⟨visited, order, horder, hsearch⟩ := H.postOrder hroot
  have hiff : g.isAcyclic root = true ↔
      ∀ u v, ReflTransGen g.Adjacent root u → g.Adjacent u v → order.idxOf v < order.idxOf u := by
    simp only [isAcyclic, horder, List.all_eq_true, decide_eq_true_eq, H.mem_successorList_iff,
      mem_order_iff_reachable hsearch]
    exact ⟨fun hall u v hu huv => hall u hu v huv, fun hall u hu v huv => hall u v hu huv⟩
  rw [hiff]
  constructor
  · intro hall u hu hcycle
    -- along a path, positions go down
    have hdown : ∀ w, TransGen g.Adjacent u w → order.idxOf w < order.idxOf u := by
      intro w hw
      induction hw with
      | single huv => exact hall _ _ hu huv
      | tail hreach hvw ih => exact (hall _ _ (hu.trans hreach.to_reflTransGen) hvw).trans ih
    exact Nat.lt_irrefl _ (hdown u hcycle)
  · exact fun hcycle u v => idxOf_lt_of_reachesNoCycle hsearch hcycle

/-- **Post-orders.** In a graph that is made by insertions, the post-order from a vertex is the
depth-first one. -/
theorem ofInsertions_postOrder (insertions : List (Insertion V E)) {root : Nat}
    (hroot : (ofInsertions insertions).hasVertex root = true) :
    ∃ order, (ofInsertions insertions).LeftInOrder root order ∧
      (ofInsertions insertions).postOrder root = .ok order ∧
      (ofInsertions insertions).reversePostOrder root = .ok order.reverse := by
  obtain ⟨visited, order, horder, hsearch⟩ := (consistent_ofInsertions insertions).postOrder hroot
  refine ⟨order, leftInOrder hsearch, horder, ?_⟩
  rw [reversePostOrder, horder]
  rfl

/-- A vertex that is inserted twice, two edges that run in parallel, a loop, and an edge to a vertex
that is missing. -/
def tangled : List (Insertion Unit Unit) :=
  [1, 2, 3, 4, 5, 6, 3].map (.vertex · ()) ++
    [(1, 2), (2, 3), (2, 4), (2, 6), (3, 5), (4, 5), (5, 2), (2, 3), (6, 6), (6, 7)].map
      fun e => .edge ⟨e.1, e.2, ()⟩

theorem ofInsertions_postOrder_tangled : (ofInsertions tangled).hasVertex 1 = true ∧
    ∃ order, (ofInsertions tangled).LeftInOrder 1 order ∧
      (ofInsertions tangled).postOrder 1 = .ok order ∧
      (ofInsertions tangled).reversePostOrder 1 = .ok order.reverse := by
  have hroot : (ofInsertions tangled).hasVertex 1 = true := by decide +kernel
  exact ⟨hroot, ofInsertions_postOrder tangled hroot⟩

end Digraph

end ContractFlow
