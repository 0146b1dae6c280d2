/-!
Depth-first search over a finite domain. A search marks what it has visited; as every step either
marks a new member of the domain or shortens the stack, it ends. `explore` lists the members of the
domain in the order they are first met, and `postOrder` in the order they are left.
-/

namespace ContractFlow.Search

variable {α : Type} [DecidableEq α]

/-- How many members of the domain have not been visited. -/
def unvisited (domain visited : List α) : Nat :=
  (domain.filter (· ∉ visited)).length

theorem unvisited_cons_lt {domain visited : List α} {x : α} (hmem : x ∈ domain)
    (hnew : x ∉ visited) : unvisited domain (x :: visited) < unvisited domain visited := by
  unfold unvisited
  induction domain with
  | nil => cases hmem
  | cons y rest ih =>
    have hle : ∀ l : List α,
        (l.filter (· ∉ x :: visited)).length ≤ (l.filter (· ∉ visited)).length := by
      intro l
      simp only [← List.countP_eq_length_filter]
      apply List.countP_mono_left
      intro z _ hz
      simp_all
    by_cases hxy : y = x
    · subst hxy
      have := hle rest
      simpa [List.filter_cons, hnew] using Nat.lt_succ_of_le this
    · have hrest : x ∈ rest := by
        rcases List.mem_cons.mp hmem with h | h
        · exact absurd h.symm hxy
        · exact h
      have := ih hrest
      by_cases hy : y ∈ visited
      · simpa [List.filter_cons, hy, hxy] using this
      · simpa [List.filter_cons, hy, hxy] using this

theorem unvisited_cons_le (domain visited : List α) (x : α) :
    unvisited domain (x :: visited) ≤ unvisited domain visited := by
  unfold unvisited
  simp only [← List.countP_eq_length_filter]
  apply List.countP_mono_left
  intro z _ hz
  simp_all

/-- The members of the domain met from a stack, each once. What is met is visited first and then
its successors, in order; what is outside the domain leads nowhere. -/
def explore (domain : List α) (next : α → List α) (visited : List α) : List α → List α
  | [] => []
  | x :: stack =>
    if x ∈ visited then explore domain next visited stack
    else if x ∈ domain then x :: explore domain next (x :: visited) (next x ++ stack)
    else explore domain next (x :: visited) stack
termination_by stack => (unvisited domain visited, stack.length)
decreasing_by
  · exact Prod.Lex.right _ (Nat.lt_succ_self _)
  · exact Prod.Lex.left _ _ (unvisited_cons_lt ‹_› ‹_›)
  · rcases Nat.lt_or_eq_of_le (unvisited_cons_le domain visited x) with h | h
    · exact Prod.Lex.left _ _ h
    · rw [h]
      exact Prod.Lex.right _ (Nat.lt_succ_self _)

/-- The members of the domain in the order a search leaves them. Each entry of the stack is a
member that has been entered, with its successors that are still to be looked at. -/
def leave (domain : List α) (next : α → List α) (visited : List α) :
    List (α × List α) → List α
  | [] => []
  | (x, []) :: stack => x :: leave domain next visited stack
  | (x, y :: pending) :: stack =>
    if y ∈ visited ∨ y ∉ domain then leave domain next visited ((x, pending) :: stack)
    else leave domain next (y :: visited) ((y, next y) :: (x, pending) :: stack)
termination_by stack => (unvisited domain visited,
  stack.foldr (fun e size => e.2.length + 1 + size) 0)
decreasing_by
  · exact Prod.Lex.right _ (by simp only [List.foldr_cons]; omega)
  · exact Prod.Lex.right _ (by simp only [List.foldr_cons, List.length_cons]; omega)
  · next h =>
    have h := not_or.mp h
    exact Prod.Lex.left _ _ (unvisited_cons_lt (Decidable.not_not.mp h.2) h.1)

/-- The post-order of what can be reached from `root`, which is a member of the domain. -/
def postOrder (domain : List α) (next : α → List α) (root : α) : List α :=
  leave domain next [root] [(root, next root)]

end ContractFlow.Search
