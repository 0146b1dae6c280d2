import ContractFlow.Digraph.Drawing
import ContractFlow.Proofs.Incidence

/-!
Graphs that are made by insertions. `Digraph.perform` runs an insertion on a graph: what it answers,
and which graph it leaves. `Digraph.ofInsertions` performs any sequence of insertions on an empty
graph, whether they succeed or fail.

Main statement: `Digraph.ofInsertions_lawful`. Every such graph takes a further insertion as
`InsertionLaws` says, and answers what is asked about its edges as `LookupLaws` says.
-/

namespace ContractFlow

/-- The members of a list in the order in which they first occur in it, each once. -/
def FirstOccurrences {α : Type} [DecidableEq α] (l distinct : List α) : Prop :=
  (∀ x, x ∈ distinct ↔ x ∈ l) ∧ distinct.Pairwise fun x y => l.idxOf x < l.idxOf y

section FirstOccurrences

variable {α : Type} [DecidableEq α]

/-- Leaving out others does not change which of two members comes first. -/
theorem idxOf_lt_of_idxOf_filter_lt {p : α → Bool} {a b : α} (hb : p b = true) {l : List α}
    (h : (l.filter p).idxOf a < (l.filter p).idxOf b) : l.idxOf a < l.idxOf b := by
  induction l with
  | nil => exact h
  | cons y l ih =>
    by_cases hy : p y = true
    · rw [List.filter_cons_of_pos hy] at h
      grind
    · rw [List.filter_cons_of_neg hy] at h
      grind

theorem firstOccurrences_eraseDups (l : List α) : FirstOccurrences l l.eraseDups := by
  refine ⟨fun x => List.mem_eraseDups, ?_⟩
  induction hn : l.length using Nat.strongRecOn generalizing l with
  | ind n ih =>
    cases l with
    | nil => exact .nil
    | cons x rest =>
      have hlength : (rest.filter fun y => !y == x).length < n := by
        have := List.length_filter_le (fun y => !y == x) rest
        simp only [List.length_cons] at hn
        omega
      have hother : ∀ y, y ∈ (rest.filter fun y => !y == x).eraseDups → (!y == x) = true := by
        intro y hy
        exact (List.mem_filter.mp (List.mem_eraseDups.mp hy)).2
      rw [List.eraseDups_cons, List.pairwise_cons]
      refine ⟨fun y hy => ?_, ?_⟩
      · have := hother y hy
        grind
      · refine (ih _ hlength _ rfl).imp_of_mem fun {y z} hy hz hlt => ?_
        have hy := hother y hy
        have hz := hother z hz
        have := idxOf_lt_of_idxOf_filter_lt (p := fun y => !y == x) hz hlt
        grind

end FirstOccurrences

namespace Digraph

variable {V E : Type} {g g' : Digraph V E} {e : Edge E} {i j : Nat} {v : V}

inductive Insertion (V E : Type) where
  | vertex (index : Nat) (v : V)
  | edge (e : Edge E)

/-- Performs an insertion on a graph: what it answers, which for an edge is its number, and the
graph that it leaves. -/
def perform (g : Digraph V E) : Insertion V E → Except Error (Option Nat) × Digraph V E
  | .vertex index v => Prod.map (Except.map fun _ => none) id ((Update.insertVertex index v).run g)
  | .edge e => Prod.map (Except.map some) id ((Update.insertEdge e).run g)

/-- The graph after some insertions. -/
def ofInsertions (insertions : List (Insertion V E)) : Digraph V E :=
  insertions.foldl (fun g insertion => (g.perform insertion).2) .empty

/-! ## One insertion -/

/-- **What an insertion answers and does.** A vertex is refused if its index is taken, and an edge
if one of its ends is missing; then nothing changes. Otherwise the vertex is put under its index, or
the edge after those that are there. -/
structure InsertionLaws (g : Digraph V E) : Prop where
  vertex_answer : ∀ index v, (g.perform (.vertex index v)).1 =
    if g.hasVertex index then .error .duplicateVertex else .ok none
  edge_answer : ∀ e, (g.perform (.edge e)).1 =
    if !g.hasVertex e.head then .error (.vertexNotFound e.head)
    else if !g.hasVertex e.tail then .error (.vertexNotFound e.tail)
    else .ok (some g.edgeCount)
  refused : ∀ insertion err, (g.perform insertion).1 = .error err → (g.perform insertion).2 = g
  vertex_inserted : ∀ index v answer, (g.perform (.vertex index v)).1 = .ok answer →
    (g.perform (.vertex index v)).2.edges = g.edges ∧
      ∀ k w, (g.perform (.vertex index v)).2.vertex k = .ok w ↔
        (k = index ∧ w = v) ∨ g.vertex k = .ok w
  edge_inserted : ∀ e answer, (g.perform (.edge e)).1 = .ok answer →
    (g.perform (.edge e)).2.edges = g.edges.push e ∧
      ∀ k, (g.perform (.edge e)).2.vertex k = g.vertex k

/-- An insertion fails and changes nothing, or it succeeds and all four containers are changed. -/
theorem perform_vertex_cases (g : Digraph V E) (i : Nat) (v : V) :
    (g.hasVertex i = true ∧ g.perform (.vertex i v) = (.error .duplicateVertex, g)) ∨
    (g.hasVertex i = false ∧
      ∃ g', g.insertVertex i v = .ok g' ∧ g.perform (.vertex i v) = (.ok none, g')) := by
  rw [perform, insertVertex, after, Update.run_insertVertex]
  cases g.hasVertex i
  · exact .inr ⟨rfl, _, rfl, rfl⟩
  · exact .inl ⟨rfl, rfl⟩

theorem perform_edge_cases (g : Digraph V E) (e : Edge E) :
    (g.hasVertex e.head = false ∧ g.perform (.edge e) = (.error (.vertexNotFound e.head), g)) ∨
    (g.hasVertex e.head = true ∧ g.hasVertex e.tail = false ∧
      g.perform (.edge e) = (.error (.vertexNotFound e.tail), g)) ∨
    (g.hasVertex e.head = true ∧ g.hasVertex e.tail = true ∧
      ∃ g', g.insertEdge e = .ok g' ∧ g.perform (.edge e) = (.ok (some g.edgeCount), g')) := by
  rw [perform, insertEdge, after, Update.run_insertEdge]
  cases g.hasVertex e.head
  · exact .inl ⟨rfl, rfl⟩
  cases g.hasVertex e.tail
  · exact .inr (.inl ⟨rfl, rfl, rfl⟩)
  · exact .inr (.inr ⟨rfl, rfl, _, rfl, rfl⟩)

theorem insertionLaws (g : Digraph V E) : g.InsertionLaws where
  vertex_answer i v := by
    obtain ⟨hi, h⟩ | ⟨hi, g', -, h⟩ := g.perform_vertex_cases i v <;> simp [h, hi]
  edge_answer e := by
    obtain ⟨hh, h⟩ | ⟨hh, ht, h⟩ | ⟨hh, ht, g', -, h⟩ := g.perform_edge_cases e <;> simp [*]
  refused insertion err herr := by
    cases insertion with
    | vertex i v =>
      obtain ⟨-, h⟩ | ⟨-, g', -, h⟩ := g.perform_vertex_cases i v
      · rw [h]
      · simp [h] at herr
    | edge e =>
      obtain ⟨-, h⟩ | ⟨-, -, h⟩ | ⟨-, -, g', -, h⟩ := g.perform_edge_cases e
      · rw [h]
      · rw [h]
      · simp [h] at herr
  vertex_inserted i v answer hanswer := by
    obtain ⟨-, h⟩ | ⟨-, g', hv, h⟩ := g.perform_vertex_cases i v
    · simp [h] at hanswer
    · rw [h]
      exact ⟨insertVertex_edges hv, fun k w => insertVertex_vertex_iff hv⟩
  edge_inserted e answer hanswer := by
    obtain ⟨-, h⟩ | ⟨-, -, h⟩ | ⟨-, -, g', he, h⟩ := g.perform_edge_cases e
    · simp [h] at hanswer
    · simp [h] at hanswer
    · rw [h]
      exact ⟨insertEdge_edges he, insertEdge_vertex he⟩

/-! ## Sequences of insertions -/

theorem Consistent.perform (H : g.Consistent) (insertion : Insertion V E) :
    (g.perform insertion).2.Consistent := by
  cases insertion with
  | vertex i v =>
    obtain ⟨-, h⟩ | ⟨-, g', hv, h⟩ := g.perform_vertex_cases i v <;> rw [h]
    · exact H
    · exact H.insertVertex hv
  | edge e =>
    obtain ⟨-, h⟩ | ⟨-, -, h⟩ | ⟨-, -, g', he, h⟩ := g.perform_edge_cases e <;> rw [h]
    · exact H
    · exact H
    · exact H.insertEdge he

theorem consistent_ofInsertions (insertions : List (Insertion V E)) :
    (ofInsertions insertions).Consistent := by
  have hrun : ∀ g : Digraph V E, g.Consistent →
      (insertions.foldl (fun g insertion => (g.perform insertion).2) g).Consistent := by
    induction insertions with
    | nil => exact fun g H => H
    | cons insertion rest ih => exact fun g H => ih _ (H.perform insertion)
  exact hrun _ .empty

/-! ## Look-ups -/

/-- **What look-ups answer.** The edges of a vertex are those that leave or enter it, in the order
of insertion, and its neighbours are the other ends of these. Nothing is looked up in vain: the
tables have lists for the vertices and for nothing else, every number in a list is the number of an
edge, neighbours are vertices, and so are the ends of edges, which have names when the graph is
drawn. -/
structure LookupLaws (g : Digraph V E) : Prop where
  edgesOut : ∀ i, g.edgesOut i =
    if g.hasVertex i then .ok (g.edges.toList.filter (·.head = i)) else .error (.vertexNotFound i)
  edgesIn : ∀ i, g.edgesIn i =
    if g.hasVertex i then .ok (g.edges.toList.filter (·.tail = i)) else .error (.vertexNotFound i)
  successors : ∀ i, if g.hasVertex i
    then ∃ l, g.successors i = .ok l ∧
      FirstOccurrences ((g.edges.toList.filter (·.head = i)).map (·.tail)) l
    else g.successors i = .error (.vertexNotFound i)
  predecessors : ∀ i, if g.hasVertex i
    then ∃ l, g.predecessors i = .ok l ∧
      FirstOccurrences ((g.edges.toList.filter (·.tail = i)).map (·.head)) l
    else g.predecessors i = .error (.vertexNotFound i)
  successor_iff : ∀ i j, (∃ l, g.successors i = .ok l ∧ j ∈ l) ↔ g.hasEdge i j = true
  predecessor_iff : ∀ i j, (∃ l, g.predecessors j = .ok l ∧ i ∈ l) ↔ g.hasEdge i j = true
  listed : ∀ i, g.outgoing.contains i = g.hasVertex i ∧ g.incoming.contains i = g.hasVertex i
  numbers : ∀ i l, lookup g.outgoing i = .ok l ∨ lookup g.incoming i = .ok l →
    ∀ k ∈ l, k < g.edgeCount
  neighbours : ∀ i l, g.successors i = .ok l ∨ g.predecessors i = .ok l →
    ∀ j ∈ l, ∃ v, g.vertex j = .ok v
  ends : ∀ e ∈ g.edges.toList, ∀ i, i = e.head ∨ i = e.tail → ∃ v, g.vertex i = .ok v ∧
    ∀ style, g.nameOf style i = style.name i v

theorem successors_of_absent (h : g.hasVertex i = false) :
    g.successors i = .error (.vertexNotFound i) := by
  simp [successors, h]

/-- An edge leads from one vertex to another. -/
def Adjacent (g : Digraph V E) (i j : Nat) : Prop :=
  ∃ e ∈ g.edges.toList, e.head = i ∧ e.tail = j

namespace Consistent

theorem hasVertex_of_adjacent (H : g.Consistent) (h : g.Adjacent i j) :
    g.hasVertex i = true ∧ g.hasVertex j = true := by
  obtain ⟨e, he, rfl, rfl⟩ := h
  exact H.ends e he

theorem predecessors_of_absent (H : g.Consistent) (hi : g.hasVertex i = false) :
    g.predecessors i = .error (.vertexNotFound i) := by
  rw [Digraph.predecessors, H.edgesIn, hi]
  rfl

theorem mem_successors_iff (H : g.Consistent) :
    (∃ l, g.successors i = .ok l ∧ j ∈ l) ↔ g.Adjacent i j := by
  constructor
  · rintro ⟨l, hl, hj⟩
    cases hi : g.hasVertex i with
    | false => simp [successors_of_absent hi] at hl
    | true =>
      rw [H.successors hi] at hl
      cases hl
      simpa [Adjacent, List.mem_eraseDups, and_assoc] using hj
  · intro h
    refine ⟨_, H.successors (H.hasVertex_of_adjacent h).1, ?_⟩
    simpa [Adjacent, List.mem_eraseDups, and_assoc] using h

theorem mem_predecessors_iff (H : g.Consistent) :
    (∃ l, g.predecessors j = .ok l ∧ i ∈ l) ↔ g.Adjacent i j := by
  constructor
  · rintro ⟨l, hl, hi⟩
    cases hj : g.hasVertex j with
    | false => simp [H.predecessors_of_absent hj] at hl
    | true =>
      rw [H.predecessors hj] at hl
      cases hl
      simpa [Adjacent, List.mem_eraseDups, and_assoc, and_comm] using hi
  · intro h
    refine ⟨_, H.predecessors (H.hasVertex_of_adjacent h).2, ?_⟩
    simpa [Adjacent, List.mem_eraseDups, and_assoc, and_comm] using h

theorem hasEdge_iff (H : g.Consistent) : g.hasEdge i j = true ↔ g.Adjacent i j := by
  cases hi : g.outgoing[i]? with
  | some numbers =>
    simp only [hasEdge, hi, H.outgoing.edgesAt hi, List.any_eq_true, List.mem_filter,
      decide_eq_true_eq, and_assoc]
    rfl
  | none =>
    have hnone : ¬g.Adjacent i j := by
      intro h
      obtain ⟨numbers, hnumbers⟩ := H.outgoing.exists_numbers (H.hasVertex_of_adjacent h).1
      simp [hi] at hnumbers
    simp [hasEdge, hi, hnone]

theorem lookupLaws (H : g.Consistent) : g.LookupLaws where
  edgesOut := H.edgesOut
  edgesIn := H.edgesIn
  successors i := by
    split
    · next hi => exact ⟨_, H.successors hi, firstOccurrences_eraseDups _⟩
    · next hi => exact successors_of_absent (Bool.eq_false_of_not_eq_true hi)
  predecessors i := by
    split
    · next hi => exact ⟨_, H.predecessors hi, firstOccurrences_eraseDups _⟩
    · next hi => exact H.predecessors_of_absent (Bool.eq_false_of_not_eq_true hi)
  successor_iff i j := H.mem_successors_iff.trans H.hasEdge_iff.symm
  predecessor_iff i j := H.mem_predecessors_iff.trans H.hasEdge_iff.symm
  listed i := ⟨H.outgoing.contains i, H.incoming.contains i⟩
  numbers i l h := by
    rcases h with h | h
    · exact H.outgoing.inRange (lookup_eq_ok_iff.mp h)
    · exact H.incoming.inRange (lookup_eq_ok_iff.mp h)
  neighbours i l h j hj := by
    rcases h with h | h
    · have hadjacent := H.mem_successors_iff.mp ⟨l, h, hj⟩
      exact hasVertex_iff.mp (H.hasVertex_of_adjacent hadjacent).2
    · have hadjacent := H.mem_predecessors_iff.mp ⟨l, h, hj⟩
      exact hasVertex_iff.mp (H.hasVertex_of_adjacent hadjacent).1
  ends e he i hi := by
    have hpresent : g.hasVertex i = true := by
      rcases hi with rfl | rfl
      · exact (H.ends e he).1
      · exact (H.ends e he).2
    obtain ⟨v, hv⟩ := hasVertex_iff.mp hpresent
    exact ⟨v, hv, fun style => by rw [nameOf, hv]⟩

end Consistent

/-- **Insertions and look-ups.** Whatever has been inserted into a graph, or could not be inserted,
the graph takes the next insertion and answers look-ups as the laws say. -/
theorem ofInsertions_lawful (insertions : List (Insertion V E)) :
    (ofInsertions insertions).InsertionLaws ∧ (ofInsertions insertions).LookupLaws :=
  ⟨insertionLaws _, (consistent_ofInsertions insertions).lookupLaws⟩

end Digraph

end ContractFlow
