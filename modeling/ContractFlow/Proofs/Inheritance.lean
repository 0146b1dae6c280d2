import ContractFlow.Hierarchy
import ContractFlow.Proofs.DepthFirst

/-!
Inherited bases. A contract extends the bases that it lists and that are in the hierarchy, and the
recursive search along these lists (`Search.DepthFirst`) says which bases are inherited and in which
order. The search with a stack may hold a name several times and also names that are not in the
hierarchy; the latter make no difference to it (`Search.explore_filter`).

Main statement: `Hierarchy.transitiveBases_inherited`. In every hierarchy, with cycles, repeated and
missing bases, the bases of a name are those that `Hierarchy.Inherited` describes.
-/

namespace ContractFlow

open Relation

namespace Search

variable {α : Type} [DecidableEq α] {domain : List α} {next : α → List α}

/-- What is outside the domain can be left out of a search, whether it is marked or not. -/
theorem explore_filter {marked visited : List α} (hmarks : ∀ x ∈ domain, x ∈ marked ↔ x ∈ visited)
    (stack : List α) :
    explore domain next marked stack =
      explore domain (fun x => (next x).filter (· ∈ domain)) visited
        (stack.filter (· ∈ domain)) := by
  induction marked, stack using explore.induct domain next generalizing visited with
  | case1 marked => rw [List.filter_nil, explore, explore]
  | case2 marked x stack hx ih =>
    rw [explore, if_pos hx, ih hmarks]
    by_cases hdomain : x ∈ domain
    · rw [List.filter_cons_of_pos (by simpa using hdomain), explore.eq_def _ _ _ (x :: _)]
      simp only [(hmarks x hdomain).mp hx, if_true]
    · rw [List.filter_cons_of_neg (by simpa using hdomain)]
  | case3 marked x stack hx hdomain ih =>
    have hmarks' : ∀ y ∈ domain, y ∈ x :: marked ↔ y ∈ x :: visited := fun y hy => by
      simp only [List.mem_cons, hmarks y hy]
    rw [explore, if_neg hx, if_pos hdomain, ih hmarks', List.filter_append,
      List.filter_cons_of_pos (by simpa using hdomain), explore.eq_def _ _ _ (x :: _)]
    simp only [mt (hmarks x hdomain).mpr hx, hdomain, if_true, if_false]
  | case4 marked x stack hx hdomain ih =>
    have hmarks' : ∀ y ∈ domain, y ∈ x :: marked ↔ y ∈ visited := fun y hy => by
      rw [List.mem_cons, or_iff_right (ne_of_mem_of_not_mem hy hdomain), hmarks y hy]
    rw [explore, if_neg hx, if_neg hdomain, ih hmarks',
      List.filter_cons_of_neg (by simpa using hdomain)]

end Search

namespace Hierarchy

variable {h : Hierarchy} {contract base : String}

/-- A contract of the hierarchy lists a base, which is in the hierarchy as well. -/
def Extends (h : Hierarchy) (contract base : String) : Prop :=
  ∃ info, h.contract? contract = some info ∧ base ∈ info.baseContracts ∧
    (h.contract? base).isSome = true

/-- The bases that a contract extends, in the order and as often as they are listed. -/
def extended (h : Hierarchy) (contract : String) : List String :=
  (h.listedBases contract).filter fun base => (h.contract? base).isSome

theorem mem_extended_iff : base ∈ h.extended contract ↔ h.Extends contract base := by
  simp only [extended, List.mem_filter, mem_listedBases_iff, Extends, ← exists_and_right, and_assoc]

theorem extended_eq_filter :
    h.extended contract = (h.listedBases contract).filter (· ∈ h.names) := by
  simp only [extended, mem_names_iff, Bool.decide_eq_true]

theorem extended_subset_names (h : Hierarchy) (contract : String) :
    h.extended contract ⊆ h.names := by
  intro base hbase
  exact mem_names_iff.mpr (List.mem_filter.mp hbase).2

theorem extends_of_mem_directBases (hbase : base ∈ h.directBases contract) :
    h.Extends contract base ∧ base ≠ contract := by
  rw [directBases, List.mem_eraseDups, List.mem_filter, Bool.and_eq_true,
    decide_eq_true_eq] at hbase
  obtain ⟨hlisted, hpresent, hne⟩ := hbase
  obtain ⟨info, hinfo, hmem⟩ := mem_listedBases_iff.mp hlisted
  rw [Std.ExtTreeMap.contains_eq_isSome_getElem?] at hpresent
  exact ⟨⟨info, hinfo, hmem, hpresent⟩, hne⟩

/-- **The bases that a contract inherits from.** The recursive search from the contract enters the
contract itself and then these, in this order: it follows each list of bases as it is written, and
passes over what it has entered before. They are the other contracts that can be reached by
extending one or more times, each once. -/
structure Inherited (h : Hierarchy) (contract : String) (bases : List String) : Prop where
  /-- What has been entered is kept with the last first. -/
  recursive : ∀ l, (∃ order, Search.DepthFirst h.extended [] [contract] l.reverse order) ↔
    l = contract :: bases
  nodup : bases.Nodup
  other : contract ∉ bases
  mem_iff : ∀ base, base ∈ bases ↔ base ≠ contract ∧ TransGen h.Extends contract base
  absent : h.contract? contract = none → bases = []
  direct : ∀ base ∈ h.directBases contract, base ∈ bases

/-- The search with a stack enters the same contracts as the recursive search. -/
theorem depthFirst_transitiveBases (h : Hierarchy) (contract : String) : ∃ order,
    Search.DepthFirst h.extended [] [contract]
      (contract :: h.transitiveBases contract).reverse order := by
  have hdomain : ∀ c ∈ h.names, h.extended c ⊆ h.names := fun c _ => h.extended_subset_names c
  have hstart := h.extended_subset_names contract
  obtain ⟨visited, order, hsearch⟩ :=
    Search.exists_depthFirst hdomain [contract] (h.extended contract) hstart
  obtain ⟨entered, rfl, hentered⟩ := hsearch.explore_eq hdomain hstart []
  have hbases : h.transitiveBases contract = entered := by
    have hextended : h.extended = fun c => (h.listedBases c).filter (· ∈ h.names) :=
      funext fun _ => extended_eq_filter
    rw [List.append_nil, Search.explore, List.append_nil] at hentered
    rw [transitiveBases, Search.explore_filter (fun _ _ => Iff.rfl), ← extended_eq_filter,
      ← hextended, hentered]
  rw [hbases, List.reverse_cons]
  exact ⟨order ++ [contract], .enter List.not_mem_nil hsearch .done⟩

section

variable {bases order : List String}
  (hsearch : Search.DepthFirst h.extended [] [contract] (contract :: bases).reverse order)
include hsearch

theorem nodup_of_depthFirst : (contract :: bases).Nodup :=
  List.nodup_reverse.mp (hsearch.nodup_visited .nil)

theorem mem_iff_of_depthFirst (base : String) :
    base ∈ bases ↔ base ≠ contract ∧ TransGen h.Extends contract base := by
  have hreach : base = contract ∨ base ∈ bases ↔ ReflTransGen h.Extends contract base := by
    have hstep : (fun c base => base ∈ h.extended c) = h.Extends := by
      funext c base
      exact propext mem_extended_iff
    rw [← List.mem_cons, ← List.mem_reverse, hsearch.mem_visited_iff, hsearch.mem_order_iff, hstep]
    simp
  have hother : base ∈ bases → base ≠ contract := by
    rintro hbase rfl
    exact (List.nodup_cons.mp (nodup_of_depthFirst hsearch)).1 hbase
  rw [reflTransGen_iff_eq_or_transGen] at hreach
  tauto

theorem inherited_of_depthFirst : h.Inherited contract bases where
  recursive l := by
    constructor
    · rintro ⟨order', hsearch'⟩
      exact List.reverse_injective (hsearch'.unique hsearch).1
    · rintro rfl
      exact ⟨order, hsearch⟩
  nodup := (List.nodup_cons.mp (nodup_of_depthFirst hsearch)).2
  other := (List.nodup_cons.mp (nodup_of_depthFirst hsearch)).1
  mem_iff := mem_iff_of_depthFirst hsearch
  absent hnone := by
    refine List.eq_nil_iff_forall_not_mem.mpr fun base hbase => ?_
    obtain ⟨c, ⟨info, hinfo, -⟩, -⟩ :=
      TransGen.head'_iff.mp ((mem_iff_of_depthFirst hsearch base).mp hbase).2
    cases hnone.symm.trans hinfo
  direct base hbase := by
    obtain ⟨hextends, hne⟩ := extends_of_mem_directBases hbase
    exact (mem_iff_of_depthFirst hsearch base).mpr ⟨hne, .single hextends⟩

end

/-- **Bases are found depth first.** In every hierarchy, the bases of a name are the inherited ones,
in the order of the recursive search. -/
theorem transitiveBases_inherited (h : Hierarchy) (contract : String) :
    h.Inherited contract (h.transitiveBases contract) := by
  obtain ⟨order, hsearch⟩ := h.depthFirst_transitiveBases contract
  exact inherited_of_depthFirst hsearch

end Hierarchy

end ContractFlow
