import ContractFlow.Json.Value
import Mathlib.Order.BoundedOrder.Lattice
import Mathlib.Order.Bounds.Basic
import Mathlib.Data.List.Perm.Subperm

/-!
Sets in search trees ordered by inclusion. Unions are least upper bounds, and a set with more
members is larger in size (`TreeSet.size_strictMono`).
-/

namespace ContractFlow.TreeSet

variable {α : Type} {cmp : α → α → Ordering} [Std.TransCmp cmp] [Std.LawfulEqCmp cmp]
  {s t : Std.ExtTreeSet α cmp}

instance instPartialOrder : PartialOrder (Std.ExtTreeSet α cmp) where
  le s t := ∀ x ∈ s, x ∈ t
  le_refl _ _ h := h
  le_trans _ _ _ hst htu x h := htu x (hst x h)
  le_antisymm _ _ hst hts := Std.ExtTreeSet.ext_mem fun x => ⟨hst x, hts x⟩

instance instSemilatticeSup : SemilatticeSup (Std.ExtTreeSet α cmp) where
  sup s t := s ∪ t
  le_sup_left _ _ _ h := Std.ExtTreeSet.mem_union_iff.mpr (.inl h)
  le_sup_right _ _ _ h := Std.ExtTreeSet.mem_union_iff.mpr (.inr h)
  sup_le _ _ _ hs ht x h := (Std.ExtTreeSet.mem_union_iff.mp h).elim (hs x) (ht x)

instance instOrderBot : OrderBot (Std.ExtTreeSet α cmp) where
  bot := ∅
  bot_le _ _ h := absurd h Std.ExtTreeSet.not_mem_empty

theorem le_iff : s ≤ t ↔ ∀ x ∈ s, x ∈ t := Iff.rfl

theorem mem_filter {p : α → Bool} {x : α} : x ∈ s.filter p ↔ x ∈ s ∧ p x = true := by
  rw [Std.ExtTreeSet.mem_filter]
  simp

omit [Std.LawfulEqCmp cmp] in
/-- Members of a union over a list. -/
theorem mem_foldl_union {β : Type} (f : β → Std.ExtTreeSet α cmp) (l : List β)
    (s : Std.ExtTreeSet α cmp) (x : α) :
    x ∈ l.foldl (fun total y => total ∪ f y) s ↔ x ∈ s ∨ ∃ y ∈ l, x ∈ f y := by
  induction l generalizing s with
  | nil => simp
  | cons y l ih =>
    rw [List.foldl_cons, ih, Std.ExtTreeSet.mem_union_iff]
    simp [or_assoc]

/-- A set with the members of all the sets of a family is their least upper bound. -/
theorem isLUB_of_mem_iff {family : Set (Std.ExtTreeSet α cmp)}
    (h : ∀ x, x ∈ s ↔ ∃ t ∈ family, x ∈ t) : IsLUB family s := by
  refine ⟨fun t ht x hx => (h x).mpr ⟨t, ht, hx⟩, fun u hu x hx => ?_⟩
  obtain ⟨t, ht, hxt⟩ := (h x).mp hx
  exact hu ht x hxt

theorem nodup_toList : s.toList.Nodup := by
  refine List.Pairwise.imp ?_ Std.ExtTreeSet.distinct_toList
  rintro x _ h rfl
  exact h Std.ReflCmp.compare_self

theorem size_strictMono : StrictMono fun s : Std.ExtTreeSet α cmp => s.size := by
  intro s t hlt
  have hsub : s.toList ⊆ t.toList := fun x hx =>
    Std.ExtTreeSet.mem_toList.mpr (hlt.le x (Std.ExtTreeSet.mem_toList.mp hx))
  have hsubperm := nodup_toList.subperm hsub
  dsimp only
  rw [← Std.ExtTreeSet.length_toList, ← Std.ExtTreeSet.length_toList]
  refine lt_of_le_of_ne hsubperm.length_le fun heq => hlt.not_ge fun x hx => ?_
  have hperm := hsubperm.perm_of_length_le heq.ge
  exact Std.ExtTreeSet.mem_toList.mp (hperm.mem_iff.mpr (Std.ExtTreeSet.mem_toList.mpr hx))

end ContractFlow.TreeSet
