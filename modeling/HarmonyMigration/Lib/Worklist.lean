import Mathlib.Order.Bounds.Defs
import Mathlib.Data.Set.Lattice
import Mathlib.Tactic

/-! A worklist that is queried in rounds: what is found for the pending keys gives the keys of the next round. When nothing
is pending, what was found is the least set closed under the queries. -/

namespace Worklist

variable {α β : Type*} (seeds : Set α) (indexed : α → Set β) (occurs : β → Set α)

/-- `S` holds what is indexed for the seeds and for whatever occurs in its members. -/
def Closed (S : Set β) : Prop := ∀ a, (a ∈ seeds ∨ ∃ b ∈ S, a ∈ occurs b) → indexed a ⊆ S

/-- Where a search stands at the start of a round. -/
structure Stands (queried pending : Set α) (found : Set β) : Prop where
  seeds_covered : seeds ⊆ queried ∪ pending
  queried_indexed : ∀ a ∈ queried, indexed a ⊆ found
  occurs_covered : ∀ b ∈ found, occurs b ⊆ queried ∪ pending
  pending_reached : ∀ a ∈ pending, a ∈ seeds ∨ ∃ b ∈ found, a ∈ occurs b
  found_least : ∀ S, Closed seeds indexed occurs S → found ⊆ S

variable {seeds indexed occurs}

theorem stands_start : Stands seeds indexed occurs ∅ seeds ∅ where
  seeds_covered := Set.subset_union_right
  queried_indexed := fun _ h => absurd h (Set.notMem_empty _)
  occurs_covered := fun _ h => absurd h (Set.notMem_empty _)
  pending_reached := fun _ h => Or.inl h
  found_least := fun _ _ => Set.empty_subset _

/-- A round queries what is pending; the next has what occurs in the new finds and was not queried. -/
theorem Stands.round {queried pending pending' : Set α} {found found' : Set β}
    (h : Stands seeds indexed occurs queried pending found)
    (hfound : ∀ b, b ∈ found' ↔ b ∈ found ∨ ∃ a ∈ pending, b ∈ indexed a)
    (hpending : ∀ a, a ∈ pending' ↔ (∃ b ∈ found', b ∉ found ∧ a ∈ occurs b) ∧ a ∉ queried ∪ pending) :
    Stands seeds indexed occurs (queried ∪ pending) pending' found' := by
  constructor
  · exact h.seeds_covered.trans Set.subset_union_left
  · intro a ha b hb
    rcases ha with ha | ha
    · exact (hfound b).mpr (Or.inl (h.queried_indexed a ha hb))
    · exact (hfound b).mpr (Or.inr ⟨a, ha, hb⟩)
  · intro b hb a ha
    by_cases hold : b ∈ found
    · exact Or.inl (h.occurs_covered b hold ha)
    · by_cases hqueried : a ∈ queried ∪ pending
      · exact Or.inl hqueried
      · exact Or.inr ((hpending a).mpr ⟨⟨b, hb, hold, ha⟩, hqueried⟩)
  · intro a ha
    obtain ⟨⟨b, hb, -, hocc⟩, -⟩ := (hpending a).mp ha
    exact Or.inr ⟨b, hb, hocc⟩
  · intro S hS b hb
    rcases (hfound b).mp hb with hold | ⟨a, ha, hidx⟩
    · exact h.found_least S hS hold
    · refine hS a ?_ hidx
      rcases h.pending_reached a ha with hseed | ⟨c, hc, hocc⟩
      · exact Or.inl hseed
      · exact Or.inr ⟨c, h.found_least S hS hc, hocc⟩

theorem Stands.occurs_queried {queried : Set α} {found : Set β} (h : Stands seeds indexed occurs queried ∅ found)
    {b : β} (hb : b ∈ found) : occurs b ⊆ queried := by
  have hcovered := h.occurs_covered b hb
  rwa [Set.union_empty] at hcovered

theorem Stands.isLeast {queried : Set α} {found : Set β} (h : Stands seeds indexed occurs queried ∅ found) :
    IsLeast {S | Closed seeds indexed occurs S} found := by
  constructor
  · intro a ha
    refine h.queried_indexed a ?_
    rcases ha with hseed | ⟨b, hb, hocc⟩
    · have hcovered := h.seeds_covered hseed
      rwa [Set.union_empty] at hcovered
    · exact h.occurs_queried hb hocc
  · intro S hS
    exact h.found_least S hS

end Worklist
