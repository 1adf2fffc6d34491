import HarmonyMigration.Lib.Except
import Mathlib.Data.List.ReduceOption

/-! Rows that fallible work makes of the members of a list. -/

namespace Except

/-- Rows made of the members of a list, in their order: one of each member that `P` gives a row, none of the others. -/
def OneRowEach {α ρ : Type*} (P : α → ρ → Prop) (l : List α) (rows : List ρ) : Prop :=
  ∃ g : α → Option ρ, rows = l.filterMap g ∧ ∀ a ∈ l, ∀ r, g a = some r ↔ P a r

theorem OneRowEach.mem_iff {α ρ : Type*} {P : α → ρ → Prop} {l : List α} {rows : List ρ} (h : OneRowEach P l rows) {r : ρ} :
    r ∈ rows ↔ ∃ a ∈ l, P a r := by
  obtain ⟨g, rfl, hg⟩ := h
  rw [List.mem_filterMap]
  exact ⟨fun ⟨a, ha, hr⟩ => ⟨a, ha, (hg a ha r).mp hr⟩, fun ⟨a, ha, hr⟩ => ⟨a, ha, (hg a ha r).mpr hr⟩⟩

theorem OneRowEach.congr {α ρ : Type*} {P Q : α → ρ → Prop} {l : List α} {rows : List ρ} (h : OneRowEach P l rows)
    (hPQ : ∀ a ∈ l, ∀ r, P a r ↔ Q a r) : OneRowEach Q l rows := by
  obtain ⟨g, rfl, hg⟩ := h
  exact ⟨g, rfl, fun a ha r => (hg a ha r).trans (hPQ a ha r)⟩

theorem oneRowEach_mapM {ε α ρ : Type} {f : α → Except ε (Option ρ)} {l : List α} {rows : List ρ}
    (h : (l.mapM f).map List.reduceOption = .ok rows) : OneRowEach (fun a r => f a = .ok (some r)) l rows := by
  obtain ⟨os, hos, rfl⟩ := of_map_ok h
  have hok := forall₂_of_mapM_ok hos
  refine ⟨fun a => (f a).toOption.join, ?_, fun a ha r => ?_⟩
  · clear h hos
    induction hok with
    | nil => rfl
    | @cons a o l os ha _ ih =>
      cases o with
      | none => rw [List.reduceOption_cons_of_none, ih, List.filterMap_cons_none (by rw [ha]; rfl)]
      | some r => rw [List.reduceOption_cons_of_some, ih, List.filterMap_cons_some (b := r) (by rw [ha]; rfl)]
  · obtain ⟨o, -, ha⟩ := ok_of_mem_left hok ha
    simp [ha, Except.toOption]

theorem oneRowEach_filter_mapM {ε α ρ : Type} {p : α → Prop} [DecidablePred p] {f : α → Except ε ρ} {l : List α}
    {rows : List ρ} (h : (l.filter p).mapM f = .ok rows) : OneRowEach (fun a r => p a ∧ f a = .ok r) l rows := by
  have hok := forall₂_of_mapM_ok h
  refine ⟨fun a => if p a then (f a).toOption else none, ?_, fun a ha r => ?_⟩
  · clear h
    induction l generalizing rows with
    | nil =>
      obtain rfl := List.forall₂_nil_left_iff.mp hok
      rfl
    | cons a l ih =>
      by_cases hp : p a
      · rw [List.filter_cons_of_pos (by simpa using hp)] at hok
        obtain ⟨r, rest, ha, hrest, rfl⟩ := List.forall₂_cons_left_iff.mp hok
        rw [List.filterMap_cons_some (b := r) (by rw [if_pos hp, ha]; rfl), ← ih hrest]
      · rw [List.filter_cons_of_neg (by simpa using hp)] at hok
        rw [List.filterMap_cons_none (by rw [if_neg hp]), ← ih hok]
  · by_cases hp : p a
    · obtain ⟨r', -, hr'⟩ := ok_of_mem_left hok (List.mem_filter.mpr ⟨ha, by simpa using hp⟩)
      simp [hp, hr', Except.toOption]
    · simp [hp]

end Except
