import Mathlib.Tactic

/-! First-fit packing: every item goes into the first bin that still has room for it, a new one if
none has. -/

namespace FirstFit

variable {α : Type*} (size : α → ℕ) (capacity : ℕ)

/-- What a bin holds, and the room it takes. -/
structure Bin (α : Type*) where
  used : ℕ
  items : List α

def place (x : α) : List (Bin α) → List (Bin α)
  | [] => [⟨size x, [x]⟩]
  | b :: bins =>
    if b.used + size x ≤ capacity then ⟨b.used + size x, b.items ++ [x]⟩ :: bins else b :: place x bins

def pack (xs : List α) : List (Bin α) := xs.foldl (fun bins x => place size capacity x bins) []

/-- A bin is not empty, its room is what its items take, and it is not overfull. -/
structure Bin.Ok (b : Bin α) : Prop where
  nonempty : b.items ≠ []
  used_eq : b.used = (b.items.map size).sum
  used_le : b.used ≤ capacity

variable {size capacity} {x : α} {xs : List α} {bins : List (Bin α)}

theorem place_perm (x : α) (bins : List (Bin α)) :
    ((place size capacity x bins).flatMap Bin.items).Perm (x :: bins.flatMap Bin.items) := by
  induction bins with
  | nil => exact List.Perm.refl _
  | cons b bins ih =>
    rw [place]
    split_ifs
    · rw [List.flatMap_cons, List.flatMap_cons, List.append_assoc]
      exact List.perm_middle
    · rw [List.flatMap_cons, List.flatMap_cons]
      exact (ih.append_left b.items).trans List.perm_middle

theorem place_ok (hx : size x ≤ capacity) (h : ∀ b ∈ bins, b.Ok size capacity) :
    ∀ b ∈ place size capacity x bins, b.Ok size capacity := by
  induction bins with
  | nil =>
    intro b hb
    obtain rfl := List.mem_singleton.mp hb
    exact ⟨List.cons_ne_nil x [], by simp, hx⟩
  | cons b bins ih =>
    have hb := h b List.mem_cons_self
    have hbins : ∀ c ∈ bins, c.Ok size capacity := fun c hc => h c (List.mem_cons_of_mem b hc)
    intro c hc
    rw [place] at hc
    split_ifs at hc with hroom
    · rcases List.mem_cons.mp hc with rfl | hc
      · exact ⟨by simp, by simp [hb.used_eq], hroom⟩
      · exact hbins c hc
    · rcases List.mem_cons.mp hc with rfl | hc
      · exact hb
      · exact ih hbins c hc

/-- Every item is in exactly one bin. -/
theorem pack_perm (xs : List α) : ((pack size capacity xs).flatMap Bin.items).Perm xs := by
  have h : ∀ (xs : List α) (bins : List (Bin α)),
      ((xs.foldl (fun bins x => place size capacity x bins) bins).flatMap Bin.items).Perm
        (bins.flatMap Bin.items ++ xs) := by
    intro xs
    induction xs with
    | nil =>
      intro bins
      rw [List.foldl_nil, List.append_nil]
    | cons x xs ih =>
      intro bins
      rw [List.foldl_cons]
      apply (ih _).trans
      apply ((place_perm x bins).append_right xs).trans
      exact List.perm_middle.symm
  exact h xs []

theorem pack_ok (h : ∀ x ∈ xs, size x ≤ capacity) : ∀ b ∈ pack size capacity xs, b.Ok size capacity := by
  have hfold : ∀ (xs : List α) (bins : List (Bin α)), (∀ x ∈ xs, size x ≤ capacity) →
      (∀ b ∈ bins, b.Ok size capacity) →
        ∀ b ∈ xs.foldl (fun bins x => place size capacity x bins) bins, b.Ok size capacity := by
    intro xs
    induction xs with
    | nil =>
      intro bins _ hbins
      exact hbins
    | cons x xs ih =>
      intro bins hxs hbins
      apply ih
      · exact fun y hy => hxs y (List.mem_cons_of_mem x hy)
      · exact place_ok (hxs x List.mem_cons_self) hbins
  exact hfold xs [] h (by simp)

end FirstFit
