import HarmonyMigration.Lib.Slices
import Mathlib.Data.List.MinMax

/-! Reading a list page by page until a page holds something of use: in a list whose useful elements descend, the
first such page has the largest of all. -/

namespace FirstPage
open Slices

variable {α β γ κ : Type*} [LinearOrder κ] {f : β → κ}

/-- A largest element, where there is one. -/
def IsBest (f : β → κ) (l : List β) : Option β → Prop
  | none => l = []
  | some x => x ∈ l ∧ ∀ y ∈ l, f y ≤ f x

theorem isBest_argmax (l : List β) : IsBest f l (l.argmax f) := by
  cases h : l.argmax f with
  | none => exact List.argmax_eq_none.mp h
  | some x => exact ⟨List.argmax_mem h, fun y hy => List.le_of_mem_argmax hy h⟩

/-- Where the key tells the elements apart, there is one largest element. -/
theorem IsBest.unique {l : List β} {r r' : Option β} (h : IsBest f l r) (h' : IsBest f l r')
    (hinj : ∀ x ∈ l, ∀ y ∈ l, f x = f y → x = y) : r = r' := by
  cases r with
  | none =>
    cases r' with
    | none => rfl
    | some y =>
      have hnil : l = [] := h
      have hy : y ∈ l := h'.1
      rw [hnil] at hy
      cases hy
  | some x =>
    cases r' with
    | none =>
      have hnil : l = [] := h'
      have hx : x ∈ l := h.1
      rw [hnil] at hx
      cases hx
    | some y => exact congrArg some (hinj x h.1 y h'.1 (le_antisymm (h'.2 x h.1) (h.2 y h'.1)))

/-- The largest of the largest. -/
theorem isBest_flatMap {ks : List γ} {l : γ → List β} {r : γ → Option β} (h : ∀ k ∈ ks, IsBest f (l k) (r k)) :
    IsBest f (ks.flatMap l) ((ks.filterMap r).argmax f) := by
  have hmem : ∀ x ∈ ks.filterMap r, x ∈ ks.flatMap l := by
    intro x hx
    obtain ⟨k, hk, hr⟩ := List.mem_filterMap.mp hx
    have hbest := h k hk
    rw [hr] at hbest
    exact List.mem_flatMap.mpr ⟨k, hk, hbest.1⟩
  have hbelow : ∀ y ∈ ks.flatMap l, ∃ x ∈ ks.filterMap r, f y ≤ f x := by
    intro y hy
    obtain ⟨k, hk, hyk⟩ := List.mem_flatMap.mp hy
    have hbest := h k hk
    cases hr : r k with
    | none =>
      rw [hr] at hbest
      have hnil : l k = [] := hbest
      rw [hnil] at hyk
      cases hyk
    | some x =>
      rw [hr] at hbest
      exact ⟨x, List.mem_filterMap.mpr ⟨k, hk, hr⟩, hbest.2 y hyk⟩
  have hargmax : IsBest f (ks.filterMap r) ((ks.filterMap r).argmax f) := isBest_argmax _
  cases hr : (ks.filterMap r).argmax f with
  | none =>
    have hnil : ks.filterMap r = [] := List.argmax_eq_none.mp hr
    refine List.eq_nil_iff_forall_not_mem.mpr fun y hy => ?_
    obtain ⟨x, hx, -⟩ := hbelow y hy
    rw [hnil] at hx
    cases hx
  | some x =>
    rw [hr] at hargmax
    refine ⟨hmem x hargmax.1, fun y hy => ?_⟩
    obtain ⟨z, hz, hle⟩ := hbelow y hy
    exact hle.trans (hargmax.2 z hz)

/-! ### Pages -/

/-- What is of use on a page. -/
def onPage (g : α → Option β) (l : List α) (size page : ℕ) : List β :=
  (slice l (page * size) (page * size + size)).filterMap g

/-- The pages before this one are full, and hold nothing of use. -/
structure Passed (g : α → Option β) (l : List α) (size page : ℕ) : Prop where
  full : page * size ≤ l.length
  useless : (l.take (page * size)).filterMap g = []

section Pages
variable {g : α → Option β} {l : List α} {size page : ℕ}

theorem passed_zero : Passed g l size 0 := by
  refine ⟨by simp, ?_⟩
  rw [Nat.zero_mul, List.take_zero, List.filterMap_nil]

theorem take_append_page : l.take (page * size + size) =
    l.take (page * size) ++ slice l (page * size) (page * size + size) := by
  have hcut := List.take_append_drop (page * size) (l.take (page * size + size))
  rw [List.take_take, Nat.min_eq_left (Nat.le_add_right _ _)] at hcut
  exact hcut.symm

theorem Passed.onPage_prefix (h : Passed g l size page) : onPage g l size page =
    (l.take (page * size + size)).filterMap g := by
  rw [take_append_page, List.filterMap_append, h.useless, List.nil_append, onPage]

theorem Passed.next (h : Passed g l size page) (huseless : onPage g l size page = [])
    (hfull : size ≤ (slice l (page * size) (page * size + size)).length) : Passed g l size (page + 1) := by
  have hlength : (slice l (page * size) (page * size + size)).length ≤ l.length - page * size := by
    simp only [slice, List.length_drop, List.length_take]
    omega
  have hfits := h.full
  rw [h.onPage_prefix] at huseless
  rw [← Nat.succ_mul] at huseless
  refine ⟨?_, huseless⟩
  rw [Nat.succ_mul]
  omega

/-- The first page with something of use. -/
theorem Passed.isBest (h : Passed g l size page) (hdesc : (l.filterMap g).Pairwise fun x y => f y ≤ f x)
    (huse : onPage g l size page ≠ []) {r : Option β} (hbest : IsBest f (onPage g l size page) r) :
    IsBest f (l.filterMap g) r := by
  have hsplit : l.filterMap g = onPage g l size page ++ (l.drop (page * size + size)).filterMap g := by
    rw [h.onPage_prefix, ← List.filterMap_append, List.take_append_drop]
  rw [hsplit] at hdesc ⊢
  cases r with
  | none => exact absurd hbest huse
  | some x =>
    refine ⟨List.mem_append_left _ hbest.1, fun y hy => ?_⟩
    rcases List.mem_append.mp hy with hy | hy
    · exact hbest.2 y hy
    · exact (List.pairwise_append.mp hdesc).2.2 x hbest.1 y hy

/-- A page that is not full is the last. -/
theorem Passed.nothing (h : Passed g l size page) (huseless : onPage g l size page = [])
    (hshort : (slice l (page * size) (page * size + size)).length < size) : l.filterMap g = [] := by
  have hend : l.length ≤ page * size + size := by
    simp only [slice, List.length_drop, List.length_take] at hshort
    omega
  rw [h.onPage_prefix, List.take_of_length_le hend] at huseless
  exact huseless

/-- A passed page has a number that the length of the list bounds. -/
theorem Passed.page_le (h : Passed g l size page) (hsize : 0 < size) : page ≤ l.length / size :=
  (Nat.le_div_iff_mul_le hsize).mpr h.full

end Pages

/-! ### Elements by owner -/

theorem filter_flatMap_of_owner {ι : Type*} {δ : Type*} [DecidableEq ι] {key : γ → ι} {owner : δ → ι} {g : γ → List δ}
    {l : List γ} (hnodup : (l.map key).Nodup) (howner : ∀ c ∈ l, ∀ d ∈ g c, owner d = key c) {c : γ} (hc : c ∈ l) :
    (l.flatMap g).filter (fun d => owner d = key c) = g c := by
  induction l with
  | nil => cases hc
  | cons b l ih =>
    rw [List.map_cons, List.nodup_cons] at hnodup
    obtain ⟨hb, hrest⟩ := List.forall_mem_cons.mp howner
    rw [List.flatMap_cons, List.filter_append]
    rcases List.mem_cons.mp hc with rfl | hc
    · have hself : (g c).filter (fun d => owner d = key c) = g c :=
        List.filter_eq_self.mpr fun d hd => by simpa using hb d hd
      have hother : (l.flatMap g).filter (fun d => owner d = key c) = [] := by
        refine List.filter_eq_nil_iff.mpr fun d hd heq => ?_
        obtain ⟨c', hc', hd'⟩ := List.mem_flatMap.mp hd
        have hkey : key c' = key c := (hrest c' hc' d hd').symm.trans (by simpa using heq)
        exact hnodup.1 (hkey ▸ List.mem_map_of_mem hc')
      rw [hself, hother, List.append_nil]
    · have hother : (g b).filter (fun d => owner d = key c) = [] := by
        refine List.filter_eq_nil_iff.mpr fun d hd heq => ?_
        have hkey : key b = key c := (hb d hd).symm.trans (by simpa using heq)
        exact hnodup.1 (hkey ▸ List.mem_map_of_mem hc)
      rw [hother, List.nil_append]
      exact ih hnodup.2 hrest hc

end FirstPage
