import Mathlib.Data.List.Basic
import Mathlib.Tactic

/-! A text file as a list of lines: what is written line by line, what is read back, and what is left
of it when a write stops at a line end. -/

namespace Lines

/-- Every line with its line end. -/
def unlines (ls : List (List Char)) : List Char := ls.flatMap (· ++ ['\n'])

/-- The lines read from a file. A last line without a line end is read too. -/
def lines : List Char → List (List Char)
  | [] => []
  | c :: t =>
    if c = '\n' then [] :: lines t
    else match lines t with
      | [] => [[c]]
      | l :: ls => (c :: l) :: ls

/-- The rows a reader gets under a header: blank lines are no rows. -/
def rowsUnder (header t : List Char) : Option (List (List Char)) :=
  match lines t with
  | [] => none
  | h :: rows => if h = header then some (rows.filter (· ≠ [])) else none

/-- Two files with the same rows, however often each row stands in them. -/
def SameRows (header t t' : List Char) : Prop :=
  ∃ ls ls', rowsUnder header t = some ls ∧ rowsUnder header t' = some ls' ∧ ∀ r, r ∈ ls ↔ r ∈ ls'

/-- Nothing, or text that stops at a line end. -/
def EndsLine (t : List Char) : Prop := t = [] ∨ t.getLast? = some '\n'

instance (t : List Char) : Decidable (EndsLine t) := inferInstanceAs (Decidable (_ ∨ _))

@[simp] theorem unlines_nil : unlines [] = [] := rfl

@[simp] theorem unlines_cons (l : List Char) (ls : List (List Char)) : unlines (l :: ls) = l ++ '\n' :: unlines ls := by
  simp [unlines]

theorem unlines_append (ls ls' : List (List Char)) : unlines (ls ++ ls') = unlines ls ++ unlines ls' :=
  List.flatMap_append

theorem endsLine_unlines (ls : List (List Char)) : EndsLine (unlines ls) := by
  rcases List.eq_nil_or_concat ls with rfl | ⟨ls, l, rfl⟩
  · exact .inl rfl
  · refine .inr ?_
    rw [List.concat_eq_append, unlines_append, unlines_cons, unlines_nil, ← List.append_assoc, List.getLast?_concat]

theorem lines_line_append {l : List Char} (h : '\n' ∉ l) (t : List Char) : lines (l ++ '\n' :: t) = l :: lines t := by
  induction l with
  | nil => simp [lines]
  | cons c l ih =>
    rw [List.mem_cons, not_or] at h
    rw [List.cons_append, lines, if_neg (Ne.symm h.1), ih h.2]

theorem lines_unlines_append {ls : List (List Char)} (h : ∀ l ∈ ls, '\n' ∉ l) (t : List Char) :
    lines (unlines ls ++ t) = ls ++ lines t := by
  induction ls with
  | nil => rfl
  | cons l ls ih =>
    rw [List.forall_mem_cons] at h
    rw [unlines_cons, List.append_assoc, List.cons_append, lines_line_append h.1, ih h.2, List.cons_append]

theorem lines_unlines {ls : List (List Char)} (h : ∀ l ∈ ls, '\n' ∉ l) : lines (unlines ls) = ls := by
  rw [← List.append_nil (unlines ls), lines_unlines_append h, lines, List.append_nil]

theorem rowsUnder_unlines {header : List Char} {ls : List (List Char)} (hheader : '\n' ∉ header)
    (h : ∀ r ∈ ls, '\n' ∉ r ∧ r ≠ []) : rowsUnder header (unlines (header :: ls)) = some ls := by
  have hlines : lines (unlines (header :: ls)) = header :: ls := by
    refine lines_unlines ?_
    intro l hl
    rcases List.mem_cons.mp hl with rfl | hl
    · exact hheader
    · exact (h l hl).1
  rw [rowsUnder, hlines]
  simp only [if_true, Option.some.injEq]
  refine List.filter_eq_self.mpr ?_
  intro r hr
  exact decide_eq_true (h r hr).2

theorem lines_of_notMem {t : List Char} (hne : t ≠ []) (h : '\n' ∉ t) : lines t = [t] := by
  induction t with
  | nil => exact absurd rfl hne
  | cons c t ih =>
    rw [List.mem_cons, not_or] at h
    rw [lines, if_neg (Ne.symm h.1)]
    cases t with
    | nil => rfl
    | cons d t => rw [ih (List.cons_ne_nil _ _) h.2]

/-- The last line, with the part of another one that was written behind it. -/
theorem of_mem_lines_append {u l p line : List Char} (hu : '\n' ∉ u) (hl : '\n' ∉ l) (hp : p <+: l ++ ['\n'])
    (h : line ∈ lines (u ++ p)) : ∃ q, q <+: l ∧ line = u ++ q := by
  rcases List.prefix_concat_iff.mp hp with rfl | hp
  · have hul : '\n' ∉ u ++ l := by
      rw [List.mem_append, not_or]
      exact ⟨hu, hl⟩
    rw [← List.append_assoc, lines_line_append hul, lines, List.mem_singleton] at h
    exact ⟨l, List.prefix_refl l, h⟩
  · by_cases hnil : u ++ p = []
    · rw [hnil, lines] at h
      cases h
    · have hup : '\n' ∉ u ++ p := by
        rw [List.mem_append, not_or]
        exact ⟨hu, fun hmem => hl (hp.subset hmem)⟩
      rw [lines_of_notMem hnil hup, List.mem_singleton] at h
      exact ⟨p, hp, h⟩

/-- Whole lines, and a rest without a line end. -/
theorem exists_unlines_append (t : List Char) :
    ∃ ls u, t = unlines ls ++ u ∧ (∀ l ∈ ls, '\n' ∉ l) ∧ '\n' ∉ u := by
  induction t with
  | nil => exact ⟨[], [], rfl, by simp, by simp⟩
  | cons c t ih =>
    obtain ⟨ls, u, rfl, hls, hu⟩ := ih
    by_cases hc : c = '\n'
    · refine ⟨[] :: ls, u, ?_, ?_, hu⟩
      · rw [hc, unlines_cons]
        rfl
      · intro l hl
        rcases List.mem_cons.mp hl with rfl | hl
        · exact List.not_mem_nil
        · exact hls l hl
    · cases ls with
      | nil => exact ⟨[], c :: u, rfl, by simp, by simp [Ne.symm hc, hu]⟩
      | cons l ls =>
        refine ⟨(c :: l) :: ls, u, by simp, ?_, hu⟩
        intro l' hl'
        rcases List.mem_cons.mp hl' with rfl | hl'
        · simpa [Ne.symm hc] using hls l List.mem_cons_self
        · exact hls l' (List.mem_cons_of_mem _ hl')

/-- A write of lines that stops at a line end has written the first so many of them. -/
theorem eq_unlines_take {ls : List (List Char)} (h : ∀ l ∈ ls, '\n' ∉ l) {p : List Char} (hp : p <+: unlines ls)
    (hend : EndsLine p) : ∃ m, p = unlines (ls.take m) := by
  induction ls generalizing p with
  | nil => exact ⟨0, List.prefix_nil.mp hp⟩
  | cons l ls ih =>
    rw [List.forall_mem_cons] at h
    obtain ⟨u, hu⟩ := hp
    rw [unlines_cons, List.append_eq_append_iff] at hu
    rcases hu with ⟨v, hl, -⟩ | ⟨v, hpv, hv⟩
    · -- the write stopped inside the first line, so nothing of it is there
      have hpl : '\n' ∉ p := fun hmem => h.1 (hl ▸ List.mem_append_left v hmem)
      rcases hend with rfl | hlast
      · exact ⟨0, rfl⟩
      · exact absurd (List.mem_of_getLast? hlast) hpl
    · cases v with
      | nil =>
        have hpl : '\n' ∉ p := by
          rw [hpv, List.append_nil]
          exact h.1
        rcases hend with rfl | hlast
        · exact ⟨0, rfl⟩
        · exact absurd (List.mem_of_getLast? hlast) hpl
      | cons c v =>
        rw [List.cons_append] at hv
        obtain ⟨rfl, hrest⟩ := List.cons.inj hv
        have hvend : EndsLine v := by
          rcases hend with hend | hend
          · simp [hpv] at hend
          · cases v with
            | nil => exact .inl rfl
            | cons d v =>
              refine .inr ?_
              rw [hpv, List.getLast?_append_cons, List.getLast?_cons_cons] at hend
              exact hend
        obtain ⟨m, hm⟩ := ih h.2 ⟨u, hrest.symm⟩ hvend
        exact ⟨m + 1, by rw [hpv, List.take_succ_cons, unlines_cons, hm]⟩

end Lines
