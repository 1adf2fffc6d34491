import HarmonyMigration.Lib.Except
import Mathlib.Algebra.BigOperators.Group.List.Basic
import Mathlib.Order.Basic

/-! One row of lookahead into a generator that may raise, and lists in strictly increasing
order of a key. -/

inductive Lookahead (ε ρ : Type*)
  | done
  | on (row : ρ) (rest : List (Except ε ρ))

namespace Lookahead

variable {ε ρ κ : Type*}

/-- `next`, or nothing at the end. -/
def pull : List (Except ε ρ) → Except ε (Lookahead ε ρ)
  | [] => .ok .done
  | .error e :: _ => .error e
  | .ok row :: rest => .ok (.on row rest)

def row? : Lookahead ε ρ → Option ρ
  | .done => none
  | .on row _ => some row

/-- The row in front, if it has this key, and what is in front then. -/
def take [DecidableEq κ] (key : ρ → κ) (k : κ) : Lookahead ε ρ → Except ε (Option ρ × Lookahead ε ρ)
  | .done => .ok (none, .done)
  | .on row rest => if key row = k then (pull rest).map fun c => (some row, c) else .ok (none, .on row rest)

/-- The rows still to come, when none of them raises. -/
def Yields : Lookahead ε ρ → List ρ → Prop
  | .done, l => l = []
  | .on row rest, l => ∃ l', rest = l'.map .ok ∧ l = row :: l'

/-! ### Reading on -/

theorem pull_map_ok (l : List ρ) : ∃ c : Lookahead ε ρ, pull (l.map .ok) = .ok c ∧ c.Yields l := by
  cases l with
  | nil => exact ⟨.done, rfl, rfl⟩
  | cons row l => exact ⟨.on row (l.map .ok), rfl, l, rfl, rfl⟩

theorem eq_map_of_pull {xs : List (Except ε ρ)} {c : Lookahead ε ρ} {l : List ρ} (h : pull xs = .ok c)
    (hc : c.Yields l) : xs = l.map .ok := by
  cases xs with
  | nil =>
    obtain rfl := Except.ok.inj h
    obtain rfl : l = [] := hc
    rfl
  | cons x xs =>
    cases x with
    | error e => cases h
    | ok row =>
      obtain rfl := Except.ok.inj h
      obtain ⟨l', rfl, rfl⟩ := hc
      rfl

theorem row?_of_yields {c : Lookahead ε ρ} {l : List ρ} (h : c.Yields l) : c.row? = l.head? := by
  cases c with
  | done =>
    obtain rfl : l = [] := h
    rfl
  | on row rest =>
    obtain ⟨l', -, rfl⟩ := h
    rfl

theorem yields_nil {c : Lookahead ε ρ} (h : c.row? = none) : c.Yields [] := by
  cases c with
  | done => rfl
  | on row rest => cases h

section Take

variable [DecidableEq κ] (key : ρ → κ) (k : κ)

/-- The first row of a list, if it has this key. -/
def headAt (l : List ρ) : Option ρ := l.head?.filter fun row => key row = k

/-- The list without it. -/
def dropAt (l : List ρ) : List ρ := if (headAt key k l).isSome then l.tail else l

theorem headAt_cons (row : ρ) (l : List ρ) : headAt key k (row :: l) = if key row = k then some row else none := by
  rw [headAt, List.head?_cons, Option.filter_some]
  simp only [decide_eq_true_eq]

theorem dropAt_cons (row : ρ) (l : List ρ) : dropAt key k (row :: l) = if key row = k then l else row :: l := by
  rw [dropAt, headAt_cons]
  split_ifs with h
  · rfl
  · simp at *
  · simp at *
  · rfl

theorem length_dropAt_le (l : List ρ) : (dropAt key k l).length ≤ l.length := by
  rw [dropAt]
  split_ifs
  · rw [List.length_tail]
    omega
  · exact le_rfl

variable {key k}

/-- A list that has a row in front loses it. -/
theorem length_dropAt_lt {l : List ρ} (h : headAt key k l ≠ none) : (dropAt key k l).length < l.length := by
  cases l with
  | nil => exact absurd rfl h
  | cons row l =>
    rw [dropAt, if_pos (Option.isSome_iff_ne_none.mpr h), List.tail_cons, List.length_cons]
    omega

theorem take_total (key : ρ → κ) (k : κ) {c : Lookahead ε ρ} {l : List ρ} (h : c.Yields l) :
    ∃ c', c.take key k = .ok (headAt key k l, c') ∧ c'.Yields (dropAt key k l) := by
  cases c with
  | done =>
    obtain rfl : l = [] := h
    exact ⟨.done, rfl, rfl⟩
  | on row rest =>
    obtain ⟨l', rfl, rfl⟩ := h
    rw [headAt_cons, dropAt_cons, take]
    split_ifs with hk
    · obtain ⟨c, hpull, hc⟩ := pull_map_ok (ε := ε) l'
      exact ⟨c, by rw [hpull]; rfl, hc⟩
    · exact ⟨_, rfl, l', rfl, rfl⟩

/-- What comes after a row that was taken, together with that row, came before. -/
theorem exists_of_take {c c' : Lookahead ε ρ} {current : Option ρ} {l' : List ρ}
    (h : c.take key k = .ok (current, c')) (hc' : c'.Yields l') :
    ∃ l, c.Yields l ∧ headAt key k l = current ∧ dropAt key k l = l' := by
  cases c with
  | done =>
    obtain ⟨rfl, rfl⟩ := Prod.mk.inj (Except.ok.inj h)
    obtain rfl : l' = [] := hc'
    exact ⟨[], rfl, rfl, rfl⟩
  | on row rest =>
    rw [take] at h
    split_ifs at h with hk
    · obtain ⟨c, hpull, hpair⟩ := Except.of_map_ok h
      obtain ⟨rfl, rfl⟩ := Prod.mk.inj hpair
      refine ⟨row :: l', ⟨l', eq_map_of_pull hpull hc', rfl⟩, ?_, ?_⟩
      · rw [headAt_cons, if_pos hk]
      · rw [dropAt_cons, if_pos hk]
    · obtain ⟨rfl, rfl⟩ := Prod.mk.inj (Except.ok.inj h)
      obtain ⟨l, rfl, rfl⟩ := hc'
      refine ⟨row :: l, ⟨l, rfl, rfl⟩, ?_, ?_⟩
      · rw [headAt_cons, if_neg hk]
      · rw [dropAt_cons, if_neg hk]

end Take

/-! ### Rows in strictly increasing order of their keys -/

section Increasing

variable [PartialOrder κ] [DecidableEq κ] {key : ρ → κ} {k : κ} {l : List ρ}

def Increasing (key : ρ → κ) (l : List ρ) : Prop := l.Pairwise fun a b => key a < key b

theorem Increasing.dropAt (h : Increasing key l) (k : κ) : Increasing key (dropAt key k l) := by
  cases l with
  | nil => exact h
  | cons row l =>
    rw [dropAt_cons]
    split_ifs
    · exact (List.pairwise_cons.mp h).2
    · exact h

/-- In front of keys that are not smaller, the first row is the row of the key. -/
theorem headAt_eq_find (h : Increasing key l) (hk : ∀ row ∈ l, k ≤ key row) :
    headAt key k l = l.find? fun row => key row = k := by
  cases l with
  | nil => rfl
  | cons row l =>
    rw [headAt_cons, List.find?_cons]
    by_cases hrow : key row = k
    · simp [hrow]
    · have hlt : k < key row := lt_of_le_of_ne (hk row (by simp)) (Ne.symm hrow)
      have hnone : l.find? (fun row => decide (key row = k)) = none := by
        rw [List.find?_eq_none]
        intro other hother
        have := (List.pairwise_cons.mp h).1 other hother
        simpa using (hlt.trans this).ne'
      simp [hrow, hnone]

theorem mem_dropAt_iff (h : Increasing key l) (hk : ∀ row ∈ l, k ≤ key row) (row : ρ) :
    row ∈ Lookahead.dropAt key k l ↔ row ∈ l ∧ k < key row := by
  cases l with
  | nil => simp [Lookahead.dropAt]
  | cons first l =>
    obtain ⟨hfirst, -⟩ := List.pairwise_cons.mp h
    rw [dropAt_cons]
    split_ifs with heq
    · subst heq
      constructor
      · intro hrow
        exact ⟨List.mem_cons_of_mem _ hrow, hfirst row hrow⟩
      · intro ⟨hrow, hlt⟩
        rcases List.mem_cons.mp hrow with rfl | hrow
        · exact absurd hlt (lt_irrefl _)
        · exact hrow
    · have hlt : k < key first := lt_of_le_of_ne (hk first (by simp)) (Ne.symm heq)
      refine ⟨fun hrow => ⟨hrow, ?_⟩, And.left⟩
      rcases List.mem_cons.mp hrow with rfl | hrow
      · exact hlt
      · exact hlt.trans (hfirst row hrow)

omit [PartialOrder κ] in
/-- The row of another key is not lost. -/
theorem find_dropAt {k' : κ} (hne : k' ≠ k) :
    (Lookahead.dropAt key k l).find? (fun row => key row = k') = l.find? fun row => key row = k' := by
  cases l with
  | nil => rfl
  | cons row l =>
    rw [dropAt_cons]
    split_ifs with heq
    · rw [List.find?_cons, heq]
      simp [hne.symm]
    · rfl

/-- Looked up along all keys, every row is met once. -/
theorem sum_find {μ : Type*} [AddCommGroup μ] (h : Increasing key l) {ks : List κ} (hks : ks.Nodup)
    (hmem : ∀ row ∈ l, key row ∈ ks) (f : ρ → μ) :
    (ks.map fun k => (l.find? fun row => key row = k).elim 0 f).sum = (l.map f).sum := by
  induction l with
  | nil => simp
  | cons row l ih =>
    obtain ⟨hrow, hl⟩ := List.pairwise_cons.mp h
    have hpoint : ∀ k ∈ ks, ((row :: l).find? fun row => key row = k).elim 0 f =
        (if k = key row then f row else 0) + (l.find? fun row => key row = k).elim 0 f := by
      intro k _
      rw [List.find?_cons]
      by_cases hk : key row = k
      · subst hk
        have hnone : l.find? (fun other => decide (key other = key row)) = none := by
          rw [List.find?_eq_none]
          intro other hother
          simpa using (hrow other hother).ne'
        simp [hnone]
      · simp [hk, Ne.symm hk]
    have hone : (ks.map fun k => if k = key row then f row else 0).sum = f row := by
      have hcount : ks.count (key row) = 1 := List.count_eq_one_of_mem hks (hmem row (by simp))
      rw [List.sum_map_ite_eq ks (fun _ => f row) (fun _ => 0), hcount]
      simp
    rw [List.map_congr_left hpoint, List.sum_map_add, hone, ih hl fun r hr => hmem r (List.mem_cons_of_mem _ hr),
      List.map_cons, List.sum_cons]

end Increasing

end Lookahead
