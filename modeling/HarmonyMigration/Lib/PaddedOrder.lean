import HarmonyMigration.Lib.Decimal
import Mathlib.Data.List.Lex
import Mathlib.Data.Char

/-! Numbers padded to one width order as their texts do, also where more text follows. -/

namespace HarmonyMigration.Decimal

/-- Behind parts of one length the order is that of the parts, then of what follows. -/
theorem append_lt_append_iff {α : Type*} [LinearOrder α] {p q s t : List α} (h : p.length = q.length) :
    p ++ s < q ++ t ↔ p < q ∨ p = q ∧ s < t := by
  induction p generalizing q with
  | nil =>
    obtain rfl := List.length_eq_zero_iff.mp h.symm
    simp
  | cons a p ih =>
    cases q with
    | nil => cases h
    | cons b q =>
      rw [List.cons_append, List.cons_append, List.cons_lt_cons_iff, List.cons_lt_cons_iff, ih (Nat.succ.inj h),
        List.cons.injEq, and_or_left, or_assoc, and_assoc]

theorem digit_le {c : Char} (h : c.isDigit = true) : '0'.toNat ≤ c.toNat ∧ c.toNat ≤ '0'.toNat + 9 := by
  have hall : ∀ d < 10, '0'.toNat ≤ (Nat.digitChar d).toNat ∧ (Nat.digitChar d).toNat ≤ '0'.toNat + 9 := by decide
  obtain ⟨d, hd, rfl⟩ := exists_of_isDigit h
  exact hall d hd

/-- A lead is kept, whatever digits follow. -/
theorem ofDigitChars_lt {p q : Text} {a b : ℕ} (h : p.length = q.length) (hp : ∀ c ∈ p, c.isDigit = true) (hab : a < b) :
    Nat.ofDigitChars 10 p a < Nat.ofDigitChars 10 q b := by
  induction p generalizing q a b with
  | nil =>
    obtain rfl := List.length_eq_zero_iff.mp h.symm
    exact hab
  | cons c p ih =>
    cases q with
    | nil => cases h
    | cons d q =>
      rw [Nat.ofDigitChars_cons, Nat.ofDigitChars_cons]
      have hc := digit_le (hp c List.mem_cons_self)
      exact ih (Nat.succ.inj h) (fun c hc => hp c (List.mem_cons_of_mem _ hc)) (by omega)

theorem ofDigitChars_lt_of_lt {p q : Text} {a : ℕ} (h : p.length = q.length) (hp : ∀ c ∈ p, c.isDigit = true)
    (hq : ∀ c ∈ q, c.isDigit = true) (hlt : p < q) : Nat.ofDigitChars 10 p a < Nat.ofDigitChars 10 q a := by
  induction p generalizing q a with
  | nil =>
    obtain rfl := List.length_eq_zero_iff.mp h.symm
    exact absurd hlt (lt_irrefl _)
  | cons c p ih =>
    cases q with
    | nil => cases h
    | cons d q =>
      rw [Nat.ofDigitChars_cons, Nat.ofDigitChars_cons]
      have hrest : ∀ c ∈ p, c.isDigit = true := fun c hc => hp c (List.mem_cons_of_mem _ hc)
      rcases List.cons_lt_cons_iff.mp hlt with hcd | ⟨rfl, hpq⟩
      · have hc := digit_le (hp c List.mem_cons_self)
        have hcd : c.toNat < d.toNat := hcd
        exact ofDigitChars_lt (Nat.succ.inj h) hrest (by omega)
      · exact ih (Nat.succ.inj h) hrest (fun c hc => hq c (List.mem_cons_of_mem _ hc)) hpq

section Pad
variable {width n m : ℕ}

theorem lt_of_pad_lt_pad (hwidth : 0 < width) (hn : n < 10 ^ width) (hm : m < 10 ^ width)
    (h : pad width n < pad width m) : n < m := by
  have hlength : (pad width n).length = (pad width m).length := by
    rw [length_pad hwidth hn, length_pad hwidth hm]
  have hvalue := ofDigitChars_lt_of_lt (a := 0) hlength (fun _ => isDigit_of_mem_pad) (fun _ => isDigit_of_mem_pad) h
  rwa [ofDigitChars_pad, ofDigitChars_pad] at hvalue

theorem pad_lt_pad_iff (hwidth : 0 < width) (hn : n < 10 ^ width) (hm : m < 10 ^ width) :
    pad width n < pad width m ↔ n < m := by
  refine ⟨lt_of_pad_lt_pad hwidth hn hm, fun hlt => ?_⟩
  rcases lt_trichotomy (pad width n) (pad width m) with h | h | h
  · exact h
  · have hvalue := congrArg (fun t => Nat.ofDigitChars 10 t 0) h
    simp only [ofDigitChars_pad] at hvalue
    exact absurd hvalue hlt.ne
  · exact absurd (lt_of_pad_lt_pad hwidth hm hn h) hlt.asymm

/-- The texts order by their numbers, then by what follows. -/
theorem pad_append_lt_iff (hwidth : 0 < width) (hn : n < 10 ^ width) (hm : m < 10 ^ width) {s t : Text} :
    pad width n ++ s < pad width m ++ t ↔ n < m ∨ n = m ∧ s < t := by
  have hlength : (pad width n).length = (pad width m).length := by
    rw [length_pad hwidth hn, length_pad hwidth hm]
  have hinj : pad width n = pad width m ↔ n = m := by
    refine ⟨fun h => ?_, congrArg (pad width)⟩
    have hvalue := congrArg (fun t => Nat.ofDigitChars 10 t 0) h
    simpa only [ofDigitChars_pad] using hvalue
  rw [append_lt_append_iff hlength, pad_lt_pad_iff hwidth hn hm, hinj]

end Pad

end HarmonyMigration.Decimal
