import Mathlib.Data.List.Basic
import Mathlib.Data.List.Induction
import Mathlib.Tactic.Positivity
import Mathlib.Tactic.Ring
import Mathlib.Tactic.Zify

/-! Decimal texts: integers, and fixed-point numbers with a given count of digits behind the point. -/

namespace HarmonyMigration.Decimal

abbrev Text := List Char

instance textLawfulBEq : LawfulBEq Text := List.instLawfulBEq

-- what is asked of the characters of a text is decided over the text, never over all characters
instance (priority := 1100) decidableForallMem {p : Char → Prop} [DecidablePred p] (t : Text) :
    Decidable (∀ c ∈ t, p c) :=
  List.decidableBAll p t

instance (priority := 1100) decidableExistsMem {p : Char → Prop} [DecidablePred p] (t : Text) :
    Decidable (∃ c ∈ t, p c) :=
  List.decidableBEx p t

/-! ### Reading -/

def parseNat (t : Text) : Option ℕ :=
  if t ≠ [] ∧ t.all Char.isDigit then some (Nat.ofDigitChars 10 t 0) else none

/-- Digits with an optional sign. -/
def parseInt : Text → Option ℤ
  | '-' :: t => (parseNat t).map fun n => -(n : ℤ)
  | '+' :: t => (parseNat t).map fun n => (n : ℤ)
  | t => (parseNat t).map fun n => (n : ℤ)

def parseUnsigned (t : Text) : Option ℕ :=
  (parseInt t).bind fun z => if 0 ≤ z then some z.toNat else none

/-- The one text of a number without sign: no leading zero. -/
def parseCanonical (t : Text) : Option ℕ := if t = ['0'] ∨ t.head? ≠ some '0' then parseNat t else none

/-- A number with exactly `scale` digits behind its one point, times `10 ^ scale`. -/
def parseFixed (scale : ℕ) (t : Text) : Option ℕ :=
  match t.splitOn '.' with
  | [whole, fraction] => if fraction.length = scale then parseUnsigned (whole ++ fraction) else none
  | _ => none

/-! ### Writing -/

def render (n : ℕ) : Text := Nat.toDigits 10 n

def renderInt (z : ℤ) : Text := if z < 0 then '-' :: render z.natAbs else render z.natAbs

/-- At least `width` digits. -/
def pad (width n : ℕ) : Text := List.replicate (width - (render n).length) '0' ++ render n

def fixed (scale : ℕ) (z : ℤ) : Text := renderInt (z / 10 ^ scale) ++ '.' :: pad scale (z % 10 ^ scale).toNat

/-! ### Round trips -/

theorem render_ne_nil (n : ℕ) : render n ≠ [] := Nat.toDigits_ne_nil

theorem isDigit_of_mem_render {n : ℕ} {c : Char} (h : c ∈ render n) : c.isDigit = true :=
  Nat.isDigit_of_mem_toDigits (by decide) (by decide) h

theorem isDigit_of_mem_pad {width n : ℕ} {c : Char} (h : c ∈ pad width n) : c.isDigit = true := by
  rcases List.mem_append.mp h with h | h
  · obtain rfl := List.eq_of_mem_replicate h
    rfl
  · exact isDigit_of_mem_render h

theorem length_pad {width n : ℕ} (hwidth : 0 < width) (h : n < 10 ^ width) : (pad width n).length = width := by
  have hle : (render n).length ≤ width := (Nat.length_toDigits_le_iff (by decide) hwidth).mpr h
  rw [pad, List.length_append, List.length_replicate]
  omega

theorem ofDigitChars_pad (width n : ℕ) : Nat.ofDigitChars 10 (pad width n) 0 = n := by
  rw [pad, Nat.ofDigitChars_append, Nat.ofDigitChars_replicate_zero, Nat.mul_zero]
  exact Nat.ofDigitChars_ten_toDigits

theorem parseNat_of_digits {t : Text} (hne : t ≠ []) (h : ∀ c ∈ t, c.isDigit = true) :
    parseNat t = some (Nat.ofDigitChars 10 t 0) :=
  if_pos ⟨hne, List.all_eq_true.mpr h⟩

theorem parseInt_of_digits {t : Text} (hne : t ≠ []) (h : ∀ c ∈ t, c.isDigit = true) :
    parseInt t = some (Nat.ofDigitChars 10 t 0 : ℤ) := by
  unfold parseInt
  split
  · exact absurd (h '-' (by simp)) (by decide)
  · exact absurd (h '+' (by simp)) (by decide)
  · rw [parseNat_of_digits hne h]
    rfl

theorem parseUnsigned_of_digits {t : Text} (hne : t ≠ []) (h : ∀ c ∈ t, c.isDigit = true) :
    parseUnsigned t = some (Nat.ofDigitChars 10 t 0) := by
  rw [parseUnsigned, parseInt_of_digits hne h]
  simp

@[simp] theorem parseUnsigned_render (n : ℕ) : parseUnsigned (render n) = some n := by
  rw [parseUnsigned_of_digits (render_ne_nil n) fun c hc => isDigit_of_mem_render hc]
  exact congrArg some Nat.ofDigitChars_ten_toDigits

theorem renderInt_of_nonneg {z : ℤ} (h : 0 ≤ z) : renderInt z = render z.toNat := by
  rw [renderInt, if_neg (not_lt.mpr h), show z.natAbs = z.toNat by omega]

theorem parseUnsigned_renderInt {z : ℤ} (h : 0 ≤ z) : parseUnsigned (renderInt z) = some z.toNat := by
  rw [renderInt_of_nonneg h, parseUnsigned_render]

/-- A number that is not negative reads back from its fixed-point text. -/
theorem parseFixed_fixed {scale : ℕ} (hscale : 0 < scale) {z : ℤ} (h : 0 ≤ z) :
    parseFixed scale (fixed scale z) = some z.toNat := by
  have hpos : (0 : ℤ) < 10 ^ scale := by positivity
  have hwhole : 0 ≤ z / 10 ^ scale := Int.ediv_nonneg h hpos.le
  have hmod := Int.emod_nonneg z hpos.ne'
  have hlt := Int.emod_lt_of_pos z hpos
  have hnoDot : ∀ {t : Text}, (∀ c ∈ t, c.isDigit = true) → '.' ∉ t := fun ht hmem => absurd (ht '.' hmem) (by decide)
  have hsplit : (fixed scale z).splitOn '.' =
      [render (z / 10 ^ scale).toNat, pad scale (z % 10 ^ scale).toNat] := by
    rw [fixed, renderInt_of_nonneg hwhole,
      List.splitOn_append_cons_self_of_not_mem (hnoDot fun c hc => isDigit_of_mem_render hc),
      List.splitOn_eq_singleton (hnoDot fun c hc => isDigit_of_mem_pad hc)]
  have hlength : (pad scale (z % 10 ^ scale).toNat).length = scale := by
    refine length_pad hscale ?_
    zify
    rw [Int.toNat_of_nonneg hmod]
    exact hlt
  have hdigits : ∀ c ∈ render (z / 10 ^ scale).toNat ++ pad scale (z % 10 ^ scale).toNat, c.isDigit = true := by
    intro c hc
    rcases List.mem_append.mp hc with hc | hc
    · exact isDigit_of_mem_render hc
    · exact isDigit_of_mem_pad hc
  rw [parseFixed, hsplit]
  simp only [hlength, if_true]
  rw [parseUnsigned_of_digits (by simp [render_ne_nil]) hdigits, Nat.ofDigitChars_append,
    Nat.ofDigitChars_eq_ofDigitChars_zero, hlength, ofDigitChars_pad, render, Nat.ofDigitChars_ten_toDigits]
  refine congrArg some ?_
  zify
  rw [Int.toNat_of_nonneg hwhole, Int.toNat_of_nonneg hmod, Int.toNat_of_nonneg h]
  exact Int.mul_ediv_add_emod z _

theorem exists_of_isDigit {c : Char} (h : c.isDigit = true) : ∃ d < 10, c = Nat.digitChar d := by
  have hall : ∀ d < 10, Char.ofNat (48 + d) = Nat.digitChar d := by decide
  simp only [Char.isDigit, ge_iff_le, Bool.and_eq_true, decide_eq_true_eq, UInt32.le_iff_toNat_le] at h
  have hlow : 48 ≤ c.toNat := h.1
  have hhigh : c.toNat ≤ 57 := h.2
  refine ⟨c.toNat - 48, by omega, ?_⟩
  rw [← hall _ (by omega), Nat.add_sub_cancel' hlow, Char.ofNat_toNat]

theorem render_of_lt {d : ℕ} (h : d < 10) : render d = [Nat.digitChar d] := Nat.toDigits_of_lt_base h

theorem render_snoc {n d : ℕ} (hn : 0 < n) (hd : d < 10) : render (10 * n + d) = render n ++ [Nat.digitChar d] := by
  rw [← render_of_lt hd]
  exact (Nat.toDigits_append_toDigits (by decide) hn hd).symm

theorem head?_render {n : ℕ} (h : 0 < n) : (render n).head? ≠ some '0' := by
  have hall : ∀ d < 10, 0 < d → Nat.digitChar d ≠ '0' := by decide
  induction n using Nat.strong_induction_on with
  | h n ih =>
    rcases Nat.lt_or_ge n 10 with hlt | hge
    · rw [render_of_lt hlt]
      simpa using hall n hlt h
    · have hquot : 0 < n / 10 := by omega
      rw [← Nat.div_add_mod n 10, render_snoc hquot (Nat.mod_lt n (by decide)),
        List.head?_append_of_ne_nil _ (render_ne_nil _)]
      exact ih (n / 10) (by omega) hquot

/-- Digits without a leading zero are the text of their number. -/
theorem render_ofDigitChars {t : Text} (hne : t ≠ []) (hdigits : ∀ c ∈ t, c.isDigit = true)
    (hhead : t.head? ≠ some '0') : render (Nat.ofDigitChars 10 t 0) = t ∧ 0 < Nat.ofDigitChars 10 t 0 := by
  have hall : ∀ d < 10, Nat.digitChar d ≠ '0' → 0 < d := by decide
  induction t using List.reverseRecOn with
  | nil => exact absurd rfl hne
  | append_singleton t c ih =>
    obtain ⟨d, hd, rfl⟩ := exists_of_isDigit (hdigits c (by simp))
    have hlast : ∀ m, Nat.ofDigitChars 10 [Nat.digitChar d] m = 10 * m + d := fun m => by
      rw [Nat.ofDigitChars_cons_digitChar_of_lt_ten hd, Nat.ofDigitChars_nil]
    rw [Nat.ofDigitChars_append, hlast]
    by_cases ht : t = []
    · subst ht
      rw [Nat.ofDigitChars_nil, Nat.mul_zero, Nat.zero_add, render_of_lt hd]
      exact ⟨rfl, hall d hd (by simpa using hhead)⟩
    · rw [List.head?_append_of_ne_nil _ ht] at hhead
      obtain ⟨hrender, hpos⟩ := ih ht (fun c hc => hdigits c (List.mem_append_left _ hc)) hhead
      rw [render_snoc hpos hd, hrender]
      exact ⟨rfl, by omega⟩

theorem parseNat_render (n : ℕ) : parseNat (render n) = some n := by
  rw [parseNat_of_digits (render_ne_nil n) fun c hc => isDigit_of_mem_render hc]
  exact congrArg some Nat.ofDigitChars_ten_toDigits

theorem parseCanonical_iff {t : Text} {n : ℕ} : parseCanonical t = some n ↔ t = render n := by
  constructor
  · intro h
    unfold parseCanonical at h
    split_ifs at h with hcanonical
    unfold parseNat at h
    split_ifs at h with hdigits
    obtain rfl := Option.some.inj h
    rcases hcanonical with rfl | hhead
    · decide
    · exact (render_ofDigitChars hdigits.1 (List.all_eq_true.mp hdigits.2) hhead).1.symm
  · rintro rfl
    have hcanonical : render n = ['0'] ∨ (render n).head? ≠ some '0' := by
      rcases Nat.eq_zero_or_pos n with rfl | hpos
      · exact Or.inl (by decide)
      · exact Or.inr (head?_render hpos)
    rw [parseCanonical, if_pos hcanonical, parseNat_render]

example : fixed 18 1500000000000000000 = "1.500000000000000000".toList := by decide

end HarmonyMigration.Decimal
