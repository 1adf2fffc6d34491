import HarmonyMigration.Lib.Decimal
import HarmonyMigration.Lib.DecimalContext
import Mathlib.Data.List.TakeWhile

/-! `parse_amount` and `format_one` of `airdrop/tools/common.py`. The product with 10^18 is
rounded to the 28 digits of the default context before it is tested for whole atto. -/

namespace HarmonyMigration.Airdrop

open Decimal DecimalContext

/-! ### `decimal.Decimal` -/

/-- The character tables behind `str.isdigit` and the decimal digits of other scripts. -/
structure Unicode where
  decimal : Char → Option ℕ
  isDigit : Char → Bool
  ascii : ∀ c : Char, c.isDigit = true → decimal c = some (c.toNat - 48)
  point : decimal '.' = none

/-- `str.isspace`. -/
def isSpace (c : Char) : Bool :=
  let n := c.toNat
  (9 ≤ n && n ≤ 13) || (28 ≤ n && n ≤ 32) || n == 0x85 || n == 0xA0 || n == 0x1680 ||
    (0x2000 ≤ n && n ≤ 0x200A) || n == 0x2028 || n == 0x2029 || n == 0x202F || n == 0x205F || n == 0x3000

def strip (t : Text) : Text := ((t.dropWhile isSpace).reverse.dropWhile isSpace).reverse

inductive Number where
  | finite (d : Dec)
  | infinite
  | nan

def takeSign : Text → Bool × Text
  | '-' :: t => (true, t)
  | '+' :: t => (false, t)
  | t => (false, t)

section
variable (u : Unicode)

def isDecimal (c : Char) : Bool := (u.decimal c).isSome

def readDigits (t : Text) : ℕ := t.foldl (fun n c => 10 * n + (u.decimal c).getD 0) 0

/-- Infinities and the not-a-numbers, a sign taken off. -/
def special (t : Text) : Option Number :=
  let l := t.map Char.toLower
  if l = "inf".toList ∨ l = "infinity".toList then some .infinite
  else if ("nan".toList.isPrefixOf l ∧ (l.drop 3).all (isDecimal u)) ∨
      ("snan".toList.isPrefixOf l ∧ (l.drop 4).all (isDecimal u)) then some .nan
  else none

/-- `[sign] digits`, all of the text. -/
def readExponent (t : Text) : Option ℤ :=
  let s := takeSign t
  if s.2 ≠ [] ∧ s.2.all (isDecimal u) then some ((if s.1 then -1 else 1) * readDigits u s.2) else none

/-- Digits with at most one point among them, then an exponent or nothing. -/
def readFinite (t : Text) : Option (ℕ × ℤ) :=
  let whole := t.takeWhile (isDecimal u)
  let rest := t.dropWhile (isDecimal u)
  let r : Text × Text := match rest with
    | '.' :: rest => (rest.takeWhile (isDecimal u), rest.dropWhile (isDecimal u))
    | rest => ([], rest)
  if whole ++ r.1 = [] then none
  else match r.2 with
    | [] => some (readDigits u (whole ++ r.1), -(r.1.length : ℤ))
    | e :: rest =>
      if e = 'e' ∨ e = 'E' then
        (readExponent u rest).map fun x => (readDigits u (whole ++ r.1), x - r.1.length)
      else none

/-- `Decimal(text)`, which is exact; `none` is `InvalidOperation`. -/
def decimalOf (t : Text) : Option Number :=
  let s := takeSign (strip t)
  (special u s.2).or ((readFinite u s.2).map fun r => .finite ⟨s.1, r.1, r.2⟩)

end

/-! ### The tools -/

def ATTO_PER_ONE : ℕ := 10 ^ 18

/-- `decimal.DefaultContext`; `Overflow` is trapped. -/
def defaultContext : Context := ⟨28, 999999, -999999⟩

inductive Reason where
  | empty
  | notWholeNumber
  | notDecimal
  | notFinite
  | moreThan18Places
  | unknownUnit
  | notPositive
  deriving DecidableEq

/-- What is raised: an `InputError` naming the place and the value, or an exception of the
decimal and integer types. -/
inductive AmountError where
  | input (where_ : Text) (reason : Reason) (value : Text)
  | overflow
  | valueError
  deriving DecidableEq

/-- The text `parse_amount` reads: thousands separators and underscores are dropped. -/
def clean (value : Text) : Text := ((strip value).filter (· ≠ ',')).filter (· ≠ '_')

/-- The amount of a finite number of whole units. -/
def scaleAmount (d : Dec) (where_ value : Text) : Except AmountError ℤ :=
  match d.mul defaultContext ⟨false, ATTO_PER_ONE, 0⟩ with
  | none => .error .overflow
  | some scaled =>
    if ¬scaled.Integral then .error (.input where_ .moreThan18Places value) else .ok scaled.toInt

def parseAmount (u : Unicode) (value unit where_ : Text) : Except AmountError ℤ :=
  let text := clean value
  if text = [] then .error (.input where_ .empty value)
  else
    let amount : Except AmountError ℤ :=
      if unit = "atto".toList then
        if text.all u.isDigit then
          if text.all (isDecimal u) then .ok (readDigits u text : ℤ) else .error .valueError
        else .error (.input where_ .notWholeNumber value)
      else if unit = "one".toList then
        match decimalOf u text with
        | none => .error (.input where_ .notDecimal value)
        | some .infinite => .error (.input where_ .notFinite value)
        | some .nan => .error (.input where_ .notFinite value)
        | some (.finite d) => scaleAmount d where_ value
      else .error (.input where_ .unknownUnit value)
    amount.bind fun amount =>
    if amount ≤ 0 then .error (.input where_ .notPositive value) else .ok amount

/-- Digits from the last one on, with a comma after every third. -/
def groups : Text → Text
  | a :: b :: c :: d :: rest => a :: b :: c :: ',' :: groups (d :: rest)
  | rest => rest

/-- The format `:,`. -/
def thousands (t : Text) : Text := (groups t.reverse).reverse

def rstripZeros (t : Text) : Text := (t.reverse.dropWhile (· = '0')).reverse

def formatOne (atto : ℕ) : Text :=
  let whole := atto / ATTO_PER_ONE
  let frac := atto % ATTO_PER_ONE
  if frac = 0 then thousands (render whole)
  else thousands (render whole) ++ '.' :: rstripZeros (pad 18 frac)

example : formatOne 1234567500000000000000000 = "1,234,567.5".toList := by decide

/-! ### When the amount is exact -/

/-- What a reader of amounts owes a value of `q` atto. -/
def Meets (q : ℚ) (result : Except AmountError ℤ) : Prop :=
  (∀ k : ℕ, 0 < k → (k : ℚ) = q → result = .ok k) ∧
    ((∀ k : ℕ, 0 < k → (k : ℚ) ≠ q) → ∃ w r v, result = .error (.input w r v))

/-- The number in atto, before any rounding. -/
def scaled (d : Dec) : Dec := ⟨d.negative, ATTO_PER_ONE * d.coeff, d.exp⟩

/-- The product is in range, and its rounding to 28 digits drops nothing, or leaves a number that
is refused as it should be: one below zero, or one with places behind the atto still. -/
def Kept (d : Dec) : Prop :=
  d.coeff = 0 ∨ (((scaled d).round 28).adjusted ≤ 999999 ∧
    (d.negative = true ∨ 10 ^ (ndigits d.coeff - 28) ∣ d.coeff ∨ ¬((scaled d).round 28).Integral))

theorem scaled_coeff_ne_zero {d : Dec} (h : d.coeff ≠ 0) : (scaled d).coeff ≠ 0 :=
  Nat.mul_ne_zero (by decide) h

theorem scaled_value (d : Dec) : (scaled d).value = d.value * 10 ^ 18 := by
  rw [Dec.value, Dec.value, scaled]
  push_cast [ATTO_PER_ONE]
  ring

theorem mul_eq_fix (d : Dec) :
    d.mul defaultContext ⟨false, ATTO_PER_ONE, 0⟩ = (scaled d).fix defaultContext := by
  simp [Dec.mul, scaled]

/-- What a product is read as. -/
def settleAmount (where_ value : Text) (r : Dec) : Except AmountError ℤ :=
  if ¬r.Integral then .error (.input where_ .moreThan18Places value)
  else if r.toInt ≤ 0 then .error (.input where_ .notPositive value) else .ok r.toInt

/-- The last two checks of `parse_amount`, on a finite number. -/
def finishAmount (d : Dec) (where_ value : Text) : Except AmountError ℤ :=
  (scaleAmount d where_ value).bind fun amount =>
  if amount ≤ 0 then .error (.input where_ .notPositive value) else .ok amount

theorem finishAmount_of_none {d : Dec} {w v : Text} (h : (scaled d).fix defaultContext = none) :
    finishAmount d w v = .error .overflow := by
  rw [finishAmount, scaleAmount, mul_eq_fix, h]
  rfl

theorem finishAmount_of_some {d r : Dec} {w v : Text} (h : (scaled d).fix defaultContext = some r) :
    finishAmount d w v = settleAmount w v r := by
  rw [finishAmount, scaleAmount, mul_eq_fix, h, settleAmount]
  dsimp only
  split_ifs <;> simp_all [Except.bind]

theorem settleAmount_of_not_integral {r : Dec} {w v : Text} (h : ¬r.Integral) :
    settleAmount w v r = .error (.input w .moreThan18Places v) := if_pos h

theorem settleAmount_of_nonpos {r : Dec} {w v : Text} (h : r.value ≤ 0) :
    ∃ reason, settleAmount w v r = .error (.input w reason v) := by
  by_cases hint : r.Integral
  · have hle : r.toInt ≤ 0 := by
      have := r.toInt_eq hint
      exact_mod_cast this.trans_le h
    exact ⟨.notPositive, by rw [settleAmount, if_neg (not_not.mpr hint), if_pos hle]⟩
  · exact ⟨_, settleAmount_of_not_integral hint⟩

theorem settleAmount_of_small {r : Dec} {w v : Text} (h : r.mag < 1) :
    ∃ reason, settleAmount w v r = .error (.input w reason v) := by
  by_cases hint : r.Integral
  · obtain ⟨n, hn⟩ := Dec.integral_iff_mag.mp hint
    have hzero : n = 0 := by
      rw [hn] at h
      exact_mod_cast Nat.lt_one_iff.mp (by exact_mod_cast h)
    apply settleAmount_of_nonpos
    rw [r.value_eq, hn, hzero]
    simp
  · exact ⟨_, settleAmount_of_not_integral hint⟩

theorem settleAmount_of_pos {r : Dec} {w v : Text} (hint : r.Integral) (hpos : 0 < r.value) :
    settleAmount w v r = .ok r.toInt := by
  have hlt : 0 < r.toInt := by
    have := r.toInt_eq hint
    exact_mod_cast this.symm ▸ hpos
  rw [settleAmount, if_neg (not_not.mpr hint), if_neg (not_le.mpr hlt)]

/-- A value that is no positive whole number of atto is owed a refusal, and only that. -/
theorem meets_of_not_whole {q : ℚ} (h : ∀ k : ℕ, 0 < k → (k : ℚ) ≠ q) {result : Except AmountError ℤ} :
    Meets q result ↔ ∃ w r v, result = .error (.input w r v) :=
  ⟨fun hm => hm.2 h, fun he => ⟨fun k hk hq => absurd hq (h k hk), fun _ => he⟩⟩

theorem meets_of_whole {k : ℕ} (hk : 0 < k) {result : Except AmountError ℤ} :
    Meets k result ↔ result = .ok k := by
  constructor
  · intro hm
    exact hm.1 k hk rfl
  · intro hr
    refine ⟨fun j hj hq => ?_, fun hno => absurd rfl (hno k hk)⟩
    rw [hr, show j = k by exact_mod_cast hq]

theorem not_meets_overflow (q : ℚ) : ¬Meets q (.error .overflow) := by
  intro hm
  by_cases h : ∀ k : ℕ, 0 < k → (k : ℚ) ≠ q
  · obtain ⟨w, r, v, he⟩ := hm.2 h
    cases he
  · push Not at h
    obtain ⟨k, hk, hq⟩ := h
    cases hm.1 k hk hq

theorem scaled_exact_iff {d : Dec} (hc : d.coeff ≠ 0) :
    ((scaled d).round 28).mag = (scaled d).mag ↔ 10 ^ (ndigits d.coeff - 28) ∣ d.coeff := by
  rw [Dec.round_mag_eq_iff, ← pow_dvd_mul_pow_iff hc 18]
  rw [scaled, ATTO_PER_ONE, Nat.mul_comm]

theorem not_whole_of_nonpos {q : ℚ} (h : q ≤ 0) : ∀ k : ℕ, 0 < k → (k : ℚ) ≠ q := by
  intro k hk hq
  have hpos : (0 : ℚ) < k := by exact_mod_cast hk
  linarith

theorem not_whole_of_not_integral {d : Dec} (h : ¬d.Integral) : ∀ k : ℕ, 0 < k → (k : ℚ) ≠ d.value := by
  intro k hk hq
  apply h
  apply Dec.integral_iff_mag.mpr
  exact ⟨k, by rw [← Dec.abs_value, ← hq, Nat.abs_cast]⟩

section
variable {d r : Dec} {w v : Text}

theorem refused (hr : (scaled d).fix defaultContext = some r)
    (he : ∃ reason, settleAmount w v r = .error (.input w reason v)) :
    ∃ w' reason v', finishAmount d w v = .error (.input w' reason v') := by
  obtain ⟨reason, he⟩ := he
  exact ⟨w, reason, v, by rw [finishAmount_of_some hr, he]⟩

/-- A positive product in range: rounded, it is exact, or whole by accident, or refused. -/
theorem meets_of_positive (hc : d.coeff ≠ 0) (hsign : d.negative = false)
    (hr : (scaled d).fix defaultContext = some r) (hrneg : r.negative = (scaled d).negative)
    (hrmag : r.mag = ((scaled d).round 28).mag) :
    Meets (scaled d).value (finishAmount d w v) ↔
      (10 ^ (ndigits d.coeff - 28) ∣ d.coeff ∨ ¬((scaled d).round 28).Integral) := by
  have hneg : (scaled d).negative = false := hsign
  have hspos := Dec.mag_pos (scaled_coeff_ne_zero hc)
  have hsval : (scaled d).value = (scaled d).mag := by rw [Dec.value_eq, hneg]; simp
  have hrval : r.value = r.mag := by rw [Dec.value_eq, hrneg, hneg]; simp
  have hround : r.Integral ↔ ((scaled d).round 28).Integral := by
    rw [Dec.integral_iff_mag, Dec.integral_iff_mag, hrmag]
  by_cases hint : r.Integral
  · have hrpos : 0 < r.value := by
      rw [hrval, hrmag]
      exact Dec.mag_pos (Dec.round_coeff_ne_zero (by decide) (scaled_coeff_ne_zero hc))
    have htoInt := r.toInt_eq hint
    rw [finishAmount_of_some hr, settleAmount_of_pos hint hrpos, ← scaled_exact_iff hc, ← hrmag]
    constructor
    · intro hm
      by_cases hwhole : ∃ k : ℕ, 0 < k ∧ (k : ℚ) = (scaled d).value
      · obtain ⟨k, hk, hq⟩ := hwhole
        have hok : r.toInt = k := Except.ok.inj (hm.1 k hk hq)
        rw [hok, hrval] at htoInt
        exact Or.inl (by rw [← htoInt, ← hsval, ← hq]; norm_cast)
      · obtain ⟨w', reason, v', he⟩ := hm.2 fun k hk hq => hwhole ⟨k, hk, hq⟩
        cases he
    · rintro (hexact | hno)
      · have hq : (scaled d).value = r.toInt := by rw [htoInt, hrval, hexact, hsval]
        have hpos : 0 < r.toInt := by exact_mod_cast htoInt ▸ hrpos
        obtain ⟨k, hk⟩ := Int.eq_ofNat_of_zero_le hpos.le
        rw [hq, hk]
        exact (meets_of_whole (by omega)).mpr rfl
      · exact absurd (hround.mp hint) hno
  · have hno : ¬((scaled d).round 28).Integral := fun h => hint (hround.mpr h)
    have hs : ¬(scaled d).Integral := fun h => hno (Dec.round_integral h)
    rw [meets_of_not_whole (not_whole_of_not_integral hs)]
    exact iff_of_true (refused hr ⟨_, settleAmount_of_not_integral hint⟩) (Or.inr hno)

/-- A finite number is read as it should be exactly when its product survives the rounding. -/
theorem meets_finishAmount_iff (d : Dec) (w v : Text) :
    Meets (d.value * 10 ^ 18) (finishAmount d w v) ↔ Kept d := by
  rw [← scaled_value]
  by_cases hc : d.coeff = 0
  · obtain ⟨r, hr, hmag⟩ := Dec.fix_zero defaultContext (d := scaled d) (by simp [scaled, hc])
    have hzero : (scaled d).value = 0 := by simp [scaled, Dec.value, hc]
    rw [meets_of_not_whole (not_whole_of_nonpos hzero.le)]
    exact iff_of_true (refused hr (settleAmount_of_small (by rw [hmag]; norm_num))) (Or.inl hc)
  have hs := scaled_coeff_ne_zero hc
  have hspos := Dec.mag_pos hs
  by_cases htiny : defaultContext.etiny ≤ ndigits (scaled d).coeff + (scaled d).exp - defaultContext.prec
  · rcases Dec.fix_normal (by decide) hs htiny with ⟨hnone, hover⟩ | ⟨r, hr, hrange, hrneg, hrmag⟩
    · -- an overflow is no `InputError` and no amount
      rw [finishAmount_of_none hnone]
      refine iff_of_false (not_meets_overflow _) ?_
      rintro (h0 | ⟨hle, -⟩)
      · exact hc h0
      · exact absurd hover (not_lt.mpr hle)
    · cases hsign : d.negative with
      | true =>
        have hneg : (scaled d).negative = true := hsign
        have hrval : r.value ≤ 0 := by
          rw [r.value_eq, hrneg, hneg]
          simpa using r.mag_nonneg
        have hsval : (scaled d).value ≤ 0 := by
          rw [Dec.value_eq, hneg]
          simpa using hspos.le
        rw [meets_of_not_whole (not_whole_of_nonpos hsval)]
        exact iff_of_true (refused hr (settleAmount_of_nonpos hrval)) (Or.inr ⟨hrange, Or.inl hsign⟩)
      | false =>
        rw [meets_of_positive hc hsign hr hrneg hrmag]
        constructor
        · intro h
          exact Or.inr ⟨hrange, Or.inr h⟩
        · rintro (h0 | ⟨-, hno | h⟩)
          · exact absurd h0 hc
          · rw [hsign] at hno
            cases hno
          · exact h
  · push Not at htiny
    obtain ⟨r, hr, -, hrsmall⟩ := Dec.fix_tiny (by decide) hs (by decide) (by decide) htiny
    have hlow : defaultContext.etiny = -1000026 := by decide
    rw [hlow, show (defaultContext.prec : ℤ) = 28 from rfl] at htiny
    have hroundmag : ((scaled d).round 28).mag < 1 := by
      refine (Dec.round_mag_lt (e := -1) (by decide) (by omega)).trans_lt ?_
      norm_num
    have hmag : (scaled d).mag < 1 := by
      refine (Dec.mag_lt (lt_pow_ndigits _)).trans_le (zpow_le_one_of_nonpos₀ (by norm_num) ?_)
      omega
    rw [meets_of_not_whole (not_whole_of_not_integral (Dec.not_integral_of_mag hspos hmag))]
    refine iff_of_true (refused hr (settleAmount_of_small hrsmall)) (Or.inr ⟨?_, Or.inr (Or.inr ?_)⟩)
    · exact (Dec.round_adjusted_le (by decide)).trans (by omega)
    · exact Dec.not_integral_of_mag
        (Dec.mag_pos (Dec.round_coeff_ne_zero (by decide) hs)) hroundmag

end

/-! ### The formatted amount -/

theorem toNat_of_isDigit {c : Char} (h : c.isDigit = true) : 48 ≤ c.toNat ∧ c.toNat ≤ 57 := by
  simpa [Char.isDigit, UInt32.le_iff_toNat_le] using h

theorem isSpace_of_isDigit {c : Char} (h : c.isDigit = true) : isSpace c = false := by
  obtain ⟨h1, h2⟩ := toNat_of_isDigit h
  unfold isSpace
  simp only [Bool.or_eq_false_iff, Bool.and_eq_false_iff, decide_eq_false_iff_not, beq_eq_false_iff_ne]
  omega

theorem strip_of_forall {t : Text} (h : ∀ c ∈ t, isSpace c = false) : strip t = t := by
  have hdrop : ∀ s : Text, (∀ c ∈ s, isSpace c = false) → s.dropWhile isSpace = s := by
    intro s hs
    cases s with
    | nil => rfl
    | cons c s => exact List.dropWhile_cons_of_neg (by simp [hs c (by simp)])
  rw [strip, hdrop t h, hdrop t.reverse fun c hc => h c (List.mem_reverse.mp hc), List.reverse_reverse]

theorem ne_of_isDigit {c d : Char} (hc : c.isDigit = true) (hd : d.isDigit = false) : c ≠ d := by
  rintro rfl
  rw [hc] at hd
  cases hd

theorem takeSign_of_digit {c : Char} (hc : c.isDigit = true) (t : Text) : takeSign (c :: t) = (false, c :: t) := by
  have h1 : c ≠ '-' := ne_of_isDigit hc (by decide)
  have h2 : c ≠ '+' := ne_of_isDigit hc (by decide)
  unfold takeSign
  split
  · rename_i heq
    exact absurd (List.cons.inj heq).1 h1
  · rename_i heq
    exact absurd (List.cons.inj heq).1 h2
  · rfl

section
variable (u : Unicode)

theorem special_of_digit {c : Char} (hc : c.isDigit = true) (t : Text) : special u (c :: t) = none := by
  have hlower : c.toLower = c := by
    obtain ⟨h1, h2⟩ := toNat_of_isDigit hc
    refine dif_neg fun h => ?_
    have h3 : 65 ≤ c.toNat := by simpa [UInt32.le_iff_toNat_le] using h.1
    omega
  have hi : c ≠ 'i' := ne_of_isDigit hc (by decide)
  have hn : 'n' ≠ c := (ne_of_isDigit hc (by decide)).symm
  have hs : 's' ≠ c := (ne_of_isDigit hc (by decide)).symm
  simp [special, hlower, hi, hn, hs]

theorem readDigits_eq {t : Text} (h : ∀ c ∈ t, c.isDigit = true) : readDigits u t = Nat.ofDigitChars 10 t 0 := by
  rw [readDigits, Nat.ofDigitChars_eq_foldl]
  apply List.foldl_ext
  intro n c hc
  rw [u.ascii c (h c hc)]
  rfl

theorem isDecimal_of_isDigit {c : Char} (h : c.isDigit = true) : isDecimal u c = true := by
  rw [isDecimal, u.ascii c h]
  rfl

theorem takeWhile_digits {ds : Text} (rest : Text) (h : ∀ c ∈ ds, c.isDigit = true)
    (hrest : ∀ c ∈ rest.head?, isDecimal u c = false) :
    (ds ++ rest).takeWhile (isDecimal u) = ds ∧ (ds ++ rest).dropWhile (isDecimal u) = rest := by
  induction ds with
  | nil => cases rest with
    | nil => exact ⟨rfl, rfl⟩
    | cons c rest =>
      have hc := hrest c (by simp)
      simp [hc]
  | cons c ds ih =>
    obtain ⟨h1, h2⟩ := ih fun d hd => h d (by simp [hd])
    have hc := isDecimal_of_isDigit u (h c (by simp))
    simp [hc, h1, h2]

theorem readFinite_whole {ds : Text} (hne : ds ≠ []) (h : ∀ c ∈ ds, c.isDigit = true) :
    readFinite u ds = some (Nat.ofDigitChars 10 ds 0, 0) := by
  obtain ⟨htake, hdrop⟩ := takeWhile_digits u [] h (by simp)
  rw [List.append_nil] at htake hdrop
  simp [readFinite, htake, hdrop, hne, readDigits_eq u h]

theorem readFinite_point {ds fs : Text} (hne : ds ≠ []) (h : ∀ c ∈ ds, c.isDigit = true)
    (hf : ∀ c ∈ fs, c.isDigit = true) :
    readFinite u (ds ++ '.' :: fs) = some (Nat.ofDigitChars 10 (ds ++ fs) 0, -(fs.length : ℤ)) := by
  obtain ⟨htake, hdrop⟩ := takeWhile_digits u ('.' :: fs) h (by simp [isDecimal, u.point])
  obtain ⟨ftake, fdrop⟩ := takeWhile_digits u [] hf (by simp)
  rw [List.append_nil] at ftake fdrop
  have hall : ∀ c ∈ ds ++ fs, c.isDigit = true := by
    intro c hc
    rcases List.mem_append.mp hc with hc | hc
    · exact h c hc
    · exact hf c hc
  simp [readFinite, htake, hdrop, ftake, fdrop, hne, readDigits_eq u hall]

/-- A text of a finite number is read as that number. -/
theorem parseAmount_of_finite {value where_ : Text} {d : Dec}
    (h : decimalOf u (clean value) = some (.finite d)) :
    parseAmount u value "one".toList where_ = finishAmount d where_ value := by
  have hne : clean value ≠ [] := by
    intro hnil
    rw [hnil] at h
    have hnone : decimalOf u [] = none := rfl
    rw [hnone] at h
    cases h
  rw [parseAmount, if_neg hne, if_neg (by decide), if_pos rfl, h]
  rfl

end

theorem groups_filter (t : Text) : (groups t).filter (· ≠ ',') = t.filter (· ≠ ',') := by
  induction t using groups.induct with
  | case1 a b c d rest ih => simp only [groups, List.filter_cons, ih]; simp
  | case2 rest h => rw [groups]; exact h

theorem mem_groups {t : Text} {c : Char} (h : c ∈ groups t) : c = ',' ∨ c ∈ t := by
  by_cases hc : c = ','
  · exact Or.inl hc
  · have hmem : c ∈ (groups t).filter (· ≠ ',') := List.mem_filter.mpr ⟨h, by simpa using hc⟩
    rw [groups_filter] at hmem
    exact Or.inr (List.mem_of_mem_filter hmem)

theorem thousands_filter {t : Text} (h : ∀ c ∈ t, c.isDigit = true) :
    (thousands t).filter (· ≠ ',') = t := by
  rw [thousands, List.filter_reverse, groups_filter, List.filter_reverse, List.reverse_reverse]
  exact List.filter_eq_self.mpr fun c hc => by simpa using ne_of_isDigit (h c hc) (by decide)

theorem mem_thousands {t : Text} {c : Char} (h : c ∈ thousands t) : c = ',' ∨ c ∈ t := by
  rcases mem_groups (List.mem_reverse.mp h) with hc | hc
  · exact Or.inl hc
  · exact Or.inr (List.mem_reverse.mp hc)

/-- What is stripped is zeros. -/
theorem rstripZeros_append (t : Text) : ∃ k, t = rstripZeros t ++ List.replicate k '0' := by
  refine ⟨(t.reverse.takeWhile (· = '0')).length, ?_⟩
  have hzeros : t.reverse.takeWhile (· = '0') =
      List.replicate (t.reverse.takeWhile (· = '0')).length '0' :=
    List.eq_replicate_of_mem fun c hc => by simpa using List.mem_takeWhile_imp hc
  have hsplit := congrArg List.reverse (List.takeWhile_append_dropWhile (p := (· = '0')) (l := t.reverse))
  rw [List.reverse_append, List.reverse_reverse, hzeros, List.reverse_replicate] at hsplit
  exact hsplit.symm

theorem clean_of_forall {t : Text} (h : ∀ c ∈ t, isSpace c = false ∧ c ≠ '_') :
    clean t = t.filter (· ≠ ',') := by
  rw [clean, strip_of_forall fun c hc => (h c hc).1]
  exact List.filter_eq_self.mpr fun c hc => by simpa using (h c (List.mem_of_mem_filter hc)).2

section
variable {ds fs : Text}

theorem plain_of_isDigit {c : Char} (h : c.isDigit = true) : isSpace c = false ∧ c ≠ '_' :=
  ⟨isSpace_of_isDigit h, ne_of_isDigit h (by decide)⟩

theorem plain_of_mem_thousands (h : ∀ c ∈ ds, c.isDigit = true) {c : Char} (hc : c ∈ thousands ds) :
    isSpace c = false ∧ c ≠ '_' := by
  rcases mem_thousands hc with rfl | hc
  · decide
  · exact plain_of_isDigit (h c hc)

theorem clean_thousands (h : ∀ c ∈ ds, c.isDigit = true) : clean (thousands ds) = ds := by
  rw [clean_of_forall fun c hc => plain_of_mem_thousands h hc, thousands_filter h]

theorem clean_point (h : ∀ c ∈ ds, c.isDigit = true) (hf : ∀ c ∈ fs, c.isDigit = true) :
    clean (thousands ds ++ '.' :: fs) = ds ++ '.' :: fs := by
  have hfilter : fs.filter (· ≠ ',') = fs :=
    List.filter_eq_self.mpr fun c hc => by simpa using ne_of_isDigit (hf c hc) (by decide)
  have hplain : ∀ c ∈ thousands ds ++ '.' :: fs, isSpace c = false ∧ c ≠ '_' := by
    intro c hc
    rcases List.mem_append.mp hc with hc | hc
    · exact plain_of_mem_thousands h hc
    · rcases List.mem_cons.mp hc with rfl | hc
      · decide
      · exact plain_of_isDigit (hf c hc)
  rw [clean_of_forall hplain, List.filter_append, thousands_filter h, List.filter_cons_of_pos (by decide),
    hfilter]

end

theorem decimalOf_digits (u : Unicode) {ds : Text} (rest : Text) (hne : ds ≠ []) (h : ∀ c ∈ ds, c.isDigit = true)
    (hrest : ∀ c ∈ rest, isSpace c = false) :
    decimalOf u (ds ++ rest) = (readFinite u (ds ++ rest)).map fun r => .finite ⟨false, r.1, r.2⟩ := by
  have hplain : ∀ c ∈ ds ++ rest, isSpace c = false := by
    intro c hc
    rcases List.mem_append.mp hc with hc | hc
    · exact isSpace_of_isDigit (h c hc)
    · exact hrest c hc
  cases ds with
  | nil => exact absurd rfl hne
  | cons d ds =>
    have hd := h d (by simp)
    rw [decimalOf, strip_of_forall hplain, List.cons_append, takeSign_of_digit hd, special_of_digit u hd]
    rfl

/-- The text of an amount is read as the number it was made from. -/
theorem decimalOf_formatOne (u : Unicode) (a : ℕ) : ∃ c k : ℕ, k ≤ 18 ∧ a = c * 10 ^ k ∧
    decimalOf u (clean (formatOne a)) = some (.finite ⟨false, c, (k : ℤ) - 18⟩) := by
  have hwhole : ∀ c ∈ render (a / ATTO_PER_ONE), c.isDigit = true := fun c hc => isDigit_of_mem_render hc
  have hne := render_ne_nil (a / ATTO_PER_ONE)
  have hvalue : Nat.ofDigitChars 10 (render (a / ATTO_PER_ONE)) 0 = a / ATTO_PER_ONE :=
    Nat.ofDigitChars_ten_toDigits
  have hsplit : a = a / ATTO_PER_ONE * 10 ^ 18 + a % ATTO_PER_ONE := (Nat.div_add_mod' a ATTO_PER_ONE).symm
  unfold formatOne
  dsimp only
  by_cases hf : a % ATTO_PER_ONE = 0
  · refine ⟨a / ATTO_PER_ONE, 18, le_rfl, ?_, ?_⟩
    · rw [hf, Nat.add_zero] at hsplit
      exact hsplit
    · have hread := decimalOf_digits u [] hne hwhole (by simp)
      rw [List.append_nil, readFinite_whole u hne hwhole, hvalue] at hread
      rw [if_pos hf, clean_thousands hwhole, hread]
      rfl
  · obtain ⟨k, hk⟩ := rstripZeros_append (pad 18 (a % ATTO_PER_ONE))
    have hlt : a % ATTO_PER_ONE < 10 ^ 18 := Nat.mod_lt a (by decide)
    have hpad := length_pad (by decide) hlt
    have hfrac := ofDigitChars_pad 18 (a % ATTO_PER_ONE)
    have hdigits : ∀ c ∈ pad 18 (a % ATTO_PER_ONE), c.isDigit = true := fun c hc => isDigit_of_mem_pad hc
    rw [if_neg hf]
    generalize rstripZeros (pad 18 (a % ATTO_PER_ONE)) = fs at hk ⊢
    rw [hk] at hpad hfrac hdigits
    rw [List.length_append, List.length_replicate] at hpad
    rw [Nat.ofDigitChars_append, Nat.ofDigitChars_replicate_zero] at hfrac
    have hfs : ∀ c ∈ fs, c.isDigit = true := fun c hc => hdigits c (List.mem_append_left _ hc)
    have hspace : ∀ c ∈ '.' :: fs, isSpace c = false := by
      intro c hc
      rcases List.mem_cons.mp hc with rfl | hc
      · decide
      · exact isSpace_of_isDigit (hfs c hc)
    refine ⟨Nat.ofDigitChars 10 (render (a / ATTO_PER_ONE) ++ fs) 0, k, by omega, ?_, ?_⟩
    · rw [Nat.ofDigitChars_append, hvalue, Nat.ofDigitChars_eq_ofDigitChars_zero, Nat.add_mul,
        Nat.mul_comm (Nat.ofDigitChars 10 fs 0), hfrac, Nat.mul_right_comm, ← pow_add, hpad,
        Nat.mul_comm (10 ^ 18)]
      exact hsplit
    · have hexp : -(fs.length : ℤ) = (k : ℤ) - 18 := by omega
      rw [clean_point hwhole hfs, decimalOf_digits u _ hne hwhole hspace, readFinite_point u hne hwhole hfs,
        hexp]
      rfl

/-- Reading an amount back: every digit counts up to the 28th, and only zeros may follow. -/
theorem parseAmount_formatOne_iff (u : Unicode) {a : ℕ} (ha : 0 < a) (where_ : Text) :
    parseAmount u (formatOne a) "one".toList where_ = .ok a ↔
      ndigits a ≤ 1000000 ∧ 10 ^ (ndigits a - 28) ∣ a := by
  obtain ⟨c, k, hk, hac, hread⟩ := decimalOf_formatOne u a
  have hc : c ≠ 0 := by
    rintro rfl
    omega
  set d : Dec := ⟨false, c, (k : ℤ) - 18⟩ with hd
  have hq : d.value * 10 ^ 18 = (a : ℕ) := by
    have hpow : (10 : ℚ) ^ ((k : ℤ) - 18) * 10 ^ 18 = 10 ^ k := by
      rw [← zpow_natCast, ← zpow_natCast, ← zpow_add₀ (by norm_num)]
      congr 1
      omega
    rw [Dec.value, hd, hac]
    push_cast
    rw [mul_assoc, hpow]
    simp
  have hmeets := meets_finishAmount_iff d where_ (formatOne a)
  rw [hq, meets_of_whole ha] at hmeets
  rw [parseAmount_of_finite u hread, hmeets]
  have hwhole : (scaled d).Integral := by
    apply Dec.integral_iff_mag.mpr
    exact ⟨a, by rw [← Dec.abs_value, scaled_value, hq, Nat.abs_cast]⟩
  have hdvd : 10 ^ (ndigits a - 28) ∣ a ↔ 10 ^ (ndigits d.coeff - 28) ∣ d.coeff := by
    rw [hac]
    exact pow_dvd_mul_pow_iff hc k
  have hdigits : ndigits a = ndigits c + k := by rw [hac, ndigits_mul_pow hc]
  have hadjusted : 10 ^ (ndigits d.coeff - 28) ∣ d.coeff →
      ((scaled d).round 28).adjusted = (ndigits a : ℤ) - 1 := by
    intro hexact
    rw [Dec.round_adjusted_of_exact (scaled_coeff_ne_zero hc)
      (Dec.round_mag_eq_iff.mp ((scaled_exact_iff hc).mpr hexact)), Dec.adjusted, scaled]
    have hscaled : ndigits (ATTO_PER_ONE * d.coeff) = ndigits c + 18 := by
      rw [Nat.mul_comm, ATTO_PER_ONE, ndigits_mul_pow hc]
    have hexp : d.exp = (k : ℤ) - 18 := rfl
    dsimp only
    rw [hscaled, hexp]
    omega
  rw [hdvd]
  constructor
  · rintro (h0 | ⟨hrange, hno | hexact | hno⟩)
    · exact absurd h0 hc
    · cases hno
    · rw [hadjusted hexact] at hrange
      exact ⟨by omega, hexact⟩
    · exact absurd (Dec.round_integral hwhole) hno
  · rintro ⟨hlen, hexact⟩
    refine Or.inr ⟨?_, Or.inr (Or.inl hexact)⟩
    rw [hadjusted hexact]
    omega

/-- The digits of one script only. -/
def asciiTables : Unicode where
  decimal := fun c => if c.isDigit then some (c.toNat - 48) else none
  isDigit := Char.isDigit
  ascii := fun _ h => if_pos h
  point := rfl

end HarmonyMigration.Airdrop
