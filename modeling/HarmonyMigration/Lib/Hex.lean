import HarmonyMigration.Lib.Decimal

/-! Hexadecimal texts of a fixed width, behind `0x`. -/

namespace HarmonyMigration.Hex
open Decimal

def digit? (c : Char) : Option ℕ := (List.range 16).find? fun n => Nat.digitChar n = c

/-- The number of lower-case digits, the highest first. -/
def value (t : Text) : Option ℕ := t.foldlM (fun n c => (digit? c).map fun d => 16 * n + d) 0

/-- The lowest `width` digits of a number, the highest of them first. -/
def digits : ℕ → ℕ → Text
  | 0, _ => []
  | width + 1, n => digits width (n / 16) ++ [Nat.digitChar (n % 16)]

def render (width n : ℕ) : Text := '0' :: 'x' :: digits width n

/-- `0x` and exactly `width` lower-case digits. -/
def parse (width : ℕ) : Text → Option ℕ
  | '0' :: 'x' :: t => if t.length = width then value t else none
  | _ => none

/-- `0x` and exactly `width` digits of either case. -/
def parseMixed (width : ℕ) : Text → Option ℕ
  | '0' :: 'x' :: t => parse width ('0' :: 'x' :: t.map Char.toLower)
  | _ => none

/-! ### Round trips -/

theorem digit?_digitChar {n : ℕ} (h : n < 16) : digit? (Nat.digitChar n) = some n := by
  have hall : ∀ n < 16, digit? (Nat.digitChar n) = some n := by decide
  exact hall n h

@[simp] theorem length_digits (width n : ℕ) : (digits width n).length = width := by
  induction width generalizing n with
  | zero => rfl
  | succ width ih => rw [digits, List.length_append, ih, List.length_singleton]

theorem length_render (width n : ℕ) : (render width n).length = width + 2 := by
  rw [render, List.length_cons, List.length_cons, length_digits]

theorem prefix_render (width n : ℕ) : ['0', 'x'] <+: render width n := ⟨digits width n, rfl⟩

theorem value_digits (width n : ℕ) : value (digits width n) = some (n % 16 ^ width) := by
  induction width generalizing n with
  | zero => simp [digits, value, Nat.mod_one]
  | succ width ih =>
    have hfold : value (digits width (n / 16)) = some (n / 16 % 16 ^ width) := ih (n / 16)
    rw [value] at hfold
    rw [digits, value, List.foldlM_append, hfold]
    simp only [List.foldlM_cons, List.foldlM_nil, digit?_digitChar (Nat.mod_lt n (by decide : 0 < 16)), Option.map_some,
      Option.bind_eq_bind, Option.bind_some, Option.pure_def, Option.some.injEq]
    rw [pow_succ', Nat.mod_mul, add_comm]

theorem parse_render {width n : ℕ} (h : n < 16 ^ width) : parse width (render width n) = some n := by
  rw [render, parse, if_pos (length_digits width n), value_digits, Nat.mod_eq_of_lt h]

theorem exists_digit_of_mem {width n : ℕ} {c : Char} (h : c ∈ digits width n) : ∃ d < 16, c = Nat.digitChar d := by
  induction width generalizing n with
  | zero => simp [digits] at h
  | succ width ih =>
    rw [digits, List.mem_append, List.mem_singleton] at h
    rcases h with h | rfl
    · exact ih h
    · exact ⟨n % 16, Nat.mod_lt n (by decide), rfl⟩

theorem toLower_of_mem_digits {width n : ℕ} {c : Char} (h : c ∈ digits width n) :
    c.toLower = c ∧ c.toUpper.toLower = c := by
  have hall : ∀ d < 16, (Nat.digitChar d).toLower = Nat.digitChar d ∧
      (Nat.digitChar d).toUpper.toLower = Nat.digitChar d := by decide
  obtain ⟨d, hd, rfl⟩ := exists_digit_of_mem h
  exact hall d hd

/-- Digits of which some are put in upper case read as before. -/
theorem parseMixed_recased {width n : ℕ} (h : n < 16 ^ width) {ks : List Char} (hks : width ≤ ks.length)
    (upper : Char → Bool) :
    parseMixed width ('0' :: 'x' :: List.zipWith (fun c k => if upper k then c.toUpper else c) (digits width n) ks) =
      some n := by
  have hrestore : ∀ (t ks : Text), t.length ≤ ks.length → (∀ c ∈ t, c.toLower = c ∧ c.toUpper.toLower = c) →
      (List.zipWith (fun c k => if upper k then c.toUpper else c) t ks).map Char.toLower = t := by
    intro t
    induction t with
    | nil => simp
    | cons c t ih =>
      intro ks hlen hcase
      cases ks with
      | nil => simp at hlen
      | cons k ks =>
        obtain ⟨hlower, hupper⟩ := hcase c (by simp)
        have htail := ih ks (by simpa using hlen) fun c hc => hcase c (List.mem_cons_of_mem _ hc)
        rw [List.zipWith_cons_cons, List.map_cons, htail]
        split_ifs
        · rw [hupper]
        · rw [hlower]
  rw [parseMixed, hrestore _ ks (by simpa using hks) fun c hc => toLower_of_mem_digits hc]
  exact parse_render h

end HarmonyMigration.Hex
