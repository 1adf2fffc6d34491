import HarmonyMigration.Lib.Slices

/-! Recursive length prefixes. An item is a string or a list, and it is written as a
header for its kind and length in front of its payload. -/

namespace Rlp
open Slices

inductive Kind
  | string
  | list
  deriving DecidableEq

def Kind.base : Kind → ℕ
  | .string => 0x80
  | .list => 0xc0

/-- One byte for a payload of at most 55 bytes. A longer one has its length spelled out
without leading zeros, in at most eight bytes. -/
def lengthHeader (base n : ℕ) : Option Bytes :=
  if n < 56 then some [UInt8.ofNat (base + n)]
  else if n < 256 ^ 8 then
    some (UInt8.ofNat (base + 55 + (Nat.log 256 n + 1)) :: toBytes (Nat.log 256 n + 1) n)
  else none

/-- One byte below `0x80` is its own item. -/
def header : Kind → Bytes → Option Bytes
  | .string, [b] => if b.toNat ≤ 0x7f then some [] else lengthHeader Kind.string.base 1
  | kind, payload => lengthHeader kind.base payload.length

def item (kind : Kind) (payload : Bytes) : Option Bytes := (header kind payload).map (· ++ payload)

inductive Tree
  | string (bytes : Bytes)
  | list (items : List Tree)

mutual
def Tree.encode : Tree → Option Bytes
  | .string bytes => item .string bytes
  | .list items => (encodeAll items).bind (item .list)

def encodeAll : List Tree → Option Bytes
  | [] => some []
  | tree :: trees => (Tree.encode tree).bind fun bytes => (encodeAll trees).map (bytes ++ ·)
end

/-! ### Lengths that are spelled out -/

section Lengths

variable {base n : ℕ} {b : UInt8} {ls head : Bytes}

theorem log_beNat (hb : b ≠ 0) : Nat.log 256 (beNat (b :: ls)) = ls.length := by
  have hpos : 1 ≤ b.toNat := Nat.pos_of_ne_zero fun h => hb (UInt8.toNat_inj.mp h)
  apply Nat.log_eq_of_pow_le_of_lt_pow
  · calc 256 ^ ls.length = 1 * 256 ^ ls.length := (Nat.one_mul _).symm
      _ ≤ b.toNat * 256 ^ ls.length := Nat.mul_le_mul_right _ hpos
      _ ≤ beNat (b :: ls) := Nat.le_add_right _ _
  · exact beNat_lt (b :: ls)

theorem lengthHeader_digits (hb : b ≠ 0) (hlen : (b :: ls).length ≤ 8) (hn : 56 ≤ beNat (b :: ls)) :
    lengthHeader base (beNat (b :: ls)) = some (UInt8.ofNat (base + 55 + (b :: ls).length) :: b :: ls) := by
  have hlt : beNat (b :: ls) < 256 ^ 8 :=
    (beNat_lt (b :: ls)).trans_le (Nat.pow_le_pow_right (by decide) hlen)
  rw [lengthHeader, if_neg (by omega), if_pos hlt, log_beNat hb, ← List.length_cons (a := b), toBytes_beNat]

theorem exists_digits (h : lengthHeader base n = some head) (hn : 56 ≤ n) :
    ∃ b ls, b ≠ 0 ∧ (b :: ls).length ≤ 8 ∧ beNat (b :: ls) = n ∧
      head = UInt8.ofNat (base + 55 + (b :: ls).length) :: b :: ls := by
  rw [lengthHeader, if_neg (by omega)] at h
  split_ifs at h with hlt
  obtain rfl := Option.some.inj h
  have hlow : 256 ^ Nat.log 256 n ≤ n := Nat.pow_log_le_self 256 (by omega)
  have hhigh : n < 256 ^ (Nat.log 256 n + 1) := Nat.lt_pow_succ_log_self (by decide) n
  have hwidth : Nat.log 256 n < 8 := (Nat.pow_lt_pow_iff_right (by decide)).mp (hlow.trans_lt hlt)
  have hdigit : n / 256 ^ Nat.log 256 n < 256 := Nat.div_lt_of_lt_mul (by rwa [pow_succ] at hhigh)
  refine ⟨UInt8.ofNat (n / 256 ^ Nat.log 256 n), toBytes (Nat.log 256 n) (n % 256 ^ Nat.log 256 n), ?_, ?_, ?_, ?_⟩
  · intro h0
    have hzero : n / 256 ^ Nat.log 256 n = 0 := by
      have := congrArg UInt8.toNat h0
      rwa [UInt8.toNat_ofNat_of_lt' hdigit] at this
    exact absurd hlow (Nat.not_le.mpr ((Nat.div_eq_zero_iff_lt (by positivity)).mp hzero))
  · simp only [List.length_cons, length_toBytes]
    omega
  · exact beNat_toBytes hhigh
  · rw [List.length_cons, length_toBytes, toBytes]

end Lengths

/-! ### Headers -/

section Headers

variable {kind : Kind} {payload head : Bytes}

theorem header_list (payload : Bytes) : header .list payload = lengthHeader Kind.list.base payload.length := by
  cases payload with
  | nil => rfl
  | cons b bs => cases bs <;> rfl

/-- A string that is not a single low byte. -/
theorem header_string (h : ∀ b, payload = [b] → 0x7f < b.toNat) :
    header .string payload = lengthHeader Kind.string.base payload.length := by
  match payload with
  | [] => rfl
  | [b] => rw [header, if_neg (by simpa using h b rfl), List.length_singleton]
  | _ :: _ :: _ => rfl

theorem header_short (hlen : payload.length < 56) (h : kind = .string → ∀ b, payload = [b] → 0x7f < b.toNat) :
    header kind payload = some [UInt8.ofNat (kind.base + payload.length)] := by
  cases kind with
  | string => rw [header_string (h rfl), lengthHeader, if_pos hlen]
  | list => rw [header_list, lengthHeader, if_pos hlen]

theorem header_long (hlen : 56 ≤ payload.length) : header kind payload = lengthHeader kind.base payload.length := by
  cases kind with
  | string =>
    apply header_string
    rintro b rfl
    simp at hlen
  | list => exact header_list payload

/-- The three forms of a header. -/
theorem header_cases (h : header kind payload = some head) :
    (∃ b, kind = .string ∧ payload = [b] ∧ b.toNat ≤ 0x7f ∧ head = []) ∨
    (payload.length < 56 ∧ (kind = .string → ∀ b, payload = [b] → 0x7f < b.toNat) ∧
      head = [UInt8.ofNat (kind.base + payload.length)]) ∨
    ∃ b ls, b ≠ 0 ∧ (b :: ls).length ≤ 8 ∧ beNat (b :: ls) = payload.length ∧ 56 ≤ payload.length ∧
      head = UInt8.ofNat (kind.base + 55 + (b :: ls).length) :: b :: ls := by
  by_cases hlow : ∃ b, kind = .string ∧ payload = [b] ∧ b.toNat ≤ 0x7f
  · obtain ⟨b, rfl, rfl, hb⟩ := hlow
    rw [header, if_pos hb] at h
    exact .inl ⟨b, rfl, rfl, hb, (Option.some.inj h).symm⟩
  · have hhigh : kind = .string → ∀ b, payload = [b] → 0x7f < b.toNat := by
      intro hkind b hb
      by_contra hle
      exact hlow ⟨b, hkind, hb, by omega⟩
    by_cases hlen : payload.length < 56
    · rw [header_short hlen hhigh] at h
      exact .inr (.inl ⟨hlen, hhigh, (Option.some.inj h).symm⟩)
    · rw [header_long (by omega)] at h
      obtain ⟨b, ls, hb, hls, hn, rfl⟩ := exists_digits h (by omega)
      exact .inr (.inr ⟨b, ls, hb, hls, hn, by omega, rfl⟩)

end Headers

end Rlp
