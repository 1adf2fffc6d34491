import HarmonyMigration.Lib.Rlp
import HarmonyMigration.Lib.Hex
import HarmonyMigration.Lib.Except

/-! # Validator wrappers in the code of an account

The staking wrapper of a validator is kept, RLP encoded, where a contract has its code.
The review recognises one by its first two lists and its 20-byte address. -/

namespace HarmonyMigration.ContractReview
open Slices Decimal

/-! ### Hexadecimal texts of byte strings -/

/-- `bytes.hex()`. -/
def hexText (data : Bytes) : Text :=
  data.flatMap fun b => [Nat.digitChar (b.toNat / 16), Nat.digitChar (b.toNat % 16)]

/-- The characters that `bytes.fromhex` skips. -/
def isHexSpace (c : Char) : Bool := c ∈ [' ', '\t', '\n', '\x0b', '\x0c', '\r']

/-- `bytes.fromhex(raw)`. Spaces may stand between two bytes, not inside one. -/
def fromhex : Text → Option Bytes
  | [] => some []
  | [c] => if isHexSpace c then some [] else none
  | c :: d :: raw =>
    if isHexSpace c then fromhex (d :: raw)
    else (Hex.digit? c.toLower).bind fun high => (Hex.digit? d.toLower).bind fun low =>
      (fromhex raw).map (UInt8.ofNat (16 * high + low) :: ·)

/-- `code_hex[2:] if code_hex.startswith("0x") else code_hex`. -/
def withoutPrefix : Text → Text
  | '0' :: 'x' :: raw => raw
  | raw => raw

/-! ### The source's functions -/

/-- `data[i]` where there is no such byte. -/
inductive IndexError
  | outOfRange
  deriving DecidableEq

def byteAt (data : Bytes) (i : ℕ) : Except IndexError ℕ := (Except.ofOption data[i]? .outOfRange).map UInt8.toNat

structure ItemBounds where
  isList : Bool
  start : ℕ
  stop : ℕ
  next : ℕ
  deriving DecidableEq

/-- The two forms with a spelled-out length. -/
def longItemBounds (data : Bytes) (offset lengthSize : ℕ) (isList : Bool) : Except IndexError (Option ItemBounds) :=
  let startSize := offset + 1
  let endSize := startSize + lengthSize
  if data.length < endSize then .ok none
  else (byteAt data startSize).bind fun first =>
    if first = 0 then .ok none
    else
      let length := beNat (slice data startSize endSize)
      let stop := endSize + length
      if length < 56 ∨ data.length < stop then .ok none else .ok (some ⟨isList, endSize, stop, stop⟩)

def rlpItemBounds (data : Bytes) (offset : ℕ) : Except IndexError (Option ItemBounds) :=
  if data.length ≤ offset then .ok none
  else (byteAt data offset).bind fun lead =>
    if lead ≤ 0x7f then .ok (some ⟨false, offset, offset + 1, offset + 1⟩)
    else if lead ≤ 0xb7 then
      let length := lead - 0x80
      let start := offset + 1
      let stop := start + length
      if data.length < stop then .ok none
      else if length = 1 then
        (byteAt data start).bind fun first =>
          if first ≤ 0x7f then .ok none else .ok (some ⟨false, start, stop, stop⟩)
      else .ok (some ⟨false, start, stop, stop⟩)
    else if lead ≤ 0xbf then longItemBounds data offset (lead - 0xb7) false
    else if lead ≤ 0xf7 then
      let length := lead - 0xc0
      let start := offset + 1
      let stop := start + length
      if data.length < stop then .ok none else .ok (some ⟨true, start, stop, stop⟩)
    else longItemBounds data offset (lead - 0xf7) true

def rlpValidatorWrapperAddress (codeHex : Text) : Except IndexError (Option Text) :=
  match fromhex (withoutPrefix codeHex) with
  | none => .ok none
  | some data =>
    if data.length < 24 then .ok none
    else (rlpItemBounds data 0).bind fun
      | none => .ok none
      | some wrapper =>
        if wrapper.isList = false ∨ wrapper.next ≠ data.length then .ok none
        else (rlpItemBounds data wrapper.start).bind fun
          | none => .ok none
          | some validator =>
            if validator.isList = false ∨ wrapper.stop < validator.next then .ok none
            else (rlpItemBounds data validator.start).bind fun
              | none => .ok none
              | some address =>
                if address.isList = true ∨ address.stop - address.start ≠ 20 ∨ validator.stop < address.next then .ok none
                else .ok (some ('0' :: 'x' :: hexText (slice data address.start address.stop)))

/-! ### What the functions read, behind the bytes in front of the item -/

section Reads

variable {front tail : Bytes} {lead : UInt8} {size : ℕ} {isList : Bool}

theorem byteAt_append (front : Bytes) (b : UInt8) (tail : Bytes) :
    byteAt (front ++ b :: tail) front.length = .ok b.toNat := by
  rw [byteAt, List.getElem?_append_right le_rfl, Nat.sub_self, List.getElem?_cons_zero]
  rfl

theorem byteAt_append_succ (front : Bytes) (lead b : UInt8) (tail : Bytes) :
    byteAt (front ++ lead :: b :: tail) (front.length + 1) = .ok b.toNat := by
  rw [List.append_cons]
  have h := byteAt_append (front ++ [lead]) b tail
  rwa [List.length_append, List.length_singleton] at h

theorem slice_behind (front : Bytes) (lead : UInt8) (tail : Bytes) (size : ℕ) :
    slice (front ++ lead :: tail) (front.length + 1) (front.length + 1 + size) = tail.take size := by
  have h := slice_append_right (a := front ++ [lead]) (b := tail) (n := front.length + 1) (by simp) 0 size
  rwa [List.append_assoc, List.singleton_append, Nat.add_zero, slice_zero] at h

/-- The item whose header is `head`, at this offset. -/
def boundsOf (offset : ℕ) (kind : Rlp.Kind) (head payload : Bytes) : ItemBounds where
  isList := kind = .list
  start := offset + head.length
  stop := offset + head.length + payload.length
  next := offset + head.length + payload.length

theorem longItemBounds_append (hsize : 0 < size) :
    longItemBounds (front ++ lead :: tail) front.length size isList = .ok
      (if size ≤ tail.length ∧ tail.head? ≠ some 0 ∧ 56 ≤ beNat (tail.take size) ∧
          size + beNat (tail.take size) ≤ tail.length then
        some ⟨isList, front.length + 1 + size, front.length + 1 + size + beNat (tail.take size),
          front.length + 1 + size + beNat (tail.take size)⟩
      else none) := by
  have hlen : (front ++ lead :: tail).length = front.length + 1 + tail.length := by
    rw [List.length_append, List.length_cons]
    omega
  simp only [longItemBounds, hlen, slice_behind]
  by_cases hfit : size ≤ tail.length
  · rw [if_neg (by omega)]
    cases tail with
    | nil => simp at hfit; omega
    | cons b tail =>
      rw [byteAt_append_succ, Except.bind_ok_left]
      by_cases hb : b = 0
      · simp [hb]
      · have hb' : b.toNat ≠ 0 := fun h => hb (UInt8.toNat_inj.mp h)
        rw [if_neg hb']
        simp only [List.head?_cons, ne_eq, Option.some.injEq, hb, not_false_eq_true, true_and, hfit]
        by_cases hok : 56 ≤ beNat ((b :: tail).take size) ∧ size + beNat ((b :: tail).take size) ≤ (b :: tail).length
        · rw [if_neg (by omega), if_pos hok]
        · rw [if_pos (by omega), if_neg hok]
  · rw [if_pos (by omega), if_neg fun h => hfit h.1]

theorem rlpItemBounds_nil (front : Bytes) : rlpItemBounds front front.length = .ok none := by
  rw [rlpItemBounds, if_pos le_rfl]

end Reads

/-! ### One item -/

section Item

variable {kind : Rlp.Kind} {payload head : Bytes}

/-- An item that is there is found, whatever follows it. -/
theorem rlpItemBounds_complete (h : Rlp.header kind payload = some head) (front rest : Bytes) :
    rlpItemBounds (front ++ (head ++ payload ++ rest)) front.length =
      .ok (some (boundsOf front.length kind head payload)) := by
  rcases Rlp.header_cases h with ⟨b, rfl, rfl, hb, rfl⟩ | ⟨hlen, hhigh, rfl⟩ | ⟨b, ls, hb, hls, hn, hlen, rfl⟩
  · -- one low byte
    rw [List.nil_append, List.singleton_append, rlpItemBounds, if_neg (by simp), byteAt_append, Except.bind_ok_left,
      if_pos hb]
    rfl
  · -- the length is in the first byte
    have hroom : ¬ (front ++ ([UInt8.ofNat (kind.base + payload.length)] ++ payload ++ rest)).length <
        front.length + 1 + payload.length := by
      simp only [List.length_append, List.length_singleton]
      omega
    cases kind with
    | string =>
      have hlead : (UInt8.ofNat (0x80 + payload.length)).toNat = 0x80 + payload.length :=
        UInt8.toNat_ofNat_of_lt' (show _ < 256 by omega)
      rw [Rlp.Kind.base] at hroom ⊢
      rw [rlpItemBounds, if_neg (by simp), List.append_assoc, List.singleton_append, byteAt_append,
        Except.bind_ok_left, hlead, if_neg (by omega), if_pos (by omega), Nat.add_sub_cancel_left]
      rw [List.append_assoc, List.singleton_append] at hroom
      rw [if_neg hroom]
      split_ifs with hone
      · -- one byte with a header is a high one
        obtain ⟨b, rfl⟩ := List.length_eq_one_iff.mp hone
        rw [List.singleton_append, byteAt_append_succ, Except.bind_ok_left, if_neg (by have := hhigh rfl b rfl; omega)]
        rfl
      · rfl
    | list =>
      have hlead : (UInt8.ofNat (0xc0 + payload.length)).toNat = 0xc0 + payload.length :=
        UInt8.toNat_ofNat_of_lt' (show _ < 256 by omega)
      rw [Rlp.Kind.base] at hroom ⊢
      rw [rlpItemBounds, if_neg (by simp), List.append_assoc, List.singleton_append, byteAt_append,
        Except.bind_ok_left, hlead, if_neg (by omega), if_neg (by omega), if_neg (by omega), if_pos (by omega),
        Nat.add_sub_cancel_left]
      rw [List.append_assoc, List.singleton_append] at hroom
      rw [if_neg hroom]
      rfl
  · -- the length is spelled out
    have htail : ((b :: ls) ++ payload ++ rest).take (b :: ls).length = b :: ls := by
      rw [List.append_assoc, List.take_left' rfl]
    have hlong : ∀ (lead : UInt8) (isList : Bool),
        longItemBounds (front ++ lead :: ((b :: ls) ++ payload ++ rest)) front.length (b :: ls).length isList =
          .ok (some ⟨isList, front.length + 1 + (b :: ls).length, front.length + 1 + (b :: ls).length + payload.length,
            front.length + 1 + (b :: ls).length + payload.length⟩) := by
      intro lead isList
      rw [longItemBounds_append (by simp), htail, hn, if_pos]
      refine ⟨?_, by simpa using hb, hlen, ?_⟩
      · simp only [List.length_append]
        omega
      · simp only [List.length_append]
        omega
    have hsize : 1 ≤ (b :: ls).length := by simp
    have hdata : ∀ lead : UInt8, lead :: b :: ls ++ payload ++ rest = lead :: ((b :: ls) ++ payload ++ rest) :=
      fun _ => rfl
    have hstart : ∀ k : ℕ, front.length + 1 + k = front.length + (k + 1) := fun k => by omega
    cases kind with
    | string =>
      have hlead : (UInt8.ofNat (0x80 + 55 + (b :: ls).length)).toNat = 0xb7 + (b :: ls).length :=
        UInt8.toNat_ofNat_of_lt' (show _ < 256 by omega)
      rw [Rlp.Kind.base, hdata, rlpItemBounds, if_neg (by simp), byteAt_append, Except.bind_ok_left, hlead,
        if_neg (by omega), if_neg (by omega), if_pos (by omega), Nat.add_sub_cancel_left, hlong, hstart]
      rfl
    | list =>
      have hlead : (UInt8.ofNat (0xc0 + 55 + (b :: ls).length)).toNat = 0xf7 + (b :: ls).length :=
        UInt8.toNat_ofNat_of_lt' (show _ < 256 by omega)
      rw [Rlp.Kind.base, hdata, rlpItemBounds, if_neg (by simp), byteAt_append, Except.bind_ok_left, hlead,
        if_neg (by omega), if_neg (by omega), if_neg (by omega), if_neg (by omega), Nat.add_sub_cancel_left, hlong,
        hstart]
      rfl

/-- What was found at an offset is there: an item, whole, in front of some rest. -/
def Found (offset : ℕ) (tail : Bytes) (r : Option ItemBounds) : Prop :=
  ∀ bounds, r = some bounds → ∃ kind head payload rest, Rlp.header kind payload = some head ∧
    tail = head ++ payload ++ rest ∧ bounds = boundsOf offset kind head payload

theorem found_none (offset : ℕ) (tail : Bytes) : Found offset tail none := fun _ h => nomatch h

theorem longItemBounds_sound (kind : Rlp.Kind) {front tail : Bytes} {lead : UInt8} {size : ℕ} (hpos : 0 < size) (hle : size ≤ 8)
    (hlead : lead = UInt8.ofNat (kind.base + 55 + size)) :
    ∃ r, longItemBounds (front ++ lead :: tail) front.length size (decide (kind = .list)) = .ok r ∧
      Found front.length (lead :: tail) r := by
  refine ⟨_, longItemBounds_append hpos, ?_⟩
  intro bounds hbounds
  split_ifs at hbounds with hok
  obtain ⟨hfit, hzero, hlen, hroom⟩ := hok
  obtain rfl := Option.some.inj hbounds
  have hcut : tail = tail.take size ++ tail.drop size := (List.take_append_drop size tail).symm
  have hcount : (tail.take size).length = size := by rw [List.length_take, min_eq_left hfit]
  obtain ⟨b, ls, hls⟩ : ∃ b ls, tail.take size = b :: ls :=
    List.exists_cons_of_length_pos (by rw [hcount]; exact hpos)
  have hb : b ≠ 0 := by
    rintro rfl
    rw [hcut, hls] at hzero
    exact hzero rfl
  rw [hls] at hcount hlen hroom
  -- the payload is as long as the digits say
  have hpayload : ((tail.drop size).take (beNat (b :: ls))).length = beNat (b :: ls) := by
    rw [List.length_take, List.length_drop]
    omega
  refine ⟨kind, lead :: b :: ls, (tail.drop size).take (beNat (b :: ls)), (tail.drop size).drop (beNat (b :: ls)), ?_, ?_,
    ?_⟩
  · rw [Rlp.header_long (by rw [hpayload]; exact hlen), hpayload, Rlp.lengthHeader_digits hb (by omega) hlen, hcount,
      hlead]
  · rw [List.append_assoc, List.take_append_drop, List.cons_append, ← hls, List.take_append_drop]
  · rw [hls, boundsOf, hpayload, List.length_cons, hcount, ← Nat.add_assoc, Nat.add_right_comm]

theorem shortItemBounds_sound (kind : Rlp.Kind) {front tail : Bytes} {lead : UInt8} {size : ℕ} (hsize : size < 56)
    (hlead : lead = UInt8.ofNat (kind.base + size)) (hfit : size ≤ tail.length)
    (hhigh : kind = .string → ∀ b, tail.take size = [b] → 0x7f < b.toNat) :
    Found front.length (lead :: tail)
      (some ⟨kind = .list, front.length + 1, front.length + 1 + size, front.length + 1 + size⟩) := by
  intro bounds hbounds
  obtain rfl := Option.some.inj hbounds
  have hcount : (tail.take size).length = size := by rw [List.length_take, min_eq_left hfit]
  refine ⟨kind, [lead], tail.take size, tail.drop size, ?_, ?_, ?_⟩
  · rw [Rlp.header_short (by rw [hcount]; exact hsize) hhigh, hcount, hlead]
  · rw [List.append_assoc, List.take_append_drop, List.singleton_append]
  · rw [boundsOf, hcount, List.length_singleton]

/-- Every offset has an answer, and an item is found only where one is. -/
theorem rlpItemBounds_sound (front tail : Bytes) :
    ∃ r, rlpItemBounds (front ++ tail) front.length = .ok r ∧ Found front.length tail r := by
  cases tail with
  | nil =>
    rw [List.append_nil]
    exact ⟨none, rlpItemBounds_nil front, found_none _ _⟩
  | cons lead tail =>
    have hbyte : UInt8.ofNat lead.toNat = lead := UInt8.ofNat_toNat
    have hlt : lead.toNat < 256 := lead.toNat_lt
    have hlen : (front ++ lead :: tail).length = front.length + 1 + tail.length := by
      rw [List.length_append, List.length_cons]
      omega
    rw [rlpItemBounds, if_neg (by simp), byteAt_append, Except.bind_ok_left]
    simp only [hlen]
    by_cases h1 : lead.toNat ≤ 0x7f
    · -- one low byte
      rw [if_pos h1]
      refine ⟨_, rfl, ?_⟩
      intro bounds hbounds
      obtain rfl := Option.some.inj hbounds
      exact ⟨.string, [], [lead], tail, by rw [Rlp.header, if_pos h1], rfl, rfl⟩
    rw [if_neg h1]
    by_cases h2 : lead.toNat ≤ 0xb7
    · -- a short string
      have hlead : lead = UInt8.ofNat (Rlp.Kind.string.base + (lead.toNat - 0x80)) := by
        rw [Rlp.Kind.base, Nat.add_sub_cancel' (by omega), hbyte]
      rw [if_pos h2]
      by_cases hfit : tail.length < lead.toNat - 0x80
      · rw [if_pos (by omega)]
        exact ⟨none, rfl, found_none _ _⟩
      rw [if_neg (by omega)]
      by_cases hone : lead.toNat - 0x80 = 1
      · rw [if_pos hone]
        obtain ⟨b, rest, rfl⟩ : ∃ b rest, tail = b :: rest := List.exists_cons_of_length_pos (by omega)
        rw [byteAt_append_succ, Except.bind_ok_left]
        by_cases hb : b.toNat ≤ 0x7f
        · rw [if_pos hb]
          exact ⟨none, rfl, found_none _ _⟩
        · rw [if_neg hb]
          refine ⟨_, rfl, shortItemBounds_sound .string (by omega) hlead (by omega) ?_⟩
          intro _ c hc
          rw [hone] at hc
          obtain rfl := List.singleton_inj.mp hc
          omega
      · rw [if_neg hone]
        refine ⟨_, rfl, shortItemBounds_sound .string (by omega) hlead (by omega) ?_⟩
        intro _ c hc
        have hcount := congrArg List.length hc
        rw [List.length_take, List.length_singleton] at hcount
        omega
    rw [if_neg h2]
    by_cases h3 : lead.toNat ≤ 0xbf
    · -- a string with its length spelled out
      rw [if_pos h3]
      exact longItemBounds_sound .string (by omega) (by omega)
        (by rw [Rlp.Kind.base, show 0x80 + 55 + (lead.toNat - 0xb7) = lead.toNat by omega, hbyte])
    rw [if_neg h3]
    by_cases h4 : lead.toNat ≤ 0xf7
    · -- a short list
      rw [if_pos h4]
      by_cases hfit : tail.length < lead.toNat - 0xc0
      · rw [if_pos (by omega)]
        exact ⟨none, rfl, found_none _ _⟩
      rw [if_neg (by omega)]
      refine ⟨_, rfl, shortItemBounds_sound .list (by omega) ?_ (by omega) (by simp)⟩
      rw [Rlp.Kind.base, Nat.add_sub_cancel' (by omega), hbyte]
    · -- a list with its length spelled out
      rw [if_neg h4]
      exact longItemBounds_sound .list (by omega) (by omega)
        (by rw [Rlp.Kind.base, show 0xc0 + 55 + (lead.toNat - 0xf7) = lead.toNat by omega, hbyte])

end Item

/-! ### Texts of bytes -/

theorem toLower_digitChar {n : ℕ} (h : n < 16) : (Nat.digitChar n).toLower = Nat.digitChar n ∧
    isHexSpace (Nat.digitChar n) = false ∧ Nat.digitChar n ≠ 'x' := by
  have hall : ∀ n < 16, (Nat.digitChar n).toLower = Nat.digitChar n ∧ isHexSpace (Nat.digitChar n) = false ∧
      Nat.digitChar n ≠ 'x' := by decide
  exact hall n h

theorem fromhex_hexText (data : Bytes) : fromhex (hexText data) = some data := by
  induction data with
  | nil => rfl
  | cons b data ih =>
    have hhigh : b.toNat / 16 < 16 := Nat.div_lt_of_lt_mul b.toNat_lt
    have hlow : b.toNat % 16 < 16 := Nat.mod_lt _ (by decide)
    rw [hexText, List.flatMap_cons, List.cons_append, List.singleton_append, ← hexText, fromhex,
      (toLower_digitChar hhigh).1, (toLower_digitChar hlow).1, (toLower_digitChar hhigh).2.1,
      Hex.digit?_digitChar hhigh, Hex.digit?_digitChar hlow, ih]
    simp only [Bool.false_eq_true, if_false, Option.bind_some, Option.map_some, Nat.div_add_mod, UInt8.ofNat_toNat]

theorem hexText_injective {a b : Bytes} (h : hexText a = hexText b) : a = b := by
  have hread := congrArg fromhex h
  rw [fromhex_hexText, fromhex_hexText] at hread
  exact Option.some.inj hread

theorem length_hexText (data : Bytes) : (hexText data).length = 2 * data.length := by
  induction data with
  | nil => rfl
  | cons b data ih =>
    rw [hexText, List.flatMap_cons, ← hexText, List.length_append, ih, List.length_cons]
    simp only [List.length_cons, List.length_nil]
    omega

theorem exists_digit_of_mem_hexText {data : Bytes} {c : Char} (h : c ∈ hexText data) : ∃ n < 16, c = Nat.digitChar n := by
  obtain ⟨b, -, hb⟩ := List.mem_flatMap.mp h
  rcases List.mem_pair.mp hb with rfl | rfl
  · exact ⟨_, Nat.div_lt_of_lt_mul b.toNat_lt, rfl⟩
  · exact ⟨_, Nat.mod_lt b.toNat (by decide), rfl⟩

theorem ascii_of_mem_hexText {data : Bytes} {c : Char} (h : c ∈ hexText data) : c.toNat < 128 := by
  have hall : ∀ n < 16, (Nat.digitChar n).toNat < 128 := by decide
  obtain ⟨n, hn, rfl⟩ := exists_digit_of_mem_hexText h
  exact hall n hn

theorem lower_hexText (data : Bytes) : (hexText data).map Char.toLower = hexText data := by
  have hall : ∀ c ∈ hexText data, c.toLower = c := by
    intro c hc
    obtain ⟨n, hn, rfl⟩ := exists_digit_of_mem_hexText hc
    exact (toLower_digitChar hn).1
  exact (List.map_congr_left hall).trans (List.map_id _)

/-- The digits of bytes have no prefix of their own. -/
theorem withoutPrefix_hexText (data : Bytes) : withoutPrefix (hexText data) = hexText data := by
  cases data with
  | nil => rfl
  | cons b data =>
    have hx := (toLower_digitChar (Nat.mod_lt b.toNat (by decide : 0 < 16))).2.2
    rw [hexText, List.flatMap_cons, List.cons_append, List.singleton_append, withoutPrefix]
    intro raw hraw
    exact hx (List.cons.inj (List.cons.inj hraw).2).1

/-! ### Wrappers -/

/-- One list over all of `data`, which begins with a list, which begins with this 20-byte string. -/
def IsWrapper (data address : Bytes) : Prop :=
  address.length = 20 ∧ ∃ string validator fields wrapperFields, Rlp.item .string address = some string ∧
    Rlp.item .list (string ++ fields) = some validator ∧ Rlp.item .list (validator ++ wrapperFields) = some data

theorem item_eq_some {kind : Rlp.Kind} {payload bytes : Bytes} :
    Rlp.item kind payload = some bytes ↔ ∃ head, Rlp.header kind payload = some head ∧ bytes = head ++ payload := by
  rw [Rlp.item, Option.map_eq_some_iff]
  simp only [eq_comm]

theorem slice_payload (front head payload rest : Bytes) :
    slice (front ++ (head ++ payload ++ rest)) (front.length + head.length)
      (front.length + head.length + payload.length) = payload := by
  have h := slice_append_right (a := front ++ head) (b := payload ++ rest) (n := front.length + head.length) (by simp) 0
    payload.length
  rw [Nat.add_zero, slice_append_left rfl] at h
  simpa only [List.append_assoc] using h

section Recognised

variable {codeHex : Text} {data : Bytes}

theorem rlpValidatorWrapperAddress_complete (hcode : fromhex (withoutPrefix codeHex) = some data)
    (hlen : 24 ≤ data.length) {address : Bytes} (h : IsWrapper data address) :
    rlpValidatorWrapperAddress codeHex = .ok (some ('0' :: 'x' :: hexText address)) := by
  obtain ⟨h20, string, validator, fields, wrapperFields, haddress, hvalidator, hwrapper⟩ := h
  obtain ⟨head₃, hhead₃, rfl⟩ := item_eq_some.mp haddress
  obtain ⟨head₂, hhead₂, rfl⟩ := item_eq_some.mp hvalidator
  obtain ⟨head₁, hhead₁, rfl⟩ := item_eq_some.mp hwrapper
  have hone := rlpItemBounds_complete hhead₁ [] []
  have htwo := rlpItemBounds_complete hhead₂ head₁ wrapperFields
  have hthree := rlpItemBounds_complete hhead₃ (head₁ ++ head₂) (fields ++ wrapperFields)
  have hslice := slice_payload (head₁ ++ head₂) head₃ address (fields ++ wrapperFields)
  -- the same bytes, cut in three ways
  simp only [List.append_assoc, List.nil_append, List.append_nil, List.length_nil, List.length_append]
    at hone htwo hthree hslice hlen hcode
  rw [rlpValidatorWrapperAddress, hcode]
  simp only [List.length_append]
  rw [if_neg (by omega), hone, Except.bind_ok_left]
  simp only [boundsOf, decide_true, Bool.true_eq_false, false_or, List.length_append, Nat.zero_add, ne_eq,
    not_true_eq_false, if_false]
  rw [htwo, Except.bind_ok_left]
  simp only [boundsOf, decide_true, Bool.true_eq_false, false_or, List.length_append]
  rw [if_neg (by omega), hthree, Except.bind_ok_left]
  simp only [boundsOf, reduceCtorEq, decide_false, Bool.false_eq_true, false_or]
  rw [if_neg (by omega), hslice]

theorem rlpValidatorWrapperAddress_sound (hcode : fromhex (withoutPrefix codeHex) = some data) (hlen : 24 ≤ data.length) :
    ∃ r, rlpValidatorWrapperAddress codeHex = .ok r ∧
      ∀ t, r = some t → ∃ address, t = '0' :: 'x' :: hexText address ∧ IsWrapper data address := by
  rw [rlpValidatorWrapperAddress, hcode]
  simp only []
  rw [if_neg (by omega)]
  obtain ⟨wrapper, hone, hfound⟩ := rlpItemBounds_sound [] data
  rw [List.nil_append, List.length_nil] at hone
  rw [hone, Except.bind_ok_left]
  cases wrapper with
  | none => exact ⟨none, rfl, nofun⟩
  | some wrapper =>
  obtain ⟨kind₁, head₁, payload₁, rest₁, hhead₁, rfl, rfl⟩ := hfound _ rfl
  simp only []
  split_ifs with hreject
  · exact ⟨none, rfl, nofun⟩
  push Not at hreject
  obtain ⟨hkind, hnext⟩ := hreject
  simp only [boundsOf, List.length_nil, Nat.zero_add, List.length_append, ne_eq, Bool.not_eq_false, decide_eq_true_eq]
    at hkind hnext
  obtain rfl : rest₁ = [] := List.length_eq_zero_iff.mp (by omega)
  rw [List.append_nil] at hcode hlen ⊢
  -- the first item in the list
  obtain ⟨validator, htwo, hfound⟩ := rlpItemBounds_sound head₁ payload₁
  simp only [boundsOf, List.length_nil, Nat.zero_add]
  rw [htwo, Except.bind_ok_left]
  cases validator with
  | none => exact ⟨none, rfl, nofun⟩
  | some validator =>
  obtain ⟨kind₂, head₂, payload₂, rest₂, hhead₂, rfl, rfl⟩ := hfound _ rfl
  simp only []
  split_ifs with hreject
  · exact ⟨none, rfl, nofun⟩
  push Not at hreject
  have hkind₂ := hreject.1
  simp only [boundsOf, ne_eq, Bool.not_eq_false, decide_eq_true_eq] at hkind₂
  -- the first item in the list that this item is
  obtain ⟨address, hthree, hfound⟩ := rlpItemBounds_sound (head₁ ++ head₂) (payload₂ ++ rest₂)
  rw [List.length_append, List.append_assoc] at hthree
  rw [List.append_assoc head₂]
  simp only [boundsOf]
  rw [hthree, Except.bind_ok_left]
  cases address with
  | none => exact ⟨none, rfl, nofun⟩
  | some address =>
  obtain ⟨kind₃, head₃, payload₃, rest₃, hhead₃, hsplit, rfl⟩ := hfound _ rfl
  simp only [boundsOf, List.length_append, Nat.add_sub_cancel_left]
  split_ifs with hreject
  · exact ⟨none, rfl, nofun⟩
  push Not at hreject
  obtain ⟨hkind₃, h20, hinside⟩ := hreject
  refine ⟨_, rfl, ?_⟩
  intro t ht
  obtain rfl := Option.some.inj ht
  -- it ends where the validator's fields go on
  obtain ⟨fields, rfl⟩ : ∃ fields, payload₂ = head₃ ++ payload₃ ++ fields := by
    have hprefix : head₃ ++ payload₃ <+: payload₂ ++ rest₂ := ⟨rest₃, hsplit.symm⟩
    obtain ⟨fields, hfields⟩ := List.prefix_of_prefix_length_le hprefix (List.prefix_append payload₂ rest₂)
      (by rw [List.length_append]; omega)
    exact ⟨fields, hfields.symm⟩
  have hslice := slice_payload (head₁ ++ head₂) head₃ payload₃ (fields ++ rest₂)
  simp only [List.length_append] at hslice
  refine ⟨payload₃, ?_, h20, head₃ ++ payload₃, head₂ ++ (head₃ ++ payload₃ ++ fields), fields, rest₂, ?_, ?_, ?_⟩
  · apply congrArg fun bytes => '0' :: 'x' :: hexText bytes
    simpa only [List.append_assoc] using hslice
  · obtain rfl : kind₃ = .string := by
      cases kind₃ with
      | string => rfl
      | list => exact absurd rfl hkind₃
    exact item_eq_some.mpr ⟨head₃, hhead₃, rfl⟩
  · subst hkind₂
    exact item_eq_some.mpr ⟨head₂, hhead₂, rfl⟩
  · subst hkind
    exact item_eq_some.mpr ⟨head₁, hhead₁, by simp only [List.append_assoc]⟩

end Recognised

/-- An encoded tree with a list in a list, and the address first in it, is a wrapper. -/
theorem isWrapper_encode {address data : Bytes} {fields wrapperFields : List Rlp.Tree} (h20 : address.length = 20)
    (h : (Rlp.Tree.list (.list (.string address :: fields) :: wrapperFields)).encode = some data) :
    IsWrapper data address := by
  simp only [Rlp.Tree.encode, Rlp.encodeAll, Option.bind_eq_some_iff, Option.map_eq_some_iff] at h
  obtain ⟨_, ⟨validator, ⟨_, ⟨string, hstring, more, -, rfl⟩, hvalidator⟩, others, -, rfl⟩, hdata⟩ := h
  exact ⟨h20, string, validator, more, others, hstring, hvalidator, hdata⟩

/-- The texts of `data`, with and without `0x`, are recognised exactly when `data` is a wrapper, and no byte outside
`data` is read. -/
theorem rlpValidatorWrapperAddress_exact (data : Bytes) (hlen : 24 ≤ data.length) (codeHex : Text)
    (hcode : codeHex = hexText data ∨ codeHex = '0' :: 'x' :: hexText data) :
    (∀ address, rlpValidatorWrapperAddress codeHex = .ok (some ('0' :: 'x' :: hexText address)) ↔
      IsWrapper data address) ∧
    ((∀ address, ¬ IsWrapper data address) → rlpValidatorWrapperAddress codeHex = .ok none) ∧
    (∀ e, rlpValidatorWrapperAddress codeHex ≠ .error e) ∧
    ∀ address fields wrapperFields, address.length = 20 →
      (Rlp.Tree.list (.list (.string address :: fields) :: wrapperFields)).encode = some data →
      rlpValidatorWrapperAddress codeHex = .ok (some ('0' :: 'x' :: hexText address)) := by
  have hread : fromhex (withoutPrefix codeHex) = some data := by
    rcases hcode with rfl | rfl
    · rw [withoutPrefix_hexText, fromhex_hexText]
    · exact fromhex_hexText data
  obtain ⟨r, hr, hsound⟩ := rlpValidatorWrapperAddress_sound hread hlen
  refine ⟨?_, ?_, ?_, ?_⟩
  · intro address
    constructor
    · intro h
      obtain ⟨address', htext, hwrapper⟩ := hsound _ (Except.ok.inj (hr.symm.trans h))
      obtain rfl : address = address' := hexText_injective (List.cons.inj (List.cons.inj htext).2).2
      exact hwrapper
    · exact rlpValidatorWrapperAddress_complete hread hlen
  · intro hnot
    cases r with
    | none => exact hr
    | some t =>
      obtain ⟨address, -, hwrapper⟩ := hsound t rfl
      exact absurd hwrapper (hnot address)
  · intro e he
    rw [hr] at he
    cases he
  · intro address fields wrapperFields h20 hencode
    exact rlpValidatorWrapperAddress_complete hread hlen (isWrapper_encode h20 hencode)

/-- A wrapper whose second field is the byte one. -/
theorem rlpValidatorWrapperAddress_one :
    rlpValidatorWrapperAddress (hexText (0xd7 :: 0xd6 :: 0x94 :: List.replicate 20 7 ++ [1])) =
      .ok (some ('0' :: 'x' :: hexText (List.replicate 20 7))) :=
  (rlpValidatorWrapperAddress_exact _ (by decide) _ (.inl rfl)).2.2.2 (List.replicate 20 7) [.string [1]] [] rfl
    (by decide +kernel)

end HarmonyMigration.ContractReview
