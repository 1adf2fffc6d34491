import HarmonyMigration.ContractReview.RlpWrapper
import HarmonyMigration.Lib.Abi

/-! `bridge_lib.py`: what an OFT payload says, read from its hexadecimal text. -/

namespace HarmonyMigration.Messages

open ContractReview Decimal Slices

inductive PayloadError
  | notHexadecimal
  | unrecognizedLayout
  deriving DecidableEq

/-- `int(word, 16)`. -/
def hexValue (word : Text) : Except PayloadError ℕ :=
  Except.ofOption (if word = [] then none else Hex.value (word.map Char.toLower)) .notHexadecimal

/-- `raw[i:i + 64]` for every word. -/
def hexWords (raw : Text) : List Text := chunks 64 raw

def decodeDynamicBytes (data : Text) (offsetWord : ℕ) : Except PayloadError (Option Text) :=
  let raw := withoutPrefix data
  let words := hexWords raw
  match words[offsetWord]? with
  | none => .ok none
  | some word =>
    (hexValue word).bind fun offset =>
    if offset % 32 ≠ 0 then .ok none
    else
      let start := offset / 32
      match words[start]? with
      | none => .ok none
      | some word =>
        (hexValue word).map fun length =>
        let body := slice raw ((start + 1) * 64) ((start + 1) * 64 + 2 * length)
        if body.length ≠ 2 * length then none else some ('0' :: 'x' :: body)

def packedAddress (dataHex : Option Text) : Option Text :=
  dataHex.bind fun dataHex =>
    let raw := withoutPrefix dataHex
    if raw.length ≠ 40 then none else some ('0' :: 'x' :: raw.map Char.toLower)

/-- Whether word `i` is there and its number satisfies `p`. -/
def wordSatisfies (words : List Text) (i : ℕ) (p : ℕ → Bool) : Except PayloadError Bool :=
  match words[i]? with
  | none => .ok false
  | some word => (hexValue word).map p

def wordValue (words : List Text) (i : ℕ) : Except PayloadError ℕ := hexValue (words.getD i [])

/-- The sender, if the form has one, the recipient and the amount. -/
def decodeOftPayload (payloadHex : Text) : Except PayloadError (Option Text × Option Text × ℕ) :=
  let words := hexWords (withoutPrefix payloadHex)
  (if words.length < 4 then .ok false else wordSatisfies words 1 fun n => n = 128).bind fun second =>
  (if second then wordSatisfies words 2 fun n => 160 ≤ n else .ok false).bind fun harmony =>
  if harmony then
    (decodeDynamicBytes payloadHex 1).bind fun source =>
    (decodeDynamicBytes payloadHex 2).bind fun recipient =>
    (wordValue words 3).map fun amount => (packedAddress source, packedAddress recipient, amount)
  else
    (if words.length < 3 then .ok false else wordSatisfies words 1 fun n => n = 96).bind fun upstream =>
    if upstream then
      (decodeDynamicBytes payloadHex 1).bind fun recipient =>
      (wordValue words 2).map fun amount => (none, packedAddress recipient, amount)
    else .error .unrecognizedLayout

/-! ### Texts of byte strings -/

theorem hexText_append (a b : Bytes) : hexText (a ++ b) = hexText a ++ hexText b := List.flatMap_append

/-- A part of the text is the text of a part. -/
theorem slice_hexText (data : Bytes) (i j : ℕ) : slice (hexText data) (2 * i) (2 * j) = hexText (slice data i j) := by
  have htake : ∀ (data : Bytes) (j : ℕ), (hexText data).take (2 * j) = hexText (data.take j) := by
    intro data
    induction data with
    | nil => intro j; simp [hexText]
    | cons b data ih =>
      intro j
      cases j with
      | zero => rfl
      | succ j =>
        have hrest := ih j
        rw [hexText] at hrest
        simp only [hexText, List.take_succ_cons, List.flatMap_cons, List.cons_append, List.nil_append, Nat.mul_succ, hrest]
  have hdrop : ∀ (data : Bytes) (i : ℕ), (hexText data).drop (2 * i) = hexText (data.drop i) := by
    intro data
    induction data with
    | nil => intro i; simp [hexText]
    | cons b data ih =>
      intro i
      cases i with
      | zero => rfl
      | succ i =>
        have hrest := ih i
        rw [hexText] at hrest
        simp only [hexText, List.drop_succ_cons, List.flatMap_cons, List.cons_append, List.nil_append, Nat.mul_succ, hrest]
  rw [slice, slice, htake, hdrop]

/-- The digits of bytes are the digits of the number that they spell. -/
theorem hexText_eq_digits (data : Bytes) : hexText data = Hex.digits (2 * data.length) (beNat data) := by
  induction data using List.reverseRecOn with
  | nil => rfl
  | append_singleton data b ih =>
    have hb : b.toNat < 256 := b.toNat_lt
    have hnat : beNat (data ++ [b]) = beNat data * 256 + b.toNat := by
      rw [beNat_append]
      simp [beNat]
    have h1 : (beNat data * 256 + b.toNat) / 16 / 16 = beNat data := by omega
    have h2 : (beNat data * 256 + b.toNat) / 16 % 16 = b.toNat / 16 := by omega
    have h3 : (beNat data * 256 + b.toNat) % 16 = b.toNat % 16 := by omega
    rw [hexText_append, ih, hnat, List.length_append, List.length_singleton, Nat.mul_succ, Hex.digits, Hex.digits, h1, h2,
      h3, List.append_assoc]
    rfl

theorem hexValue_hexText {data : Bytes} (h : data ≠ []) : hexValue (hexText data) = .ok (beNat data) := by
  have hne : hexText data ≠ [] := by
    intro hnil
    have hlen := congrArg List.length hnil
    rw [length_hexText, List.length_nil] at hlen
    exact h (List.length_eq_zero_iff.mp (by omega))
  have hlt : beNat data < 16 ^ (2 * data.length) := by
    rw [pow_mul]
    exact beNat_lt data
  rw [hexValue, if_neg hne, lower_hexText, hexText_eq_digits, Hex.value_digits, Nat.mod_eq_of_lt hlt]
  rfl

/-! ### Words of an encoding -/

section Words

variable {data : Bytes} {n i : ℕ}

theorem length_hexWords (h : data.length = 32 * n) : (hexWords (hexText data)).length = n := by
  rw [hexWords, length_chunks, length_hexText, h]
  omega

theorem getElem?_hexWords (h : data.length = 32 * n) (hi : i < n) :
    (hexWords (hexText data))[i]? = some (hexText (slice data (32 * i) (32 * i + 32))) := by
  rw [hexWords, getElem?_chunks 64 (hexText data) (by rw [length_hexText, h]; omega), ← slice_hexText]
  congr 2 <;> omega

theorem hexValue_word (h : data.length = 32 * n) (hi : i < n) :
    hexValue (hexText (slice data (32 * i) (32 * i + 32))) = .ok (Abi.readWord data i) := by
  apply hexValue_hexText
  apply List.ne_nil_of_length_pos
  rw [length_slice, h]
  omega

theorem wordSatisfies_eq (h : data.length = 32 * n) (hi : i < n) (p : ℕ → Bool) :
    wordSatisfies (hexWords (hexText data)) i p = .ok (p (Abi.readWord data i)) := by
  rw [wordSatisfies, getElem?_hexWords h hi]
  simp only [hexValue_word h hi]
  rfl

theorem wordValue_eq (h : data.length = 32 * n) (hi : i < n) :
    wordValue (hexWords (hexText data)) i = .ok (Abi.readWord data i) := by
  rw [wordValue, List.getD_eq_getElem?_getD, getElem?_hexWords h hi, Option.getD_some, hexValue_word h hi]

end Words

/-! ### Encoded arguments -/

section Encoded

open Abi

variable {before after : List Arg} {data : Bytes} {payloadHex : Text}

/-- The bytes of a dynamic argument are found from the word of its number. -/
theorem decodeDynamicBytes_encode (before after : List Arg) (data : Bytes) (hfits : ∀ a ∈ before ++ .bytes data :: after, a.Fits)
    (hroom : (encode (before ++ .bytes data :: after)).length < 256 ^ 32)
    (hraw : withoutPrefix payloadHex = hexText (encode (before ++ .bytes data :: after))) :
    decodeDynamicBytes payloadHex before.length = .ok (some ('0' :: 'x' :: hexText data)) := by
  obtain ⟨n, hn⟩ := dvd_length_encode hfits
  obtain ⟨start, hstart⟩ := dvd_place before after
  have hbefore : before.length < n := by
    have := length_lt_words hfits hn
    rw [List.length_append, List.length_cons] at this
    omega
  have hwithin := place_add_le hfits
  have hstartlt : start < n := by omega
  have hoffset := readWord_bytes before hfits hroom
  have hlength : readWord (encode (before ++ .bytes data :: after)) start = data.length := by
    rw [readWord, ← hstart, slice_length hfits, word, beNat_toBytes (data_lt hroom)]
  have hbody : slice (hexText (encode (before ++ .bytes data :: after))) ((start + 1) * 64)
      ((start + 1) * 64 + 2 * data.length) = hexText data := by
    have h := slice_hexText (encode (before ++ .bytes data :: after)) (place before after + 32)
      (place before after + 32 + data.length)
    rw [slice_data before hfits] at h
    rw [← h]
    congr 1 <;> omega
  rw [decodeDynamicBytes, hraw, getElem?_hexWords hn hbefore]
  dsimp only
  rw [hexValue_word hn hbefore, hoffset, Except.bind_ok_left, if_neg (by omega), hstart,
    Nat.mul_div_cancel_left _ (by decide), getElem?_hexWords hn hstartlt]
  dsimp only
  rw [hexValue_word hn hstartlt, hlength, Except.map, hbody, length_hexText, if_neg (by omega)]

theorem packedAddress_hexText (h : data.length = 20) :
    packedAddress (some ('0' :: 'x' :: hexText data)) = some ('0' :: 'x' :: hexText data) := by
  rw [packedAddress, Option.bind_some, withoutPrefix]
  dsimp only
  rw [length_hexText, h, if_neg (by decide), lower_hexText]

end Encoded

/-! ### The two forms -/

section Forms

open Abi

variable {source recipient : Bytes} {packetType amount : ℕ} {payloadHex : Text}

/-- `(uint16 packetType, bytes from, bytes to, uint amount)`. -/
def harmonyForm (packetType : ℕ) (source recipient : Bytes) (amount : ℕ) : List Arg :=
  [.static (word packetType), .bytes source, .bytes recipient, .static (word amount)]

/-- `(uint16 packetType, bytes to, uint amount)`. -/
def upstreamForm (packetType : ℕ) (recipient : Bytes) (amount : ℕ) : List Arg :=
  [.static (word packetType), .bytes recipient, .static (word amount)]

theorem fits_harmonyForm (packetType : ℕ) (source recipient : Bytes) (amount : ℕ) :
    ∀ a ∈ harmonyForm packetType source recipient amount, a.Fits := by
  intro a ha
  simp only [harmonyForm, List.mem_cons, List.not_mem_nil, or_false] at ha
  rcases ha with rfl | rfl | rfl | rfl
  · exact length_toBytes 32 packetType
  · trivial
  · trivial
  · exact length_toBytes 32 amount

theorem fits_upstreamForm (packetType : ℕ) (recipient : Bytes) (amount : ℕ) :
    ∀ a ∈ upstreamForm packetType recipient amount, a.Fits := by
  intro a ha
  simp only [upstreamForm, List.mem_cons, List.not_mem_nil, or_false] at ha
  rcases ha with rfl | rfl | rfl
  · exact length_toBytes 32 packetType
  · trivial
  · exact length_toBytes 32 amount

theorem length_tail_address (h : recipient.length = 20) : (Arg.bytes recipient).tail.length = 64 := by
  rw [Arg.tail, List.length_append, List.length_append, List.length_replicate, word, length_toBytes, h]
  decide

theorem length_harmonyForm (packetType amount : ℕ) (hs : source.length = 20) (hr : recipient.length = 20) :
    (encode (harmonyForm packetType source recipient amount)).length = 32 * 8 := by
  rw [encode, List.length_append, length_heads _ (fits_harmonyForm packetType source recipient amount)]
  simp only [harmonyForm, tails, List.flatMap_cons, List.flatMap_nil, List.length_append, length_tail_address hs,
    length_tail_address hr, Arg.tail_static, List.length_nil, List.length_cons]

theorem length_upstreamForm (packetType amount : ℕ) (hr : recipient.length = 20) :
    (encode (upstreamForm packetType recipient amount)).length = 32 * 5 := by
  rw [encode, List.length_append, length_heads _ (fits_upstreamForm packetType recipient amount)]
  simp only [upstreamForm, tails, List.flatMap_cons, List.flatMap_nil, List.length_append,
    length_tail_address hr, Arg.tail_static, List.length_nil, List.length_cons]

theorem decodeOftPayload_harmony (hs : source.length = 20) (hr : recipient.length = 20) (hamount : amount < 256 ^ 32)
    (hraw : withoutPrefix payloadHex = hexText (encode (harmonyForm packetType source recipient amount))) :
    decodeOftPayload payloadHex =
      .ok (some ('0' :: 'x' :: hexText source), some ('0' :: 'x' :: hexText recipient), amount) := by
  have hfits := fits_harmonyForm packetType source recipient amount
  have hn := length_harmonyForm packetType amount hs hr
  have hroom : (encode (harmonyForm packetType source recipient amount)).length < 256 ^ 32 := by
    rw [hn]
    norm_num
  -- the second and the third word point behind the four heads
  have h1 : readWord (encode (harmonyForm packetType source recipient amount)) 1 = 128 :=
    readWord_bytes [.static (word packetType)] hfits hroom
  have h2 : readWord (encode (harmonyForm packetType source recipient amount)) 2 = 192 := by
    have h := readWord_bytes [.static (word packetType), .bytes source] hfits hroom
    refine h.trans ?_
    rw [place, tails, List.flatMap_cons, List.flatMap_cons, List.length_append, List.length_append,
      length_tail_address hs]
    rfl
  have h3 : readWord (encode (harmonyForm packetType source recipient amount)) 3 = amount := by
    have h := readWord_static [.static (word packetType), .bytes source, .bytes recipient] hfits
    exact h.trans (beNat_toBytes hamount)
  have hsource := decodeDynamicBytes_encode [.static (word packetType)] [.bytes recipient, .static (word amount)] source
    hfits hroom hraw
  have hrecipient := decodeDynamicBytes_encode [.static (word packetType), .bytes source] [.static (word amount)] recipient
    hfits hroom hraw
  simp only [List.length_cons, List.length_nil, Nat.zero_add, Nat.reduceAdd] at hsource hrecipient
  rw [decodeOftPayload, hraw, length_hexWords hn, if_neg (by decide), wordSatisfies_eq hn (by decide), h1, Except.bind_ok_left,
    if_pos (by decide), wordSatisfies_eq hn (by decide), h2, Except.bind_ok_left, if_pos (by decide), hsource,
    Except.bind_ok_left, hrecipient, Except.bind_ok_left, wordValue_eq hn (by decide), h3, packedAddress_hexText hs,
    packedAddress_hexText hr]
  rfl

theorem decodeOftPayload_upstream (hr : recipient.length = 20) (hamount : amount < 256 ^ 32)
    (hraw : withoutPrefix payloadHex = hexText (encode (upstreamForm packetType recipient amount))) :
    decodeOftPayload payloadHex = .ok (none, some ('0' :: 'x' :: hexText recipient), amount) := by
  have hfits := fits_upstreamForm packetType recipient amount
  have hn := length_upstreamForm packetType amount hr
  have hroom : (encode (upstreamForm packetType recipient amount)).length < 256 ^ 32 := by
    rw [hn]
    norm_num
  -- the second word points behind three heads, not four
  have h1 : readWord (encode (upstreamForm packetType recipient amount)) 1 = 96 :=
    readWord_bytes [.static (word packetType)] hfits hroom
  have h2 : readWord (encode (upstreamForm packetType recipient amount)) 2 = amount := by
    have h := readWord_static [.static (word packetType), .bytes recipient] hfits
    exact h.trans (beNat_toBytes hamount)
  have hrecipient := decodeDynamicBytes_encode [.static (word packetType)] [.static (word amount)] recipient hfits hroom
    hraw
  simp only [List.length_cons, List.length_nil, Nat.zero_add] at hrecipient
  rw [decodeOftPayload, hraw, length_hexWords hn, if_neg (by decide), wordSatisfies_eq hn (by decide), h1, Except.bind_ok_left,
    if_neg (by decide), Except.bind_ok_left, if_neg (by decide), if_neg (by decide), wordSatisfies_eq hn (by decide), h1,
    Except.bind_ok_left, if_pos (by decide), hrecipient, Except.bind_ok_left, wordValue_eq hn (by decide), h2, packedAddress_hexText hr]
  rfl

end Forms

end HarmonyMigration.Messages
