import HarmonyMigration.Archive.ImportExport
import HarmonyMigration.Lib.ExceptRun

/-! `rlp_encode` of `archive_lib.py` splits uniquely, so that the hash of a transaction fixes the value that was signed. -/

namespace HarmonyMigration.Archive

open Airdrop.One1 Archive.ImportExport ContractReview Decimal Except Keccak256 Rlp Slices

/-! ### The source's functions -/

/-- No bytes object reaches 2^63 bytes. -/
abbrev PyBytes := { b : Bytes // b.length < 2 ^ 63 }

def pyBytes (b : Bytes) : Option PyBytes := if h : b.length < 2 ^ 63 then some ⟨b, h⟩ else none

/-- An argument of `rlp_encode`. -/
inductive RlpItem
  | int (n : ℕ)
  | bytes (b : PyBytes)
  | list (items : List RlpItem)

/-- `_rlp_length`; a leading byte above 255 raises. -/
def rlpLength (size offset : ℕ) : Option Bytes :=
  if size < 56 then some [UInt8.ofNat (offset + size)]
  else
    let raw := intBytes size
    if offset + 55 + raw.length < 256 then some (UInt8.ofNat (offset + 55 + raw.length) :: raw) else none

def rlpEncodeBytes (item : PyBytes) : Option Bytes :=
  if item.val.length = 1 ∧ ∀ b ∈ item.val, b.toNat < 0x80 then some item.val
  else (rlpLength item.val.length 0x80).map (· ++ item.val)

mutual
def rlpEncode : RlpItem → Option Bytes
  | .int n => (pyBytes (intBytes n)).bind rlpEncodeBytes
  | .bytes b => rlpEncodeBytes b
  | .list items => (rlpEncodeAll items).bind fun joined => (pyBytes joined).bind fun body =>
    (rlpLength body.val.length 0xC0).map (· ++ body.val)

def rlpEncodeAll : List RlpItem → Option Bytes
  | [] => some []
  | item :: items => (rlpEncode item).bind fun bytes => (rlpEncodeAll items).map (bytes ++ ·)
end

mutual
/-- The tree of byte strings, a number as its minimal big-endian bytes. -/
def RlpItem.tree : RlpItem → Tree
  | .int n => .string (intBytes n)
  | .bytes b => .string b.val
  | .list items => .list (treeAll items)

def treeAll : List RlpItem → List Tree
  | [] => []
  | item :: items => item.tree :: treeAll items
end

/-! ### The encoding of the tree -/

theorem intBytes_length {n : ℕ} (h : n ≠ 0) : (intBytes n).length = Nat.log 256 n + 1 := by
  rw [intBytes, if_neg h, length_toBytes]

theorem beNat_intBytes (n : ℕ) : beNat (intBytes n) = n := by
  rw [intBytes]
  split_ifs with h
  · rw [h, beNat]
  · exact beNat_toBytes (Nat.lt_pow_succ_log_self (by decide) n)

theorem intBytes_injective : Function.Injective intBytes := by
  intro m n h
  rw [← beNat_intBytes m, h, beNat_intBytes]

theorem rlpLength_eq {size : ℕ} (h : size < 2 ^ 63) (offset : ℕ) {head : Bytes}
    (hhead : rlpLength size offset = some head) : lengthHeader offset size = some head := by
  rw [rlpLength] at hhead
  rw [lengthHeader]
  by_cases hshort : size < 56
  · rwa [if_pos hshort] at hhead ⊢
  · have h0 : size ≠ 0 := by omega
    rw [if_neg hshort] at hhead ⊢
    simp only [intBytes_length h0] at hhead
    split_ifs at hhead with hroom
    rw [if_pos (h.trans (by decide)), ← hhead, intBytes, if_neg h0]

theorem encode_bytes {b : PyBytes} {a : Bytes} (h : rlpEncodeBytes b = some a) : Tree.encode (.string b.val) = some a := by
  rw [rlpEncodeBytes] at h
  rw [Tree.encode, item]
  split_ifs at h with hlow
  · obtain ⟨c, hc⟩ := List.length_eq_one_iff.mp hlow.1
    have hbyte := hlow.2 c (by rw [hc]; exact List.mem_singleton_self c)
    rw [hc] at h ⊢
    rw [header, if_pos (by omega), Option.map_some, List.nil_append]
    exact h
  · obtain ⟨head, hhead, rfl⟩ := Option.map_eq_some_iff.mp h
    have hhigh : ∀ c, b.val = [c] → 0x7f < c.toNat := by
      intro c hc
      by_contra hle
      refine hlow ⟨by rw [hc, List.length_singleton], fun d hd => ?_⟩
      rw [hc] at hd
      rw [List.mem_singleton.mp hd]
      omega
    rw [header_string hhigh, Kind.base, rlpLength_eq b.property _ hhead, Option.map_some]

mutual
theorem encode_tree : ∀ (item : RlpItem) {a : Bytes}, rlpEncode item = some a → item.tree.encode = some a
  | .int n, a, h => by
    rw [rlpEncode] at h
    obtain ⟨b, hb, h⟩ := Option.bind_eq_some_iff.mp h
    rw [pyBytes] at hb
    split_ifs at hb
    obtain rfl := Option.some.inj hb
    exact encode_bytes h
  | .bytes b, a, h => by
    rw [rlpEncode] at h
    exact encode_bytes h
  | .list items, a, h => by
    rw [rlpEncode] at h
    obtain ⟨joined, hjoined, h⟩ := Option.bind_eq_some_iff.mp h
    obtain ⟨body, hbody, h⟩ := Option.bind_eq_some_iff.mp h
    obtain ⟨head, hhead, rfl⟩ := Option.map_eq_some_iff.mp h
    rw [pyBytes] at hbody
    split_ifs at hbody with hlen
    obtain rfl := Option.some.inj hbody
    rw [RlpItem.tree, Tree.encode, encodeAll_treeAll items hjoined, Option.bind_some, Rlp.item, header_list, Kind.base,
      rlpLength_eq hlen _ hhead, Option.map_some]

theorem encodeAll_treeAll : ∀ (items : List RlpItem) {a : Bytes}, rlpEncodeAll items = some a →
    encodeAll (treeAll items) = some a
  | [], a, h => h
  | item :: items, a, h => by
    rw [rlpEncodeAll] at h
    obtain ⟨bytes, hbytes, h⟩ := Option.bind_eq_some_iff.mp h
    obtain ⟨rest, hrest, rfl⟩ := Option.map_eq_some_iff.mp h
    rw [treeAll, encodeAll, encode_tree item hbytes, encodeAll_treeAll items hrest, Option.bind_some, Option.map_some]
end

/-! ### Unique splitting -/

section Splitting

variable {kind kind' : Kind} {payload payload' rest rest' : Bytes}

/-- An item in front of anything is found in one way. -/
theorem item_append_inj {a b : Bytes} (ha : Rlp.item kind payload = some a) (hb : Rlp.item kind' payload' = some b)
    (h : a ++ rest = b ++ rest') : kind = kind' ∧ payload = payload' ∧ rest = rest' := by
  obtain ⟨head, hhead, rfl⟩ := item_eq_some.mp ha
  obtain ⟨head', hhead', rfl⟩ := item_eq_some.mp hb
  have hfound := rlpItemBounds_complete hhead [] rest
  have hfound' := rlpItemBounds_complete hhead' [] rest'
  rw [h, hfound'] at hfound
  have hbounds := Option.some.inj (Except.ok.inj hfound)
  simp only [boundsOf, ItemBounds.mk.injEq] at hbounds
  obtain ⟨hkind, hstart, hstop, -⟩ := hbounds
  have hlen : head.length = head'.length := by omega
  obtain ⟨hleft, hrest⟩ := List.append_inj h (by rw [List.length_append, List.length_append]; omega)
  obtain ⟨-, hpayload⟩ := List.append_inj hleft hlen
  refine ⟨?_, hpayload, hrest⟩
  cases kind <;> cases kind' <;> simp at hkind <;> rfl

theorem item_ne_nil {a : Bytes} (h : Rlp.item kind payload = some a) : a ≠ [] := by
  rintro rfl
  obtain ⟨head, hhead, hnil⟩ := item_eq_some.mp h
  have hfound := rlpItemBounds_complete hhead [] []
  rw [← hnil, List.nil_append, rlpItemBounds, if_pos (by simp)] at hfound
  cases hfound

theorem encode_ne_nil {t : Tree} {a : Bytes} (h : t.encode = some a) : a ≠ [] := by
  cases t with
  | string bytes =>
    rw [Tree.encode] at h
    exact item_ne_nil h
  | list items =>
    rw [Tree.encode] at h
    obtain ⟨body, -, h⟩ := Option.bind_eq_some_iff.mp h
    exact item_ne_nil h

mutual
/-- The tree of an encoding is read off it, whatever follows. -/
theorem encode_append_inj : ∀ (t u : Tree) {a b rest rest' : Bytes}, t.encode = some a → u.encode = some b →
    a ++ rest = b ++ rest' → t = u ∧ rest = rest'
  | .string bytes, .string bytes', a, b, rest, rest', ha, hb, h => by
    rw [Tree.encode] at ha
    rw [Tree.encode] at hb
    obtain ⟨-, rfl, hrest⟩ := item_append_inj ha hb h
    exact ⟨rfl, hrest⟩
  | .string bytes, .list items, a, b, rest, rest', ha, hb, h => by
    rw [Tree.encode] at ha
    rw [Tree.encode] at hb
    obtain ⟨body, -, hb⟩ := Option.bind_eq_some_iff.mp hb
    exact absurd (item_append_inj ha hb h).1 (by decide)
  | .list items, .string bytes, a, b, rest, rest', ha, hb, h => by
    rw [Tree.encode] at ha
    rw [Tree.encode] at hb
    obtain ⟨body, -, ha⟩ := Option.bind_eq_some_iff.mp ha
    exact absurd (item_append_inj ha hb h).1 (by decide)
  | .list items, .list items', a, b, rest, rest', ha, hb, h => by
    rw [Tree.encode] at ha
    rw [Tree.encode] at hb
    obtain ⟨body, hbody, ha⟩ := Option.bind_eq_some_iff.mp ha
    obtain ⟨body', hbody', hb⟩ := Option.bind_eq_some_iff.mp hb
    obtain ⟨-, rfl, hrest⟩ := item_append_inj ha hb h
    exact ⟨congrArg Tree.list (encodeAll_inj items items' hbody hbody'), hrest⟩

theorem encodeAll_inj : ∀ (ts us : List Tree) {a : Bytes}, encodeAll ts = some a → encodeAll us = some a → ts = us
  | [], [], a, _, _ => rfl
  | [], u :: us, a, ha, hb => by
    rw [encodeAll] at ha
    rw [encodeAll] at hb
    obtain ⟨bytes, hbytes, hb⟩ := Option.bind_eq_some_iff.mp hb
    obtain ⟨rest, -, rfl⟩ := Option.map_eq_some_iff.mp hb
    exact absurd (List.append_eq_nil_iff.mp (Option.some.inj ha).symm).1 (encode_ne_nil hbytes)
  | t :: ts, [], a, ha, hb => by
    rw [encodeAll] at ha
    rw [encodeAll] at hb
    obtain ⟨bytes, hbytes, ha⟩ := Option.bind_eq_some_iff.mp ha
    obtain ⟨rest, -, rfl⟩ := Option.map_eq_some_iff.mp ha
    exact absurd (List.append_eq_nil_iff.mp (Option.some.inj hb).symm).1 (encode_ne_nil hbytes)
  | t :: ts, u :: us, a, ha, hb => by
    rw [encodeAll] at ha
    rw [encodeAll] at hb
    obtain ⟨bytes, hbytes, ha⟩ := Option.bind_eq_some_iff.mp ha
    obtain ⟨rest, hrest, rfl⟩ := Option.map_eq_some_iff.mp ha
    obtain ⟨bytes', hbytes', hb⟩ := Option.bind_eq_some_iff.mp hb
    obtain ⟨rest', hrest', h⟩ := Option.map_eq_some_iff.mp hb
    obtain ⟨rfl, hrests⟩ := encode_append_inj t u hbytes hbytes' h.symm
    exact congrArg (t :: ·) (encodeAll_inj ts us hrest (hrests ▸ hrest'))
end

/-- Encodings are injective, and none is a proper prefix of another. -/
theorem rlpEncode_prefix {x y : RlpItem} {a b : Bytes} (hx : rlpEncode x = some a) (hy : rlpEncode y = some b)
    (h : a <+: b) : x.tree = y.tree ∧ a = b := by
  obtain ⟨rest, h⟩ := h
  have hnil : a ++ rest = b ++ [] := by rw [h, List.append_nil]
  have hsplit := encode_append_inj x.tree y.tree (encode_tree x hx) (encode_tree y hy) hnil
  exact ⟨hsplit.1, by rw [← h, hsplit.2, List.append_nil]⟩

end Splitting

/-! ### The value under a hash -/

section Hash

variable (keccak256 : Bytes → Bytes) (u : Lower)

/-- `listHash` over a hash of its own. -/
def listHashWith (items : List Bytes) : Option Text :=
  (Tree.list (items.map .string)).encode.map fun bytes => hexPrefix ++ hexText (keccak256 bytes)

/-- `signed_value_matches` over a hash of its own. -/
def signedValueMatchesWith (tx : PlainTx) (value : ℕ) : Except LibError Bool :=
  (tx.payload u).bind fun (toBytes, data) =>
  let rest := [toBytes, intBytes value, data] ++ tx.signature
  (ofOption (listHashWith keccak256 (tx.head ++ [intBytes tx.shardID, intBytes tx.toShardID] ++ rest)) .tooLong).bind
    fun harmony =>
  if harmony = u.lower tx.hash then .ok true
  else if u.lower tx.ethHash = [] then .ok false
  else (ofOption (listHashWith keccak256 (tx.head ++ rest)) .tooLong).map fun ethereum =>
    decide (ethereum = u.lower tx.ethHash)

/-- `rounded_in_export` over a hash of its own. -/
def roundedInExportWith (theirs mine : Option TxCompared) (tx : Option PlainTx) : Except LibError Bool :=
  match theirs, mine, tx with
  | some theirs, some mine, some tx =>
    if { theirs with valueAtto := mine.valueAtto } ≠ mine then .ok false
    else (signedValueMatchesWith keccak256 u tx theirs.valueAtto).bind fun run =>
      if run = false then .ok false else (signedValueMatchesWith keccak256 u tx mine.valueAtto).map (!·)
  | _, _, _ => .ok false

theorem signedValueMatches_eq : signedValueMatches u = signedValueMatchesWith keccak256Pure u := rfl

theorem roundedInExport_eq : roundedInExport u = roundedInExportWith keccak256Pure u := rfl

/-- The fields that a signature covers. -/
structure SignedFields where
  nonce : ℕ
  gasPrice : ℕ
  gas : ℕ
  shardID : ℕ
  toShardID : ℕ
  recipient : Bytes
  value : ℕ
  data : Bytes
  v : ℕ
  r : ℕ
  s : ℕ

/-- The fields without the two shards. -/
def SignedFields.ethereum (f : SignedFields) : List Bytes :=
  [intBytes f.nonce, intBytes f.gasPrice, intBytes f.gas, f.recipient, intBytes f.value, f.data, intBytes f.v,
    intBytes f.r, intBytes f.s]

def SignedFields.harmony (f : SignedFields) : List Bytes :=
  [intBytes f.nonce, intBytes f.gasPrice, intBytes f.gas, intBytes f.shardID, intBytes f.toShardID, f.recipient,
    intBytes f.value, f.data, intBytes f.v, intBytes f.r, intBytes f.s]

/-- The two hashes of a record are of the same signed fields, or there is one only. -/
def SameFields (tx : PlainTx) : Prop :=
  u.lower tx.ethHash = [] ∨ ∃ f : SignedFields, listHashWith keccak256 f.harmony = some (u.lower tx.hash) ∧
    listHashWith keccak256 f.ethereum = some (u.lower tx.ethHash)

variable {keccak256 u} {tx : PlainTx}

theorem listHashWith_injective (hinj : Function.Injective keccak256) {xs ys : List Bytes} {t : Text}
    (hx : listHashWith keccak256 xs = some t) (hy : listHashWith keccak256 ys = some t) : xs = ys := by
  obtain ⟨a, ha, rfl⟩ := Option.map_eq_some_iff.mp hx
  obtain ⟨b, hb, hab⟩ := Option.map_eq_some_iff.mp hy
  have hsame := hinj (hexText_injective (List.append_cancel_left hab))
  have hnil : a ++ [] = b ++ [] := by rw [hsame]
  have htree := (encode_append_inj _ _ ha hb hnil).1
  have hmap : Function.Injective Tree.string := fun _ _ h => Tree.string.inj h
  exact List.map_injective_iff.mpr hmap (Tree.list.inj htree)

/-- The fields that a value completes. -/
def PlainTx.fields (tx : PlainTx) (payload : Bytes × Bytes) (value : ℕ) : SignedFields :=
  ⟨tx.nonce, tx.gasPrice, tx.gas, tx.shardID, tx.toShardID, payload.1, value, payload.2, tx.v, tx.r, tx.s⟩

/-- A value matches through one hash or the other. -/
theorem matches_cases {value : ℕ} (h : signedValueMatchesWith keccak256 u tx value = .ok true) :
    ∃ payload, tx.payload u = .ok payload ∧
      (listHashWith keccak256 (tx.fields payload value).harmony = some (u.lower tx.hash) ∨
        u.lower tx.ethHash ≠ [] ∧ listHashWith keccak256 (tx.fields payload value).ethereum = some (u.lower tx.ethHash)) := by
  rw [signedValueMatchesWith] at h
  obtain ⟨payload, hpayload, h⟩ := of_bind_ok h
  refine ⟨payload, hpayload, ?_⟩
  simp only [ofOption_bind_ok] at h
  obtain ⟨harmony, hharmony, h⟩ := h
  by_cases hmatch : harmony = u.lower tx.hash
  · exact .inl (hmatch ▸ hharmony)
  rw [if_neg hmatch] at h
  by_cases hempty : u.lower tx.ethHash = []
  · rw [if_pos hempty] at h
    cases h
  · rw [if_neg hempty] at h
    obtain ⟨ethereum, hethereum, heq⟩ := of_map_ok h
    refine .inr ⟨hempty, ?_⟩
    rw [← of_decide_eq_true heq]
    exact ok_of_ofOption hethereum

theorem value_of_harmony {f g : SignedFields} (h : f.harmony = g.harmony) : f.value = g.value := by
  simp only [SignedFields.harmony, List.cons.injEq] at h
  exact intBytes_injective h.2.2.2.2.2.2.1

theorem value_of_ethereum {f g : SignedFields} (h : f.ethereum = g.ethereum) : f.value = g.value := by
  simp only [SignedFields.ethereum, List.cons.injEq] at h
  exact intBytes_injective h.2.2.2.2.1

theorem signed_value_unique (hinj : Function.Injective keccak256) (hsame : SameFields keccak256 u tx) {value value' : ℕ}
    (h : signedValueMatchesWith keccak256 u tx value = .ok true)
    (h' : signedValueMatchesWith keccak256 u tx value' = .ok true) : value = value' := by
  obtain ⟨payload, -, hcase⟩ := matches_cases h
  obtain ⟨payload', -, hcase'⟩ := matches_cases h'
  rcases hcase with hh | ⟨hne, he⟩
  · rcases hcase' with hh' | ⟨hne', he'⟩
    · exact value_of_harmony (listHashWith_injective hinj hh hh')
    · -- one value through each hash: both are that of the common fields
      obtain ⟨f, hf, hf'⟩ := hsame.resolve_left hne'
      exact (value_of_harmony (listHashWith_injective hinj hh hf)).trans
        (value_of_ethereum (listHashWith_injective hinj hf' he'))
  · rcases hcase' with hh' | ⟨-, he'⟩
    · obtain ⟨f, hf, hf'⟩ := hsame.resolve_left hne
      exact (value_of_ethereum (listHashWith_injective hinj he hf')).trans
        (value_of_harmony (listHashWith_injective hinj hf hh'))
    · exact value_of_ethereum (listHashWith_injective hinj he he')

theorem matches_of_rounded {theirs mine : TxCompared} (h : roundedInExportWith keccak256 u (some theirs) (some mine) (some tx) =
    .ok true) : signedValueMatchesWith keccak256 u tx theirs.valueAtto = .ok true := by
  rw [roundedInExportWith] at h
  by_cases hdiffer : { theirs with valueAtto := mine.valueAtto } ≠ mine
  · rw [if_pos hdiffer] at h
    cases h
  rw [if_neg hdiffer] at h
  obtain ⟨run, hrun, h⟩ := of_bind_ok h
  cases run with
  | false => cases h
  | true => exact hrun

end Hash

/-- Encodings split uniquely, and an injective hash of the fields fixes the signed value of a record. -/
theorem signed_values_unique {keccak256 : Bytes → Bytes} (hinj : Function.Injective keccak256) (u : Lower) :
    (∀ x y a b, rlpEncode x = some a → rlpEncode y = some b → a <+: b → x.tree = y.tree ∧ a = b) ∧
    ∀ tx, SameFields keccak256 u tx →
      (∀ value value', signedValueMatchesWith keccak256 u tx value = .ok true →
        signedValueMatchesWith keccak256 u tx value' = .ok true → value = value') ∧
      ∀ theirs mine theirs' mine' : TxCompared,
        roundedInExportWith keccak256 u (some theirs) (some mine) (some tx) = .ok true →
        roundedInExportWith keccak256 u (some theirs') (some mine') (some tx) = .ok true →
        theirs.valueAtto = theirs'.valueAtto :=
  ⟨fun _ _ _ _ => rlpEncode_prefix, fun _ hsame => ⟨fun _ _ => signed_value_unique hinj hsame,
    fun _ _ _ _ h h' => signed_value_unique hinj hsame (matches_of_rounded h) (matches_of_rounded h')⟩⟩

/-- A transfer of 5 without recipient and data, under a hash that changes nothing. -/
def transferOfFive : PlainTx :=
  let blank : PlainTx := ⟨[], [], [], [], 0, [], 1, 2, 3, 0, 0, 0, 27, 8, 9⟩
  { blank with hash := ((listHashWith id (blank.fields ([], []) 5).harmony).getD []) }

theorem transferOfFive_value : signedValueMatchesWith id asciiLower transferOfFive 5 = .ok true ∧
    ∀ value, signedValueMatchesWith id asciiLower transferOfFive value = .ok true → value = 5 := by
  have hfive : signedValueMatchesWith id asciiLower transferOfFive 5 = .ok true :=
    Except.eq_ok_of_toOption (by decide +kernel)
  have hsame : SameFields id asciiLower transferOfFive := .inl (by decide +kernel)
  exact ⟨hfive, fun value h => ((signed_values_unique Function.injective_id asciiLower).2 _ hsame).1 value 5 h hfive⟩

end HarmonyMigration.Archive
