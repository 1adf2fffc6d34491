import HarmonyMigration.Airdrop.SafeTx
import HarmonyMigration.Airdrop.WriteRun

/-! The call data of a Safe batch, built and decoded: an entry of MultiSend's packed list has no
delimiter but its own length, and the decoder reads a list exactly when it is such entries. -/

namespace HarmonyMigration.Airdrop

open Erc20 Slices

/-! ### Building -/

/-- `int.to_bytes(32, "big")`, which raises on what does not fit. -/
def toWord (value : ℕ) : Except String Bytes :=
  if value < 2 ^ 256 then .ok (word value) else .error "int too big to convert"

/-- `common.unhex` of an address. -/
def addressBytes (a : Address) : Bytes := toBytes 20 a.toNat

/-- A call of the batch. -/
structure BatchCall where
  dest : Address
  value : ℕ
  data : Bytes
  deriving DecidableEq

def transferBody (recipient : Address) (amount : ℕ) : Bytes :=
  transferSelector ++ addressWord recipient ++ word amount

def transferData (recipient : Address) (amount : ℕ) : Except String Bytes :=
  (toWord amount).map fun _ => transferBody recipient amount

/-- One entry of the packed list: operation (1 byte), to (20), value (32), length (32), data. -/
def packEntry (c : BatchCall) : Except String Bytes :=
  (toWord c.value).bind fun value => (toWord c.data.length).map fun size =>
    [0] ++ addressBytes c.dest ++ value ++ size ++ c.data

def packCall (dest : Address) (data : Bytes) : Except String Bytes := packEntry ⟨dest, 0, data⟩

/-- The packed list as the `bytes` argument of `multiSend`. -/
def wrapPacked (packed : Bytes) : Except String Bytes :=
  (toWord packed.length).map fun size =>
    multisendSelector ++ word 32 ++ size ++ packed ++ List.replicate ((32 - packed.length % 32) % 32) 0

/-- `multisend_data` of `safe_batch.py`. -/
def multisendData (token : Address) (rows : List ListRow) : Except String Bytes :=
  (rows.mapM fun r => (transferData r.address r.amount).bind (packCall token)).bind fun entries =>
  wrapPacked entries.flatten

/-- `multisend_calls` of `vault_batch.py`. -/
def multisendCalls (calls : List (Address × Bytes)) : Except String Bytes :=
  (calls.mapM fun c => packCall c.1 c.2).bind fun entries => wrapPacked entries.flatten

/-- `pack` of `approve_claims.py`. -/
def pack (calls : List BatchCall) : Except String Bytes :=
  (calls.mapM packEntry).bind fun entries => wrapPacked entries.flatten

/-- `transfers_tx`: a batch of one is a direct call to the token. -/
def transfersTx (token multisend : Address) (rows : List ListRow) (nonce : BitVec 256) : Except String SafeTx :=
  match rows with
  | [r] => (transferData r.address r.amount).map fun data => ⟨⟨token, 0, data, 0, 0, 0, 0, 0, 0⟩, nonce⟩
  | rows => (multisendData token rows).map fun data => ⟨⟨multisend, 0, data, 1, 0, 0, 0, 0, 0⟩, nonce⟩

/-! ### An entry -/

/-- A call as the decoder returns it. -/
def BatchCall.packed (c : BatchCall) : PackedCall := ⟨0, c.dest, c.value, c.data⟩

def PackedCall.entry (c : PackedCall) : Bytes :=
  c.operation :: (addressBytes c.target ++ (word c.value ++ (word c.body.length ++ c.body)))

/-- The numbers of an entry fit their words. -/
def PackedCall.Fits (c : PackedCall) : Prop := c.value < 2 ^ 256 ∧ c.body.length < 2 ^ 256

@[simp] theorem length_word (n : ℕ) : (word n).length = 32 := length_toBytes 32 n

@[simp] theorem length_addressBytes (a : Address) : (addressBytes a).length = 20 := length_toBytes 20 a.toNat

theorem beNat_word {n : ℕ} (h : n < 2 ^ 256) : beNat (word n) = n := beNat_toBytes (by simpa using h)

theorem word_beNat {bs : Bytes} (h : bs.length = 32) : word (beNat bs) = bs := by
  have := toBytes_beNat bs
  rwa [h] at this

theorem beNat_lt_of_length {bs : Bytes} (h : bs.length = 32) : beNat bs < 2 ^ 256 := by
  have := beNat_lt bs
  rw [h] at this
  simpa using this

theorem ofNat_addressBytes (a : Address) : BitVec.ofNat 160 (beNat (addressBytes a)) = a := by
  have h : a.toNat < 256 ^ 20 := by simpa using a.isLt
  rw [addressBytes, beNat_toBytes h, BitVec.ofNat_toNat, BitVec.setWidth_eq]

theorem addressBytes_ofNat {bs : Bytes} (h : bs.length = 20) : addressBytes (BitVec.ofNat 160 (beNat bs)) = bs := by
  have hlt := beNat_lt bs
  rw [h] at hlt
  have := toBytes_beNat bs
  rw [h] at this
  rw [addressBytes, BitVec.toNat_ofNat, Nat.mod_eq_of_lt (by simpa using hlt), this]

theorem toWord_ok {value : ℕ} {w : Bytes} (h : toWord value = .ok w) : value < 2 ^ 256 ∧ w = word value := by
  unfold toWord at h
  split_ifs at h with hlt
  exact ⟨hlt, (Except.ok.inj h).symm⟩

theorem toWord_eq {value : ℕ} (h : value < 2 ^ 256) : toWord value = .ok (word value) := if_pos h

theorem packEntry_ok {c : BatchCall} {e : Bytes} (h : packEntry c = .ok e) : e = c.packed.entry ∧ c.packed.Fits := by
  obtain ⟨value, hvalue, h⟩ := Except.of_bind_ok h
  obtain ⟨size, hsize, rfl⟩ := Except.of_map_ok h
  obtain ⟨hv, rfl⟩ := toWord_ok hvalue
  obtain ⟨hs, rfl⟩ := toWord_ok hsize
  refine ⟨?_, hv, hs⟩
  simp only [PackedCall.entry, BatchCall.packed, List.append_assoc, List.cons_append, List.nil_append]

theorem packEntry_eq {c : BatchCall} (h : c.packed.Fits) : packEntry c = .ok c.packed.entry := by
  have hok : packEntry c = .ok ([0] ++ addressBytes c.dest ++ word c.value ++ word c.data.length ++ c.data) := by
    have hvalue : toWord c.value = .ok (word c.value) := toWord_eq h.1
    have hsize : toWord c.data.length = .ok (word c.data.length) := toWord_eq h.2
    rw [packEntry, hvalue, hsize]
    rfl
  rw [hok, (packEntry_ok hok).1]

/-! ### Decoding a packed list -/

theorem length_entry (c : PackedCall) : c.entry.length = 85 + c.body.length := by
  simp [PackedCall.entry]
  omega

/-- The parts of an entry, whatever follows it. -/
theorem slices_entry (c : PackedCall) (rest : Bytes) :
    slice (c.entry ++ rest) 1 21 = addressBytes c.target ∧ slice (c.entry ++ rest) 21 53 = word c.value ∧
      slice (c.entry ++ rest) 53 85 = word c.body.length ∧
      slice (c.entry ++ rest) 85 (85 + c.body.length) = c.body := by
  have hshape : c.entry ++ rest =
      [c.operation] ++ (addressBytes c.target ++ (word c.value ++ (word c.body.length ++ (c.body ++ rest)))) := by
    simp [PackedCall.entry]
  have hop : [c.operation].length = 1 := rfl
  have hto := length_addressBytes c.target
  have hvalue := length_word c.value
  have hsize := length_word c.body.length
  rw [hshape]
  refine ⟨?_, ?_, ?_, ?_⟩
  · rw [slice_append_right hop 0 20]
    exact slice_append_left hto
  · rw [slice_append_right hop 20 52, slice_append_right hto 0 32]
    exact slice_append_left hvalue
  · rw [slice_append_right hop 52 84, slice_append_right hto 32 64, slice_append_right hvalue 0 32]
    exact slice_append_left hsize
  · rw [show 85 + c.body.length = 1 + (20 + (32 + (32 + c.body.length))) by omega, slice_append_right hop 84,
      slice_append_right hto 64, slice_append_right hvalue 32, slice_append_right hsize 0]
    exact slice_append_left rfl

theorem decodeCalls_entry {c : PackedCall} (hc : c.Fits) (rest : Bytes) :
    decodeCalls (c.entry ++ rest) = (decodeCalls rest).map (c :: ·) := by
  obtain ⟨hto, hvalue, hsize, hbody⟩ := slices_entry c rest
  have hlen : (c.entry ++ rest).length = 85 + c.body.length + rest.length := by
    rw [List.length_append, length_entry]
  have hne : c.entry ++ rest ≠ [] := by
    apply List.ne_nil_of_length_pos
    omega
  rw [decodeCalls, if_neg hne, if_neg (by omega)]
  simp only [hsize, beNat_word hc.2, hbody, ne_eq, not_true_eq_false, if_false, hto, hvalue, beNat_word hc.1,
    ofNat_addressBytes]
  rw [List.drop_left' (length_entry c)]
  rfl

/-- The first entry of a list that is read. -/
theorem decodeCalls_cons {packed : Bytes} {calls : List PackedCall} (hne : packed ≠ [])
    (h : decodeCalls packed = .ok calls) :
    ∃ c rest cs, packed = c.entry ++ rest ∧ c.Fits ∧ decodeCalls rest = .ok cs ∧ calls = c :: cs := by
  rw [decodeCalls, if_neg hne] at h
  split_ifs at h with hshort
  simp only at h
  split_ifs at h with hsize
  obtain ⟨cs, hcs, rfl⟩ := Except.of_map_ok h
  have hlen : 85 ≤ packed.length := by omega
  have hword : (slice packed 53 85).length = 32 := by
    rw [length_slice]
    omega
  have hvalue : (slice packed 21 53).length = 32 := by
    rw [length_slice]
    omega
  have hto : (slice packed 1 21).length = 20 := by
    rw [length_slice]
    omega
  have hbody : (slice packed 85 (85 + beNat (slice packed 53 85))).length = beNat (slice packed 53 85) := by
    by_contra hn
    exact hsize hn
  refine ⟨_, _, cs, ?_, ⟨beNat_lt_of_length hvalue, ?_⟩, hcs, rfl⟩
  · simp only [PackedCall.entry]
    rw [hbody, addressBytes_ofNat hto, word_beNat hvalue, word_beNat hword]
    have hhead : [packed.headD 0] = slice packed 0 1 := by
      cases packed with
      | nil => exact absurd rfl hne
      | cons b bs => rfl
    rw [← List.singleton_append, hhead, List.append_assoc, List.append_assoc, List.append_assoc, List.append_assoc,
      ← List.append_assoc (slice packed 0 1), slice_append_slice _ (by omega) (by omega), ← List.append_assoc,
      slice_append_slice _ (by omega) (by omega), ← List.append_assoc, slice_append_slice _ (by omega) (by omega),
      ← List.append_assoc, slice_append_slice _ (by omega) (by omega), slice_zero, List.take_append_drop]
  · show (slice packed 85 (85 + beNat (slice packed 53 85))).length < 2 ^ 256
    rw [hbody]
    exact beNat_lt_of_length hword

/-- A list is read as calls exactly when it is their entries, one after the other. -/
theorem decodeCalls_iff {packed : Bytes} {calls : List PackedCall} :
    decodeCalls packed = .ok calls ↔ packed = calls.flatMap PackedCall.entry ∧ ∀ c ∈ calls, c.Fits := by
  constructor
  · intro h
    induction calls generalizing packed with
    | nil =>
      by_cases hne : packed = []
      · exact ⟨by simpa using hne, by simp⟩
      · obtain ⟨c, rest, cs, -, -, -, heq⟩ := decodeCalls_cons hne h
        cases heq
    | cons c calls ih =>
      by_cases hne : packed = []
      · rw [decodeCalls, if_pos hne] at h
        cases Except.ok.inj h
      · obtain ⟨c', rest, cs, rfl, hc, hrest, heq⟩ := decodeCalls_cons hne h
        obtain ⟨rfl, rfl⟩ := List.cons.inj heq
        obtain ⟨rfl, hcs⟩ := ih hrest
        refine ⟨by rw [List.flatMap_cons], ?_⟩
        intro d hd
        rcases List.mem_cons.mp hd with rfl | hd
        · exact hc
        · exact hcs d hd
  · rintro ⟨rfl, hcalls⟩
    induction calls with
    | nil => rw [List.flatMap_nil, decodeCalls, if_pos rfl]
    | cons c calls ih =>
      rw [List.flatMap_cons, decodeCalls_entry (hcalls c (by simp)), ih fun d hd => hcalls d (by simp [hd])]
      rfl

/-! ### The argument of `multiSend` -/

/-- Call data of `multiSend(bytes)` whose offset and length lead to `packed`. -/
structure AbiBytes (data packed : Bytes) : Prop where
  selector : slice data 0 4 = multisendSelector
  fits : 4 + beNat (slice data 4 36) + 32 + packed.length ≤ data.length
  length_eq : beNat (slice data (4 + beNat (slice data 4 36)) (4 + beNat (slice data 4 36) + 32)) = packed.length
  packed_eq : slice data (4 + beNat (slice data 4 36) + 32) (4 + beNat (slice data 4 36) + 32 + packed.length) = packed

/-- An argument that lies within the data is decoded as its packed list. -/
theorem decodeMultisend_abi {data packed : Bytes} (h : AbiBytes data packed) (hlen : 68 ≤ data.length) :
    decodeMultisend data = (decodeCalls packed).map some := by
  unfold decodeMultisend
  rw [if_neg (by
    rintro (hn | hn)
    · exact hn h.selector
    · omega)]
  simp only [h.length_eq, h.packed_eq, ne_eq, not_true_eq_false, if_false]

theorem wrapPacked_ok {packed data : Bytes} (h : wrapPacked packed = .ok data) :
    AbiBytes data packed ∧ 68 ≤ data.length := by
  obtain ⟨size, hsize, rfl⟩ := Except.of_map_ok h
  obtain ⟨-, rfl⟩ := toWord_ok hsize
  generalize hpad : List.replicate ((32 - packed.length % 32) % 32) (0 : UInt8) = pad
  have hsel : multisendSelector.length = 4 := rfl
  have hword := length_word 32
  have hshape : multisendSelector ++ word 32 ++ word packed.length ++ packed ++ pad =
      multisendSelector ++ (word 32 ++ (word packed.length ++ (packed ++ pad))) := by
    simp only [List.append_assoc]
  rw [hshape]
  have hoffset : beNat (slice (multisendSelector ++ (word 32 ++ (word packed.length ++ (packed ++ pad)))) 4 36) = 32 := by
    rw [slice_append_right hsel 0 32, slice_append_left hword]
    exact beNat_word (by norm_num)
  have hlen : (multisendSelector ++ (word 32 ++ (word packed.length ++ (packed ++ pad)))).length =
      68 + packed.length + pad.length := by
    simp only [List.length_append, hsel, length_word]
    omega
  refine ⟨⟨slice_append_left hsel, ?_, ?_, ?_⟩, by omega⟩
  · rw [hoffset, hlen]
    omega
  · rw [hoffset, slice_append_right hsel 32 64, slice_append_right hword 0 32, slice_append_left (length_word _)]
    exact beNat_word (toWord_ok hsize).1
  · rw [hoffset, show 4 + 32 + 32 + packed.length = 4 + (32 + (32 + packed.length)) by omega,
      slice_append_right hsel 64, slice_append_right hword 32, slice_append_right (length_word _) 0]
    exact slice_append_left rfl

theorem decodeMultisend_wrap {packed data : Bytes} (h : wrapPacked packed = .ok data) :
    decodeMultisend data = (decodeCalls packed).map some := by
  obtain ⟨habi, hlen⟩ := wrapPacked_ok h
  exact decodeMultisend_abi habi hlen

/-- What is packed entry by entry is decoded as the calls it was packed from. -/
theorem decodeMultisend_pack {calls : List BatchCall} {data : Bytes} (h : pack calls = .ok data) :
    decodeMultisend data = .ok (some (calls.map BatchCall.packed)) := by
  obtain ⟨entries, hentries, hdata⟩ := Except.of_bind_ok h
  have hall := Except.forall₂_of_mapM_ok hentries
  have hflat : entries.flatten = (calls.map BatchCall.packed).flatMap PackedCall.entry := by
    have := Except.map_eq_of_forall₂ hall (f := fun c => c.packed.entry) (g := id)
      fun c e he => (packEntry_ok he).1.symm
    rw [List.map_id] at this
    rw [← this, List.flatMap_map]
    rfl
  have hfits : ∀ c ∈ calls.map BatchCall.packed, c.Fits := by
    intro c hc
    obtain ⟨d, hd, rfl⟩ := List.mem_map.mp hc
    obtain ⟨e, -, he⟩ := Except.ok_of_mem_left hall hd
    exact (packEntry_ok he).2
  rw [decodeMultisend_wrap hdata, decodeCalls_iff.mpr ⟨hflat, hfits⟩]
  rfl

/-- The two other builders pack calls without value. -/
theorem multisendCalls_eq (calls : List (Address × Bytes)) :
    multisendCalls calls = pack (calls.map fun c => ⟨c.1, 0, c.2⟩) := by
  rw [multisendCalls, pack, List.mapM_map]
  rfl

/-- A transfer as the decoder returns it. -/
def transferCall (token : Address) (t : Address × ℕ) : BatchCall := ⟨token, 0, transferBody t.1 t.2⟩

def ListRow.transfer (r : ListRow) : Address × ℕ := (r.address, r.amount)

theorem transferData_ok {recipient : Address} {amount : ℕ} {data : Bytes} (h : transferData recipient amount = .ok data) :
    amount < 2 ^ 256 ∧ data = transferBody recipient amount := by
  obtain ⟨w, hw, rfl⟩ := Except.of_map_ok h
  exact ⟨(toWord_ok hw).1, rfl⟩

theorem multisendData_ok {token : Address} {rows : List ListRow} {data : Bytes}
    (h : multisendData token rows = .ok data) :
    pack (rows.map fun r => transferCall token r.transfer) = .ok data ∧ ∀ r ∈ rows, r.amount < 2 ^ 256 := by
  obtain ⟨entries, hentries, hdata⟩ := Except.of_bind_ok h
  have hall := Except.forall₂_of_mapM_ok hentries
  have hentry : ∀ (r : ListRow) (e : Bytes), (transferData r.address r.amount).bind (packCall token) = .ok e →
      r.amount < 2 ^ 256 ∧ packEntry (transferCall token r.transfer) = .ok e := by
    intro r e he
    obtain ⟨body, hbody, he⟩ := Except.of_bind_ok he
    obtain ⟨hamount, rfl⟩ := transferData_ok hbody
    exact ⟨hamount, he⟩
  constructor
  · have hmap : rows.mapM (packEntry ∘ fun r => transferCall token r.transfer) = .ok entries :=
      Except.mapM_ok_of_forall₂ (hall.imp fun r e he => (hentry r e he).2)
    rw [pack, List.mapM_map, hmap]
    exact hdata
  · intro r hr
    obtain ⟨e, -, he⟩ := Except.ok_of_mem_left hall hr
    exact (hentry r e he).1

/-! ### A transfer -/

/-- An address in a word stands behind twelve zeros. -/
theorem addressWord_eq (a : Address) : addressWord a = List.replicate 12 0 ++ addressBytes a := by
  apply beNat_inj (by simp [addressWord])
  have h20 : a.toNat < 256 ^ 20 := by simpa using a.isLt
  have h32 : a.toNat < 2 ^ 256 := lt_trans a.isLt (by norm_num)
  rw [beNat_append, beNat_replicate_zero, addressBytes, beNat_toBytes h20, addressWord, beNat_word h32, Nat.zero_mul,
    Nat.zero_add]

theorem eq_replicate_of_not_any {bs : Bytes} {n : ℕ} (hlen : bs.length = n) (h : ¬(bs.any (· ≠ 0)) = true) :
    bs = List.replicate n 0 := by
  apply List.eq_replicate_iff.mpr
  refine ⟨hlen, ?_⟩
  intro b hb
  by_contra hne
  exact h (List.any_eq_true.mpr ⟨b, hb, by simpa using hne⟩)

/-- Call data of two words, an address and a number. -/
theorem slices_addressBody {selector : Bytes} (hsel : selector.length = 4) (a : Address) (n : ℕ) :
    (selector ++ addressWord a ++ word n).length = 68 ∧ slice (selector ++ addressWord a ++ word n) 0 4 = selector ∧
      slice (selector ++ addressWord a ++ word n) 4 16 = List.replicate 12 0 ∧
      slice (selector ++ addressWord a ++ word n) 16 36 = addressBytes a ∧
      slice (selector ++ addressWord a ++ word n) 36 68 = word n := by
  have hshape : selector ++ addressWord a ++ word n =
      selector ++ (List.replicate 12 0 ++ (addressBytes a ++ (word n ++ []))) := by
    rw [addressWord_eq]
    simp only [List.append_assoc, List.append_nil]
  have hzeros : (List.replicate 12 (0 : UInt8)).length = 12 := List.length_replicate
  have hto := length_addressBytes a
  rw [hshape]
  refine ⟨by simp [hsel], slice_append_left hsel, ?_, ?_, ?_⟩
  · rw [slice_append_right hsel 0 12]
    exact slice_append_left hzeros
  · rw [slice_append_right hsel 12 32, slice_append_right hzeros 0 20]
    exact slice_append_left hto
  · rw [slice_append_right hsel 32 64, slice_append_right hzeros 20 52, slice_append_right hto 0 32]
    exact slice_append_left (length_word n)

theorem slices_transferBody (recipient : Address) (amount : ℕ) :
    (transferBody recipient amount).length = 68 ∧ slice (transferBody recipient amount) 0 4 = transferSelector ∧
      slice (transferBody recipient amount) 4 16 = List.replicate 12 0 ∧
      slice (transferBody recipient amount) 16 36 = addressBytes recipient ∧
      slice (transferBody recipient amount) 36 68 = word amount :=
  slices_addressBody rfl recipient amount

/-- `decode_transfer` reads the call data of a transfer and nothing else. -/
theorem decodeTransfer_iff {body : Bytes} {t : Address × ℕ} :
    decodeTransfer body = some t ↔ body = transferBody t.1 t.2 ∧ t.2 < 2 ^ 256 := by
  constructor
  · intro h
    unfold decodeTransfer at h
    split_ifs at h with hn
    obtain ⟨hlen, hrest⟩ := not_or.mp hn
    obtain ⟨hsel, hzeros⟩ := not_or.mp hrest
    simp only [not_not] at hlen hsel
    obtain rfl := Option.some.inj h
    have hamount : (slice body 36 68).length = 32 := by simp [length_slice, hlen]
    have hto : (slice body 16 36).length = 20 := by simp [length_slice, hlen]
    have hzero : slice body 4 16 = List.replicate 12 0 :=
      eq_replicate_of_not_any (by simp [length_slice, hlen]) hzeros
    refine ⟨?_, beNat_lt_of_length hamount⟩
    rw [transferBody, addressWord_eq, addressBytes_ofNat hto, word_beNat hamount, ← hsel, ← hzero,
      slice_append_slice _ (by omega) (by omega), slice_append_slice _ (by omega) (by omega),
      slice_append_slice _ (by omega) (by omega), slice_zero, ← hlen, List.take_length]
  · rintro ⟨rfl, hamount⟩
    obtain ⟨hlen, hsel, hzeros, hto, hword⟩ := slices_transferBody t.1 t.2
    unfold decodeTransfer
    rw [if_neg (by simp [hlen, hsel, hzeros]), hto, hword, ofNat_addressBytes, beNat_word hamount]

theorem transfer_iff {token : Address} {c : PackedCall} {t : Address × ℕ} :
    c.transfer token = some t ↔ c = (transferCall token t).packed ∧ t.2 < 2 ^ 256 := by
  obtain ⟨operation, target, value, body⟩ := c
  unfold PackedCall.transfer
  simp only [transferCall, BatchCall.packed, PackedCall.mk.injEq]
  split_ifs with hn
  · constructor
    · intro h
      cases h
    · rintro ⟨⟨h1, h2, h3, -⟩, -⟩
      simp [h1, h2, h3] at hn
  · simp only [not_or, not_not] at hn
    rw [decodeTransfer_iff]
    tauto

/-! ### What a signer is shown -/

/-- The transaction of a list is listed as the list, and as nothing else. -/
theorem tokenTransfers_transfersTx {token multisend : Address} {rows : List ListRow} {nonce : BitVec 256} {tx : SafeTx}
    (hmultisend : multisend ∈ officialMultisendCallOnly) (h : transfersTx token multisend rows nonce = .ok tx) :
    tokenTransfers tx token = (rows.map ListRow.transfer, []) := by
  have hmany : ∀ tx, (multisendData token rows).map
      (fun data => (⟨⟨multisend, 0, data, 1, 0, 0, 0, 0, 0⟩, nonce⟩ : SafeTx)) = .ok tx →
      tokenTransfers tx token = (rows.map ListRow.transfer, []) := by
    intro tx h
    obtain ⟨data, hdata, rfl⟩ := Except.of_map_ok h
    obtain ⟨hpack, hamounts⟩ := multisendData_ok hdata
    have hdecode := decodeMultisend_pack hpack
    have hcalls : ∀ r ∈ rows, (transferCall token r.transfer).packed.transfer token = some r.transfer :=
      fun r hr => transfer_iff.mpr ⟨rfl, hamounts r hr⟩
    have hlisted : ((rows.map fun r => transferCall token r.transfer).map BatchCall.packed).filterMap
        (PackedCall.transfer token) = rows.map ListRow.transfer := by
      rw [List.map_map, List.filterMap_map, ← List.filterMap_eq_map]
      exact List.filterMap_congr fun r hr => hcalls r hr
    have hclean : ((((rows.map fun r => transferCall token r.transfer).map BatchCall.packed).zipIdx 1).filterMap fun c =>
        if (c.1.transfer token).isNone then some (NotPlain.call c.2) else none) = [] := by
      apply List.filterMap_eq_nil_iff.mpr
      intro c hc
      obtain ⟨d, hd, hcd⟩ := List.mem_map.mp (List.fst_mem_of_mem_zipIdx hc)
      obtain ⟨r, hr, rfl⟩ := List.mem_map.mp hd
      rw [← hcd, hcalls r hr]
      rfl
    unfold tokenTransfers
    simp only [hdecode, hlisted, hclean]
    simp [hmultisend]
  match rows with
  | [] => exact hmany tx h
  | [r] =>
    obtain ⟨data, hdata, rfl⟩ := Except.of_map_ok h
    obtain ⟨hamount, rfl⟩ := transferData_ok hdata
    have hdecode : decodeTransfer (transferBody r.address r.amount) = some r.transfer :=
      decodeTransfer_iff.mpr ⟨rfl, hamount⟩
    simp [tokenTransfers, hdecode]
  | _ :: _ :: _ => exact hmany tx h

/-- Building fails only where a number does not fit its word. -/
theorem exists_transfersTx (token multisend : Address) {rows : List ListRow} (nonce : BitVec 256)
    (hamounts : ∀ r ∈ rows, r.amount < 2 ^ 256) (hlen : 153 * rows.length < 2 ^ 256) :
    ∃ tx, transfersTx token multisend rows nonce = .ok tx := by
  have hdata : ∀ r ∈ rows, transferData r.address r.amount = .ok (transferBody r.address r.amount) := by
    intro r hr
    rw [transferData, toWord_eq (hamounts r hr)]
    rfl
  have hentries : (rows.mapM fun r => (transferData r.address r.amount).bind (packCall token)) =
      .ok (rows.map fun r => (transferCall token r.transfer).packed.entry) := by
    apply Except.mapM_ok_of_forall
    intro r hr
    have hfits : (transferCall token r.transfer).packed.Fits := by
      refine ⟨by simp [BatchCall.packed, transferCall], ?_⟩
      show (transferBody r.address r.amount).length < 2 ^ 256
      rw [(slices_transferBody _ _).1]
      norm_num
    rw [hdata r hr]
    exact packEntry_eq hfits
  have hflat : (rows.map fun r => (transferCall token r.transfer).packed.entry).flatten.length = 153 * rows.length := by
    rw [← List.length_map (f := fun r : ListRow => (transferCall token r.transfer).packed.entry)]
    apply length_flatten
    intro e he
    obtain ⟨r, -, rfl⟩ := List.mem_map.mp he
    rw [length_entry]
    show 85 + (transferBody r.address r.amount).length = 153
    rw [(slices_transferBody _ _).1]
  have hmany : ∃ tx, (multisendData token rows).map
      (fun data => (⟨⟨multisend, 0, data, 1, 0, 0, 0, 0, 0⟩, nonce⟩ : SafeTx)) = .ok tx := by
    rw [multisendData, hentries]
    rw [← hflat] at hlen
    exact ⟨_, by rw [Except.bind_ok_left, wrapPacked, toWord_eq hlen]; rfl⟩
  cases rows with
  | nil => exact hmany
  | cons r rows =>
    cases rows with
    | nil => exact ⟨_, by rw [transfersTx, hdata r (List.mem_singleton_self r)]; rfl⟩
    | cons r' rows => exact hmany

/-! ### What a transaction does -/

/-- The documented behaviour of MultiSendCallOnly, `none` being a revert: its `bytes` argument
lies within the call data, and the calls it makes are the packed entries in their order. -/
structure MultiSends (exec : Bytes → Option (List BatchCall)) : Prop where
  argument : ∀ {data calls}, exec data = some calls → ∃ packed, AbiBytes data packed
  entries : ∀ {data : Bytes} {cs : List PackedCall} {calls : List BatchCall},
    AbiBytes data (cs.flatMap PackedCall.entry) → (∀ c ∈ cs, c.Fits ∧ c.operation = 0) →
      exec data = some calls → calls = cs.map fun c => ⟨c.target, c.value, c.body⟩

/-- The calls of a transaction that goes through, next to a gas refund. -/
inductive Performs (exec : Address → Bytes → Option (List BatchCall)) (tx : SafeTx) : List BatchCall → Prop
  | call (h : tx.operation = 0) : Performs exec tx [⟨tx.payee, tx.value.toNat, tx.data⟩]
  | delegate {calls : List BatchCall} (h : tx.operation = 1) (hexec : exec tx.payee tx.data = some calls) :
      Performs exec tx calls

theorem calls_of_transfers {token : Address} {cs : List PackedCall} {transfers : List (Address × ℕ)}
    (h : List.Forall₂ (fun c t => c.transfer token = some t) cs transfers) :
    cs = transfers.map fun t => (transferCall token t).packed := by
  induction h with
  | nil => rfl
  | cons ht _ ih => rw [List.map_cons, ← ih, (transfer_iff.mp ht).1]

/-- A transaction listed without a problem makes the listed transfers, and no other call. -/
theorem performs_of_no_problem {exec : Address → Bytes → Option (List BatchCall)}
    (hexec : ∀ m ∈ officialMultisendCallOnly, MultiSends (exec m)) {token : Address} {tx : SafeTx}
    {transfers : List (Address × ℕ)} {calls : List BatchCall} (h : tokenTransfers tx token = (transfers, []))
    (hrun : Performs exec tx calls) : calls = transfers.map (transferCall token) ∧ tx.gasPrice = 0 := by
  have hplain := tokenTransfers_plain (show (tokenTransfers tx token).2 = [] by rw [h])
  rw [h] at hplain
  obtain ⟨⟨hvalue, hprice, -, -⟩, hplain⟩ := hplain
  refine ⟨?_, hprice⟩
  rcases hplain with ⟨hop, hpayee, t, ht, rfl⟩ | ⟨hop, hofficial, cs, hdecode, hall⟩
  · cases hrun with
    | call _ =>
      obtain ⟨hdata, -⟩ := decodeTransfer_iff.mp ht
      rw [hpayee, hvalue, hdata]
      rfl
    | delegate hop' _ =>
      rw [hop] at hop'
      cases hop'
  · cases hrun with
    | call hop' => exact absurd hop' hop
    | delegate _ hrun =>
      have hsend := hexec _ hofficial
      obtain ⟨packed, habi⟩ := hsend.argument hrun
      have hlen : 68 ≤ tx.data.length := by
        by_contra hshort
        rw [decodeMultisend, if_pos (Or.inr (by omega))] at hdecode
        cases hdecode
      rw [decodeMultisend_abi habi hlen] at hdecode
      obtain ⟨cs', hcs', heq⟩ := Except.of_map_ok hdecode
      rw [Option.some.inj heq] at hcs'
      obtain ⟨rfl, hfits⟩ := decodeCalls_iff.mp hcs'
      have hcs := calls_of_transfers hall
      have hop0 : ∀ c ∈ cs, c.Fits ∧ c.operation = 0 := by
        intro c hc
        refine ⟨hfits c hc, ?_⟩
        rw [hcs] at hc
        obtain ⟨t, -, rfl⟩ := List.mem_map.mp hc
        rfl
      rw [hsend.entries habi hop0 hrun, hcs, List.map_map]
      rfl

end HarmonyMigration.Airdrop
