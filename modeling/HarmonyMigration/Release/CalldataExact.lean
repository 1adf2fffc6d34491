import HarmonyMigration.Messages.OftPayload
import HarmonyMigration.Release.Calldata

/-! What the signers read of a planned call is what was planned. -/

namespace HarmonyMigration.Release

open ContractReview Decimal Erc20 Keccak256 Messages Slices

/-! ### The encoder as ABI arguments -/

def AbiValue.toArg : AbiValue → Abi.Arg
  | .uint n => .static (toBytes 32 n)
  | .address a => .static (toBytes 32 a.toNat)
  | .bool b => .static (toBytes 32 (if b then 1 else 0))
  | .bytes32 data => .static (List.replicate (32 - data.length) 0 ++ data)
  | .bytes data => .bytes data

theorem paddingOf_eq (data : Bytes) : paddingOf data = Abi.padding data.length := by
  rw [paddingOf, Abi.padding]
  omega

theorem foldl_abiStep (base : ℕ) (values : List AbiValue) (head tail : Bytes) :
    values.foldl (abiStep base) (head, tail) =
      (head ++ Abi.heads (base + tail.length) (values.map AbiValue.toArg),
        tail ++ Abi.tails (values.map AbiValue.toArg)) := by
  induction values generalizing head tail with
  | nil => simp [Abi.heads, Abi.tails]
  | cons v values ih =>
    rw [List.foldl_cons, List.map_cons, Abi.heads, Abi.tails, List.flatMap_cons, ← Abi.tails]
    cases v with
    | bytes data =>
      rw [abiStep, ih]
      simp only [AbiValue.toArg, Abi.Arg.head, Abi.Arg.tail, Abi.word, paddingOf_eq, List.append_assoc, List.length_append,
        Nat.add_assoc]
    | _ =>
      rw [abiStep, ih]
      simp only [AbiValue.toArg, Abi.Arg.head, Abi.Arg.tail, List.append_assoc, List.length_nil, Nat.add_zero,
        List.nil_append]

theorem abiEncode_eq (values : List AbiValue) : abiEncode values = Abi.encode (values.map AbiValue.toArg) := by
  rw [abiEncode, foldl_abiStep, Abi.encode, List.length_map]
  simp

/-! ### Addresses -/

theorem length_addressBytes (a : Address) : (addressBytes a).length = 20 := length_toBytes 20 _

theorem addressWord_eq (a : Address) : addressWord a = List.replicate 12 0 ++ addressBytes a := by
  have h : a.toNat < 256 ^ 20 := a.isLt.trans_eq (by norm_num)
  exact toBytes_add 12 h

/-! ### The payload -/

section Message

variable {amount : ℕ} (safe : Address)

theorem releasePayload_harmony (amount : ℕ) : releasePayload ⟨true, safe, amount⟩ =
    Abi.encode (harmonyForm ptSend (addressBytes safe) (addressBytes safe) amount) := abiEncode_eq _

def legacyForm (recipient : Bytes) (amount : ℕ) : List Abi.Arg := [.bytes recipient, .static (Abi.word amount)]

theorem releasePayload_legacy (amount : ℕ) : releasePayload ⟨false, safe, amount⟩ =
    Abi.encode (legacyForm (addressBytes safe) amount) := abiEncode_eq _

theorem fits_legacyForm (recipient : Bytes) (amount : ℕ) : ∀ a ∈ legacyForm recipient amount, a.Fits := by
  intro a ha
  simp only [legacyForm, List.mem_cons, List.not_mem_nil, or_false] at ha
  rcases ha with rfl | rfl
  · trivial
  · exact length_toBytes 32 amount

theorem length_legacyForm {recipient : Bytes} (amount : ℕ) (hr : recipient.length = 20) :
    (Abi.encode (legacyForm recipient amount)).length = 32 * 4 := by
  rw [Abi.encode, List.length_append, Abi.length_heads _ (fits_legacyForm recipient amount)]
  simp only [legacyForm, Abi.tails, List.flatMap_cons, List.flatMap_nil, List.length_append, length_tail_address hr,
    Abi.Arg.tail_static, List.length_nil, List.length_cons]

/-- Both formats read back: a first word of zero is a packet type, any other is an offset. -/
theorem describeMessage_releasePayload (packetType : Bool) (h : amount < 2 ^ 256) :
    describeMessage (releasePayload ⟨packetType, safe, amount⟩) = (quoted (hexOf (addressBytes safe)), amount) := by
  have hamount : amount < 256 ^ 32 := h.trans_eq (by norm_num)
  have h20 := length_addressBytes safe
  cases packetType with
  | true =>
    rw [releasePayload_harmony]
    set a := addressBytes safe
    have hfits := fits_harmonyForm ptSend a a amount
    have hroom : (Abi.encode (harmonyForm ptSend a a amount)).length < 256 ^ 32 := by
      rw [length_harmonyForm ptSend amount h20 h20]
      norm_num
    have h0 : beNat (slice (Abi.encode (harmonyForm ptSend a a amount)) 0 32) = ptSend :=
      (Abi.readWord_static [] hfits).trans (beNat_toBytes (by decide))
    have hplace : Abi.place [.static (Abi.word ptSend), .bytes a] [.static (Abi.word amount)] = 192 := by
      rw [Abi.place, Abi.tails, List.flatMap_cons, List.flatMap_cons, List.length_append, List.length_append,
        length_tail_address h20]
      rfl
    have h2 : beNat (slice (Abi.encode (harmonyForm ptSend a a amount)) 64 96) = 192 :=
      (Abi.readWord_bytes [.static (Abi.word ptSend), .bytes a] hfits hroom).trans hplace
    have h3 : beNat (slice (Abi.encode (harmonyForm ptSend a a amount)) 96 128) = amount :=
      (Abi.readWord_static [.static (Abi.word ptSend), .bytes a, .bytes a] hfits).trans (beNat_toBytes hamount)
    have hdata : slice (Abi.encode (harmonyForm ptSend a a amount)) (192 + 32) (192 + 52) = a := by
      have hslice := Abi.slice_data [.static (Abi.word ptSend), .bytes a] hfits
      rw [hplace, h20] at hslice
      exact hslice
    rw [describeMessage, h0, if_pos rfl, h2, h3, hdata]
  | false =>
    rw [releasePayload_legacy]
    set a := addressBytes safe
    have hfits := fits_legacyForm a amount
    have hroom : (Abi.encode (legacyForm a amount)).length < 256 ^ 32 := by
      rw [length_legacyForm amount h20]
      norm_num
    have h0 : beNat (slice (Abi.encode (legacyForm a amount)) 0 32) = 64 := Abi.readWord_bytes [] hfits hroom
    have h1 : beNat (slice (Abi.encode (legacyForm a amount)) 32 64) = amount :=
      (Abi.readWord_static [.bytes a] hfits).trans (beNat_toBytes hamount)
    have hdata : slice (Abi.encode (legacyForm a amount)) (64 + 32) (64 + 52) = a := by
      have hslice := Abi.slice_data [] hfits
      rw [h20] at hslice
      exact hslice
    rw [describeMessage, h0, if_neg (by decide), h1, hdata]

end Message

/-! ### The header -/

section Header

variable {h : Header}

/-- The numbers of a header fit their fields. -/
structure Header.InRange (h : Header) : Prop where
  nonce : h.nonce < 2 ^ 64
  srcEid : h.srcEid < 2 ^ 32
  dstEid : h.dstEid < 2 ^ 32

def headerText (h : Header) : Text :=
  "message ".toList ++ render h.nonce ++ " from `".toList ++ hexOf (addressBytes h.sender) ++ "` on chain ".toList ++
    render h.srcEid ++ " to `".toList ++ hexOf (addressBytes h.receiver) ++ "` on chain ".toList ++ render h.dstEid

theorem length_packetHeader (h : Header) : (packetHeader h).length = 81 := by
  simp [packetHeader, addressWord]

/-- The fields behind one another: version, nonce, chain, sender, chain, receiver, with both addresses padded. -/
theorem packetHeader_fields (h : Header) : ∃ v z : Bytes, v.length = 1 ∧ z.length = 12 ∧
    packetHeader h = v ++ (toBytes 8 h.nonce ++ (toBytes 4 h.srcEid ++ (z ++ (addressBytes h.sender ++
      (toBytes 4 h.dstEid ++ (z ++ addressBytes h.receiver)))))) := by
  refine ⟨[UInt8.ofNat packetVersion], List.replicate 12 0, rfl, List.length_replicate, ?_⟩
  rw [packetHeader, addressWord_eq, addressWord_eq]
  simp only [List.append_assoc]

theorem slice_packetHeader (h : Header) :
    slice (packetHeader h) 1 9 = toBytes 8 h.nonce ∧ slice (packetHeader h) 9 13 = toBytes 4 h.srcEid ∧
    slice (packetHeader h) 25 45 = addressBytes h.sender ∧ slice (packetHeader h) 45 49 = toBytes 4 h.dstEid ∧
    slice (packetHeader h) 61 81 = addressBytes h.receiver := by
  obtain ⟨v, z, hv, hz, hfields⟩ := packetHeader_fields h
  have hn : (toBytes 8 h.nonce).length = 8 := length_toBytes 8 _
  have hs : (toBytes 4 h.srcEid).length = 4 := length_toBytes 4 _
  have hd : (toBytes 4 h.dstEid).length = 4 := length_toBytes 4 _
  have hsender := length_addressBytes h.sender
  have hreceiver := length_addressBytes h.receiver
  rw [hfields]
  generalize toBytes 8 h.nonce = n at *
  generalize toBytes 4 h.srcEid = s at *
  generalize toBytes 4 h.dstEid = d at *
  generalize addressBytes h.sender = a at *
  generalize addressBytes h.receiver = b at *
  refine ⟨?_, ?_, ?_, ?_, ?_⟩
  · exact slice_between v n (s ++ (z ++ (a ++ (d ++ (z ++ b))))) rfl (by omega) (by omega)
  · refine slice_between (v ++ n) s (z ++ (a ++ (d ++ (z ++ b)))) ?_ ?_ ?_
    all_goals simp only [List.append_assoc, List.length_append, hv, hn, hs]
  · refine slice_between (v ++ n ++ s ++ z) a (d ++ (z ++ b)) ?_ ?_ ?_
    all_goals simp only [List.append_assoc, List.length_append, hv, hn, hs, hz, hsender]
  · refine slice_between (v ++ n ++ s ++ z ++ a) d (z ++ b) ?_ ?_ ?_
    all_goals simp only [List.append_assoc, List.length_append, hv, hn, hs, hz, hsender, hd]
  · refine slice_between (v ++ n ++ s ++ z ++ a ++ d ++ z) b [] ?_ ?_ ?_
    all_goals
      simp only [List.append_assoc, List.append_nil, List.length_append, hv, hn, hs, hz, hsender, hd, hreceiver]

theorem describeHeader_packetHeader (hrange : h.InRange) : describeHeader (packetHeader h) = headerText h := by
  have hnonce : beNat (toBytes 8 h.nonce) = h.nonce := beNat_toBytes (hrange.nonce.trans_eq (by norm_num))
  have hsrc : beNat (toBytes 4 h.srcEid) = h.srcEid := beNat_toBytes (hrange.srcEid.trans_eq (by norm_num))
  have hdst : beNat (toBytes 4 h.dstEid) = h.dstEid := beNat_toBytes (hrange.dstEid.trans_eq (by norm_num))
  obtain ⟨e1, e2, e3, e4, e5⟩ := slice_packetHeader h
  unfold describeHeader
  dsimp only
  rw [e1, e2, e3, e4, e5, hnonce, hsrc, hdst]
  unfold headerText
  rfl

end Header

/-! ### The calls -/

section Calls

theorem length_sel (signature : String) : (sel signature).length = 4 := by
  rw [sel, List.length_take, keccak256Pure_length]
  rfl

theorem slice_callData (signature : String) (values : List AbiValue) :
    slice (callData signature values) 0 4 = sel signature := by
  rw [slice_zero, callData]
  exact List.take_left' (length_sel signature)

theorem drop_callData (signature : String) (values : List AbiValue) :
    (callData signature values).drop 4 = Abi.encode (values.map AbiValue.toArg) := by
  rw [callData, ← abiEncode_eq]
  exact List.drop_left' (length_sel signature)

theorem sel_setConfig : sel setConfigSignature = [0xcb, 0xed, 0x8b, 0x9c] := by decide +kernel
theorem sel_setReceiveVersion : sel setReceiveVersionSignature = [0x10, 0xdd, 0xb1, 0x37] := by decide +kernel
theorem sel_setTrustedRemote : sel setTrustedRemoteSignature = [0xeb, 0x8d, 0x72, 0xb7] := by decide +kernel
theorem sel_verify : sel verifySignature = [0x02, 0x23, 0x53, 0x6e] := by decide +kernel
theorem sel_commitVerification : sel commitVerificationSignature = [0xe6, 0x51, 0x06, 0xf8] := by decide +kernel

def verifyText (header : Header) (payloadHash : Bytes) (confirmations : ℕ) : Text :=
  "`verify(header, payloadHash, ".toList ++ render confirmations ++ ")`: attest ".toList ++ headerText header ++
    ", payload hash `".toList ++ hexOf payloadHash ++ "`".toList

def commitText (header : Header) (payee : Address) (amount gas : ℕ) : Text :=
  "`commitVerification(packet, ".toList ++ render gas ++ ")`: deliver ".toList ++ headerText header ++
    "; the escrow pays ".toList ++ render amount ++ " raw units to ".toList ++ quoted (hexOf (addressBytes payee))

theorem length_tail_bytes (data : Bytes) : (Abi.Arg.bytes data).tail.length ≤ data.length + 63 := by
  rw [Abi.Arg.tail, List.length_append, List.length_append, List.length_replicate, Abi.word, length_toBytes, Abi.padding]
  omega

def verifyForm (header hash : Bytes) (n : ℕ) : List Abi.Arg := [.bytes header, .static hash, .static (Abi.word n)]

theorem fits_verifyForm {hash : Bytes} (header : Bytes) (hhash : hash.length = 32) (n : ℕ) :
    ∀ a ∈ verifyForm header hash n, a.Fits := by
  intro a ha
  simp only [verifyForm, List.mem_cons, List.not_mem_nil, or_false] at ha
  rcases ha with rfl | rfl | rfl
  · trivial
  · exact hhash
  · exact length_toBytes 32 n

theorem room_verifyForm {header hash : Bytes} (hheader : header.length = 81) (hhash : hash.length = 32) (n : ℕ) :
    (Abi.encode (verifyForm header hash n)).length < 256 ^ 32 := by
  rw [Abi.encode, List.length_append, Abi.length_heads _ (fits_verifyForm header hhash n)]
  have htail := length_tail_bytes header
  have hle : (Abi.tails (verifyForm header hash n)).length ≤ 81 + 63 := by
    simp only [verifyForm, Abi.tails, List.flatMap_cons, List.flatMap_nil, List.length_append, Abi.Arg.tail_static,
      List.length_nil]
    omega
  refine lt_of_le_of_lt (Nat.add_le_add_left hle _) ?_
  rw [verifyForm]
  norm_num

theorem decodeCall_verify {library : Address} {header : Header} {payloadHash : Bytes} {n : ℕ} (hrange : header.InRange)
    (hhash : payloadHash.length = 32) (hn : n < 256 ^ 32) :
    decodeCall (Call.verify library header payloadHash n).data = .ok (verifyText header payloadHash n) := by
  have hfits := fits_verifyForm (packetHeader header) hhash n
  have hroom := room_verifyForm (length_packetHeader header) hhash n
  have hbody : (Call.verify library header payloadHash n).data.drop 4 =
      Abi.encode (verifyForm (packetHeader header) payloadHash n) := by
    have h := drop_callData verifySignature [.bytes (packetHeader header), .bytes32 payloadHash, .uint n]
    rw [List.map_cons, List.map_cons, List.map_cons, List.map_nil, AbiValue.toArg, AbiValue.toArg, AbiValue.toArg,
      hhash] at h
    exact h
  have hsel : slice (Call.verify library header payloadHash n).data 0 4 = sel verifySignature := slice_callData _ _
  generalize (Call.verify library header payloadHash n).data = data at hbody hsel
  have hheader : Abi.readBytes (Abi.encode (verifyForm (packetHeader header) payloadHash n)) 0 = packetHeader header :=
    Abi.readBytes_bytes [] hfits hroom
  have hword : Abi.readWord (Abi.encode (verifyForm (packetHeader header) payloadHash n)) 2 = n :=
    (Abi.readWord_static [.bytes (packetHeader header), .static payloadHash] hfits).trans (beNat_toBytes hn)
  have hbefore : ∀ b ∈ [Abi.Arg.bytes (packetHeader header)], b.Fits := by simp [Abi.Arg.Fits]
  have hslice : slice (Abi.encode (verifyForm (packetHeader header) payloadHash n)) 32 64 = payloadHash :=
    Abi.slice_head hbefore hhash
  unfold decodeCall
  dsimp only
  rw [hsel, hbody, sel_setConfig, sel_setReceiveVersion, sel_setTrustedRemote, sel_verify, if_neg (by decide),
    if_neg (by decide), if_neg (by decide), if_pos rfl, hheader, hword, hslice, describeHeader_packetHeader hrange]
  unfold verifyText
  rfl

theorem packet_parts (header : Header) (message : Bytes) :
    slice (packet (packetHeader header) message).1 0 81 = packetHeader header ∧
      (packet (packetHeader header) message).1.drop 113 = message := by
  have hguid := keccak256Pure_length ((packetHeader header).drop 1)
  have hlen := length_packetHeader header
  constructor
  · rw [slice_zero, packet]
    exact List.take_left' hlen
  · rw [packet, ← List.append_assoc]
    exact List.drop_left' (by rw [List.length_append, hguid, hlen])

def commitForm (full : Bytes) (gas : ℕ) : List Abi.Arg := [.bytes full, .static (Abi.word gas)]

theorem fits_commitForm (full : Bytes) (gas : ℕ) : ∀ a ∈ commitForm full gas, a.Fits := by
  intro a ha
  simp only [commitForm, List.mem_cons, List.not_mem_nil, or_false] at ha
  rcases ha with rfl | rfl
  · trivial
  · exact length_toBytes 32 gas

theorem length_releasePayload (m : Payload) : (releasePayload m).length ≤ 256 := by
  obtain ⟨packetType, safe, amount⟩ := m
  have h20 := length_addressBytes safe
  cases packetType with
  | true => rw [releasePayload_harmony, length_harmonyForm ptSend amount h20 h20]
  | false =>
    rw [releasePayload_legacy, length_legacyForm amount h20]
    decide

theorem room_commitForm (header : Header) (m : Payload) (gas : ℕ) :
    (Abi.encode (commitForm (packet (packetHeader header) (releasePayload m)).1 gas)).length < 256 ^ 32 := by
  rw [Abi.encode, List.length_append, Abi.length_heads _ (fits_commitForm _ gas)]
  have htail := length_tail_bytes (packet (packetHeader header) (releasePayload m)).1
  have hfull : (packet (packetHeader header) (releasePayload m)).1.length ≤ 81 + 32 + 256 := by
    have hmessage := length_releasePayload m
    rw [packet, List.length_append, List.length_append, keccak256Pure_length, length_packetHeader]
    omega
  have hle : (Abi.tails (commitForm (packet (packetHeader header) (releasePayload m)).1 gas)).length ≤ 500 := by
    simp only [commitForm, Abi.tails, List.flatMap_cons, List.flatMap_nil, List.length_append, Abi.Arg.tail_static,
      List.length_nil]
    omega
  refine lt_of_le_of_lt (Nat.add_le_add_left hle _) ?_
  rw [commitForm]
  norm_num

theorem decodeCall_commitVerification {library payee : Address} {header : Header} {packetType : Bool} {amount gas : ℕ}
    (hrange : header.InRange) (hamount : amount < 2 ^ 256) (hgas : gas < 256 ^ 32) :
    decodeCall (Call.commitVerification library header ⟨packetType, payee, amount⟩ gas).data =
      .ok (commitText header payee amount gas) := by
  obtain ⟨hfirst, hrest⟩ := packet_parts header (releasePayload ⟨packetType, payee, amount⟩)
  have hroom := room_commitForm header ⟨packetType, payee, amount⟩ gas
  have hbody : (Call.commitVerification library header ⟨packetType, payee, amount⟩ gas).data.drop 4 =
      Abi.encode (commitForm (packet (packetHeader header) (releasePayload ⟨packetType, payee, amount⟩)).1 gas) :=
    drop_callData _ _
  have hsel : slice (Call.commitVerification library header ⟨packetType, payee, amount⟩ gas).data 0 4 =
      sel commitVerificationSignature := slice_callData _ _
  generalize (Call.commitVerification library header ⟨packetType, payee, amount⟩ gas).data = data at hbody hsel
  generalize (packet (packetHeader header) (releasePayload ⟨packetType, payee, amount⟩)).1 = full at *
  have hfits := fits_commitForm full gas
  have hfull : Abi.readBytes (Abi.encode (commitForm full gas)) 0 = full := Abi.readBytes_bytes [] hfits hroom
  have hword : Abi.readWord (Abi.encode (commitForm full gas)) 1 = gas :=
    (Abi.readWord_static [.bytes full] hfits).trans (beNat_toBytes hgas)
  unfold decodeCall
  dsimp only
  rw [hsel, hbody, sel_setConfig, sel_setReceiveVersion, sel_setTrustedRemote, sel_verify, sel_commitVerification,
    if_neg (by decide), if_neg (by decide), if_neg (by decide), if_neg (by decide), if_pos rfl, hfull, hword, hfirst,
    hrest, describeHeader_packetHeader hrange, describeMessage_releasePayload payee packetType hamount]
  unfold commitText
  rfl

/-- The site whose payload hashes are those of `packet`. -/
def Site.withPackets (S : Site) : Site :=
  { S with payloadHash := fun header message => (packet (packetHeader header) (releasePayload message)).2 }

theorem verify_mem {S : Site} {e : ReceiveState} {locked : ℕ} {safe library : Address} {header : Header} {hash : Bytes}
    {n : ℕ} (h : .verify library header hash n ∈ releaseCalls S e locked safe) :
    header = releaseHeader S e safe ∧ hash = S.payloadHash header ⟨S.packetType, safe, locked⟩ ∧ n = confirmations := by
  rw [releaseCalls, innerCalls] at h
  split at h
  all_goals
    simp only [List.mem_cons, List.mem_append, List.not_mem_nil, reduceCtorEq, or_false, false_or,
      Call.verify.injEq] at h
    obtain ⟨_, rfl, rfl, rfl⟩ := h
    exact ⟨rfl, rfl, rfl⟩

theorem commitVerification_mem {S : Site} {e : ReceiveState} {locked : ℕ} {safe library : Address} {header : Header}
    {message : Payload} {gas : ℕ} (h : .commitVerification library header message gas ∈ releaseCalls S e locked safe) :
    header = releaseHeader S e safe ∧ message = ⟨S.packetType, safe, locked⟩ ∧ gas = dstGas := by
  rw [releaseCalls, innerCalls] at h
  split at h
  all_goals
    simp only [List.mem_cons, List.mem_append, List.not_mem_nil, reduceCtorEq, or_false, false_or,
      Call.commitVerification.injEq] at h
    obtain ⟨_, rfl, rfl, rfl⟩ := h
    exact ⟨rfl, rfl, rfl⟩

/-- `0x` before a text, if `prefixed`. -/
def withPrefix (prefixed : Bool) (raw : Text) : Text := if prefixed then '0' :: 'x' :: raw else raw

theorem withoutPrefix_withPrefix (prefixed : Bool) (data : Bytes) :
    withoutPrefix (withPrefix prefixed (hexText data)) = hexText data := by
  cases prefixed with
  | true => rfl
  | false => exact withoutPrefix_hexText data

/-- Every text that is read back from planned bytes names what was planned: messages, calls and OFT payloads. -/
theorem calldata_exact (S : Site) (e : ReceiveState) (safe : Address) {locked : ℕ} (hlocked : locked < 2 ^ 256)
    (hnonce : e.pathNonce < 2 ^ 64) (hchain : e.lzChainId < 2 ^ 32) :
    (∀ packetType, describeMessage (releasePayload ⟨packetType, safe, locked⟩) =
      (quoted (hexOf (addressBytes safe)), locked)) ∧
    (∀ library header hash n, .verify library header hash n ∈ releaseCalls S.withPackets e locked safe →
      decodeCall (Call.verify library header hash n).data =
        .ok (verifyText ⟨e.pathNonce, e.lzChainId, safe, e.lzChainId, S.escrow⟩
          (packet (packetHeader header) (releasePayload ⟨S.packetType, safe, locked⟩)).2 confirmations)) ∧
    (∀ library header message gas, .commitVerification library header message gas ∈ releaseCalls S.withPackets e locked safe →
      decodeCall (Call.commitVerification library header message gas).data =
        .ok (commitText ⟨e.pathNonce, e.lzChainId, safe, e.lzChainId, S.escrow⟩ safe locked dstGas)) ∧
    ∀ (prefixed : Bool) (packetType : ℕ) (source recipient : Address) (amount : ℕ), amount < 2 ^ 256 →
      decodeOftPayload (withPrefix prefixed (hexText (abiEncode
        [.uint packetType, .bytes (addressBytes source), .bytes (addressBytes recipient), .uint amount]))) =
          .ok (some (hexOf (addressBytes source)), some (hexOf (addressBytes recipient)), amount) ∧
      decodeOftPayload (withPrefix prefixed (hexText (abiEncode
        [.uint packetType, .bytes (addressBytes recipient), .uint amount]))) =
          .ok (none, some (hexOf (addressBytes recipient)), amount) := by
  have hrange : Header.InRange ⟨e.pathNonce, e.lzChainId, safe, e.lzChainId, S.escrow⟩ := ⟨hnonce, hchain, hchain⟩
  refine ⟨fun packetType => describeMessage_releasePayload safe packetType hlocked, ?_, ?_, ?_⟩
  · intro library header hash n hcall
    obtain ⟨rfl, rfl, rfl⟩ := verify_mem hcall
    exact decodeCall_verify hrange (keccak256Pure_length _) (by decide)
  · intro library header message gas hcall
    obtain ⟨rfl, rfl, rfl⟩ := commitVerification_mem hcall
    exact decodeCall_commitVerification hrange hlocked (by decide)
  · intro prefixed packetType source recipient amount hamount
    have hbytes : amount < 256 ^ 32 := hamount.trans_eq (by norm_num)
    have hraw := withoutPrefix_withPrefix prefixed
    rw [abiEncode_eq, abiEncode_eq]
    exact ⟨decodeOftPayload_harmony (length_addressBytes source) (length_addressBytes recipient) hbytes (hraw _),
      decodeOftPayload_upstream (length_addressBytes recipient) hbytes (hraw _)⟩

/-- An escrow 5 of the owner 7. -/
def oneSite : Site where
  escrow := 5
  owner := 7
  packetType := true
  defaultVersion := 1
  libraryLookup := fun _ => 9
  libraryVersion := fun _ => receiveUln301Version
  payloadHash := fun _ _ => []
  verifiable := fun _ _ _ _ => true
  sole_verifier := fun _ _ _ _ _ => rfl

def oneState : ReceiveState := ⟨116, 0, 1, 9, 4, [], [], []⟩

theorem calldata_exact_one :
    decodeCall (Call.commitVerification 9 ⟨4, 116, 3, 116, 5⟩ ⟨true, 3, 10 ^ 18⟩ dstGas).data =
      .ok (commitText ⟨4, 116, 3, 116, 5⟩ 3 (10 ^ 18) dstGas) :=
  (calldata_exact oneSite oneState 3 (show 10 ^ 18 < 2 ^ 256 by norm_num) (by decide) (by decide)).2.2.1 9 _ _ _
    (by simp [releaseCalls, innerCalls, Site.withPackets, oneSite, oneState, releaseHeader])

end Calls

end HarmonyMigration.Release
