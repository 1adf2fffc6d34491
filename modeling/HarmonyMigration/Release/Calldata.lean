import HarmonyMigration.ContractReview.RlpWrapper
import HarmonyMigration.Lib.Abi
import HarmonyMigration.Release.Plan
import HarmonyMigration.Tree.Keccak256

/-! `release_plan.py`: the bytes of the release calls, and what their signers are shown of them. -/

namespace HarmonyMigration.Release

open ContractReview Decimal Erc20 Keccak256 Slices

/-! ### Encoding -/

/-- A value with its ABI type. -/
inductive AbiValue
  | uint (n : ℕ)
  | address (a : Address)
  | bool (b : Bool)
  | bytes32 (data : Bytes)
  | bytes (data : Bytes)

/-- `-len(data) % 32`. -/
def paddingOf (data : Bytes) : ℕ := ((-(data.length : ℤ)) % 32).toNat

/-- The body of the loop of `abi_encode`. -/
def abiStep (base : ℕ) (s : Bytes × Bytes) : AbiValue → Bytes × Bytes
  | .bytes data =>
    (s.1 ++ toBytes 32 (base + s.2.length),
      s.2 ++ (toBytes 32 data.length ++ data ++ List.replicate (paddingOf data) 0))
  | .address a => (s.1 ++ toBytes 32 a.toNat, s.2)
  | .bool b => (s.1 ++ toBytes 32 (if b then 1 else 0), s.2)
  | .bytes32 data => (s.1 ++ (List.replicate (32 - data.length) 0 ++ data), s.2)
  | .uint n => (s.1 ++ toBytes 32 n, s.2)

def abiEncode (values : List AbiValue) : Bytes :=
  let s := values.foldl (abiStep (32 * values.length)) ([], [])
  s.1 ++ s.2

def ptSend : ℕ := 0

def packetVersion : ℕ := 1

def addressBytes (a : Address) : Bytes := toBytes 20 a.toNat

def releasePayload (m : Payload) : Bytes :=
  if m.packetType then
    abiEncode [.uint ptSend, .bytes (addressBytes m.payee), .bytes (addressBytes m.payee), .uint m.amount]
  else abiEncode [.bytes (addressBytes m.payee), .uint m.amount]

def packetHeader (h : Header) : Bytes :=
  [UInt8.ofNat packetVersion] ++ toBytes 8 h.nonce ++ toBytes 4 h.srcEid ++ addressWord h.sender ++
    toBytes 4 h.dstEid ++ addressWord h.receiver

/-- The packet behind its header and its payload hash. -/
def packet (header message : Bytes) : Bytes × Bytes :=
  let payload := keccak256Pure (header.drop 1) ++ message
  (header ++ payload, keccak256Pure payload)

/-- `SEL[signature]`. -/
def sel (signature : String) : Bytes := (keccak256Pure (signature.toList.map fun c => UInt8.ofNat c.toNat)).take 4

def setConfigSignature : String := "setConfig(uint16,uint16,uint256,bytes)"
def setReceiveVersionSignature : String := "setReceiveVersion(uint16)"
def setTrustedRemoteSignature : String := "setTrustedRemote(uint16,bytes)"
def verifySignature : String := "verify(bytes,bytes32,uint64)"
def commitVerificationSignature : String := "commitVerification(bytes,uint256)"
def addOwnerSignature : String := "addOwnerWithThreshold(address,uint256)"
def transferSignature : String := "transfer(address,uint256)"

def callData (signature : String) (values : List AbiValue) : Bytes := sel signature ++ abiEncode values

def configTypeExecutor : ℕ := 1
def configTypeUln : ℕ := 2

def ConfigType.number : ConfigType → ℕ
  | .executor => configTypeExecutor
  | .uln => configTypeUln

/-- The data of a planned call. -/
def Call.data : Call → Bytes
  | .setConfig version eid configType config =>
    callData setConfigSignature [.uint version, .uint eid, .uint configType.number, .bytes config]
  | .setTrustedRemote eid path => callData setTrustedRemoteSignature [.uint eid, .bytes path]
  | .setReceiveVersion version => callData setReceiveVersionSignature [.uint version]
  | .verify _ header payloadHash confirmations =>
    callData verifySignature [.bytes (packetHeader header), .bytes32 payloadHash, .uint confirmations]
  | .commitVerification _ header message gas =>
    callData commitVerificationSignature [.bytes (packet (packetHeader header) (releasePayload message)).1, .uint gas]

/-! ### What the signers read -/

def hexOf (data : Bytes) : Text := "0x".toList ++ hexText data

def describeHeader (h : Bytes) : Text :=
  let nonce := beNat (slice h 1 9)
  let src := beNat (slice h 9 13)
  let dst := beNat (slice h 45 49)
  "message ".toList ++ render nonce ++ " from `".toList ++ hexOf (slice h 25 45) ++ "` on chain ".toList ++ render src ++
    " to `".toList ++ hexOf (slice h 61 81) ++ "` on chain ".toList ++ render dst

def quoted (t : Text) : Text := "`".toList ++ t ++ "`".toList

/-- The recipient and the raw amount of a message. -/
def describeMessage (m : Bytes) : Text × ℕ :=
  let first := beNat (slice m 0 32)
  let found := if first = ptSend then (beNat (slice m 64 96), beNat (slice m 96 128)) else (first, beNat (slice m 32 64))
  (quoted (hexOf (slice m (found.1 + 32) (found.1 + 52))), found.2)

inductive DecodeError
  | shortConfig
  deriving DecidableEq

/-- `f"0x{x:040x}"`. -/
def hex40 (x : ℕ) : Text := "0x".toList ++ Hex.digits (max 40 (Nat.toDigits 16 x).length) x

def wordAt (w : List ℕ) (i : ℕ) : Except DecodeError ℕ := Except.ofOption w[i]? .shortConfig

def describeUln (head : Text) (eid : ℕ) (config : Bytes) : Except DecodeError Text :=
  let w := (chunks 32 config).map beNat
  (wordAt w 1).bind fun confirmations =>
  (wordAt w 2).bind fun required =>
  (wordAt w 3).bind fun optional =>
  (wordAt w 4).bind fun threshold =>
  if confirmations = 0 ∧ required = 0 ∧ optional = 0 ∧ threshold = 0 then
    .ok (head ++ ": verifier config for chain ".toList ++ render eid ++ " = unset (LayerZero's default)".toList)
  else
    (wordAt w 5).bind fun offset =>
    let place := 1 + offset / 32
    (wordAt w place).map fun count =>
    let dvns := (slice w (place + 1) (place + 1 + count)).map fun x => quoted (hex40 x)
    let extra := if optional = nilDvnCount then "none".toList else render optional
    head ++ ": verifiers for chain ".toList ++ render eid ++ " = required [".toList ++ ", ".toList.intercalate dvns ++
      "], optional ".toList ++ extra ++ ", ".toList ++ render confirmations ++ " confirmation".toList ++
      if confirmations ≠ 1 then "s".toList else []

def decodeCall (data : Bytes) : Except DecodeError Text :=
  let selector := slice data 0 4
  let body := data.drop 4
  let word := Abi.readWord body
  let dyn := Abi.readBytes body
  if selector = sel setConfigSignature then
    let version := word 0
    let eid := word 1
    let kind := word 2
    let config := dyn 3
    let head := "`setConfig(".toList ++ render version ++ ", ".toList ++ render eid ++ ", ".toList ++ render kind ++
      ", …)`".toList
    if kind = configTypeExecutor then
      let executor := slice config 12 32
      if executor = [] then .error .shortConfig
      else if beNat executor ≠ 0 then
        .ok (head ++ ": executor for chain ".toList ++ render eid ++ " = `".toList ++ hexOf executor ++ "`".toList)
      else .ok (head ++ ": executor for chain ".toList ++ render eid ++ " = unset (LayerZero's default)".toList)
    else describeUln head eid config
  else if selector = sel setReceiveVersionSignature then
    let version := word 0
    .ok ("`setReceiveVersion(".toList ++ render version ++ ")`: ".toList ++
      if version = 0 then "follow LayerZero's default receive library".toList
      else "pin receive library version ".toList ++ render version)
  else if selector = sel setTrustedRemoteSignature then
    let eid := word 0
    let path := dyn 1
    if path = [] then
      .ok ("`setTrustedRemote(".toList ++ render eid ++ ", 0x)`: trust no sender on chain ".toList ++ render eid)
    else
      .ok ("`setTrustedRemote(".toList ++ render eid ++ ", …)`: trust sender `".toList ++ hexOf (slice path 0 20) ++
        "` on chain ".toList ++ render eid)
  else if selector = sel verifySignature then
    .ok ("`verify(header, payloadHash, ".toList ++ render (word 2) ++ ")`: attest ".toList ++ describeHeader (dyn 0) ++
      ", payload hash `".toList ++ hexOf (slice body 32 64) ++ "`".toList)
  else if selector = sel commitVerificationSignature then
    let full := dyn 0
    let described := describeMessage (full.drop 113)
    .ok ("`commitVerification(packet, ".toList ++ render (word 1) ++ ")`: deliver ".toList ++
      describeHeader (slice full 0 81) ++ "; the escrow pays ".toList ++ render described.2 ++ " raw units to ".toList ++
      described.1)
  else if selector = sel addOwnerSignature then
    .ok ("`addOwnerWithThreshold(".toList ++ hexOf (slice body 12 32) ++ ", ".toList ++ render (word 1) ++ ")`".toList)
  else if selector = sel transferSignature then
    .ok ("`transfer(".toList ++ hexOf (slice body 12 32) ++ ", ".toList ++ render (word 1) ++ ")`".toList)
  else .ok ("selector ".toList ++ quoted (hexOf selector))

end HarmonyMigration.Release
