import HarmonyMigration.Lib.Erc20
import HarmonyMigration.Lib.Slices

/-! `release_plan.py`: what is read of an escrow's receive side, the owner's calls that
release it, and the escrow these calls act on. -/

namespace HarmonyMigration.Release

open Erc20 Slices

def confirmations : ℕ := 1
def dstGas : ℕ := 300000
def nilDvnCount : ℕ := 255
def receiveUln301Version : ℕ × ℕ × ℕ := (3, 0, 1)

/-- `_address_word`. -/
def addressWord (a : Address) : Bytes := toBytes 32 a.toNat

/-- `packed(sender, receiver)`: a path, as the escrow trusts it. -/
def packed (sender receiver : Address) : Bytes := toBytes 20 sender.toNat ++ toBytes 20 receiver.toNat

/-- `uln_config`: `dvn` is the only required verifier, and no field is left to a default. -/
def ulnConfig (dvn : Address) : Bytes :=
  [0x20, confirmations, 1, nilDvnCount, 0, 0xC0, 0x100, 1, dvn.toNat, 0].flatMap (toBytes 32)

inductive ConfigType where
  | executor | uln
  deriving DecidableEq, Repr

/-- The fields of a packet header, behind its version byte. -/
structure Header where
  nonce : ℕ
  srcEid : ℕ
  sender : Address
  dstEid : ℕ
  receiver : Address
  deriving DecidableEq

/-- `release_payload`: the credit, in the four-field or the legacy two-field format. -/
structure Payload where
  packetType : Bool
  payee : Address
  amount : ℕ
  deriving DecidableEq

inductive Call where
  | setConfig (version eid : ℕ) (configType : ConfigType) (config : Bytes)
  | setTrustedRemote (eid : ℕ) (path : Bytes)
  | setReceiveVersion (version : ℕ)
  | verify (library : Address) (header : Header) (payloadHash : Bytes) (confirmations : ℕ)
  | commitVerification (library : Address) (header : Header) (message : Payload) (gas : ℕ)
  deriving DecidableEq

/-! ### The escrow and LayerZero -/

structure Attestation where
  dvn : Address
  header : Header
  payloadHash : Bytes
  confirmations : ℕ
  deriving DecidableEq

/-- What the endpoint, its libraries and the escrow keep. Settings are held by library and
by source chain. -/
structure Escrow where
  trustedRemote : ℕ → Bytes
  uln : Address → ℕ → Bytes
  executor : Address → ℕ → Bytes
  storedVersion : ℕ
  inboundNonce : ℕ → Bytes → ℕ
  storedPayload : ℕ → Bytes → Bool
  attestations : List Attestation
  balance : ℕ
  received : Address → ℕ

/-- What no call changes: the parties, and the code the calls reach. A configuration that
names one verifier is met once that verifier attested with the required confirmations. -/
structure Site where
  escrow : Address
  owner : Address
  packetType : Bool
  defaultVersion : ℕ
  libraryLookup : ℕ → Address
  libraryVersion : Address → ℕ × ℕ × ℕ
  payloadHash : Header → Payload → Bytes
  verifiable : Bytes → List Attestation → Header → Bytes → Bool
  sole_verifier : ∀ dvn attestations header hash,
    ⟨dvn, header, hash, confirmations⟩ ∈ attestations →
      verifiable (ulnConfig dvn) attestations header hash = true

variable (S : Site)

/-- `getReceiveVersion`: a stored version of 0 stands for the default. -/
def receiveVersion (s : Escrow) : ℕ := if s.storedVersion = 0 then S.defaultVersion else s.storedVersion

/-- What a delivery needs: the verifier config is met, the owner may execute, the library is
the one in effect, the packet is next on a clear and trusted path, and the escrow reads its
format and holds the amount. -/
def Deliverable (s : Escrow) (library : Address) (h : Header) (m : Payload) : Prop :=
  S.verifiable (s.uln library h.srcEid) s.attestations h (S.payloadHash h m) = true ∧
    s.executor library h.srcEid = addressWord S.owner ∧
    library = S.libraryLookup (receiveVersion S s) ∧ h.receiver = S.escrow ∧
    s.storedPayload h.srcEid (packed h.sender h.receiver) = false ∧
    h.nonce = s.inboundNonce h.srcEid (packed h.sender h.receiver) + 1 ∧
    s.trustedRemote h.srcEid = packed h.sender h.receiver ∧
    m.packetType = S.packetType ∧ m.amount ≤ s.balance

instance (s : Escrow) (library : Address) (h : Header) (m : Payload) :
    Decidable (Deliverable S s library h m) := by unfold Deliverable; infer_instance

/-- One call of the owner; `none` is a revert. -/
def step (s : Escrow) : Call → Option Escrow
  | .setConfig version eid .uln config =>
    let library := S.libraryLookup version
    some { s with uln := Function.update s.uln library (Function.update (s.uln library) eid config) }
  | .setConfig version eid .executor config =>
    let library := S.libraryLookup version
    some { s with
      executor := Function.update s.executor library (Function.update (s.executor library) eid config) }
  | .setTrustedRemote eid path => some { s with trustedRemote := Function.update s.trustedRemote eid path }
  | .setReceiveVersion version => some { s with storedVersion := version }
  | .verify _ header payloadHash confirmations =>
    some { s with attestations := ⟨S.owner, header, payloadHash, confirmations⟩ :: s.attestations }
  | .commitVerification library header message _ =>
    if Deliverable S s library header message then
      let path := packed header.sender header.receiver
      some { s with
        inboundNonce := Function.update s.inboundNonce header.srcEid
          (Function.update (s.inboundNonce header.srcEid) path (header.nonce))
        attestations := s.attestations.filter fun a => a.header ≠ header
        balance := s.balance - message.amount
        received := Function.update s.received message.payee (s.received message.payee + message.amount) }
    else none

def exec (s : Escrow) (calls : List Call) : Option Escrow := calls.foldlM (step S) s

/-! ### The plan -/

/-- What `receive_state` returns, with what `plan` adds for the escrow. -/
structure ReceiveState where
  lzChainId : ℕ
  storedReceiveVersion : ℕ
  receiveVersion : ℕ
  receiveLibrary : Address
  pathNonce : ℕ
  previousTrustedRemote : Bytes
  previousUlnConfig : Bytes
  previousExecutor : Bytes
  deriving DecidableEq

inductive Refusal where
  | notReceiveUln301 (library : Address) (found : ℕ × ℕ × ℕ)
  | payloadStored
  | releaseStarted
  deriving DecidableEq

def receiveState (s : Escrow) (eid : ℕ) (safe : Address) : Except Refusal ReceiveState :=
  let version := receiveVersion S s
  let library := S.libraryLookup version
  let found := S.libraryVersion library
  let path := packed safe S.escrow
  let trusted := s.trustedRemote eid
  let uln := s.uln library eid
  let executor := s.executor library eid
  if found ≠ receiveUln301Version then .error (.notReceiveUln301 library found)
  else if s.storedPayload eid path then .error .payloadStored
  else if trusted = path ∨ executor = addressWord S.owner ∨ uln = ulnConfig S.owner then
    .error .releaseStarted
  else .ok {
    lzChainId := eid, storedReceiveVersion := s.storedVersion, receiveVersion := version,
    receiveLibrary := library, pathNonce := s.inboundNonce eid path + 1,
    previousTrustedRemote := trusted, previousUlnConfig := uln, previousExecutor := executor }

/-- `release_packet`: from the Safe on the escrow's own chain, at the path's next nonce. -/
def releaseHeader (e : ReceiveState) (safe : Address) : Header :=
  ⟨e.pathNonce, e.lzChainId, safe, e.lzChainId, S.escrow⟩

/-- The calls between the first and the last. -/
def innerCalls (e : ReceiveState) (lockedRaw : ℕ) (safe : Address) : List Call :=
  let eid := e.lzChainId
  let version := e.receiveVersion
  let header := releaseHeader S e safe
  let message : Payload := ⟨S.packetType, safe, lockedRaw⟩
  let pin : Bool := e.storedReceiveVersion ≠ version
  [.setConfig version eid .executor (addressWord S.owner)] ++
    (if pin then [.setReceiveVersion version] else []) ++
    [.setTrustedRemote eid (packed safe S.escrow),
      .verify e.receiveLibrary header (S.payloadHash header message) confirmations,
      .commitVerification e.receiveLibrary header message dstGas,
      .setTrustedRemote eid e.previousTrustedRemote] ++
    (if pin then [.setReceiveVersion e.storedReceiveVersion] else []) ++
    [.setConfig version eid .executor e.previousExecutor]

/-- `release_calls`: the verifier config is set first and written back last. -/
def releaseCalls (e : ReceiveState) (lockedRaw : ℕ) (safe : Address) : List Call :=
  .setConfig e.receiveVersion e.lzChainId .uln (ulnConfig S.owner) ::
    (innerCalls S e lockedRaw safe ++
      [.setConfig e.receiveVersion e.lzChainId .uln e.previousUlnConfig])

end HarmonyMigration.Release
