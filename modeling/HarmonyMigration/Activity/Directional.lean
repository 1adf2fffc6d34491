import HarmonyMigration.Lib.Except
import Mathlib.Data.List.Basic

/-! `account-directional-activity`: the newest transaction that an address signed and the newest that it received, from the
explorer's index of the address and the canonical bodies. -/

namespace HarmonyMigration.DirectionalActivity

open Except

abbrev Address := BitVec 160

abbrev Hash := BitVec 256

inductive Kind
  | regular | staking
  deriving DecidableEq

inductive Fatal
  | keyLength
  | noBlock (number : ℕ)
  | sender (txHash : Hash)
  | nonceExceedsCutoff (address : Address) (nonce : ℕ) (cutoffNonce : ℤ)
  deriving DecidableEq

/-! ### The chain -/

/-- A regular transaction; `sender` is none where it cannot be recovered. -/
structure RegularTx where
  hashByType : Hash
  ethHash : Hash
  hash : Hash
  sender : Option Address
  nonce : ℕ
  recipient : Option Address
  value : ℕ

structure StakingTx where
  hash : Hash
  sender : Option Address
  nonce : ℕ

structure Block where
  regular : List RegularTx
  staking : List StakingTx
  timestamp : ℕ

/-- What `scan` reads of a transaction: the hashes that are compared at a recorded position, those of the position map, and
the fields of the event. -/
structure TxBody where
  quick : List Hash
  names : List Hash
  sender : Option Address
  nonce : ℕ
  txHash : Hash
  recipient : Option Address
  value : Option ℕ
  deriving DecidableEq

def RegularTx.body (tx : RegularTx) : TxBody :=
  ⟨[tx.hashByType, tx.ethHash], [tx.hashByType, tx.ethHash, tx.hash], tx.sender, tx.nonce, tx.hashByType, tx.recipient,
    some tx.value⟩

def StakingTx.body (tx : StakingTx) : TxBody := ⟨[tx.hash], [tx.hash], tx.sender, tx.nonce, tx.hash, none, none⟩

def Block.txs (b : Block) : Kind → List TxBody
  | .regular => b.regular.map RegularTx.body
  | .staking => b.staking.map StakingTx.body

/-- The position map: of two transactions with one hash the later one is kept. -/
def Block.position (b : Block) (hash : Hash) (kind : Kind) : Option (ℕ × TxBody) :=
  ((b.txs kind).zipIdx.reverse.find? fun p => hash ∈ p.1.names).map Prod.swap

/-- The recorded position in the block, else anywhere in the block. -/
def Block.locate (b : Block) (index : ℕ) (hash : Hash) (kind : Kind) : Option (ℕ × TxBody) :=
  match (b.txs kind)[index]? with
  | some tx => if hash ∈ tx.quick then some (index, tx) else b.position hash kind
  | none => b.position hash kind

/-- A value of the lookup table: one that decodes as an entry of the current format, or bytes that do not. -/
inductive LookupValue
  | entry (blockHash : Hash) (blockIndex index : ℕ)
  | bytes (length number : ℕ)

structure Key where
  block : ℕ
  index : ℕ
  hash : Hash
  deriving DecidableEq

/-- An entry of the index; a key of another length is none. -/
structure Entry where
  key : Option Key
  value : List (BitVec 8)
  deriving DecidableEq

def Entry.flag (e : Entry) : BitVec 8 :=
  match e.value with
  | [flag] => flag
  | _ => 0

structure Worker where
  blocks : List Block
  lookups : Hash → Option LookupValue
  /-- The entries of an address, newest key first. -/
  explorer : Kind → Address → List Entry
  shard : ℕ
  cutoff : ℕ
  maxEntries : ℕ

namespace Worker

variable (w : Worker)

/-- The block, and the position where the current format records it. -/
def lookup (hash : Hash) : Option (ℕ × Option ℕ) :=
  match w.lookups hash with
  | none => none
  | some (.entry blockHash blockIndex index) => if blockHash ≠ 0 then some (blockIndex, some index) else none
  | some (.bytes length number) => if length = 0 ∨ 8 < length then none else some (number, none)

/-- The block and position of an entry: the lookup's, and the key's where the lookup has none. -/
def resolve (key : Key) : ℕ × ℕ :=
  match w.lookup key.hash with
  | some (block, position) => (block, position.getD key.index)
  | none => (key.block, key.index)

/-! ### The scan of an index -/

structure Event where
  block : ℕ
  index : ℕ
  timestamp : ℕ
  kind : Kind
  nonce : ℕ
  txHash : Hash
  sender : Option Address
  value : Option ℕ
  deriving DecidableEq

def event (kind : Kind) (block index : ℕ) (tx : TxBody) : Event :=
  ⟨block, index, 0, kind, tx.nonce, tx.txHash, tx.sender, tx.value⟩

def Later (block index : ℕ) (current : Option Event) : Prop :=
  ∀ e ∈ current, e.block < block ∨ block = e.block ∧ e.index < index

instance (block index : ℕ) (current : Option Event) : Decidable (Later block index current) :=
  inferInstanceAs (Decidable (∀ _ ∈ _, _))

structure Scan where
  signed : Option Event
  inbound : Option Event
  stale : ℕ

/-- What an index entry can change of a scan. -/
structure Could where
  sign : Bool
  receive : Bool

/-- Classify a located transaction by its sender and recipient. -/
def classify (address : Address) (could : Could) (current : Event) (tx : TxBody) (s : Scan) : Scan :=
  if tx.sender = some address then if could.sign then { s with signed := some current } else s
  else if could.receive ∧ tx.recipient = some address then { s with inbound := some current }
  else s

variable (kind : Kind) (address : Address) (wantSigned wantInbound : Bool)

/-- One entry of the index. -/
def step (key : Key) (flag : BitVec 8) (s : Scan) : Except Fatal Scan :=
  if flag = 1 ∧ wantSigned = false then .ok s
  else
    let (number, index) := w.resolve key
    if w.cutoff < number then .ok s
    else
      let could : Could :=
        { sign := wantSigned ∧ Later number index s.signed
          receive := wantInbound ∧ flag ≠ 1 ∧ kind = .regular ∧ Later number index s.inbound }
      if could.sign = false ∧ could.receive = false then .ok s
      else
        (ofOption w.blocks[number]? (.noBlock number)).bind fun block =>
        match block.locate index key.hash kind with
        | none => .ok { s with stale := s.stale + 1 }
        | some (i, tx) =>
          (require (tx.sender ≠ none) (.sender tx.txHash)).map fun _ =>
            classify address could (event kind number i tx) tx s

/-- The loop over the entries, with the number examined. -/
def scanLoop : ℕ → List Entry → Scan → Except Fatal (Scan × ℕ)
  | examined, [], s => .ok (s, examined)
  | examined, e :: rest, s =>
    if wantSigned = false ∧ wantInbound = false then .ok (s, examined)
    else
      (ofOption e.key .keyLength).bind fun key =>
      if w.maxEntries < examined + 1 then .ok (s, examined + 1)
      else (w.step kind address wantSigned wantInbound key e.flag s).bind fun s' => scanLoop (examined + 1) rest s'

def scan : Except Fatal (Scan × ℕ) :=
  w.scanLoop kind address wantSigned wantInbound 0 (w.explorer kind address) ⟨none, none, 0⟩

end Worker

/-! ### The result of an address -/

/-- A row of the candidates, as `loadCandidates` accepts it. -/
structure Candidate where
  address : Address
  nonce : ℤ
  contract : ℤ
  nonce_ge : -1 ≤ nonce
  nonce_lt : nonce < 2 ^ 63

inductive Check
  | contract | neverSigned | noneFoundNonceUnknown | indexGap | nonceUnknown | verified
  deriving DecidableEq

structure Result where
  signed : Option Worker.Event
  inbound : Option Worker.Event
  check : Check
  examined : ℕ
  stale : ℕ

/-- `int64(nonce)` of an unsigned nonce. -/
def int64 (nonce : ℕ) : ℤ := (BitVec.ofNat 64 nonce).toInt

namespace Worker

variable (w : Worker)

/-- The signed transaction of the two scans. -/
def newerSigned (regular staking : Option Event) : Option Event :=
  match staking with
  | none => regular
  | some s =>
    match regular with
    | none => some s
    | some r => if r.nonce < s.nonce then some s else some r

def checkSigned (c : Candidate) (signed : Option Event) : Except Fatal Check :=
  if c.contract = 1 then .ok .contract
  else if c.nonce = 0 then .ok .neverSigned
  else match signed with
    | none => if c.nonce < 0 then .ok .noneFoundNonceUnknown else .ok .indexGap
    | some e =>
      if c.nonce < 0 then .ok .nonceUnknown
      else if int64 e.nonce = c.nonce - 1 then .ok .verified
      else if int64 e.nonce < c.nonce - 1 then .ok .indexGap
      else .error (.nonceExceedsCutoff c.address e.nonce c.nonce)

/-- The event with its block's time. -/
def stamp (e : Option Event) : Except Fatal (Option Event) :=
  match e with
  | none => .ok none
  | some e =>
    (ofOption w.blocks[e.block]? (.noBlock e.block)).map fun block => some { e with timestamp := block.timestamp }

def wantsSigned (c : Candidate) : Bool := c.contract ≠ 1 ∧ c.nonce ≠ 0

/-- The scan of the staking index, on shard 0 only. -/
def scanStaking (c : Candidate) : Except Fatal (Scan × ℕ) :=
  if wantsSigned c ∧ w.shard = 0 then w.scan .staking c.address true false else .ok (⟨none, none, 0⟩, 0)

def process (c : Candidate) : Except Fatal Result :=
  (w.scan .regular c.address (wantsSigned c) true).bind fun (regular, examined) =>
  (w.scanStaking c).bind fun (staking, examinedStaking) =>
  let signed := newerSigned regular.signed staking.signed
  (checkSigned c signed).bind fun check =>
  (w.stamp signed).bind fun signed =>
  (w.stamp regular.inbound).map fun inbound =>
    ⟨signed, inbound, check, examined + examinedStaking, regular.stale + staking.stale⟩

end Worker

end HarmonyMigration.DirectionalActivity
