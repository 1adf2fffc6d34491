import HarmonyMigration.Airdrop.SafeTx
import HarmonyMigration.Lib.Dict

/-! `safe_batch.py crosscheck`: the transactions that wait in a Safe's queue against the sheet they
should pay, everything the Safe has paid, and the exchanges' wallets. -/

namespace HarmonyMigration.Airdrop.Crosscheck

open Erc20 Except Slices

inductive InputError where
  | notNumber (line : ℕ)
  | notNonNegative (line : ℕ)
  | tooManyDecimals (line : ℕ)
  | zeroAddress (line : ℕ)
  | emptySheet
  | sameFileName
  | noWalletFiles
  | noSuchExchange (exchange : String)
  | notSameAddress (exchange : String)
  | hashNotListed
  | nothingQueued
  | competingProposals
  deriving DecidableEq

/-! ### The sheet -/

/-- A number as `Decimal` reads it. -/
structure Decimal where
  finite : Bool
  negative : Bool
  digits : ℕ
  exponent : ℤ
  deriving DecidableEq

structure SheetLine where
  address : Address
  amount : Option Decimal
  line : ℕ
  deriving DecidableEq

structure SheetRow where
  address : Address
  amount : ℕ
  tolerance : ℕ
  line : ℕ
  deriving DecidableEq

/-- The last decimal that is shown, in atto. -/
def Decimal.unit (d : Decimal) : ℕ := 10 ^ (18 + d.exponent).toNat

def sheetAmount (text : Option Decimal) (line : ℕ) : Except InputError (ℕ × ℕ) :=
  match text with
  | none => .error (.notNumber line)
  | some value =>
    (require (value.finite ∧ ¬(value.negative ∧ value.digits ≠ 0)) (.notNonNegative line)).bind fun _ =>
    (require (-18 ≤ value.exponent) (.tooManyDecimals line)).map fun _ =>
      (value.digits * value.unit, value.unit / 2)

def readLine (l : SheetLine) : Except InputError SheetRow :=
  (sheetAmount l.amount l.line).bind fun amount =>
  (require (l.address ≠ 0) (.zeroAddress l.line)).map fun _ => ⟨l.address, amount.1, amount.2, l.line⟩

def readSheet (lines : List SheetLine) : Except InputError (List SheetRow) :=
  (lines.mapM readLine).bind fun rows =>
  (require (rows ≠ []) .emptySheet).map fun _ => rows

/-! ### The exchange inventory -/

/-- A record of an exchange's wallet file; an address is `none` where its text is none. -/
structure WalletRecord where
  exchange : String
  wallet : Option Address
  destination : Option Address
  stakingDestination : Option Address
  deriving DecidableEq

structure WalletFile where
  name : String
  sha256 : String
  records : List WalletRecord
  deriving DecidableEq

/-- What `summary.json` lists for one exchange. -/
structure ExchangeInfo where
  exchange : String
  destinationMode : String
  output : String
  sha256 : String
  rows : ℤ
  deriving DecidableEq

inductive InventoryProblem where
  | notAddress (name : String) (line : ℕ)
  | missing (name exchange : String)
  | sha256Differs (name : String)
  | rowsDiffer (name : String)
  deriving DecidableEq

structure Inventory where
  wallets : Dict Address String
  destinations : Dict Address String
  counts : Dict String ℕ
  problems : List InventoryProblem
  modes : Dict String String

def Inventory.empty : Inventory := ⟨.empty, .empty, .empty, [], .empty⟩

def readRecord (name : String) (inventory : Inventory) (r : WalletRecord × ℕ) : Inventory :=
  match r.1.wallet with
  | none => { inventory with problems := inventory.problems ++ [.notAddress name r.2] }
  | some wallet =>
    { inventory with
      wallets := inventory.wallets.setdefault wallet r.1.exchange
      counts := inventory.counts.add r.1.exchange 1
      destinations :=
        let first := match r.1.destination with
          | some target => inventory.destinations.setdefault target (r.1.exchange ++ " delivery address")
          | none => inventory.destinations
        match r.1.stakingDestination with
        | some target => first.setdefault target (r.1.exchange ++ " staking delivery address")
        | none => first }

def readFile (inventory : Inventory) (file : WalletFile) : Inventory :=
  (file.records.zipIdx 2).foldl (readRecord file.name) inventory

def sortedFiles (files : List WalletFile) : List WalletFile := files.insertionSort fun a b => a.name ≤ b.name

/-- The files against what `summary.json` lists. -/
def summaryProblems (files : List WalletFile) (listed : List ExchangeInfo) : List InventoryProblem :=
  (listed.insertionSort fun a b => a.exchange ≤ b.exchange).flatMap fun info =>
    match files.find? fun f => f.name = info.output with
    | none => [.missing info.output info.exchange]
    | some file =>
      if file.sha256 ≠ info.sha256 then [.sha256Differs info.output]
      else if (file.records.length : ℤ) ≠ info.rows then [.rowsDiffer info.output]
      else []

def readInventory (files : List WalletFile) (summary : Option (List ExchangeInfo)) : Except InputError Inventory :=
  (require ((files.map WalletFile.name).Nodup) .sameFileName).bind fun _ =>
  (require (files ≠ []) .noWalletFiles).map fun _ =>
    let inventory := (sortedFiles files).foldl readFile .empty
    match summary with
    | none => inventory
    | some listed =>
      { inventory with
        problems := inventory.problems ++ summaryProblems files listed
        modes := Dict.ofList (listed.map fun info => (info.exchange, info.destinationMode)) }

/-- `known_as` is not the empty text. -/
def Inventory.Known (inventory : Inventory) (a : Address) : Prop :=
  a ∈ inventory.wallets.keys ∨ a ∈ inventory.destinations.keys

instance (inventory : Inventory) (a : Address) : Decidable (inventory.Known a) := by
  unfold Inventory.Known; infer_instance

/-! ### The Safe's transactions -/

/-- A record of the transaction service; `call` is `none` where a field cannot be read. -/
structure ServiceRecord where
  safe : Address
  safeTxHash : Bytes
  nonce : BitVec 256
  call : Option SafeCall
  executed : Bool
  successful : Bool
  deriving DecidableEq

def serviceSafeTx (r : ServiceRecord) : Option SafeTx := r.call.map fun call => { call with nonce := r.nonce }

inductive Unreadable where
  | otherSafe (safe : Address)
  | hashDiffers (listed computed : Bytes)
  | cannotRead
  deriving DecidableEq

structure Proposal where
  nonce : ℕ
  safeTxHash : Bytes
  executed : Bool
  successful : Bool
  transfers : List (Address × ℕ)
  otherCalls : List NotPlain
  unreadable : Option Unreadable
  deriving DecidableEq

def readProposal (chainId : ℕ) (safe token : Address) (r : ServiceRecord) : Proposal :=
  let blank : Proposal := ⟨r.nonce.toNat, r.safeTxHash, r.executed, r.successful, [], [], none⟩
  if r.safe ≠ safe then { blank with unreadable := some (.otherSafe r.safe) }
  else match serviceSafeTx r with
    | none => { blank with unreadable := some .cannotRead }
    | some tx =>
      let computed := Airdrop.safeTxHash chainId safe tx
      { blank with
        transfers := (tokenTransfers tx token).1
        otherCalls := (tokenTransfers tx token).2
        unreadable := if computed ≠ r.safeTxHash then some (.hashDiffers r.safeTxHash computed) else none }

/-! ### The five checks -/

structure Input where
  chainId : ℕ
  safe : Address
  token : Address
  sheet : List SheetLine
  files : List WalletFile
  summary : Option (List ExchangeInfo)
  exchange : List String
  exclude : List (List Address)
  records : List ServiceRecord
  nextNonce : ℕ
  wanted : List Bytes

/-- The exchanges named with `--exchange` have wallets and are delivered at them. -/
def checkNamed (inventory : Inventory) : List String → Except InputError Unit
  | [] => .ok ()
  | e :: rest =>
    (require (e ∈ inventory.counts.keys) (.noSuchExchange e)).bind fun _ =>
    (require (inventory.modes.get? e = some "same_address") (.notSameAddress e)).bind fun _ =>
    checkNamed inventory rest

/-- Waits in the queue and can still be executed. -/
def Proposal.Queued (nextNonce : ℕ) (p : Proposal) : Prop := ¬p.executed ∧ nextNonce ≤ p.nonce

instance (nextNonce : ℕ) (p : Proposal) : Decidable (p.Queued nextNonce) := by
  unfold Proposal.Queued; infer_instance

/-- The transactions to check: those picked by hash, or all that wait and pay a wallet of the sheet. -/
def selectTargets (i : Input) (proposals : List Proposal) : Except InputError (List Proposal) :=
  let inSheet := i.sheet.map SheetLine.address
  let picked := proposals.filter fun p => p.safeTxHash ∈ i.wanted
  let waiting := proposals.filter fun p => p.Queued i.nextNonce ∧ (p.transfers.any fun t => t.1 ∈ inSheet) = true
  let targets := if i.wanted ≠ [] then picked else waiting
  (require (i.wanted.all fun h => h ∈ targets.map Proposal.safeTxHash) .hashNotListed).bind fun _ =>
  (require (i.wanted ≠ [] ∨ targets ≠ []) .nothingQueued).bind fun _ =>
  (require ((targets.map Proposal.nonce).Nodup) .competingProposals).map fun _ =>
    targets.insertionSort fun a b => a.nonce ≤ b.nonce

inductive Reason where
  | notInSheet
  | differentAmount (amount : ℕ) (row : SheetRow)
  | notPaid
  | paidBefore (nonce amount : ℕ)
  | alsoQueued (nonce : ℕ) (safeTxHash : Bytes)
  | knownWallet
  | excluded
  deriving DecidableEq

inductive Finding where
  | unreadable (nonce : ℕ) (why : Unreadable)
  | otherCall (nonce : ℕ) (why : NotPlain)
  | nonceUsed (nonce : ℕ)
  | paidTwice (a : Address) (first second : ℕ)
  | listedTwice (a : Address) (line : ℕ)
  | inventory (problem : InventoryProblem)
  | flagged (a : Address) (reason : Reason)
  deriving DecidableEq

structure Payment where
  nonce : ℕ
  position : ℕ
  amount : ℕ
  deriving DecidableEq

structure Paid where
  paid : Dict Address Payment
  problems : List Finding

def payStep (nonce : ℕ) (s : Paid) (t : (Address × ℕ) × ℕ) : Paid :=
  match s.paid.get? t.1.1 with
  | some first => { s with problems := s.problems ++ [.paidTwice t.1.1 first.nonce nonce] }
  | none => { s with paid := s.paid.insert t.1.1 ⟨nonce, t.2, t.1.2⟩ }

def checkTarget (nextNonce : ℕ) (s : Paid) (t : Proposal) : Paid :=
  let problems := s.problems ++ t.unreadable.toList.map (.unreadable t.nonce) ++ t.otherCalls.map (.otherCall t.nonce) ++
    if ¬t.executed ∧ t.nonce < nextNonce then [.nonceUsed t.nonce] else []
  (t.transfers.zipIdx 1).foldl (payStep t.nonce) { s with problems }

structure Listed where
  rows : Dict Address SheetRow
  problems : List Finding

def listStep (s : Listed) (row : SheetRow) : Listed :=
  if row.address ∈ s.rows.keys then { s with problems := s.problems ++ [.listedTwice row.address row.line] }
  else { s with rows := s.rows.insert row.address row }

/-- `abs(amount - row.amount) > row.tolerance`. -/
def differs (amount : ℕ) (row : SheetRow) : Prop := (row.tolerance : ℤ) < |(amount : ℤ) - row.amount|

instance (amount : ℕ) (row : SheetRow) : Decidable (differs amount row) := by unfold differs; infer_instance

/-- What is wrong with one payment, held against the sheet. -/
def paymentReason (rows : Dict Address SheetRow) (e : Address × Payment) : Option Finding :=
  match rows.get? e.1 with
  | none => some (.flagged e.1 .notInSheet)
  | some row => if differs e.2.amount row then some (.flagged e.1 (.differentAmount e.2.amount row)) else none

def unpaid (paid : Dict Address Payment) (rows : Dict Address SheetRow) : List Address :=
  rows.keys.filter fun a => a ∉ paid.keys

def paySection (nextNonce : ℕ) (targets : List Proposal) (sheet : List SheetRow) :
    Dict Address Payment × Dict Address SheetRow × List Finding :=
  let paid := targets.foldl (checkTarget nextNonce) ⟨.empty, []⟩
  let listed := sheet.foldl listStep ⟨.empty, []⟩
  (paid.paid, listed.rows, paid.problems ++ listed.problems ++ paid.paid.entries.filterMap (paymentReason listed.rows) ++
    (unpaid paid.paid listed.rows).map fun a => .flagged a .notPaid)

/-- The transfers of `proposals` that go to one of `everyone`. -/
def overlap (everyone : List Address) (proposals : List Proposal) (reason : Proposal → ℕ → Reason) : List Finding :=
  everyone.flatMap fun a => proposals.flatMap fun p => (p.transfers.filter fun t => t.1 = a).map fun t =>
    .flagged a (reason p t.2)

def historySection (everyone : List Address) (executed : List Proposal) : List Finding :=
  executed.flatMap (fun p => p.unreadable.toList.map (.unreadable p.nonce)) ++
    overlap everyone (executed.filter fun p => p.successful) fun p amount => .paidBefore p.nonce amount

def queueSection (everyone : List Address) (queued : List Proposal) : List Finding :=
  queued.flatMap (fun p => p.unreadable.toList.map (.unreadable p.nonce)) ++
    overlap everyone queued fun p _ => .alsoQueued p.nonce p.safeTxHash

/-- A wallet of a named exchange that is nobody's delivery address. -/
def Inventory.Allowed (inventory : Inventory) (own : List String) (a : Address) : Prop :=
  (inventory.wallets.get? a).any (fun e => e ∈ own) ∧ a ∉ inventory.destinations.keys

instance (inventory : Inventory) (own : List String) (a : Address) : Decidable (inventory.Allowed own a) := by
  unfold Inventory.Allowed; infer_instance

def exchangeSection (everyone : List Address) (inventory : Inventory) (own : List String) : List Finding :=
  inventory.problems.map .inventory ++
    (everyone.filter fun a => inventory.Known a ∧ ¬inventory.Allowed own a).map fun a => .flagged a .knownWallet

def excludeSection (everyone addresses : List Address) : List Finding :=
  (everyone.filter fun a => a ∈ addresses).map fun a => .flagged a .excluded

structure Report where
  targets : List Proposal
  paid : Dict Address Payment
  /-- findings of each numbered check -/
  sections : List (List Finding)

/-- No section failed. -/
def Report.Passes (r : Report) : Prop := ∀ s ∈ r.sections, s = []

instance (r : Report) : Decidable r.Passes := by unfold Report.Passes; infer_instance

def Input.proposals (i : Input) : List Proposal := i.records.map (readProposal i.chainId i.safe i.token)

def cmdCrosscheck (i : Input) : Except InputError Report :=
  (readSheet i.sheet).bind fun sheet =>
  (readInventory i.files i.summary).bind fun inventory =>
  (checkNamed inventory i.exchange).bind fun _ =>
  (selectTargets i i.proposals).bind fun targets =>
  let chosen := targets.map Proposal.safeTxHash
  let executed := i.proposals.filter fun p => p.executed ∧ p.safeTxHash ∉ chosen
  let queued := i.proposals.filter fun p => p.Queued i.nextNonce ∧ p.safeTxHash ∉ chosen
  let (paid, rows, first) := paySection i.nextNonce targets sheet
  let everyone := paid.keys ++ unpaid paid rows
  .ok ⟨targets, paid, [first, historySection everyone executed, queueSection everyone queued,
    exchangeSection everyone inventory i.exchange] ++ i.exclude.map (excludeSection everyone)⟩

end HarmonyMigration.Airdrop.Crosscheck
