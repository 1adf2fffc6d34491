import HarmonyMigration.Messages.Collect
import HarmonyMigration.Messages.Plan

/-! `scan-bridge-messages.py`: `rows_for` and `scan_pool`. -/

namespace HarmonyMigration.Messages

open Erc20

/-- What the rows of one call of `rows_for` share. -/
structure Base where
  poolId : String
  pathIndex : String
  harmonyToRemote : Bool
  sourceChain : String
  destinationChain : String

structure Row where
  base : Base
  nonce : ℕ
  category : String
  sender : Option Address
  recipient : Option Address
  amountRaw : ℕ
  adjustmentAccount : Option Address
  adjustmentRaw : ℤ
  note : String
  source : Option (ℕ × String)
  destination : Option (ℕ × String)

/-- An account and a sign, or no adjustment. -/
abbrev Chooser := Event → Option Address × ℤ

def toSender : Chooser := fun e => (e.sender, 1)
def fromSender : Chooser := fun e => (e.sender, -1)
def toRecipient : Chooser := fun e => (e.recipient, 1)
def fromRecipient : Chooser := fun e => (e.recipient, -1)
def noOne : Chooser := fun _ => (none, 0)

def rowFor (base : Base) (category : String) (chooser : Chooser) (note : String) (failedCredit : Bool)
    (nonce : ℕ) (event : Event) : Row :=
  let (account, sign) := chooser event
  let place := (event.block, event.tx)
  let atSource := !base.harmonyToRemote || event.kind = .send || event.kind = .nativeSend
  let row : Row :=
    { base, nonce, category, sender := event.sender, recipient := event.recipient,
      amountRaw := event.amount, adjustmentAccount := account,
      adjustmentRaw := if account.isSome then sign * event.amount else 0, note,
      source := if atSource then some place else none,
      destination := if atSource then none else some place }
  if event.kind = .failed then
    let row := { row with category := category ++ "_failed" }
    if failedCredit ∧ event.recipient.isSome then
      { row with
        adjustmentAccount := event.recipient, adjustmentRaw := event.amount
        note := "delivery failed; credited unless later retried" }
    else
      { row with
        adjustmentAccount := none, adjustmentRaw := 0
        note := "delivery failed; no tokens moved" }
  else row

def rowsFor (events : Events) (base : Base) (category : String) (chooser : Chooser) (note : String)
    (failedCredit : Bool) : List Row :=
  (events.entries.insertionSort fun a b => a.1 ≤ b.1).map fun e =>
    rowFor base category chooser note failedCredit e.1 e.2

inductive PoolKind where
  | remoteEscrow | harmonyOrigin
  deriving DecidableEq

inductive OrphanedPayouts where
  | debitRecipient | poolLoss
  deriving DecidableEq

def receiveKinds : List Kind := [.receive, .failed]
def sendKinds : List Kind := [.send, .nativeSend]

/-- A mint of the internal token is no send. -/
def acceptNativeSend (l : Log) : Bool := l.kind ≠ .nativeSend ∨ l.account ≠ 0

/-- A failed message counts for the path it came on. -/
def fromPath (harmonyLz : ℕ) (expected : String) (l : Log) : Bool :=
  l.kind ≠ .failed ∨ (l.sourceChainId = harmonyLz ∧ l.path = expected)

/-- What does not change over the paths of a pool. -/
structure Scan where
  poolId : String
  chain : String
  kind : PoolKind
  policy : OrphanedPayouts
  harmonyLz : ℕ
  snapshot : ℕ
  remoteState : ℕ
  harmonyCutoff : ℕ
  rangeSize : ℕ

/-- The counters and logs of one Harmony proxy and the adapter it sends to. -/
structure PathSources where
  inbound : Counter
  adapterLogs : List Log
  outbound : Counter
  proxyLogs : List Log
  expectedPath : String

/-- The counter and logs of one remote adapter. -/
structure AdapterSources where
  outbound : Counter
  logs : List Log

abbrev Found := List Row × List (String × Problem)

def shiftNonces (offset : ℕ) (events : Events) : Events :=
  .ofList (events.entries.map fun e => (e.1 + offset, e.2))

def Events.filter (p : Event → Bool) (events : Events) : Events :=
  ⟨events.entries.filter fun e => p e.2, events.nodup.sublist (List.filter_sublist.map Prod.fst)⟩

namespace Scan
variable (s : Scan)

def collectReceives (src : PathSources) (low high : ℕ) : Except ScanError (Events × List Problem) :=
  collect src.inbound src.adapterLogs receiveKinds (fromPath s.harmonyLz src.expectedPath) low high
    (0, s.remoteState) s.rangeSize

def collectHarmonySends (src : PathSources) (low high : ℕ) : Except ScanError (Events × List Problem) :=
  collect src.outbound src.proxyLogs sendKinds acceptNativeSend low high (0, s.harmonyCutoff) s.rangeSize

def collectRemoteSends (src : AdapterSources) (low high : ℕ) : Except ScanError (Events × List Problem) :=
  collect src.outbound src.logs sendKinds acceptNativeSend low high (0, s.remoteState) s.rangeSize

/-- `scan_pool`, one Harmony proxy. -/
def scanPath (base : Base) (item : PathAnalysis) (src : PathSources) : Except ScanError Found :=
  let hOutRb := item.nonces.harmonyOutbound.rollback - item.remotePathOffset
  let rInState := item.nonces.remoteInbound.state
  (s.collectReceives src hOutRb rInState).bind fun orphaned =>
  (s.collectHarmonySends src item.deliveredTotal.state item.nonces.harmonyOutbound.cutoff).bind fun undelivered =>
  let lost := shiftNonces item.remotePathOffset orphaned.1
  let problems := orphaned.2.map (Prod.mk "orphaned") ++ undelivered.2.map (Prod.mk "undelivered")
  match s.kind with
  | .remoteEscrow =>
    let payouts := match s.policy with
      | .debitRecipient => rowsFor lost base "orphaned_payout" fromRecipient "" false
      | .poolLoss => rowsFor lost base "orphaned_payout" noOne "loss stays with the pool" false
    .ok (payouts ++ rowsFor undelivered.1 base "undelivered_burn" toSender "" false, problems)
  | .harmonyOrigin =>
    let late := lost.filter fun e => s.snapshot < e.block
    let early := lost.filter fun e => e.block ≤ s.snapshot
    let rInSnapshot := src.inbound.read s.snapshot
    (s.collectReceives src rInSnapshot (min rInState hOutRb)).bind fun after =>
    .ok (rowsFor late base "orphaned_mint" noOne "after the snapshot block, so already excluded" false ++
      rowsFor early base "orphaned_mint_in_snapshot" fromRecipient "inside the snapshot, so debited" false ++
      rowsFor (shiftNonces item.remotePathOffset after.1) base "canonical_mint_after_snapshot" toRecipient "" true ++
      rowsFor undelivered.1 base "undelivered_lock" toSender "" false,
      problems ++ after.2.map (Prod.mk "after snapshot"))

/-- `scan_pool`, one remote adapter; the last part counts what the snapshot already undid. -/
def scanAdapter (base : Base) (item : AdapterAnalysis) (src : AdapterSources) : Except ScanError (Found × ℕ) :=
  let hInCut := item.harmonyInboundTotal.cutoff
  let rOutState := item.remoteOutbound.state
  match s.kind with
  | .remoteEscrow =>
    (s.collectRemoteSends src hInCut rOutState).bind fun undelivered =>
    .ok ((rowsFor undelivered.1 base "undelivered_deposit" toSender "" false,
      undelivered.2.map (Prod.mk "undelivered deposits")), 0)
  | .harmonyOrigin =>
    let rOutSnapshot := src.outbound.read s.snapshot
    (s.collectRemoteSends src hInCut (min rOutState rOutSnapshot)).bind fun undelivered =>
    (s.collectRemoteSends src item.harmonyInboundTotal.rollback hInCut).bind fun released =>
    .ok ((rowsFor undelivered.1 base "undelivered_return" toSender "sent at or before the snapshot block" false ++
      rowsFor (released.1.filter fun e => s.snapshot < e.block) base "canonical_release_after_snapshot"
        fromSender "" false,
      undelivered.2.map (Prod.mk "undelivered returns") ++
        released.2.map (Prod.mk "released after rollback")), rOutState - max hInCut rOutSnapshot)

def pathBase (index : ℕ) : Base := ⟨s.poolId, toString index, true, "harmony", s.chain⟩

def adapterBase (adapter : String) : Base := ⟨s.poolId, adapter, false, s.chain, "harmony"⟩

def scanPool (paths : List (PathAnalysis × PathSources)) (adapters : List (AdapterAnalysis × AdapterSources)) :
    Except ScanError (Found × ℕ) :=
  (paths.zipIdx.mapM fun p => s.scanPath (s.pathBase p.2) p.1.1 p.1.2).bind fun sent =>
  (adapters.mapM fun a => s.scanAdapter (s.adapterBase a.1.adapter) a.1 a.2).bind fun returned =>
  .ok ((sent.flatMap Prod.fst ++ returned.flatMap fun r => r.1.1,
    sent.flatMap Prod.snd ++ returned.flatMap fun r => r.1.2), (returned.map Prod.snd).sum)

end Scan

end HarmonyMigration.Messages
