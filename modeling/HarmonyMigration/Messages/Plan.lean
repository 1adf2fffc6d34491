import Mathlib.Tactic

/-! `build-snapshot-plan.py`: `analyze_pool`, from the endpoint counters of a pool. -/

namespace HarmonyMigration.Messages

/-- A value at each of the `TIME_LABELS`. -/
structure Labels (α : Type) where
  rollback : α
  cutoff : α

/-- A value at each of the `REMOTE_LABELS`. -/
structure RemoteLabels (α : Type) extends Labels α where
  state : α

/-- The counters of one Harmony proxy; the previous adapters' are lists. -/
structure PathNonces (α : Type) where
  harmonyOutbound : Labels α
  remoteInbound : RemoteLabels α
  remoteInboundPrevious : RemoteLabels (List α)

/-- The counters of one remote adapter, with Harmony's for each proxy. -/
structure AdapterNonces (α : Type) where
  adapter : String
  remoteOutbound : RemoteLabels α
  harmonyInbound : Labels (List α)

section Readable
variable {α β : Type}

def Labels.mapM (f : α → Option β) (l : Labels α) : Option (Labels β) := do
  return ⟨← f l.rollback, ← f l.cutoff⟩

def RemoteLabels.mapM (f : α → Option β) (l : RemoteLabels α) : Option (RemoteLabels β) := do
  return ⟨← l.toLabels.mapM f, ← f l.state⟩

/-- Unreadable counters are `None` in the state file. -/
def PathNonces.readable (n : PathNonces (Option ℕ)) : Option (PathNonces ℕ) := do
  return ⟨← n.harmonyOutbound.mapM id, ← n.remoteInbound.mapM id,
    ← n.remoteInboundPrevious.mapM (List.mapM id)⟩

def AdapterNonces.readable (n : AdapterNonces (Option ℕ)) : Option (AdapterNonces ℕ) := do
  return ⟨n.adapter, ← n.remoteOutbound.mapM id, ← n.harmonyInbound.mapM (List.mapM id)⟩

end Readable

inductive Reason where
  | remoteInboundExceedsHarmony
  | sendsCollideWithOrphaned
  | previousAdapterReceived
  | harmonyInboundExceedsRemote
  deriving DecidableEq, Repr

structure PathAnalysis where
  orphaned : ℕ
  sendsAfterRollback : ℤ
  undelivered : ℕ
  deliveredTotal : RemoteLabels ℕ
  remotePathOffset : ℕ
  nonces : PathNonces ℕ

structure AdapterAnalysis where
  adapter : String
  deliveredAfterHarmonyRollback : ℤ
  undelivered : ℕ
  harmonyInboundTotal : Labels ℕ
  remoteOutbound : RemoteLabels ℕ

def PathNonces.delivered (n : PathNonces ℕ) : RemoteLabels ℕ where
  rollback := n.remoteInbound.rollback + n.remoteInboundPrevious.rollback.sum
  cutoff := n.remoteInbound.cutoff + n.remoteInboundPrevious.cutoff.sum
  state := n.remoteInbound.state + n.remoteInboundPrevious.state.sum

def analyzePath (n : PathNonces ℕ) : PathAnalysis where
  orphaned := n.delivered.state - n.harmonyOutbound.rollback
  sendsAfterRollback := n.harmonyOutbound.cutoff - n.harmonyOutbound.rollback
  undelivered := n.harmonyOutbound.cutoff - n.delivered.state
  deliveredTotal := n.delivered
  remotePathOffset := n.remoteInboundPrevious.state.sum
  nonces := n

def pathReasons (item : PathAnalysis) : List Reason :=
  (if item.deliveredTotal.rollback > item.nonces.harmonyOutbound.rollback then
    [.remoteInboundExceedsHarmony] else []) ++
  (if item.orphaned ≠ 0 ∧ item.sendsAfterRollback ≠ 0 then [.sendsCollideWithOrphaned] else []) ++
  (if item.orphaned ≠ 0 ∧ item.remotePathOffset ≠ item.nonces.remoteInboundPrevious.rollback.sum then
    [.previousAdapterReceived] else [])

def analyzeAdapter (a : AdapterNonces ℕ) : AdapterAnalysis where
  adapter := a.adapter
  deliveredAfterHarmonyRollback := (a.harmonyInbound.cutoff.sum : ℤ) - a.harmonyInbound.rollback.sum
  undelivered := a.remoteOutbound.state - a.harmonyInbound.cutoff.sum
  harmonyInboundTotal := ⟨a.harmonyInbound.rollback.sum, a.harmonyInbound.cutoff.sum⟩
  remoteOutbound := a.remoteOutbound

def adapterReasons (item : AdapterAnalysis) : List Reason :=
  if item.harmonyInboundTotal.rollback > item.remoteOutbound.rollback then
    [.harmonyInboundExceedsRemote] else []

inductive Analysis where
  | unreadable
  | analyzed (reasons : List Reason) (harmonyToRemote : List PathAnalysis)
      (remoteToHarmony : List AdapterAnalysis)

def analyzePool (paths : List (PathNonces (Option ℕ))) (adapters : List (AdapterNonces (Option ℕ))) : Analysis :=
  match paths.mapM PathNonces.readable, adapters.mapM AdapterNonces.readable with
  | some paths, some adapters =>
    let h2r := paths.map analyzePath
    let r2h := adapters.map analyzeAdapter
    .analyzed (h2r.flatMap pathReasons ++ r2h.flatMap adapterReasons) h2r r2h
  | _, _ => .unreadable

end HarmonyMigration.Messages
