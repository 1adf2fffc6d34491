import HarmonyMigration.Airdrop.One1
import HarmonyMigration.Lib.ExceptRun
import Mathlib.Data.Char
import Mathlib.Data.List.Lex

/-! `migration-claims-diff`: the difference of two claim ledgers by a merge on their keys, and `verify-diff-arithmetic`, which reads
that difference back. -/

namespace HarmonyMigration.ClaimsDiff

open Airdrop.One1 Decimal Except

/-- `str.lower`, which leaves a text alone that is in lower case already. -/
structure Lowercase extends Lower where
  lower_lower : ∀ t : Text, lower (lower t) = lower t

def priceNumerator : ℤ := 74801

def attoScale : ℕ := 18

def usdScale : ℕ := 26

def usdThreshold : ℤ := 10 ^ usdScale

inductive Component
  | liquidShard0
  | liquidShard1
  | liquidTotal
  | activeStakedOrDelegated
  | pendingUndelegation
  | unclaimedStakingReward
  | pendingCrossShard
  | totalClaim
  deriving DecidableEq

def components : List Component :=
  [.liquidShard0, .liquidShard1, .liquidTotal, .activeStakedOrDelegated, .pendingUndelegation, .unclaimedStakingReward,
    .pendingCrossShard, .totalClaim]

/-- The fields besides the amounts whose change is reported. -/
inductive Metadata
  | nonceShard0
  | nonceShard1
  | codeHashShard0
  | codeHashShard1
  deriving DecidableEq

def metadataFields : List Metadata := [.nonceShard0, .nonceShard1, .codeHashShard0, .codeHashShard1]

structure LedgerRow where
  secureKey : Text
  address : Text
  claimsShard0Block : Text
  claimsShard1Block : Text
  valuationPriceReferenceShard0Block : Text
  valuationPriceUsdPerOne : Text
  amount : Component → ℤ
  metadata : Metadata → Text

inductive ChangeType
  | created
  | deleted
  | amountChanged
  | metadataChanged
  | unchanged
  deriving DecidableEq

/-- An amount as it is written twice, in atto and in ONE. -/
structure Rendering where
  atto : Text
  one : Text
  deriving DecidableEq

structure DiffRow where
  secureKey : Text
  address : Text
  changeType : ChangeType
  oldClaimsShard0Block : Text
  oldClaimsShard1Block : Text
  finalClaimsShard0Block : Text
  finalClaimsShard1Block : Text
  valuationPriceReferenceShard0Block : Text
  valuationPriceUsdPerOne : Text
  oldOver1usd : Text
  finalOver1usd : Text
  oldTotalUsd : Text
  finalTotalUsd : Text
  deltaTotalUsd : Text
  old : Component → Rendering
  final : Component → Rendering
  delta : Component → Rendering
  oldMetadata : Metadata → Text
  finalMetadata : Metadata → Text

inductive Error
  | notIncreasing (line : ℕ)
  | negative (key : Text)
  | noAddress (key : Text)
  | addressChanged (key : Text)
  /-- No error of the source: the merge has not ended. -/
  | running
  deriving DecidableEq

/-! ### The difference -/

def checkKey (previous : Option Text) (row : LedgerRow × ℕ) : Except Error (Option Text) :=
  (require (∀ p ∈ previous, p < row.1.secureKey) (.notIncreasing row.2)).map fun _ => some row.1.secureKey

/-- The rows with their keys in lower case. The source checks each row when it is read; a run that succeeds has read all. -/
def rows (u : Lower) (file : List LedgerRow) : Except Error (List LedgerRow) :=
  let rows := file.map fun row => { row with secureKey := u.lower row.secureKey }
  ((rows.zipIdx 2).foldlM checkKey none).map fun _ => rows

/-- `atto` of every component. -/
def attos : Option LedgerRow → Except Error (Component → ℤ)
  | none => .ok fun _ => 0
  | some row => (require (∀ c ∈ components, 0 ≤ row.amount c) (.negative row.secureKey)).map fun _ => row.amount

def fixed (value : ℤ) (scale : ℕ) : Text := (if value < 0 then ['-'] else []) ++ Decimal.fixed scale |value|

def one (value : ℤ) : Text := fixed value attoScale

def usd (attoValue : ℤ) : Text := fixed (attoValue * priceNumerator) usdScale

def rendering (value : ℤ) : Rendering := ⟨renderInt value, one value⟩

/-- `str` of a truth value in lower case. -/
def boolText (b : Bool) : Text := if b then "true".toList else "false".toList

/-- A row with what `make_diff` returns beside it. -/
structure Diff where
  row : DiffRow
  oldValues : Component → ℤ
  newValues : Component → ℤ
  deltas : Component → ℤ
  oldOver : Bool
  newOver : Bool

def over1usd (totalClaim : ℤ) : Bool := usdThreshold < totalClaim * priceNumerator

def changeType (old new : Option LedgerRow) (deltas : Component → ℤ) : ChangeType :=
  match old, new with
  | none, _ => .created
  | _, none => .deleted
  | some old, some new =>
    if ∃ c ∈ components, deltas c ≠ 0 then .amountChanged
    else if ∃ field ∈ metadataFields, old.metadata field ≠ new.metadata field then .metadataChanged
    else .unchanged

def textOf (row : Option LedgerRow) (field : LedgerRow → Text) : Text := (row.map field).getD []

/-- What `make_diff` returns once the address and the values are known. -/
def diffOf (old new : Option LedgerRow) (address : Text) (oldValues newValues : Component → ℤ) : Diff :=
  let deltas := fun c => newValues c - oldValues c
  let oldOver := over1usd (oldValues .totalClaim)
  let newOver := over1usd (newValues .totalClaim)
  ⟨{ secureKey := textOf (old.or new) (·.secureKey), address := address, changeType := changeType old new deltas,
     oldClaimsShard0Block := textOf old (·.claimsShard0Block), oldClaimsShard1Block := textOf old (·.claimsShard1Block),
     finalClaimsShard0Block := textOf new (·.claimsShard0Block), finalClaimsShard1Block := textOf new (·.claimsShard1Block),
     valuationPriceReferenceShard0Block := textOf (new.or old) (·.valuationPriceReferenceShard0Block),
     valuationPriceUsdPerOne := textOf (new.or old) (·.valuationPriceUsdPerOne),
     oldOver1usd := boolText oldOver, finalOver1usd := boolText newOver,
     oldTotalUsd := usd (oldValues .totalClaim), finalTotalUsd := usd (newValues .totalClaim),
     deltaTotalUsd := usd (deltas .totalClaim),
     old := fun c => rendering (oldValues c), final := fun c => rendering (newValues c),
     delta := fun c => rendering (deltas c),
     oldMetadata := fun field => textOf old (·.metadata field),
     finalMetadata := fun field => textOf new (·.metadata field) },
    oldValues, newValues, deltas, oldOver, newOver⟩

def makeDiff (u : Lower) (old new : Option LedgerRow) : Except Error Diff :=
  let key := textOf (old.or new) (·.secureKey)
  let addresses := ((old.toList ++ new.toList).map (·.address)).filter (· ≠ [])
  (ofOption addresses.head? (.noAddress key)).bind fun first =>
  (require (∀ address ∈ addresses.tail, u.lower address = u.lower first) (.addressChanged key)).bind fun _ =>
  (attos old).bind fun oldValues => (attos new).map fun newValues => diffOf old new first oldValues newValues

structure Totals where
  oldAtto : ℤ
  finalAtto : ℤ
  deltaAtto : ℤ
  deriving DecidableEq

structure Summary where
  unionRows : ℕ
  changes : ChangeType → ℕ
  oldOver1usd : ℕ
  finalOver1usd : ℕ
  thresholdUnionRows : ℕ
  originalPopulationInClaimUnion : ℕ
  componentTotals : Component → Totals

/-- The three files and the summary; the counts of output rows are the lengths of the files. -/
structure Output where
  all : List DiffRow
  thresholdUnion : List DiffRow
  originalPopulation : List DiffRow
  summary : Summary

def Output.start : Output := ⟨[], [], [], ⟨0, fun _ => 0, 0, 0, 0, 0, fun _ => ⟨0, 0, 0⟩⟩⟩

def Summary.add (s : Summary) (d : Diff) (original : Bool) : Summary where
  unionRows := s.unionRows + 1
  changes := fun t => s.changes t + if d.row.changeType = t then 1 else 0
  oldOver1usd := s.oldOver1usd + d.oldOver.toNat
  finalOver1usd := s.finalOver1usd + d.newOver.toNat
  thresholdUnionRows := s.thresholdUnionRows + (d.oldOver || d.newOver).toNat
  originalPopulationInClaimUnion := s.originalPopulationInClaimUnion + original.toNat
  componentTotals := fun c =>
    ⟨(s.componentTotals c).oldAtto + d.oldValues c, (s.componentTotals c).finalAtto + d.newValues c,
      (s.componentTotals c).deltaAtto + d.deltas c⟩

/-- The row goes to the files it belongs to, unless nothing has changed. -/
def Output.add (out : Output) (d : Diff) (original : Bool) : Output :=
  if d.row.changeType ≠ .unchanged then
    ⟨out.all ++ [d.row], if d.oldOver || d.newOver then out.thresholdUnion ++ [d.row] else out.thresholdUnion,
      if original then out.originalPopulation ++ [d.row] else out.originalPopulation, out.summary.add d original⟩
  else { out with summary := out.summary.add d original }

/-- The lesser key of the next rows. -/
def nextKey : Option LedgerRow → Option LedgerRow → Option Text
  | none, none => none
  | some old, none => some old.secureKey
  | none, some new => some new.secureKey
  | some old, some new => some (min old.secureKey new.secureKey)

/-- The next row where it has the key. -/
def current (key : Text) (rows : List LedgerRow) : Option LedgerRow := rows.head?.filter (·.secureKey = key)

def advance (current : Option LedgerRow) (rows : List LedgerRow) : List LedgerRow :=
  if current.isSome then rows.tail else rows

/-- The merge, at most `fuel` times. -/
def mergeLoop (u : Lower) (originalKeys : List Text) : ℕ → List LedgerRow → List LedgerRow → Output → Except Error Output
  | 0, _, _, _ => .error .running
  | fuel + 1, old, new, out =>
    match nextKey old.head? new.head? with
    | none => .ok out
    | some key =>
      (makeDiff u (current key old) (current key new)).bind fun d =>
        mergeLoop u originalKeys fuel (advance (current key old) old) (advance (current key new) new)
          (out.add d (key ∈ originalKeys))

/-- The keys of the original population, and the merge of the two ledgers. -/
def claimsDiff (u : Lower) (oldAll newAll oldOriginalPopulation : List LedgerRow) : Except Error Output :=
  (rows u oldOriginalPopulation).bind fun original =>
  (rows u oldAll).bind fun old =>
  (rows u newAll).bind fun new =>
  mergeLoop u (original.map (·.secureKey)) (old.length + new.length + 1) old new .start

/-! ### Reading it back -/

inductive VerifyError
  | notIncreasing (line : ℕ)
  | notANumber (line : ℕ)
  | negative (line : ℕ)
  | delta (c : Component) (line : ℕ)
  | oldRendering (c : Component) (line : ℕ)
  | finalRendering (c : Component) (line : ℕ)
  | deltaRendering (c : Component) (line : ℕ)
  | liquidTotal (line : ℕ)
  | claimTotal (line : ℕ)
  | usd (line : ℕ)
  | oldThreshold (line : ℕ)
  | finalThreshold (line : ℕ)
  | changeType (line : ℕ)
  | aggregateDelta
  deriving DecidableEq

/-- The digits before and behind the point, read as one number. -/
def readUnsigned (scale : ℕ) (value : Text) : Option ℤ :=
  match value.splitOn '.' with
  | [whole, fraction] => if fraction.length = scale then parseInt (whole ++ fraction) else none
  | _ => none

/-- `fixed` of the verification, where a leading minus is taken off first. -/
def readFixed (value : Text) (scale : ℕ) : Option ℤ :=
  match value with
  | '-' :: value => (readUnsigned scale value).map fun n => -n
  | value => readUnsigned scale value

structure Values where
  old : ℤ
  final : ℤ
  delta : ℤ
  deriving DecidableEq

def readComponent (row : DiffRow) (line : ℕ) (c : Component) : Except VerifyError Values :=
  (ofOption (parseInt (row.old c).atto) (.notANumber line)).bind fun old =>
  (ofOption (parseInt (row.final c).atto) (.notANumber line)).bind fun final =>
  (ofOption (parseInt (row.delta c).atto) (.notANumber line)).bind fun delta =>
  (require (¬(old < 0 ∨ final < 0)) (.negative line)).bind fun _ =>
  (require (final - old = delta) (.delta c line)).bind fun _ =>
  (require (readFixed (row.old c).one 18 = some old) (.oldRendering c line)).bind fun _ =>
  (require (readFixed (row.final c).one 18 = some final) (.finalRendering c line)).bind fun _ =>
  (require (readFixed (row.delta c).one 18 = some delta) (.deltaRendering c line)).map fun _ => ⟨old, final, delta⟩

/-- The two sums that every set of values has to satisfy. -/
def LiquidCloses (values : Component → ℤ) : Prop := values .liquidShard0 + values .liquidShard1 = values .liquidTotal

def TotalCloses (values : Component → ℤ) : Prop :=
  values .liquidShard0 + values .liquidShard1 + values .activeStakedOrDelegated + values .pendingUndelegation +
    values .unclaimedStakingReward + values .pendingCrossShard = values .totalClaim

instance (values : Component → ℤ) : Decidable (LiquidCloses values) := by unfold LiquidCloses; infer_instance

instance (values : Component → ℤ) : Decidable (TotalCloses values) := by unfold TotalCloses; infer_instance

def checkTotals (values : Component → ℤ) (line : ℕ) : Except VerifyError Unit :=
  (require (LiquidCloses values) (.liquidTotal line)).bind fun _ => require (TotalCloses values) (.claimTotal line)

structure Result where
  rows : ℕ
  changeCounts : ChangeType → ℕ
  totals : Component → ℤ

def Result.start : Result := ⟨0, fun _ => 0, fun _ => 0⟩

def Result.add (r : Result) (t : ChangeType) (delta : Component → ℤ) : Result where
  rows := r.rows + 1
  changeCounts := fun t' => r.changeCounts t' + if t = t' then 1 else 0
  totals := fun c => r.totals c + delta c

/-- The values that were read, by component. -/
def valuesOf (values : List (Component × Values)) (c : Component) : Values :=
  ((values.find? fun p => p.1 = c).map Prod.snd).getD ⟨0, 0, 0⟩

def verifyRow (u : Lower) (st : Option Text × Result) (row : DiffRow × ℕ) : Except VerifyError (Option Text × Result) :=
  let key := u.lower row.1.secureKey
  let line := row.2
  (require (∀ previous ∈ st.1, previous < key) (.notIncreasing line)).bind fun _ =>
  (components.mapM fun c => (readComponent row.1 line c).map (c, ·)).bind fun values =>
  let old := fun c => (valuesOf values c).old
  let final := fun c => (valuesOf values c).final
  let delta := fun c => (valuesOf values c).delta
  (checkTotals old line).bind fun _ => (checkTotals final line).bind fun _ => (checkTotals delta line).bind fun _ =>
  (require (readFixed row.1.oldTotalUsd 26 = some (old .totalClaim * priceNumerator)) (.usd line)).bind fun _ =>
  (require (readFixed row.1.finalTotalUsd 26 = some (final .totalClaim * priceNumerator)) (.usd line)).bind fun _ =>
  (require (readFixed row.1.deltaTotalUsd 26 = some (delta .totalClaim * priceNumerator)) (.usd line)).bind fun _ =>
  (require (row.1.oldOver1usd = "true".toList ↔ usdThreshold < old .totalClaim * priceNumerator) (.oldThreshold line)).bind
    fun _ =>
  (require (row.1.finalOver1usd = "true".toList ↔ usdThreshold < final .totalClaim * priceNumerator)
    (.finalThreshold line)).bind fun _ =>
  (require (row.1.changeType ≠ .unchanged) (.changeType line)).map fun _ => (some key, st.2.add row.1.changeType delta)

def verifyDiff (u : Lower) (expectedTotalClaimDelta : Option ℤ) (input : List DiffRow) : Except VerifyError Result :=
  ((input.zipIdx 2).foldlM (verifyRow u) (none, Result.start)).bind fun st =>
  (require (∀ expected ∈ expectedTotalClaimDelta, st.2.totals .totalClaim = expected) .aggregateDelta).map fun _ => st.2

end HarmonyMigration.ClaimsDiff
