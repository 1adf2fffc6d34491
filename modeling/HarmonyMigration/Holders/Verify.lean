import HarmonyMigration.Holders.TransferLogs

/-! `token-holders`: the replayed balances of one token are checked against `balanceOf` at the snapshot block, and logs that
the scan missed are looked for while they do not add up to `totalSupply`. -/

namespace HarmonyMigration.TokenHolders

open Erc20 Except Decimal

/-- The balances of one token, and the keys of the logs that they come from. -/
structure Replay where
  balances : Dict Address ℤ
  seen : Finset UInt64

/-- `strconv.ParseUint(_, 16, 64)` behind `0x`, as it is used where its error is dropped. -/
def parseUint : Text → ℕ
  | '0' :: 'x' :: [] => 0
  | '0' :: 'x' :: raw => ((Hex.value (raw.map Char.toLower)).map fun n => min n (2 ^ 64 - 1)).getD 0
  | _ => 0

/-! ### Repairs -/

inductive VerifyError (ε : Type) where
  | rpc (e : ε)
  | fetch (block : ℕ) (e : ε)
  | log (e : LogError)

section Repair

variable {ε : Type} (toLower : Text → Text) (token : Address)

/-- `applyLog` on the balances and keys of the one token. -/
def applyOne (s : Replay) (log : RpcLog) : Except LogError Replay :=
  (applyLog toLower [token] (.ofList [(token, s.balances)], .ofList [(token, s.seen)]) log).map fun t =>
  ⟨t.1.getD token .empty, t.2.keysOf token⟩

/-- The closure `apply`, for each log in turn: the new state, and the logs that were not there before. -/
def applyMissed (s : Replay × List RpcLog) (log : RpcLog) : Except LogError (Replay × List RpcLog) :=
  if logKey toLower log ∈ s.1.seen then .ok s else (applyOne toLower token s.1 log).map fun t => (t, s.2 ++ [log])

structure Change where
  block : ℕ
  index : ℕ
  delta : ℤ

def Change.le (a b : Change) : Prop := a.block < b.block ∨ a.block = b.block ∧ a.index ≤ b.index

instance : DecidableRel Change.le := fun _ _ => inferInstanceAs (Decidable (_ ∨ _))

/-- What the address's own logs change, one for each key. -/
def changeOf (address : Address) (log : RpcLog) : Except LogError Change :=
  (decodeTransfer log).map fun t =>
  ⟨parseUint log.blockNumber, parseUint log.logIndex,
    (if t.2.1 = address then (t.2.2 : ℤ) else 0) - if t.1 = address then (t.2.2 : ℤ) else 0⟩

/-- The first log of each key. -/
def uniqueLogs : List RpcLog → List RpcLog
  | [] => []
  | log :: logs => log :: (uniqueLogs logs).filter fun log' => logKey toLower log' ≠ logKey toLower log

/-- The balance that the changes give up to a block, of changes in the order of their blocks. -/
def replayedAt (changes : List Change) (block : ℕ) : ℤ :=
  ((changes.takeWhile fun c => c.block ≤ block).map Change.delta).sum

/-- The loop `for high-low > 1`: `differs` says whether the balance on chain differs from the replay. -/
def firstDivergence (differs : ℕ → Except ε Bool) (low high : ℕ) : Except ε ℕ :=
  if 1 < high - low then
    (differs (low + (high - low) / 2)).bind fun d =>
    if d then firstDivergence differs low (low + (high - low) / 2)
    else firstDivergence differs (low + (high - low) / 2) high
  else .ok high
termination_by high - low

/-- What the node answers while one address is repaired: the logs of the two address-filtered queries in the order in which
the workers finish, the address's balance at a block, and `fetchLogs` of a single block. -/
structure RepairNode (ε : Type) where
  own : Except (VerifyError ε) (List RpcLog)
  balanceAt : ℕ → Except ε ℤ
  blockLogs : ℕ → Except (VerifyError ε) (List RpcLog)

/-- The state after the repair, and the logs that it added. -/
def repairAddress (address : Address) (start stop : ℕ) (node : RepairNode ε) (s : Replay) :
    Except (VerifyError ε) (Replay × List RpcLog) :=
  node.own.bind fun own =>
  ((own.foldlM (applyMissed toLower token) (s, [])).mapError .log).bind fun t =>
  if t.2 ≠ [] then .ok t
  else
    (((uniqueLogs toLower own).mapM (changeOf address)).mapError .log).bind fun changes =>
    let changes := changes.insertionSort Change.le
    let differs block := (node.balanceAt block).map fun value => decide (value ≠ replayedAt changes block)
    ((differs start).mapError .rpc).bind fun first =>
    (if first then .ok start else (firstDivergence differs start stop).mapError .rpc).bind fun high =>
    (node.blockLogs high).bind fun logs =>
    (logs.foldlM (applyMissed toLower token) (t.1, [])).mapError .log

end Repair

/-! ### Rounds -/

inductive Problem where
  | sum (addresses : ℕ) (total supply : ℤ)
  | noLogLocated (addresses : ℕ) (total supply : ℤ)
  | negative (address : Address) (balance : ℤ)
  | difference (supply total : ℤ)
  | balanceOf (address : Address) (value balance : ℤ)
  deriving DecidableEq

structure Options where
  verifyTop : ℕ
  verifySpread : ℕ
  verifyAll : Bool
  repair : Bool
  repairRounds : ℕ
  allowMismatch : Bool

/-- What the node answers in one round: `balanceOf` of an address, and what a repair of it reads. -/
structure RoundNode (ε : Type) where
  balanceOf : Address → Except ε ℤ
  repair : Address → RepairNode ε

/-- How a verification ends: mismatches that `balanceOf` replaced, logs repaired, problems. -/
structure Verified where
  state : Replay
  mismatches : ℕ
  repaired : List RpcLog
  issues : List Problem

section Rounds

variable {ε : Type} (toLower : Text → Text) (token : Address) (start stop : ℕ)

/-- Gaps in the order in which they are repaired, the largest first. -/
def gapLe (p q : Address × ℕ) : Prop := q.2 < p.2 ∨ q.2 = p.2 ∧ p.1.toNat ≤ q.1.toNat

instance : DecidableRel gapLe := fun _ _ => inferInstanceAs (Decidable (_ ∨ _))

def addressLe (a b : Address) : Prop := a.toNat ≤ b.toNat

instance : DecidableRel addressLe := fun _ _ => inferInstanceAs (Decidable (_ ≤ _))

/-- The first gap for which a log is found. -/
def repairFirst (node : RoundNode ε) (s : Replay) :
    List (Address × ℕ) → Except (VerifyError ε) (Option (Replay × List RpcLog))
  | [] => .ok none
  | gap :: gaps =>
    (repairAddress toLower token gap.1 start stop (node.repair gap.1) s).bind fun t =>
    if t.2 ≠ [] then .ok (some t) else repairFirst node t.1 gaps

/-- The candidates of a round, with their balances on chain. -/
def readCandidates (node : RoundNode ε) (s : Replay) : Except ε (List (Address × ℤ)) :=
  (s.balances.keys.insertionSort addressLe).mapM fun a => (node.balanceOf a).map fun value => (a, value)

/-- The candidates whose balance on chain is not the replayed one, with the difference. -/
def gapsOf (s : Replay) (onChain : List (Address × ℤ)) : List (Address × ℕ) :=
  (onChain.map fun p => (p.1, (p.2 - s.balances.getD p.1 0).natAbs)).filter fun p => p.2 ≠ 0

/-- The balances on chain replace the replayed ones. -/
def accepted (s : Replay) (onChain : List (Address × ℤ)) (repaired : List RpcLog) : Verified :=
  ⟨⟨onChain.foldl (fun b p => b.insert p.1 p.2) s.balances, s.seen⟩, (gapsOf s onChain).length, repaired, []⟩

/-- `verifyAndRepair`, with `left` more rounds of repair: `nodes` answers them in turn. -/
def verifyAndRepair (opts : Options) (totalSupply : ℤ) (left : ℕ) (nodes : ℕ → RoundNode ε) (s : Replay)
    (repaired : List RpcLog) : Except (VerifyError ε) Verified :=
  ((readCandidates (nodes 0) s).mapError .rpc).bind fun onChain =>
  if (onChain.map Prod.snd).sum = totalSupply then .ok (accepted s onChain repaired)
  else
    match left with
    | 0 => .ok ⟨s, 0, repaired, [.sum onChain.length (onChain.map Prod.snd).sum totalSupply]⟩
    | left + 1 =>
      if opts.repair = false ∨ gapsOf s onChain = [] then
        .ok ⟨s, 0, repaired, [.sum onChain.length (onChain.map Prod.snd).sum totalSupply]⟩
      else
        (repairFirst toLower token start stop (nodes 0) s ((gapsOf s onChain).insertionSort gapLe)).bind fun
        | some t => verifyAndRepair opts totalSupply left (fun n => nodes (n + 1)) t.1 (repaired ++ t.2)
        | none => .ok ⟨s, 0, repaired, [.noLogLocated onChain.length (onChain.map Prod.snd).sum totalSupply]⟩

end Rounds

/-! ### The result -/

structure Output where
  rows : List (Address × ℤ)
  passed : Bool
  holderCount : ℕ
  holderTotal : ℤ
  totalSupply : ℤ
  supplyMinusTotal : ℤ
  spotChecks : List (Address × ℤ × ℤ)
  verifiedHolders : ℕ
  replayMismatches : ℕ
  repairedLogs : List RpcLog
  problems : List Problem

section Finalize

variable {ε : Type} (toLower : Text → Text) (hash : Address → ℕ) (token : Address) (start stop : ℕ)

/-- The largest holders, then others in the order of the hashes of their addresses. -/
def sampleAddresses (addresses : List Address) (balances : Dict Address ℤ) (top spread : ℕ) : List Address :=
  let byBalance := addresses.insertionSort fun a b =>
    balances.getD b 0 < balances.getD a 0 ∨ balances.getD b 0 = balances.getD a 0 ∧ a.toNat ≤ b.toNat
  let largest := byBalance.take top
  let others := (addresses.insertionSort fun a b => hash a ≤ hash b).filter fun a => a ∉ largest
  largest ++ others.take (top + spread - largest.length)

/-- The accounts with a positive balance. -/
def holdersOf (balances : Dict Address ℤ) : List Address :=
  ((balances.entries.filter fun p => 0 < p.2).map Prod.fst).insertionSort addressLe

def holderTotal (balances : Dict Address ℤ) : ℤ := ((holdersOf balances).map fun a => balances.getD a 0).sum

/-- `checks` are the samples with their replayed balance and the one on chain. -/
def problemsOf (v : Verified) (totalSupply : ℤ) (checks : List (Address × ℤ × ℤ)) : List Problem :=
  v.issues ++ ((v.state.balances.entries.filter fun p => p.2 < 0).map fun p => .negative p.1 p.2) ++
    (if totalSupply - holderTotal v.state.balances ≠ 0 then [.difference totalSupply (holderTotal v.state.balances)]
      else []) ++
    (checks.filter fun c => c.2.2 ≠ c.2.1).map fun c => .balanceOf c.1 c.2.2 c.2.1

def outputOf (opts : Options) (v : Verified) (totalSupply : ℤ) (checks : List (Address × ℤ × ℤ)) : Output where
  rows := (holdersOf v.state.balances).map fun a => (a, v.state.balances.getD a 0)
  passed := problemsOf v totalSupply checks = []
  holderCount := (holdersOf v.state.balances).length
  holderTotal := holderTotal v.state.balances
  totalSupply := totalSupply
  supplyMinusTotal := totalSupply - holderTotal v.state.balances
  spotChecks := checks
  verifiedHolders := if opts.verifyAll ∧ v.issues = [] then (holdersOf v.state.balances).length else 0
  replayMismatches := v.mismatches
  repairedLogs := v.repaired
  problems := problemsOf v totalSupply checks

/-- The problems of a token, and what is written of it. `spot` is what `balanceOf` answers for the samples. -/
def finalize (opts : Options) (totalSupply : Except ε ℤ) (nodes : ℕ → RoundNode ε) (spot : Address → Except ε ℤ)
    (s : Replay) : Except (VerifyError ε) (List Problem × Option Output) :=
  (totalSupply.mapError .rpc).bind fun totalSupply =>
  (if opts.verifyAll then verifyAndRepair toLower token start stop opts totalSupply opts.repairRounds nodes s []
    else .ok ⟨s, 0, [], []⟩).bind fun v =>
  let samples := if opts.verifyAll then []
    else sampleAddresses hash (holdersOf v.state.balances) v.state.balances opts.verifyTop opts.verifySpread
  ((samples.mapM fun a => (spot a).map fun value => (a, v.state.balances.getD a 0, value)).mapError .rpc).bind fun checks =>
  if problemsOf v totalSupply checks ≠ [] ∧ opts.allowMismatch = false then .ok (problemsOf v totalSupply checks, none)
  else .ok (problemsOf v totalSupply checks, some (outputOf opts v totalSupply checks))

end Finalize

end HarmonyMigration.TokenHolders
