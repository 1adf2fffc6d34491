import HarmonyMigration.Archive.ArchiveLib
import HarmonyMigration.Lib.ExceptRun
import HarmonyMigration.Lib.Loader
import Mathlib.Data.Char
import Mathlib.Data.List.Lex
import Mathlib.Data.List.MinMax

/-! `find-abandoned-blocks.py`: the blocks of an abandoned branch, found through the transaction index of a node and
walked back to the fork block. -/

namespace HarmonyMigration.Archive.AbandonedBlocks

open Airdrop.One1 ContractReview Decimal Except

/-! ### The node -/

/-- What a lookup of a transaction returns. -/
structure TxInfo where
  blockNumber : ℕ
  blockHash : Text
  deriving DecidableEq

/-- The index of an address, in descending order, and the lookup of its transactions. -/
structure TxIndex where
  hashes : Text → List Text
  lookup : Text → Option TxInfo

def byHashIn (u : Lower) (blocks : List Block) (hash : Text) : Option Block := blocks.find? fun b => u.lower b.hash = hash

/-- A node: a finite tree of blocks, of which a chain is canonical, and the index of their transactions. -/
structure Node (u : Lower) where
  blocks : List Block
  canonical : ℕ → Option Block
  head : ℕ
  regular : TxIndex
  staking : TxIndex
  nodup : (blocks.map fun b => u.lower b.hash).Nodup
  parent_number : ∀ b ∈ blocks, ∀ p ∈ blocks, u.lower b.parentHash = u.lower p.hash → b.number = p.number + 1
  canonical_mem : ∀ n b, canonical n = some b → b ∈ blocks ∧ b.number = n
  canonical_parent : ∀ n b, canonical (n + 1) = some b →
    ∃ p, canonical n = some p ∧ u.lower b.parentHash = u.lower p.hash
  canonical_head : ∀ n ≤ head, (canonical n).isSome
  indexed_mem : ∀ i ∈ [regular, staking], ∀ tx e, i.lookup tx = some e →
    ∃ b ∈ blocks, u.lower b.hash = u.lower e.blockHash ∧ b.number = e.blockNumber

inductive SearchError
  | outputExists
  | noBlock (number : ℤ)
  | notFork
  | unknownBlock (hash : Text)
  | nothingFound
  | missing (hash : Text)
  | notAttached
  | offChain (hashes : List Text)
  | outOfFuel
  | lib (e : LibError)
  deriving DecidableEq

/-- A row of a file of addresses. -/
structure SeedRow where
  sender : Text
  recipient : Text
  delegator : Text
  validator : Text

structure Args where
  fork : Text
  maxBlock : Option ℤ
  addresses : List (List SeedRow)
  outputExists : Bool
  replace : Bool
  pageSize : ℕ
  maxPages : ℕ

/-- A row of `abandoned-blocks.csv`. -/
structure ChainRow where
  blockNumber : ℕ
  blockHash : Text
  parentHash : Text
  deriving DecidableEq

section Search

variable (u : Lower) (node : Node u)

def Node.byHash (hash : Text) : Option Block := byHashIn u node.blocks hash

def canonicalHash (number : ℕ) : Except SearchError Text :=
  (ofOption (node.canonical number) (.noBlock number)).map fun b => u.lower b.hash

/-! ### The index of one address -/

section History

variable (fork : ℕ) (upper : ℤ)

/-- The transactions of a page: the stale blocks, and whether the page reaches below the fork. -/
def historyPage : List (Option TxInfo) → Dict Text ℕ → Except SearchError (Dict Text ℕ × Bool)
  | [], found => .ok (found, false)
  | none :: rest, found => historyPage rest found
  | some tx :: rest, found =>
    if tx.blockNumber ≤ fork then .ok (found, true)
    else if (tx.blockNumber : ℤ) ≤ upper then
      (canonicalHash u node tx.blockNumber).bind fun canonical =>
        historyPage rest (if u.lower tx.blockHash ≠ canonical then found.insert (u.lower tx.blockHash) tx.blockNumber
          else found)
    else historyPage rest found

/-- The pages from `page` on, at most `pages` of them. -/
def historyPages (index : TxIndex) (address : Text) (pageSize : ℕ) : ℕ → ℕ → Dict Text ℕ → Except SearchError (Dict Text ℕ)
  | 0, _, found => .ok found
  | pages + 1, page, found =>
    let hashes := ((index.hashes address).drop (page * pageSize)).take pageSize
    (historyPage u node fork upper (hashes.map index.lookup) found).bind fun (found, belowFork) =>
      if belowFork ∨ hashes.length < pageSize then .ok found
      else historyPages index address pageSize pages (page + 1) found

/-- The stale blocks of one address: their hashes and numbers. -/
def history (a : Args) (address : Text) : Except SearchError (Dict Text ℕ) :=
  (historyPages u node fork upper node.regular address a.pageSize a.maxPages 0 .empty).bind fun found =>
  historyPages u node fork upper node.staking address a.pageSize a.maxPages 0 found

end History

/-! ### Rounds -/

def seedSet (a : Args) : List Text :=
  ((a.addresses.flatten.flatMap fun row => [row.sender, row.recipient, row.delegator, row.validator]).filter (· ≠ [])).map
    u.lower

structure Round where
  queried : ℕ
  newBlocks : ℕ
  blocks : List Text

structure Search where
  queried : List Text
  stale : Dict Text ℕ
  rounds : List Round
  pending : List Text

/-- `sorted` of a set. -/
def sortedSet (l : List Text) : List Text := l.dedup.insertionSort (· ≤ ·)

def begin (a : Args) : Search := ⟨[], .empty, [], sortedSet (seedSet u a)⟩

/-- `from`, `to` and `msg.validatorAddress` of the transactions of a block, the blank ones left out. -/
def blockAddresses (b : Block) : List Text :=
  ((b.transactions.flatMap fun tx => [tx.sender, tx.recipient]) ++
    b.stakingTransactions.flatMap fun tx => [tx.sender, tx.validatorAddress]).filter (· ≠ [])

/-- The addresses of a stale block. -/
def expand (hash : Text) : Except SearchError (List Text) :=
  (ofOption (node.byHash u hash) (.unknownBlock hash)).bind fun b => ((blockAddresses b).mapM (address u)).mapError .lib

def update (d d' : Dict Text ℕ) : Dict Text ℕ := d'.entries.foldl (fun d e => d.insert e.1 e.2) d

def round (a : Args) (fork : ℕ) (upper : ℤ) (s : Search) : Except SearchError Search :=
  (s.pending.mapM (history u node fork upper a)).bind fun found =>
  let stale := found.foldl update s.stale
  let queried := s.queried ++ s.pending
  let expanded := s.rounds.flatMap Round.blocks
  ((stale.keys.filter (· ∉ expanded)).mapM (expand u node)).map fun addresses =>
    { queried, stale
      rounds := s.rounds ++ [⟨s.pending.length, stale.keys.length - s.stale.keys.length, stale.keys⟩]
      pending := sortedSet (addresses.flatten.filter (· ∉ queried)) }

/-- `while pending`. -/
def search (a : Args) (fork : ℕ) (upper : ℤ) : ℕ → Search → Except SearchError Search
  | 0, _ => .error .outOfFuel
  | fuel + 1, s => if s.pending = [] then .ok s else (round u node a fork upper s).bind (search a fork upper fuel)

/-! ### The walk back -/

/-- The blocks from `cursor` back to the one after the fork, before those of `chain`. -/
def walkBack (fork : ℕ) (forkHash : Text) : ℕ → Text → List ChainRow → Except SearchError (List ChainRow)
  | 0, _, _ => .error .outOfFuel
  | fuel + 1, cursor, chain =>
    (ofOption (node.byHash u cursor) (.missing cursor)).bind fun block =>
    let chain := ⟨block.number, u.lower block.hash, u.lower block.parentHash⟩ :: chain
    if block.number = fork + 1 then (require (u.lower block.parentHash = forkHash) .notAttached).map fun _ => chain
    else walkBack fork forkHash fuel (u.lower block.parentHash) chain

structure Output where
  upper : ℤ
  found : Search
  chain : List ChainRow

/-- `min(args.max_block or head, head)`. -/
def upperBound (a : Args) : ℤ := min (if a.maxBlock.getD 0 = 0 then (node.head : ℤ) else a.maxBlock.getD 0) node.head

def main (a : Args) (fuel : ℕ) : Except SearchError Output :=
  (require (a.outputExists = false ∨ a.replace = true) .outputExists).bind fun _ =>
  ((parseBlockPin u a.fork).mapError .lib).bind fun pin =>
  (require (0 ≤ pin.number) (.noBlock pin.number)).bind fun _ =>
  let fork := pin.number.toNat
  (canonicalHash u node fork).bind fun hash =>
  (require (hash = pin.hash) .notFork).bind fun _ =>
  let upper := upperBound u node a
  (search u node a fork upper fuel (begin u a)).bind fun found =>
  (ofOption (found.stale.entries.argmax Prod.snd) .nothingFound).bind fun top =>
  (walkBack u node fork pin.hash fuel top.1 []).bind fun chain =>
  let offChain := found.stale.keys.filter fun hash => hash ∉ chain.map ChainRow.blockHash
  (require (offChain = []) (.offChain (sortedSet offChain))).map fun _ => ⟨upper, found, chain⟩

end Search

end HarmonyMigration.Archive.AbandonedBlocks
