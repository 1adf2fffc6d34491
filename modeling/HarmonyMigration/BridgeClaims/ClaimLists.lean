import HarmonyMigration.Allocation.PoolConserved
import HarmonyMigration.BridgeClaims.Build
import HarmonyMigration.ContractReview.SecureKey

/-! From allocations to claim contracts: `build-bridge-allocations.py` adds the rows up by payee and writes a list
for each chain, `build_claims.py` groups the pools by token, and checks the list against them. -/

namespace HarmonyMigration.BridgeClaims

open Erc20 ContractReview

/-! ### The lists -/

/-- `(claim_chain, payee, claim_token)`. -/
abbrev ClaimKey := Option String × Address × Option Allocation.Asset

structure ClaimItem where
  amount : ℤ
  pools : List String

def claimKey (row : Allocation.Row) : ClaimKey := (row.claimChain, row.payee, row.claimToken)

/-- `status == "claimable"`, for a nonzero amount. -/
def counts (row : Allocation.Row) : Bool := row.status = .claimable ∧ row.allocation ≠ 0

def addRow (row : Allocation.Row) (item : Option ClaimItem) : ClaimItem :=
  let item := item.getD ⟨0, []⟩
  ⟨item.amount + row.allocation, if row.poolId ∈ item.pools then item.pools else item.pools ++ [row.poolId]⟩

def claims (allocations : List Allocation.Row) : Dict ClaimKey ClaimItem :=
  allocations.foldl (fun d row => if counts row then d.update (claimKey row) (addRow row) else d) .empty

def addressText (a : Address) : String := String.ofList (Hex.render 40 a.toNat)

/-- A token as the files spell it. -/
def tokenText : Option Allocation.Asset → String
  | some .native => "native"
  | some (.token a) => addressText a
  | none => ""

/-- The order of the keys as texts: digits stand before the letters of `native`. -/
def keyOrder (k : ClaimKey) : String ×ₗ ℕ ×ₗ ℕ :=
  toLex (k.1.getD "", toLex (k.2.1.toNat, match k.2.2 with
    | some (.token a) => a.toNat
    | _ => 2 ^ 160))

def csvRow (item : ClaimKey × ClaimItem) : CsvRow where
  account := addressText item.1.2.1
  token := tokenText item.1.2.2
  amountRaw := item.2.amount
  pools := ";".intercalate (item.2.pools.insertionSort (· ≤ ·))

/-- The entries of `claims/<chain>.csv`. -/
def claimItems (chain : String) (allocations : List Allocation.Row) : List (ClaimKey × ClaimItem) :=
  ((claims allocations).entries.insertionSort fun p q => keyOrder p.1 ≤ keyOrder q.1).filter fun p => p.1.1 = some chain

def claimList (chain : String) (allocations : List Allocation.Row) : List CsvRow :=
  (claimItems chain allocations).map csvRow

/-! ### The pools -/

/-- The columns of `pools.csv` that are read back; an empty chain is none. -/
structure PoolsCsvRow where
  poolId : String
  claimChain : Option String
  claimToken : String
  symbol : String
  decimals : ℕ
  status : String
  claimable : ℤ

def poolsCsvRow (s : Allocation.Summary) : PoolsCsvRow where
  poolId := s.poolId
  claimChain := s.claimChain
  claimToken := tokenText s.claimToken
  symbol := s.symbol
  decimals := s.decimals
  status := "ready"
  claimable := s.claimable

section Read

variable (u : Airdrop.One1.Lower)

/-- `lib.address`, as the number of its digits. -/
def libAddress (value : String) : Option Address :=
  (anyToHex u value.toList).bind fun t => (Hex.parse 40 t).map (BitVec.ofNat 160)

/-- A pool's token; the chain's coin is the zero address. -/
def poolToken (value : String) : Option Address := if value = "native" then some NATIVE_TOKEN else libAddress u value

structure AssetEntry where
  symbol : String
  decimals : ℕ
  pools : List String
  claimable : ℤ

inductive MainError
  | invalidAddress (value : String)
  | poolsDisagree (chain : String) (token : Address)
  | read (e : ReadError)
  | totals (symbol : String) (rows : ℕ) (claimable : ℤ)
  deriving DecidableEq

def tableStep (chain : String) (table : Dict Address AssetEntry) (pool : PoolsCsvRow) :
    Except MainError (Dict Address AssetEntry) :=
  if pool.claimChain ≠ some chain ∨ pool.status = "unsupported" then .ok table
  else
    (Except.ofOption (poolToken u pool.claimToken) (MainError.invalidAddress pool.claimToken)).bind fun token =>
    let entry := table.getD token ⟨pool.symbol, pool.decimals, [], 0⟩
    if entry.symbol ≠ pool.symbol ∨ entry.decimals ≠ pool.decimals then .error (.poolsDisagree chain token)
    else .ok (table.insert token
      { entry with pools := entry.pools ++ [pool.poolId], claimable := entry.claimable + pool.claimable })

/-- What the pools that are paid on `chain` owe, token by token. -/
def assetTable (pools : List PoolsCsvRow) (chain : String) : Except MainError (Dict Address AssetEntry) :=
  pools.foldlM (tableStep u chain) .empty

def AssetEntry.asset (e : AssetEntry) : Asset := ⟨e.symbol, e.decimals⟩

/-- `totals`, of the rows read. -/
def totals (rows : List ClaimRow) : Dict Address ℕ := rows.foldl (fun d r => d.add r.token r.amount) .empty

/-- The contracts of one chain, if its list matches its pools. -/
def chainContracts (config : BridgeConfig) (chain : String) (pools : List PoolsCsvRow) (csv : List CsvRow) :
    Except MainError (List Group) :=
  (assetTable u pools chain).bind fun assets =>
  ((readClaims (libAddress u) (assets.mapValues AssetEntry.asset) csv).mapError .read).bind fun rows =>
  match assets.entries.find? fun e => ((totals rows).getD e.1 0 : ℤ) ≠ e.2.claimable with
  | some e => .error (.totals e.2.symbol ((totals rows).getD e.1 0) e.2.claimable)
  | none => .ok (contractGroups config chain rows)

end Read

/-- The list that a contract publishes, with the index of every row. -/
def publishedList (rows : List ClaimRow) : List (ClaimRow × ℕ) := (sortRows rows).zipIdx

end HarmonyMigration.BridgeClaims
