import HarmonyMigration.Lib.Dict
import HarmonyMigration.Lib.Except
import HarmonyMigration.Tree.ClaimTree
import Mathlib.Data.String.Basic

/-! `build_claims.py`: reading a chain's claim list, splitting it by funding multisig, and the
list, tree and approvals of one contract. -/

namespace HarmonyMigration.BridgeClaims

open Keccak Erc20 ClaimTree Bitmap

/-- `ct.NATIVE_TOKEN`. -/
def NATIVE_TOKEN : Address := 0

structure Asset where
  symbol : String
  decimals : ℕ

/-- A line of `claims/<chain>.csv`. -/
structure CsvRow where
  account : String
  token : String
  amountRaw : ℤ
  pools : String

structure ClaimRow where
  account : Address
  token : Address
  amount : ℕ
  pools : String
  deriving DecidableEq

inductive ReadError where
  | invalidAddress (line : ℕ) (value : String)
  | zeroAccount (line : ℕ)
  | noPool (line : ℕ) (token : Address)
  | amountOutOfRange (line : ℕ)
  | secondRow (line : ℕ) (account token : Address)
  deriving DecidableEq

section Read
variable (address : String → Option Address) (assets : Dict Address Asset)

def parseAddress (line : ℕ) (value : String) : Except ReadError Address :=
  match address value with
  | some a => .ok a
  | none => .error (.invalidAddress line value)

def parseToken (line : ℕ) (value : String) : Except ReadError Address :=
  if value = "native" then .ok NATIVE_TOKEN else parseAddress address line value

def readRow (seen : List (Address × Address)) (line : ℕ) (row : CsvRow) : Except ReadError ClaimRow :=
  (parseAddress address line row.account).bind fun account =>
  if account = 0 then .error (.zeroAccount line)
  else
    (parseToken address line row.token).bind fun token =>
    if token ∉ assets.keys then .error (.noPool line token)
    else if row.amountRaw ≤ 0 ∨ row.amountRaw ≥ 2 ^ 256 then .error (.amountOutOfRange line)
    else if (account, token) ∈ seen then .error (.secondRow line account token)
    else .ok ⟨account, token, row.amountRaw.toNat, row.pools⟩

def readRows (seen : List (Address × Address)) (line : ℕ) : List CsvRow → Except ReadError (List ClaimRow)
  | [] => .ok []
  | row :: rest =>
    (readRow address assets seen line row).bind fun r =>
    (readRows ((r.account, r.token) :: seen) (line + 1) rest).map fun rows => r :: rows

/-- The first line of the file holds the names of the columns. -/
def readClaims (csv : List CsvRow) : Except ReadError (List ClaimRow) := readRows address assets [] 2 csv

end Read

/-- The parts of the bridge config that decide who funds which contract. -/
structure BridgeConfig where
  custodyMultisig : String → Option Address
  oneClaimChain : String
  oneClaimToken : Address
  oneCustodyMultisig : Option Address

def oneCustody (config : BridgeConfig) : Option Address :=
  config.oneCustodyMultisig.or (config.custodyMultisig config.oneClaimChain)

def oneFunderSource (config : BridgeConfig) : String :=
  if config.oneCustodyMultisig.isSome then "one_claims.custody_multisig" else "custody_multisig"

structure Group where
  label : String
  funder : Option Address
  funderSource : String
  rows : List ClaimRow
  deriving DecidableEq

def contractGroups (config : BridgeConfig) (chain : String) (rows : List ClaimRow) : List Group :=
  let custody := config.custodyMultisig chain
  let oneFunder := oneCustody config
  if chain = config.oneClaimChain ∧ oneFunder ≠ custody then
    let oneRows := rows.filter fun r => r.token = config.oneClaimToken
    let rest := rows.filter fun r => r.token ≠ config.oneClaimToken
    let one : Group := ⟨chain ++ "-one", oneFunder, oneFunderSource config, oneRows⟩
    let groups := if rest = [] then [one] else [⟨chain, custody, "custody_multisig", rest⟩, one]
    groups.filter fun g => ¬g.rows.isEmpty
  else [⟨chain, custody, "custody_multisig", rows⟩]

/-- What the funder has to approve of one token. -/
structure Approval where
  symbol : String
  decimals : ℕ
  amountRaw : ℕ
  covers : List String
  deriving DecidableEq

inductive BuildError where
  | noWrappedNative
  | noLeaves (message : String)
  deriving DecidableEq

/-- The published list with its root, and the approvals of the funder. -/
structure Manifest (D : Type) where
  rows : List ClaimRow
  root : Option D
  approvals : Dict Address Approval
  deriving DecidableEq

def sortRows (rows : List ClaimRow) : List ClaimRow :=
  rows.insertionSort fun r s => toLex (r.account.toNat, r.token.toNat) ≤ toLex (s.account.toNat, s.token.toNat)

/-- `per_asset`: rows and total of each token, tokens in the order of their first row. -/
def perAsset (rows : List ClaimRow) : Dict Address (ℕ × ℕ) :=
  rows.foldl (fun d r => d.update r.token fun e => ((e.getD (0, 0)).1 + 1, (e.getD (0, 0)).2 + r.amount)) .empty

def assetOrder (assets : Dict Address Asset) (t : Address) : Bool ×ₗ String ×ₗ ℕ :=
  toLex (t ≠ NATIVE_TOKEN, toLex ((assets.getD t ⟨"", 0⟩).symbol.toLower, t.toNat))

def approveToken (wrapped : Option Address) (token : Address) : Address :=
  if token = NATIVE_TOKEN then wrapped.getD NATIVE_TOKEN else token

/-- The approval with one more asset paid out of it. -/
def addApproval (assets : Dict Address Asset) (token : Address) (total : ℕ) (old : Option Approval) : Approval :=
  let info := assets.getD token ⟨"", 0⟩
  let native := token = NATIVE_TOKEN
  let approval := old.getD ⟨if native then "W" ++ info.symbol else info.symbol, info.decimals, 0, []⟩
  { approval with
    amountRaw := approval.amountRaw + total
    covers := approval.covers ++ [if native then "native " ++ info.symbol else info.symbol] }

def approvals (wrapped : Option Address) (assets : Dict Address Asset) (rows : List ClaimRow) :
    Dict Address Approval :=
  let totals := perAsset rows
  (totals.keys.insertionSort fun s t => assetOrder assets s ≤ assetOrder assets t).foldl
    (fun d token => d.update (approveToken wrapped token)
      (addApproval assets token (totals.measure Prod.snd token))) .empty

/-- The row as the tree and the contract have it. -/
def ClaimRow.row (r : ClaimRow) : Row := ⟨r.account, r.token, BitVec.ofNat 256 r.amount⟩

theorem ClaimRow.row_amount {r : ClaimRow} (h : r.amount < 2 ^ 256) : r.row.amount.toNat = r.amount :=
  Nat.mod_eq_of_lt h

/-! ### What is read and approved -/

theorem readRow_ok {address : String → Option Address} {assets : Dict Address Asset}
    {seen : List (Address × Address)} {line : ℕ} {row : CsvRow} {r : ClaimRow}
    (h : readRow address assets seen line row = .ok r) : 0 < r.amount ∧ r.amount < 2 ^ 256 := by
  obtain ⟨account, -, h⟩ := Except.of_bind_ok h
  by_cases hzero : account = 0
  · rw [if_pos hzero] at h
    cases h
  rw [if_neg hzero] at h
  obtain ⟨token, -, h⟩ := Except.of_bind_ok h
  split_ifs at h with htoken hamount hseen
  obtain rfl := Except.ok.inj h
  dsimp only
  omega

theorem readRows_ok {address : String → Option Address} {assets : Dict Address Asset}
    {csv : List CsvRow} {seen : List (Address × Address)} {line : ℕ} {rows : List ClaimRow}
    (h : readRows address assets seen line csv = .ok rows) :
    ∀ r ∈ rows, 0 < r.amount ∧ r.amount < 2 ^ 256 := by
  induction csv generalizing seen line rows with
  | nil =>
    obtain rfl := Except.ok.inj h
    simp
  | cons row rest ih =>
    obtain ⟨r, hr, h⟩ := Except.of_bind_ok h
    obtain ⟨rows', hrows, rfl⟩ := Except.of_map_ok h
    intro q hq
    rcases List.mem_cons.mp hq with rfl | hq
    · exact readRow_ok hr
    · exact ih hrows q hq

/-- A contract's rows are rows of the chain's list. -/
theorem rows_of_contractGroups {config : BridgeConfig} {chain : String} {rows : List ClaimRow} {g : Group}
    (hg : g ∈ contractGroups config chain rows) : ∀ r ∈ g.rows, r ∈ rows := by
  unfold contractGroups at hg
  dsimp only at hg
  split_ifs at hg
  · obtain ⟨hg, -⟩ := List.mem_filter.mp hg
    obtain rfl := List.mem_singleton.mp hg
    exact fun r hr => List.mem_of_mem_filter hr
  · obtain ⟨hg, -⟩ := List.mem_filter.mp hg
    rcases List.mem_cons.mp hg with rfl | hg
    · exact fun r hr => List.mem_of_mem_filter hr
    · obtain rfl := List.mem_singleton.mp hg
      exact fun r hr => List.mem_of_mem_filter hr
  · obtain rfl := List.mem_singleton.mp hg
    exact fun r hr => hr

/-- What the rows paid out of one token add up to. -/
def drawn (wrapped : Option Address) (rows : List ClaimRow) (token : Address) : ℕ :=
  ((rows.filter fun r => approveToken wrapped r.token = token).map ClaimRow.amount).sum

theorem mem_keys_perAsset {rows : List ClaimRow} {t : Address} :
    t ∈ (perAsset rows).keys ↔ ∃ r ∈ rows, r.token = t := by
  simp only [perAsset, Dict.mem_keys_foldl_update]
  simp [Dict.empty, Dict.keys]

theorem measure_perAsset (rows : List ClaimRow) (t : Address) :
    (perAsset rows).measure Prod.snd t = ((rows.filter fun r => r.token = t).map ClaimRow.amount).sum := by
  have hg (r : ClaimRow) (o : Option (ℕ × ℕ)) :
      ((o.getD (0, 0)).1 + 1, (o.getD (0, 0)).2 + r.amount).2 = (o.map Prod.snd).getD 0 + r.amount := by
    cases o <;> rfl
  rw [perAsset, Dict.measure_foldl_update hg, Dict.measure]
  simp [Dict.empty, Dict.get?]

theorem mem_keys_approvals {wrapped : Option Address} {assets : Dict Address Asset} {rows : List ClaimRow}
    {a : Address} : a ∈ (approvals wrapped assets rows).keys ↔
      ∃ r ∈ rows, approveToken wrapped r.token = a := by
  simp only [approvals, Dict.mem_keys_foldl_update, List.mem_insertionSort, mem_keys_perAsset]
  simp only [Dict.empty, Dict.keys, List.map_nil, List.not_mem_nil, false_or]
  refine ⟨?_, ?_⟩
  · rintro ⟨t, ⟨r, hr, rfl⟩, ha⟩
    exact ⟨r, hr, ha⟩
  · rintro ⟨r, hr, ha⟩
    exact ⟨r.token, ⟨r, hr, rfl⟩, ha⟩

/-- Each token is approved for the sum of the rows it pays, wrapped and native together. -/
theorem measure_approvals (wrapped : Option Address) (assets : Dict Address Asset) (rows : List ClaimRow)
    (a : Address) : (approvals wrapped assets rows).measure Approval.amountRaw a = drawn wrapped rows a := by
  have hg (t : Address) (o : Option Approval) :
      (addApproval assets t ((perAsset rows).measure Prod.snd t) o).amountRaw =
        (o.map Approval.amountRaw).getD 0 + (perAsset rows).measure Prod.snd t := by
    cases o <;> rfl
  rw [approvals, Dict.measure_foldl_update hg]
  have hperm := List.perm_insertionSort (fun s t => assetOrder assets s ≤ assetOrder assets t)
    (perAsset rows).keys
  have hnd : (perAsset rows).keys.Nodup := (perAsset rows).nodup
  rw [((hperm.filter _).map _).sum_eq, funext (measure_perAsset rows),
    Dict.sum_by_key hnd fun r hr => mem_keys_perAsset.mpr ⟨r, hr, rfl⟩]
  simp [Dict.measure, Dict.empty, Dict.get?, drawn]

variable {D : Type} [LinearOrder D]

def buildGroup (K : HashFn D) (wrapped : Option Address) (assets : Dict Address Asset)
    (rows : List ClaimRow) : Except BuildError (Manifest D) :=
  let rows := sortRows rows
  if (∃ r ∈ rows, r.token = NATIVE_TOKEN) ∧ wrapped = none then .error .noWrappedNative
  else match levels (hashPair K) (leaves K (enumerate (rows.map ClaimRow.row))) with
    | .error message => .error (.noLeaves message)
    | .ok tree => .ok ⟨rows, ClaimTree.root tree, approvals wrapped assets rows⟩

theorem buildGroup_ok {K : HashFn D} {wrapped : Option Address} {assets : Dict Address Asset}
    {rows : List ClaimRow} {m : Manifest D} (h : buildGroup K wrapped assets rows = .ok m) :
    m.rows = sortRows rows ∧ m.approvals = approvals wrapped assets m.rows ∧
      (∀ r ∈ m.rows, r.token = NATIVE_TOKEN → wrapped ≠ none) ∧
      ∃ tree, levels (hashPair K) (leaves K (enumerate (m.rows.map ClaimRow.row))) = .ok tree ∧
        m.root = ClaimTree.root tree := by
  unfold buildGroup at h
  dsimp only at h
  split_ifs at h with hnative
  split at h
  · cases h
  · next tree htree =>
    obtain rfl := Except.ok.inj h
    exact ⟨rfl, rfl, fun r hr ht hw => hnative ⟨⟨r, hr, ht⟩, hw⟩, tree, htree, rfl⟩

end HarmonyMigration.BridgeClaims
