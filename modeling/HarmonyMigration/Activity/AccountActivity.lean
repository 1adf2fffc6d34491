import HarmonyMigration.Activity.Directional
import HarmonyMigration.Lib.Dict
import HarmonyMigration.Lib.Hex
import HarmonyMigration.Lib.PaddedOrder
import HarmonyMigration.Lib.FirstPage
import HarmonyMigration.Lib.ExceptRun
import Mathlib.Tactic

/-! `account-activity`: the last transaction that concerns an address, from the explorer's index of the address, or from
the bodies of all blocks with transactions. Both scans find the last one of every candidate, and the same one. -/

namespace HarmonyMigration.ChainActivity

open Except Decimal
open DirectionalActivity (Address Hash Kind Key Entry LookupValue)

/-- What an address has to do with a transaction. -/
inductive Detail
  | sender | recipient | contractCreation
  | createValidator | editValidator | delegateDelegator | delegateValidator
  | undelegateDelegator | undelegateValidator | collectRewards
  | unknown
  deriving DecidableEq

def Detail.text : Detail → Text
  | sender => "sender".toList
  | recipient => "recipient".toList
  | contractCreation => "contract_creation".toList
  | createValidator => "create_validator".toList
  | editValidator => "edit_validator".toList
  | delegateDelegator => "delegate_delegator".toList
  | delegateValidator => "delegate_validator".toList
  | undelegateDelegator => "undelegate_delegator".toList
  | undelegateValidator => "undelegate_validator".toList
  | collectRewards => "collect_rewards".toList
  | unknown => "unknown".toList

def typeText : Kind → Text
  | .regular => "regular".toList
  | .staking => "staking".toList

inductive Fatal
  | lookupValue
  | noBody (number : ℕ)
  | noHeader (number : ℕ)
  | sender (txHash : Hash)
  | keyLength
  | indexRange
  | indexTail
  deriving DecidableEq

/-! ### The chain -/

structure RegularTx where
  hashByType : Hash
  ethHash : Hash
  /-- None where it cannot be recovered. -/
  sender : Option Address
  nonce : ℕ
  /-- None where a contract is created. -/
  recipient : Option Address

inductive Message
  | createValidator (validator : Address)
  | editValidator (validator : Address)
  | delegate (delegator validator : Address)
  | undelegate (delegator validator : Address)
  | collectRewards (delegator : Address)
  | other

structure StakingTx where
  hash : Hash
  sender : Option Address
  stakingMessage : Message

structure Body where
  transactions : List RegularTx
  stakingTransactions : List StakingTx

structure Database where
  /-- The body of the canonical block; none where its hash or the body is missing. -/
  body : ℕ → Option Body
  /-- The time of the canonical header; none where it is missing or another block's. -/
  timestamp : ℕ → Option ℕ
  /-- The entries of the lookup table: the length of the key, and the value. -/
  lookups : List (ℕ × LookupValue)
  transactionIndexTail : Option ℕ
  createAddress : Address → ℕ → Address

structure Activity where
  timestampUnix : ℕ
  block : ℕ
  shard : ℕ
  kind : Kind
  txHash : Hash
  index : ℕ
  detail : Detail
  deriving DecidableEq

/-! ### The blocks with transactions -/

def decodeLookupBlock : LookupValue → Except Fatal ℕ
  | .entry blockHash blockIndex _ => (require (blockHash ≠ 0) .lookupValue).map fun _ => blockIndex
  | .bytes length number => (require (¬(length = 0 ∨ 8 < length)) .lookupValue).map fun _ => number

/-- A bit for each block, in words of 64. -/
abbrev Bitset := ℕ → BitVec 64

def mask (number : ℕ) : BitVec 64 := 1#64 <<< (number % 64)

def setBlock (bitset : Bitset) (number : ℕ) : Bitset :=
  Function.update bitset (number / 64) (bitset (number / 64) ||| mask number)

def hasBlock (bitset : Bitset) (number : ℕ) : Bool := bitset (number / 64) &&& mask number ≠ 0

/-- The blocks up to the cutoff that the lookup table names. -/
def transactionBlocks (cutoff : ℕ) (lookups : List (ℕ × LookupValue)) (bitset : Bitset) : Except Fatal Bitset :=
  lookups.foldlM (fun bitset e =>
    if e.1 ≠ 33 then .ok bitset
    else (decodeLookupBlock e.2).map fun number => if number ≤ cutoff then setBlock bitset number else bitset) bitset

/-! ### The scan of the bodies -/

def eventKey (v : Activity) : Text :=
  pad 20 v.index ++ '/' :: (typeText v.kind ++ '/' :: (v.detail.text ++ '/' :: Hex.render 64 v.txHash.toNat))

/-- Keep the later of the address's events in a block. -/
def consider (unresolved : Dict Address ℕ) (address : Address) (value : Activity) (blockMatches : Dict ℕ Activity) :
    Dict ℕ Activity :=
  match unresolved.get? address with
  | none => blockMatches
  | some index =>
    match blockMatches.get? index with
    | none => blockMatches.insert index value
    | some current => if eventKey current < eventKey value then blockMatches.insert index value else blockMatches

/-- The addresses that a transaction concerns, in the order they are considered. -/
def RegularTx.parties (db : Database) (tx : RegularTx) (sender : Address) : List (Address × Detail) :=
  [(sender, .sender),
    match tx.recipient with
    | some recipient => (recipient, .recipient)
    | none => (db.createAddress sender tx.nonce, .contractCreation)]

def Message.parties : Message → List (Address × Detail)
  | .createValidator validator => [(validator, .createValidator)]
  | .editValidator validator => [(validator, .editValidator)]
  | .delegate delegator validator => [(delegator, .delegateDelegator), (validator, .delegateValidator)]
  | .undelegate delegator validator => [(delegator, .undelegateDelegator), (validator, .undelegateValidator)]
  | .collectRewards delegator => [(delegator, .collectRewards)]
  | .other => []

def StakingTx.parties (tx : StakingTx) (sender : Address) : List (Address × Detail) :=
  (sender, .sender) :: tx.stakingMessage.parties

/-- The event of the transaction at a place of a block not yet known. -/
def baseActivity (shard : ℕ) (kind : Kind) (txHash : Hash) (index : ℕ) (detail : Detail) : Activity :=
  ⟨0, 0, shard, kind, txHash, index, detail⟩

def scanRegular (db : Database) (shard : ℕ) (unresolved : Dict Address ℕ) (blockMatches : Dict ℕ Activity)
    (tx : RegularTx × ℕ) : Except Fatal (Dict ℕ Activity) :=
  (ofOption tx.1.sender (.sender tx.1.hashByType)).map fun sender =>
    (tx.1.parties db sender).foldl (fun m p =>
      consider unresolved p.1 (baseActivity shard .regular tx.1.hashByType tx.2 p.2) m) blockMatches

def scanStaking (shard : ℕ) (unresolved : Dict Address ℕ) (blockMatches : Dict ℕ Activity) (tx : StakingTx × ℕ) :
    Except Fatal (Dict ℕ Activity) :=
  (ofOption tx.1.sender (.sender tx.1.hash)).map fun sender =>
    (tx.1.parties sender).foldl (fun m p =>
      consider unresolved p.1 (baseActivity shard .staking tx.1.hash tx.2 p.2) m) blockMatches

/-- Both lists of a body, each from its end. -/
def scanBody (db : Database) (shard : ℕ) (unresolved : Dict Address ℕ) (body : Body) : Except Fatal (Dict ℕ Activity) :=
  (body.transactions.zipIdx.reverse.foldlM (scanRegular db shard unresolved) .empty).bind fun blockMatches =>
  body.stakingTransactions.zipIdx.reverse.foldlM (scanStaking shard unresolved) blockMatches

structure Progress where
  records : List (Option Activity)
  unresolved : Dict Address ℕ

/-- `delete(unresolved, candidates[index].Address)`. -/
def Progress.resolve (candidates : List Address) (number timestamp : ℕ) (p : Progress) (e : ℕ × Activity) : Progress where
  records := p.records.set e.1 (some { e.2 with block := number, timestampUnix := timestamp })
  unresolved := p.unresolved.filterKeys fun a => candidates[e.1]? ≠ some a

def scanBlock (db : Database) (shard : ℕ) (bitset : Bitset) (candidates : List Address) (number : ℕ) (p : Progress) :
    Except Fatal Progress :=
  if hasBlock bitset number then
    (ofOption (db.body number) (.noBody number)).bind fun body =>
    (scanBody db shard p.unresolved body).bind fun blockMatches =>
    if blockMatches.entries = [] then .ok p
    else
      (ofOption (db.timestamp number) (.noHeader number)).map fun timestamp =>
        blockMatches.entries.foldl (.resolve candidates number timestamp) p
  else .ok p

/-- From a block down to the first, or until every candidate is resolved. -/
def scanDown (db : Database) (shard : ℕ) (bitset : Bitset) (candidates : List Address) :
    ℕ → Progress → Except Fatal Progress
  | 0, p => scanBlock db shard bitset candidates 0 p
  | number + 1, p =>
    (scanBlock db shard bitset candidates (number + 1) p).bind fun p =>
    if p.unresolved.entries = [] then .ok p else scanDown db shard bitset candidates number p

/-- `main` without an explorer database. -/
def scanBodies (db : Database) (shard cutoff : ℕ) (candidates : List Address) : Except Fatal Progress :=
  (require (db.transactionIndexTail.all fun tail => tail = 0) .indexTail).bind fun _ =>
  (transactionBlocks cutoff db.lookups fun _ => 0).bind fun bitset =>
  scanDown db shard bitset candidates cutoff ⟨candidates.map fun _ => none, .ofList candidates.zipIdx⟩

/-! ### The explorer's index -/

/-- The explorer's index: the entries of an address, newest key first. -/
abbrev Explorer := Kind → Address → List Entry

/-- The hash of the canonical transaction at the place, where the recorded hash is one of its own. -/
def verifyCanonicalActivity (db : Database) (kind : Kind) (key : Key) : Except Fatal (Option Hash) :=
  (ofOption (db.body key.block) (.noBody key.block)).bind fun body =>
  (require (key.index < 2 ^ 63) .indexRange).map fun _ =>
  match kind with
  | .regular => (body.transactions[key.index]?).bind fun tx =>
    if tx.hashByType ≠ key.hash ∧ tx.ethHash ≠ key.hash then none else some tx.hashByType
  | .staking => (body.stakingTransactions[key.index]?).bind fun tx => if tx.hash ≠ key.hash then none else some tx.hash

def entryDetail (value : List (BitVec 8)) : Detail :=
  match value with
  | [flag] => if flag = 1 then .sender else if flag = 2 then .recipient else .unknown
  | _ => .unknown

def latestExplorerActivity (db : Database) (shard cutoff : ℕ) (kind : Kind) : List Entry → Except Fatal (Option Activity)
  | [] => .ok none
  | e :: rest =>
    (ofOption e.key .keyLength).bind fun key =>
    if cutoff < key.block then latestExplorerActivity db shard cutoff kind rest
    else
      (verifyCanonicalActivity db kind key).bind fun canonicalHash =>
      match canonicalHash with
      | none => latestExplorerActivity db shard cutoff kind rest
      | some hash => .ok (some ⟨0, key.block, shard, kind, hash, key.index, entryDetail e.value⟩)

def laterKey (v : Activity) : Text :=
  pad 20 v.block ++ '/' :: (pad 20 v.index ++ '/' :: (typeText v.kind ++ '/' :: Hex.render 64 v.txHash.toNat))

def laterActivity (left right : Option Activity) : Option Activity :=
  match left with
  | none => right
  | some l =>
    match right with
    | none => some l
    | some r => if laterKey l < laterKey r then some r else some l

/-- What is recorded for one candidate. -/
def scanCandidate (db : Database) (explorer : Explorer) (shard cutoff : ℕ) (address : Address) :
    Except Fatal (Option Activity) :=
  (latestExplorerActivity db shard cutoff .regular (explorer .regular address)).bind fun normal =>
  (if shard = 0 then latestExplorerActivity db shard cutoff .staking (explorer .staking address) else .ok none).bind
    fun staking =>
  match laterActivity normal staking with
  | none => .ok none
  | some selected =>
    (ofOption (db.timestamp selected.block) (.noHeader selected.block)).map fun timestamp =>
      some { selected with timestampUnix := timestamp }

def scanExplorerDatabase (db : Database) (explorer : Explorer) (shard cutoff : ℕ) (candidates : List Address) :
    Except Fatal Progress :=
  (candidates.mapM (scanCandidate db explorer shard cutoff)).map fun records =>
    ⟨records, .ofList (((candidates.zipIdx.zip records).filter fun p => p.2.isNone).map Prod.fst)⟩

open FirstPage

/-! ### Events -/

/-- A canonical transaction at its place. -/
structure Event where
  block : ℕ
  index : ℕ
  kind : Kind
  txHash : Hash
  deriving DecidableEq

def kindRank : Kind → ℕ
  | .regular => 0
  | .staking => 1

theorem kindRank_injective : Function.Injective kindRank := by
  intro k k' h
  cases k <;> cases k' <;> first | rfl | cases h

/-- Where an event stands: block, index, and staking behind regular. -/
def Event.place (e : Event) : ℕ ×ₗ ℕ ×ₗ ℕ := toLex (e.block, toLex (e.index, kindRank e.kind))

theorem Event.place_lt_iff {e e' : Event} : e.place < e'.place ↔
    e.block < e'.block ∨ e.block = e'.block ∧
      (e.index < e'.index ∨ e.index = e'.index ∧ kindRank e.kind < kindRank e'.kind) := by
  rw [place, place, Prod.Lex.toLex_lt_toLex, Prod.Lex.toLex_lt_toLex]

def Activity.event (v : Activity) : Event := ⟨v.block, v.index, v.kind, v.txHash⟩

/-- A last event, where there is one. -/
def IsLast (P : Event → Prop) : Option Event → Prop
  | none => ∀ e, ¬P e
  | some e => P e ∧ ∀ e', P e' → e'.place ≤ e.place

theorem IsLast.congr {P Q : Event → Prop} {r : Option Event} (h : IsLast P r) (hpq : ∀ e, P e ↔ Q e) : IsLast Q r := by
  cases r with
  | none => exact fun e he => h e ((hpq e).mpr he)
  | some e => exact ⟨(hpq e).mp h.1, fun e' he' => h.2 e' ((hpq e').mpr he')⟩

theorem IsLast.unique {P : Event → Prop} {r r' : Option Event} (h : IsLast P r) (h' : IsLast P r')
    (hinj : ∀ e e', P e → P e' → e.place = e'.place → e = e') : r = r' := by
  cases r with
  | none =>
    cases r' with
    | none => rfl
    | some e => exact absurd h'.1 (h e)
  | some e =>
    cases r' with
    | none => exact absurd h.1 (h' e)
    | some e' => exact congrArg some (hinj e e' h.1 h'.1 (le_antisymm (h'.2 e h.1) (h.2 e' h'.1)))

/-! ### The chain -/

section Chain
variable (db : Database)

/-- The place of the body holds the transaction, and it concerns the address. -/
def Concerns (body : Body) (kind : Kind) (index : ℕ) (txHash : Hash) (a : Address) : Prop :=
  match kind with
  | .regular => ∃ tx sender, body.transactions[index]? = some tx ∧ tx.sender = some sender ∧ tx.hashByType = txHash ∧
      a ∈ (tx.parties db sender).map Prod.fst
  | .staking => ∃ tx sender, body.stakingTransactions[index]? = some tx ∧ tx.sender = some sender ∧ tx.hash = txHash ∧
      a ∈ (tx.parties sender).map Prod.fst

/-- A canonical transaction up to the cutoff that concerns the address. -/
def Occurs (cutoff : ℕ) (a : Address) (e : Event) : Prop :=
  e.block ≤ cutoff ∧ ∃ body, db.body e.block = some body ∧ Concerns db body e.kind e.index e.txHash a

theorem Occurs.eq_of_place {cutoff : ℕ} {a : Address} {e e' : Event} (h : Occurs db cutoff a e)
    (h' : Occurs db cutoff a e') (hplace : e.place = e'.place) : e = e' := by
  obtain ⟨block, index, kind, txHash⟩ := e
  obtain ⟨block', index', kind', txHash'⟩ := e'
  obtain ⟨-, body, hbody, hconcerns⟩ := h
  obtain ⟨-, body', hbody', hconcerns'⟩ := h'
  obtain ⟨rfl, hrest⟩ := Prod.mk.inj (toLex.injective hplace)
  obtain ⟨rfl, hrank⟩ := Prod.mk.inj (toLex.injective hrest)
  obtain rfl := kindRank_injective hrank
  obtain rfl := Option.some.inj (hbody.symm.trans hbody')
  cases kind with
  | regular =>
    obtain ⟨tx, sender, htx, -, rfl, -⟩ := hconcerns
    obtain ⟨tx', sender', htx', -, rfl, -⟩ := hconcerns'
    obtain rfl := Option.some.inj (htx.symm.trans htx')
    rfl
  | staking =>
    obtain ⟨tx, sender, htx, -, rfl, -⟩ := hconcerns
    obtain ⟨tx', sender', htx', -, rfl, -⟩ := hconcerns'
    obtain rfl := Option.some.inj (htx.symm.trans htx')
    rfl

/-- The history is complete, the senders can be recovered, and the lookup table names every block with transactions. -/
structure Complete (shard cutoff : ℕ) : Prop where
  body : ∀ n ≤ cutoff, ∃ body, db.body n = some body
  timestamp : ∀ n ≤ cutoff, ∃ t, db.timestamp n = some t
  senders : ∀ n ≤ cutoff, ∀ body, db.body n = some body →
    (∀ tx ∈ body.transactions, ∃ sender, tx.sender = some sender) ∧
      ∀ tx ∈ body.stakingTransactions, ∃ sender, tx.sender = some sender
  lengths : ∀ n ≤ cutoff, ∀ body, db.body n = some body →
    body.transactions.length ≤ 2 ^ 63 ∧ body.stakingTransactions.length ≤ 2 ^ 63
  staking : shard ≠ 0 → ∀ n ≤ cutoff, ∀ body, db.body n = some body → body.stakingTransactions = []
  values : ∀ e ∈ db.lookups, e.1 = 33 → ∃ n, decodeLookupBlock e.2 = .ok n
  lookups : ∀ n ≤ cutoff, ∀ body, db.body n = some body → body.transactions ≠ [] ∨ body.stakingTransactions ≠ [] →
    ∃ e ∈ db.lookups, e.1 = 33 ∧ decodeLookupBlock e.2 = .ok n
  tail : ∀ t ∈ db.transactionIndexTail, t = 0

/-- The index of an address holds every canonical transaction that concerns it, newest first, and the entries that the
chain confirms concern it. -/
structure Indexed (entries : List Entry) (cutoff : ℕ) (kind : Kind) (a : Address) : Prop where
  keys : ∀ e ∈ entries, ∃ key, e.key = some key
  descends : entries.Pairwise fun e e' => ∀ key ∈ e.key, ∀ key' ∈ e'.key,
    key'.block < key.block ∨ key'.block = key.block ∧ key'.index ≤ key.index
  places : ∀ e ∈ entries, ∀ key ∈ e.key, key.index < 2 ^ 63
  covers : ∀ e, Occurs db cutoff a e → e.kind = kind → ∃ entry ∈ entries, ∃ key ∈ entry.key,
    key.block = e.block ∧ key.index = e.index ∧ verifyCanonicalActivity db kind key = .ok (some e.txHash)
  sound : ∀ entry ∈ entries, ∀ key ∈ entry.key, key.block ≤ cutoff → ∀ txHash,
    verifyCanonicalActivity db kind key = .ok (some txHash) → Occurs db cutoff a ⟨key.block, key.index, kind, txHash⟩

end Chain

/-! ### The texts that are compared -/

theorem typeText_lt {k k' : Kind} (h : kindRank k < kindRank k') {s t : Text} : typeText k ++ s < typeText k' ++ t := by
  cases k <;> cases k' <;> first | exact absurd h (by decide) | exact List.cons_lt_cons_iff.mpr (.inl (by decide))

theorem index_bound {n : ℕ} (h : n < 2 ^ 64) : n < 10 ^ 20 := h.trans (by norm_num)

theorem eventKey_lt {v w : Activity} (hv : v.index < 2 ^ 64) (hw : w.index < 2 ^ 64)
    (h : v.index < w.index ∨ v.index = w.index ∧ kindRank v.kind < kindRank w.kind) : eventKey v < eventKey w := by
  rw [eventKey, eventKey, pad_append_lt_iff (by decide) (index_bound hv) (index_bound hw)]
  exact h.imp_right fun hrest => ⟨hrest.1, List.cons_lt_cons_iff.mpr (.inr ⟨rfl, typeText_lt hrest.2⟩)⟩

theorem laterKey_lt {v w : Activity} (hv : v.index < 2 ^ 64) (hw : w.index < 2 ^ 64) (hvb : v.block < 2 ^ 64)
    (hwb : w.block < 2 ^ 64) (h : v.event.place < w.event.place) : laterKey v < laterKey w := by
  rw [laterKey, laterKey, pad_append_lt_iff (by decide) (index_bound hvb) (index_bound hwb)]
  refine (Event.place_lt_iff.mp h).imp_right fun hrest => ⟨hrest.1, List.cons_lt_cons_iff.mpr (.inr ⟨rfl, ?_⟩)⟩
  rw [pad_append_lt_iff (by decide) (index_bound hv) (index_bound hw)]
  exact hrest.2.imp_right fun hrank => ⟨hrank.1, List.cons_lt_cons_iff.mpr (.inr ⟨rfl, typeText_lt hrank.2⟩)⟩

/-! ### The explorer's index -/

section Explorer
variable {db : Database} {shard cutoff : ℕ} {kind : Kind} {a : Address}

/-- The chain confirms the key as that of the event. -/
def Confirms (db : Database) (cutoff : ℕ) (kind : Kind) (key : Key) (e : Event) : Prop :=
  e.kind = kind ∧ e.block ≤ cutoff ∧ key.block = e.block ∧ key.index = e.index ∧
    verifyCanonicalActivity db kind key = .ok (some e.txHash)

def Confirmed (db : Database) (cutoff : ℕ) (kind : Kind) (entries : List Entry) (e : Event) : Prop :=
  ∃ entry ∈ entries, ∃ key ∈ entry.key, Confirms db cutoff kind key e

theorem confirmed_cons {entry : Entry} {entries : List Entry} {key : Key} (hkey : entry.key = some key) {e : Event} :
    Confirmed db cutoff kind (entry :: entries) e ↔
      Confirms db cutoff kind key e ∨ Confirmed db cutoff kind entries e := by
  constructor
  · rintro ⟨entry', hmem, key', hkey', hrest⟩
    rcases List.mem_cons.mp hmem with rfl | hmem
    · obtain rfl := Option.some.inj (hkey.symm.trans hkey')
      exact .inl hrest
    · exact .inr ⟨entry', hmem, key', hkey', hrest⟩
  · rintro (hrest | ⟨entry', hmem, key', hkey', hrest⟩)
    · exact ⟨entry, List.mem_cons_self, key, hkey, hrest⟩
    · exact ⟨entry', List.mem_cons_of_mem _ hmem, key', hkey', hrest⟩

theorem latestExplorerActivity_late {entry : Entry} {entries : List Entry} {key : Key} (hkey : entry.key = some key)
    (hlate : cutoff < key.block) : latestExplorerActivity db shard cutoff kind (entry :: entries) =
      latestExplorerActivity db shard cutoff kind entries := by
  rw [latestExplorerActivity, hkey, ofOption, Option.elim_some, bind_ok_left, if_pos hlate]

theorem latestExplorerActivity_verified {entry : Entry} {entries : List Entry} {key : Key} {found : Option Hash}
    (hkey : entry.key = some key) (hcutoff : ¬cutoff < key.block)
    (hverify : verifyCanonicalActivity db kind key = .ok found) :
    latestExplorerActivity db shard cutoff kind (entry :: entries) =
      found.elim (latestExplorerActivity db shard cutoff kind entries) fun hash =>
        .ok (some ⟨0, key.block, shard, kind, hash, key.index, entryDetail entry.value⟩) := by
  rw [latestExplorerActivity, hkey, ofOption, Option.elim_some, bind_ok_left, if_neg hcutoff, hverify]
  cases found <;> rfl

/-- The first entry that the chain confirms is the newest of them. -/
theorem latestExplorerActivity_ok {entries : List Entry} (hbody : ∀ n ≤ cutoff, ∃ body, db.body n = some body)
    (hkeys : ∀ e ∈ entries, ∃ key, e.key = some key)
    (hdescends : entries.Pairwise fun e e' => ∀ key ∈ e.key, ∀ key' ∈ e'.key,
      key'.block < key.block ∨ key'.block = key.block ∧ key'.index ≤ key.index)
    (hplaces : ∀ e ∈ entries, ∀ key ∈ e.key, key.index < 2 ^ 63) :
    ∃ r, latestExplorerActivity db shard cutoff kind entries = .ok r ∧
      IsLast (Confirmed db cutoff kind entries) (r.map Activity.event) ∧
      ∀ v ∈ r, v.shard = shard ∧ v.index < 2 ^ 64 ∧ v.kind = kind := by
  induction entries with
  | nil => exact ⟨none, rfl, fun e he => by simp [Confirmed] at he, by simp⟩
  | cons entry entries ih =>
    obtain ⟨⟨key, hkey⟩, hkeys⟩ := List.forall_mem_cons.mp hkeys
    obtain ⟨hhead, hdescends⟩ := List.pairwise_cons.mp hdescends
    obtain ⟨hplace, hplaces⟩ := List.forall_mem_cons.mp hplaces
    obtain ⟨r, hr, hlast, hfields⟩ := ih hkeys hdescends hplaces
    have hindex : key.index < 2 ^ 63 := hplace key hkey
    -- an entry that is late or stale changes nothing
    have hskip : (∀ e, ¬Confirms db cutoff kind key e) →
        IsLast (Confirmed db cutoff kind (entry :: entries)) (r.map Activity.event) := fun hnot =>
      hlast.congr fun e => by rw [confirmed_cons hkey, or_iff_right (hnot e)]
    by_cases hcutoff : cutoff < key.block
    · refine ⟨r, (latestExplorerActivity_late hkey hcutoff).trans hr, hskip fun e he => ?_, hfields⟩
      obtain ⟨-, hblock, hkb, -⟩ := he
      omega
    · obtain ⟨body, hbody⟩ := hbody key.block (not_lt.mp hcutoff)
      obtain ⟨found, hverify⟩ : ∃ found, verifyCanonicalActivity db kind key = .ok found := by
        rw [verifyCanonicalActivity, hbody]
        exact ⟨_, by rw [ofOption, Option.elim_some, bind_ok_left, require_ok hindex]; rfl⟩
      have hstep : latestExplorerActivity db shard cutoff kind (entry :: entries) = _ :=
        latestExplorerActivity_verified hkey hcutoff hverify
      cases found with
      | none =>
        refine ⟨r, hstep.trans hr, hskip fun e he => ?_, hfields⟩
        obtain ⟨-, -, -, -, hsome⟩ := he
        cases hverify.symm.trans hsome
      | some hash =>
        refine ⟨_, hstep, ⟨?_, fun e he => ?_⟩, ?_⟩
        · exact (confirmed_cons hkey).mpr (.inl ⟨rfl, not_lt.mp hcutoff, rfl, rfl, hverify⟩)
        · refine not_lt.mp fun hlt => ?_
          have habove := Event.place_lt_iff.mp hlt
          simp only [Activity.event] at habove
          rcases (confirmed_cons hkey).mp he with hconfirms | ⟨entry', hmem, key', hkey', hkind, -, hkb, hki, -⟩
          · obtain ⟨hkind, -, hkb, hki, -⟩ := hconfirms
            rw [hkind] at habove
            omega
          · have hbelow := hhead entry' hmem key hkey key' hkey'
            rw [hkind] at habove
            omega
        · intro v hv
          obtain rfl := Option.some.inj hv
          exact ⟨rfl, hindex.trans (by norm_num), rfl⟩

/-- The newest entry of a faithful index is the last transaction of its kind. -/
theorem Indexed.latest (shard : ℕ) {explorer : List Entry} (h : Indexed db explorer cutoff kind a)
    (hbody : ∀ n ≤ cutoff, ∃ body, db.body n = some body) :
    ∃ r, latestExplorerActivity db shard cutoff kind explorer = .ok r ∧
      IsLast (fun e => Occurs db cutoff a e ∧ e.kind = kind) (r.map Activity.event) ∧
      ∀ v ∈ r, v.shard = shard ∧ v.index < 2 ^ 64 ∧ v.kind = kind := by
  obtain ⟨r, hr, hlast, hfields⟩ := latestExplorerActivity_ok hbody h.keys h.descends h.places
  refine ⟨r, hr, hlast.congr fun e => ⟨?_, ?_⟩, hfields⟩
  · rintro ⟨entry, hmem, key, hkey, rfl, hblock, hkb, hki, hverify⟩
    have hoccurs := h.sound entry hmem key hkey (hkb ▸ hblock) e.txHash hverify
    rw [hkb, hki] at hoccurs
    exact ⟨hoccurs, rfl⟩
  · rintro ⟨hoccurs, hkind⟩
    obtain ⟨entry, hmem, key, hkey, hrest⟩ := h.covers e hoccurs hkind
    exact ⟨entry, hmem, key, hkey, hkind, hoccurs.1, hrest⟩

/-- Of the last of either kind the later one is the last of both. -/
theorem isLast_laterActivity {P Q : Event → Prop} {l r : Option Activity} (hl : IsLast P (l.map Activity.event))
    (hr : IsLast Q (r.map Activity.event)) (hlb : ∀ v ∈ l, v.index < 2 ^ 64 ∧ v.block < 2 ^ 64)
    (hrb : ∀ v ∈ r, v.index < 2 ^ 64 ∧ v.block < 2 ^ 64) :
    IsLast (fun e => P e ∨ Q e) ((laterActivity l r).map Activity.event) := by
  cases l with
  | none => exact hr.congr fun e => (or_iff_right (hl e)).symm
  | some v =>
    cases r with
    | none => exact hl.congr fun e => (or_iff_left (hr e)).symm
    | some w =>
      obtain ⟨hvi, hvb⟩ := hlb v rfl
      obtain ⟨hwi, hwb⟩ := hrb w rfl
      by_cases hlater : laterKey v < laterKey w
      · have hle : v.event.place ≤ w.event.place :=
          not_lt.mp fun hlt => lt_asymm hlater (laterKey_lt hwi hvi hwb hvb hlt)
        rw [laterActivity, if_pos hlater]
        exact ⟨.inr hr.1, fun e he => he.elim (fun hp => (hl.2 e hp).trans hle) (hr.2 e)⟩
      · have hle : w.event.place ≤ v.event.place :=
          not_lt.mp fun hlt => hlater (laterKey_lt hvi hwi hvb hwb hlt)
        rw [laterActivity, if_neg hlater]
        exact ⟨.inl hl.1, fun e he => he.elim (hl.2 e) fun hq => (hr.2 e hq).trans hle⟩

end Explorer

/-! ### What is recorded of an address -/

/-- The record is the last transaction of the address, with the shard and the block's time. -/
structure Recorded (db : Database) (shard cutoff : ℕ) (a : Address) (r : Option Activity) : Prop where
  last : IsLast (Occurs db cutoff a) (r.map Activity.event)
  stamped : ∀ v ∈ r, v.shard = shard ∧ db.timestamp v.block = some v.timestampUnix

/-- The record without what the address has to do with the transaction, which the explorer's index need not say. -/
def Activity.undetailed (v : Activity) : Activity := { v with detail := .unknown }

/-- Two records of an address differ in the detail alone. -/
theorem Recorded.eq {db : Database} {shard cutoff : ℕ} {a : Address} {r r' : Option Activity}
    (h : Recorded db shard cutoff a r) (h' : Recorded db shard cutoff a r') :
    r.map Activity.undetailed = r'.map Activity.undetailed := by
  have hevents := h.last.unique h'.last fun e e' he he' => he.eq_of_place db he'
  cases r with
  | none =>
    cases r' with
    | none => rfl
    | some v => cases hevents
  | some v =>
    cases r' with
    | none => cases hevents
    | some w =>
      obtain ⟨hshard, htime⟩ := h.stamped v rfl
      obtain ⟨hshard', htime'⟩ := h'.stamped w rfl
      obtain ⟨hblock, hindex, hkind, hhash⟩ := Event.mk.inj (Option.some.inj hevents)
      rw [hblock, htime'] at htime
      have htimestamp := Option.some.inj htime
      simp only [Option.map_some, Activity.undetailed, hblock, hindex, hkind, hhash, hshard, hshard', htimestamp]

section Candidate
variable {db : Database} {explorer : Explorer} {shard cutoff : ℕ} {a : Address}

theorem scanCandidate_ok (hdb : Complete db shard cutoff) (hcutoff : cutoff < 2 ^ 64)
    (hindex : ∀ kind, (kind = .staking → shard = 0) → Indexed db (explorer kind a) cutoff kind a) :
    ∃ r, scanCandidate db explorer shard cutoff a = .ok r ∧ Recorded db shard cutoff a r := by
  obtain ⟨l, hl, hlast, hfields⟩ := (hindex .regular (fun h => by cases h)).latest shard hdb.body
  have hstaking : ∃ r, (if shard = 0 then latestExplorerActivity db shard cutoff .staking (explorer .staking a)
      else .ok none) = .ok r ∧ IsLast (fun e => Occurs db cutoff a e ∧ e.kind = .staking) (r.map Activity.event) ∧
        ∀ v ∈ r, v.shard = shard ∧ v.index < 2 ^ 64 ∧ v.kind = .staking := by
    by_cases hshard : shard = 0
    · rw [if_pos hshard]
      exact (hindex .staking fun _ => hshard).latest shard hdb.body
    · rw [if_neg hshard]
      refine ⟨none, rfl, fun e he => ?_, by simp⟩
      obtain ⟨⟨hblock, body, hbody, hconcerns⟩, hkind⟩ := he
      rw [hkind] at hconcerns
      obtain ⟨tx, -, htx, -⟩ := hconcerns
      simp [hdb.staking hshard e.block hblock body hbody] at htx
  obtain ⟨r, hr, hlast', hfields'⟩ := hstaking
  -- an event that is last is one of those up to the cutoff
  have hbounds : ∀ {kind} {o : Option Activity},
      IsLast (fun e => Occurs db cutoff a e ∧ e.kind = kind) (o.map Activity.event) →
        (∀ v ∈ o, v.shard = shard ∧ v.index < 2 ^ 64 ∧ v.kind = kind) → ∀ v ∈ o, v.index < 2 ^ 64 ∧ v.block < 2 ^ 64 := by
    intro kind o ho hfields v hv
    obtain rfl : o = some v := hv
    exact ⟨(hfields v rfl).2.1, ho.1.1.1.trans_lt hcutoff⟩
  have hboth := isLast_laterActivity hlast hlast' (hbounds hlast hfields) (hbounds hlast' hfields')
  have hoccurs := hboth.congr (Q := Occurs db cutoff a) fun e => by
    cases hkind : e.kind <;> simp
  have hshard : ∀ v ∈ laterActivity l r, v.shard = shard := by
    intro v hv
    cases l with
    | none => exact (hfields' v hv).1
    | some l =>
      cases r with
      | none => exact (hfields v hv).1
      | some r =>
        rw [laterActivity] at hv
        split_ifs at hv
        · exact (hfields' v hv).1
        · exact (hfields v hv).1
  rw [scanCandidate, hl, bind_ok_left, hr, bind_ok_left]
  cases hlater : laterActivity l r with
  | none =>
    rw [hlater] at hoccurs
    exact ⟨none, rfl, hoccurs, by simp⟩
  | some v =>
    rw [hlater] at hoccurs
    obtain ⟨t, ht⟩ := hdb.timestamp v.block hoccurs.1.1
    refine ⟨some { v with timestampUnix := t }, ?_, hoccurs, fun w hw => ?_⟩
    · dsimp only
      rw [ht]
      rfl
    · obtain rfl := Option.some.inj hw
      exact ⟨hshard v hlater, ht⟩

end Candidate

/-! ### The blocks with transactions -/

theorem hasBlock_eq (bitset : Bitset) (n : ℕ) : hasBlock bitset n = (bitset (n / 64)).getLsbD (n % 64) := by
  have hlt : n % 64 < 64 := Nat.mod_lt _ (by decide)
  have hmask : mask n = BitVec.twoPow 64 (n % 64) := rfl
  have hne : BitVec.twoPow 64 (n % 64) ≠ 0 := by
    intro h
    have hbit := congrArg (fun x => BitVec.getLsbD x (n % 64)) h
    simp [hlt] at hbit
  unfold hasBlock
  rw [hmask, BitVec.and_twoPow]
  cases h : (bitset (n / 64)).getLsbD (n % 64)
  · simp
  · simpa using hne

theorem hasBlock_setBlock (bitset : Bitset) (n m : ℕ) :
    hasBlock (setBlock bitset n) m = (decide (m = n) || hasBlock bitset m) := by
  have hn : n % 64 < 64 := Nat.mod_lt _ (by decide)
  have hm : m % 64 < 64 := Nat.mod_lt _ (by decide)
  have hmask : mask n = BitVec.twoPow 64 (n % 64) := rfl
  rw [hasBlock_eq, hasBlock_eq, setBlock]
  by_cases hword : m / 64 = n / 64
  · have hmn : m = n ↔ n % 64 = m % 64 := by omega
    rw [hword, Function.update_self, hmask, BitVec.getLsbD_or, BitVec.getLsbD_twoPow]
    simp only [hn, decide_true, Bool.true_and, hmn]
    exact Bool.or_comm _ _
  · have hne : m ≠ n := fun h => hword (by rw [h])
    simp [Function.update_of_ne hword, hne]

/-- Every block that the table names up to the cutoff is marked. -/
theorem transactionBlocks_ok {cutoff : ℕ} {lookups : List (ℕ × LookupValue)} {bitset : Bitset}
    (hvalues : ∀ e ∈ lookups, e.1 = 33 → ∃ n, decodeLookupBlock e.2 = .ok n) :
    ∃ marked, transactionBlocks cutoff lookups bitset = .ok marked ∧ (∀ m, hasBlock bitset m → hasBlock marked m) ∧
      ∀ e ∈ lookups, e.1 = 33 → ∀ n ≤ cutoff, decodeLookupBlock e.2 = .ok n → hasBlock marked n := by
  induction lookups generalizing bitset with
  | nil => exact ⟨bitset, rfl, fun _ h => h, by simp⟩
  | cons e rest ih =>
    obtain ⟨hvalue, hvalues⟩ := List.forall_mem_cons.mp hvalues
    by_cases hlength : e.1 = 33
    · obtain ⟨n, hn⟩ := hvalue hlength
      obtain ⟨marked, hmarked, hkept, hset⟩ := @ih (if n ≤ cutoff then setBlock bitset n else bitset) hvalues
      refine ⟨marked, ?_, fun m hm => hkept m ?_, List.forall_mem_cons.mpr ⟨fun _ m hm hdecode => hkept m ?_, hset⟩⟩
      · rw [← hmarked]
        simp [transactionBlocks, List.foldlM_cons, hlength, hn, Except.map, bind, Except.bind]
      · split_ifs
        · rw [hasBlock_setBlock, hm, Bool.or_true]
        · exact hm
      · obtain rfl := Except.ok.inj (hn.symm.trans hdecode)
        rw [if_pos hm, hasBlock_setBlock, decide_eq_true rfl, Bool.true_or]
    · obtain ⟨marked, hmarked, hkept, hset⟩ := @ih bitset hvalues
      refine ⟨marked, ?_, hkept, List.forall_mem_cons.mpr ⟨fun h => absurd h hlength, hset⟩⟩
      rw [← hmarked]
      simp [transactionBlocks, List.foldlM_cons, hlength, bind, Except.bind]

end HarmonyMigration.ChainActivity
