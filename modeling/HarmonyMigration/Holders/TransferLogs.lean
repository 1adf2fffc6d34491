import HarmonyMigration.ContractReview.RlpWrapper
import HarmonyMigration.Lib.Dict
import HarmonyMigration.Lib.Erc20
import HarmonyMigration.Lib.ExceptRun
import HarmonyMigration.Lib.RangeSplit
import HarmonyMigration.Lib.WorkerPool

/-! `token-holders`: a `Transfer` log, decoded and added to the balances of its token, and `scan`, which reads the transfers
of several tokens over a range of blocks, shared out between workers. -/

namespace HarmonyMigration.TokenHolders

open Decimal Erc20 Except Slices

structure RpcLog where
  address : Text
  topics : List Text
  data : Text
  blockNumber : Text
  transactionHash : Text
  logIndex : Text
  removed : Bool
  deriving DecidableEq

inductive LogError where
  | removedLog
  | invalidAddress (text : Text)
  | unexpectedAddress (text : Text)
  | notTransfer
  | invalidHex (text : Text)
  | addressLength (bytes : ℕ)
  | addressHighByte
  | unsupportedLayout (topics bytes : ℕ)

def transferTopic : Text := "0xddf252ad1be2c89b69c2b068fc378daa952ba7f163c4a11628f55a4df523b3ef".toList

/-- `strings.EqualFold` with a text of digits and lower letters that have no other folding than their capitals. -/
def equalFold (text lower : Text) : Bool := text.map Char.toLower = lower

/-! ### The key of a log -/

/-- FNV-1a takes one byte. -/
def fnvStep (hash : UInt64) (byte : UInt8) : UInt64 := (hash ^^^ byte.toUInt64) * 1099511628211

def fnv64a (data : Bytes) : UInt64 := data.foldl fnvStep 14695981039346656037

def utf8 (text : Text) : Bytes := text.flatMap String.utf8EncodeChar

/-- `toLower` is `strings.ToLower`. -/
def logKey (toLower : Text → Text) (log : RpcLog) : UInt64 :=
  fnv64a (utf8 (toLower log.transactionHash) ++ 0 :: utf8 (toLower log.logIndex))

/-! ### Decoding -/

/-- `hex.DecodeString`. -/
def decodeString : Text → Option Bytes
  | [] => some []
  | [_] => none
  | a :: b :: rest =>
    (Hex.digit? a.toLower).bind fun high => (Hex.digit? b.toLower).bind fun low =>
    (decodeString rest).map fun data => UInt8.ofNat (16 * high + low) :: data

def parseHex : Text → Except LogError Bytes
  | '0' :: 'x' :: raw => ofOption (decodeString raw) (.invalidHex raw)
  | value => .error (.invalidHex value)

def bytesToAddress (data : Bytes) : Address := BitVec.ofNat 160 (beNat data)

def topicAddress (value : Text) : Except LogError Address :=
  (parseHex value).bind fun decoded =>
  (require (decoded.length = 32) (.addressLength decoded.length)).bind fun _ =>
  (require (decoded.take 12 = List.replicate 12 0) .addressHighByte).map fun _ => bytesToAddress (decoded.drop 12)

def addressWord (data : Bytes) : Text := '0' :: 'x' :: ContractReview.hexText data

/-- Sender, recipient and amount, of the standard form and of the one that has all three in the data. -/
def decodeTransfer (log : RpcLog) : Except LogError (Address × Address × ℕ) :=
  (parseHex log.data).bind fun data =>
  match log.topics with
  | [_, source, destination] =>
    (require (data.length = 32) (.unsupportedLayout 3 data.length)).bind fun _ =>
    (topicAddress source).bind fun source =>
    (topicAddress destination).map fun destination => (source, destination, beNat data)
  | [_] =>
    (require (data.length = 96) (.unsupportedLayout 1 data.length)).bind fun _ =>
    (topicAddress (addressWord (data.take 32))).bind fun source =>
    (topicAddress (addressWord ((data.take 64).drop 32))).map fun destination => (source, destination, beNat (data.drop 64))
  | topics => .error (.unsupportedLayout topics.length data.length)

def withoutPrefix : Text → Text
  | '0' :: 'x' :: raw => raw
  | '0' :: 'X' :: raw => raw
  | raw => raw

/-- `common.HexToAddress` of what `common.IsHexAddress` accepts. -/
def hexToAddress (text : Text) : Option Address :=
  if (withoutPrefix text).length = 40 then (decodeString (withoutPrefix text)).map bytesToAddress else none

/-! ### Balances -/

/-- What the logs change, by token and account. -/
abbrev BalanceSet := Dict Address (Dict Address ℤ)

/-- The keys of the logs that were taken, by token. -/
abbrev SeenSet := Dict Address (Finset UInt64)

def BalanceSet.balance (balances : BalanceSet) (token account : Address) : ℤ := (balances.getD token .empty).getD account 0

def SeenSet.keysOf (seen : SeenSet) (token : Address) : Finset UInt64 := seen.getD token ∅

/-- The zero address has no balance. -/
def addDelta (deltas : Dict Address ℤ) (address : Address) (value : ℤ) : Dict Address ℤ :=
  if address = 0 then deltas else deltas.add address value

def addTransfer (deltas : Dict Address ℤ) (source destination : Address) (amount : ℕ) : Dict Address ℤ :=
  if amount = 0 then deltas else addDelta (addDelta deltas source (-amount)) destination amount

variable (toLower : Text → Text) (tokens : List Address)

def applyLog (s : BalanceSet × SeenSet) (log : RpcLog) : Except LogError (BalanceSet × SeenSet) :=
  (require (log.removed = false) .removedLog).bind fun _ =>
  (ofOption (hexToAddress log.address) (.invalidAddress log.address)).bind fun token =>
  (require (token ∈ tokens) (.unexpectedAddress log.address)).bind fun _ =>
  let keys := SeenSet.keysOf s.2 token
  if logKey toLower log ∈ keys then .ok (s.1, s.2.insert token keys)
  else
    (require (log.topics.head?.any fun topic => equalFold topic transferTopic) .notTransfer).bind fun _ =>
    (decodeTransfer log).map fun t =>
    (s.1.insert token (addTransfer (s.1.getD token .empty) t.1 t.2.1 t.2.2),
      s.2.insert token (insert (logKey toLower log) keys))

def applyLogs (logs : List RpcLog) (s : BalanceSet × SeenSet) : Except LogError (BalanceSet × SeenSet) :=
  logs.foldlM (applyLog toLower tokens) s

/-! ### What the balances say -/

def tokenOf (log : RpcLog) : Option Address := hexToAddress log.address

/-- What an account gets by a transfer, less what it gives. -/
def moved (account source destination : Address) (amount : ℕ) : ℤ :=
  if account = 0 then 0
  else (if destination = account then (amount : ℤ) else 0) - if source = account then (amount : ℤ) else 0

def delta (account : Address) (log : RpcLog) : ℤ :=
  match decodeTransfer log with
  | .error _ => 0
  | .ok (source, destination, amount) => moved account source destination amount

/-- The state holds the logs of a set, each taken once. -/
structure Replayed (logs : Finset RpcLog) (s : BalanceSet × SeenSet) : Prop where
  keysOf : ∀ token, SeenSet.keysOf s.2 token = (logs.filter fun log => tokenOf log = some token).image (logKey toLower)
  balance : ∀ token account,
    BalanceSet.balance s.1 token account = ∑ log ∈ logs with tokenOf log = some token, delta account log

variable {toLower tokens} {s s' : BalanceSet × SeenSet} {log : RpcLog} {logs : Finset RpcLog} {account : Address}

theorem getD_addDelta (deltas : Dict Address ℤ) (address : Address) (value : ℤ) :
    (addDelta deltas address value).getD account 0 =
      deltas.getD account 0 + if account = 0 then 0 else if address = account then value else 0 := by
  unfold addDelta
  by_cases ha : address = account
  · subst ha
    rw [if_pos (rfl : address = address)]
    split_ifs
    · rw [add_zero]
    · rw [Dict.add, Dict.getD_insert, if_pos rfl]
  · rw [if_neg ha, ite_self, add_zero]
    split_ifs
    · rfl
    · rw [Dict.add, Dict.getD_insert, if_neg (Ne.symm ha)]

theorem getD_addTransfer (deltas : Dict Address ℤ) (source destination : Address) (amount : ℕ) :
    (addTransfer deltas source destination amount).getD account 0 =
      deltas.getD account 0 + moved account source destination amount := by
  unfold addTransfer moved
  by_cases h0 : amount = 0
  · simp [h0]
  · rw [if_neg h0, getD_addDelta, getD_addDelta]
    split_ifs <;> omega

theorem replayed_empty : Replayed toLower ∅ (.empty, .empty) where
  keysOf _ := rfl
  balance _ _ := rfl

/-- What a log that is applied does: a log with a known key does nothing. -/
theorem applyLog_ok (h : applyLog toLower tokens s log = .ok s') : ∃ token, tokenOf log = some token ∧ token ∈ tokens ∧
    (logKey toLower log ∈ SeenSet.keysOf s.2 token ∧ s' = (s.1, s.2.insert token (SeenSet.keysOf s.2 token)) ∨
      logKey toLower log ∉ SeenSet.keysOf s.2 token ∧ ∃ source destination amount,
        decodeTransfer log = .ok (source, destination, amount) ∧
        s' = (s.1.insert token (addTransfer (s.1.getD token .empty) source destination amount),
          s.2.insert token (insert (logKey toLower log) (SeenSet.keysOf s.2 token)))) := by
  simp only [applyLog, require_bind_ok, ofOption_bind_ok] at h
  obtain ⟨-, token, htoken, hmem, h⟩ := h
  refine ⟨token, htoken, hmem, ?_⟩
  split_ifs at h with hkey
  · exact .inl ⟨hkey, (Except.ok.inj h).symm⟩
  · obtain ⟨-, h⟩ := require_bind_ok.mp h
    obtain ⟨⟨source, destination, amount⟩, ht, rfl⟩ := of_map_ok h
    exact .inr ⟨hkey, source, destination, amount, ht, rfl⟩

/-- Whatever it is applied to, a log is taken once, as long as no other log has its key. -/
theorem replayed_applyLog (hkeys : ∀ log' ∈ logs, logKey toLower log' = logKey toLower log → log' = log)
    (hs : Replayed toLower logs s) (h : applyLog toLower tokens s log = .ok s') : Replayed toLower (insert log logs) s' := by
  obtain ⟨token, htoken, -, ⟨hkey, rfl⟩ | ⟨hkey, source, destination, amount, ht, rfl⟩⟩ := applyLog_ok h
  · have hmem : log ∈ logs := by
      rw [hs.keysOf] at hkey
      obtain ⟨log', hlog', heq⟩ := Finset.mem_image.mp hkey
      exact hkeys log' (Finset.mem_of_mem_filter _ hlog') heq ▸ Finset.mem_of_mem_filter _ hlog'
    rw [Finset.insert_eq_of_mem hmem]
    refine ⟨fun token' => ?_, hs.balance⟩
    rw [← hs.keysOf, SeenSet.keysOf, Dict.getD_insert]
    split_ifs with he
    · rw [he]
    · rfl
  · have hnew : log ∉ logs := by
      intro hmem
      refine hkey ?_
      rw [hs.keysOf]
      exact Finset.mem_image_of_mem _ (Finset.mem_filter.mpr ⟨hmem, htoken⟩)
    constructor
    · intro token'
      rw [SeenSet.keysOf, Dict.getD_insert, Finset.filter_insert, htoken]
      by_cases he : token' = token
      · subst he
        rw [if_pos rfl, if_pos rfl, Finset.image_insert, hs.keysOf]
      · rw [if_neg he, if_neg (by simpa using Ne.symm he), ← hs.keysOf]
        rfl
    · intro token' account
      rw [BalanceSet.balance, Dict.getD_insert, Finset.filter_insert, htoken]
      by_cases he : token' = token
      · subst he
        have hdelta : delta account log = moved account source destination amount := by
          simp only [delta, ht]
        have hold := hs.balance token' account
        rw [BalanceSet.balance] at hold
        rw [if_pos rfl, if_pos rfl, Finset.sum_insert (by simp [hnew]), getD_addTransfer, hold, hdelta, add_comm]
      · rw [if_neg he, if_neg (by simpa using Ne.symm he), ← hs.balance token' account]
        rfl

theorem replayed_applyLogs {list : List RpcLog}
    (hkeys : Set.InjOn (logKey toLower) (↑(logs ∪ list.toFinset) : Set RpcLog)) (hs : Replayed toLower logs s)
    (h : applyLogs toLower tokens list s = .ok s') : Replayed toLower (logs ∪ list.toFinset) s' := by
  induction list generalizing logs s with
  | nil =>
    cases h
    simpa using hs
  | cons log list ih =>
    obtain ⟨t, ht, h⟩ := foldlM_cons_ok h
    have hset : logs ∪ (log :: list).toFinset = insert log logs ∪ list.toFinset := by
      ext log'
      simp only [Finset.mem_union, List.mem_toFinset, List.mem_cons, Finset.mem_insert]
      tauto
    rw [hset] at hkeys ⊢
    refine ih hkeys (replayed_applyLog (fun log' hlog' heq => hkeys ?_ ?_ heq) hs ht) h
    · simp [hlog']
    · simp

/-! ### The ranges -/

/-- `end := start + rangeSize - 1`, in 64 bits. -/
def rangeEnd (rangeSize start stop : UInt64) : UInt64 :=
  if start + rangeSize - 1 > stop ∨ start + rangeSize - 1 < start then stop else start + rangeSize - 1

theorem start_lt_of_rangeEnd {rangeSize start stop : UInt64} (hne : rangeEnd rangeSize start stop ≠ stop) :
    (start + rangeSize).toNat = (rangeEnd rangeSize start stop).toNat + 1 ∧
      start.toNat ≤ (rangeEnd rangeSize start stop).toNat ∧ (rangeEnd rangeSize start stop).toNat < stop.toNat := by
  unfold rangeEnd at hne ⊢
  split_ifs at hne ⊢ with hc
  · exact absurd rfl hne
  · rw [gt_iff_lt, UInt64.lt_iff_toNat_lt, UInt64.lt_iff_toNat_lt] at hc
    rw [Ne, ← UInt64.toNat_inj] at hne
    have hlt := UInt64.toNat_lt stop
    have hsum := UInt64.toNat_lt (start + rangeSize)
    rw [UInt64.toNat_sub] at hc hne ⊢
    have h1 : (1 : UInt64).toNat = 1 := rfl
    rw [h1] at hc hne ⊢
    omega

/-- `for start := from; start <= to; start += rangeSize`, left at the last range. -/
def jobRanges (rangeSize start stop : UInt64) : List (UInt64 × UInt64) :=
  if start ≤ stop then
    (start, rangeEnd rangeSize start stop) ::
      if _hne : rangeEnd rangeSize start stop = stop then [] else jobRanges rangeSize (start + rangeSize) stop
  else []
termination_by stop.toNat - start.toNat
decreasing_by
  have hlt := start_lt_of_rangeEnd (by assumption)
  omega

/-! ### The scan -/

inductive ScanError (ε : Type) where
  | fetch (block : ℕ) (e : ε)
  | log (e : LogError)
  | incomplete (completed total : UInt64)

variable {ε : Type} (toLower : Text → Text) (tokens : List Address)

/-- What a worker makes of a range: `fetchLogs`, and the logs applied to no balances. -/
def scanRange (query : ℕ → ℕ → Except ε (List RpcLog)) (job : UInt64 × UInt64) :
    Except (ScanError ε) (BalanceSet × SeenSet) :=
  ((RangeSplit.fetch query job.1.toNat job.2.toNat).mapError fun p => .fetch p.1 p.2).bind fun logs =>
  (applyLogs toLower tokens logs (.empty, .empty)).mapError .log

def mergeSeen (all seen : SeenSet) : SeenSet := all.mergeWith (· ∪ ·) ∅ seen

def mergeBalances (balances deltas : BalanceSet) : BalanceSet :=
  balances.mergeWith (fun held changes => changes.entries.foldl (fun held q => held.add q.1 q.2) held) .empty deltas

def mergeResult (s r : BalanceSet × SeenSet) : BalanceSet × SeenSet := (mergeBalances s.1 r.1, mergeSeen s.2 r.2)

abbrev ScanState (ε : Type) := WorkerPool.State (UInt64 × UInt64) (BalanceSet × SeenSet) (ScanError ε)

/-- What `scan` returns once its workers have left. -/
def scanResult (rangeSize start stop : UInt64) (s : ScanState ε) : Except (ScanError ε) (BalanceSet × SeenSet) :=
  match s.failure with
  | some e => .error e
  | none =>
    let completed := UInt64.ofNat s.collected.length
    let total := (stop - start) / rangeSize + 1
    (require (completed = total) (.incomplete completed total)).map fun _ =>
    s.collected.foldl (fun all p => mergeResult all p.2) (.empty, .empty)

end HarmonyMigration.TokenHolders
