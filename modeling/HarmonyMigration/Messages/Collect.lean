import HarmonyMigration.Lib.Bisect
import HarmonyMigration.Lib.Dict
import HarmonyMigration.Lib.Erc20
import HarmonyMigration.Lib.Except
import HarmonyMigration.Lib.SortedBy

/-! `scan-bridge-messages.py`: the events of a range of nonces, found through the endpoint's
counter and numbered by it. -/

namespace HarmonyMigration.Messages

open Erc20

inductive Kind where
  | send | nativeSend | receive | failed
  deriving DecidableEq, Repr

/-- A log of one contract that matches one of the topic filters. `account` is the address in
its topics; the others are read from the data of a receive or a failed message. -/
structure Log where
  block : ℕ
  logIndex : ℕ
  kind : Kind
  tx : String
  account : Address
  amount : ℕ
  source : Option Address
  dest : Option Address
  sourceChainId : ℕ
  path : String
  deriving DecidableEq

structure Event where
  kind : Kind
  block : ℕ
  tx : String
  sender : Option Address
  recipient : Option Address
  amount : ℕ
  deriving DecidableEq

def decodeEvent (l : Log) : Event :=
  let event := Event.mk l.kind l.block l.tx
  match l.kind with
  | .send | .nativeSend => event (some l.account) none l.amount
  | .receive => event l.source (some l.account) l.amount
  | .failed => event l.source l.dest l.amount

inductive ScanError where
  | neverReaches (counter target block : ℕ)
  | zeroRangeSize
  deriving DecidableEq

inductive Problem where
  | counterMoved (block : ℕ) (moved : ℤ) (events : ℕ)
  | noEvent (missing low high : ℕ)
  deriving DecidableEq

/-- An endpoint counter, by block. -/
abbrev Counter := ℕ → ℕ

/-- `Counter.at`. -/
def Counter.read (c : Counter) (block : ℤ) : ℕ := if block < 0 then 0 else c block.toNat

def firstBlockReaching (c : Counter) (target low high : ℕ) : Except ScanError ℕ :=
  if c high < target then .error (.neverReaches (c high) target high)
  else .ok (bisect (fun b => target ≤ c b) (high - low) low high)

/-- The block of every nonce, each searched from the one before. -/
def nonceBlocks (c : Counter) (last : ℕ) : List ℕ → ℕ → Except ScanError (List ℕ)
  | [], _ => .ok []
  | nonce :: rest, low =>
    (firstBlockReaching c nonce low last).bind fun block =>
    (nonceBlocks c last rest block).map fun blocks => block :: blocks

def nonceRange (low high : ℕ) : List ℕ := List.range' (low + 1) (high - low)

/-- The block ranges to read: one range, or a block a nonce, whichever takes fewer calls. -/
def windows (c : Counter) (low high start last rangeSize : ℕ) : Except ScanError (List (ℕ × ℕ)) :=
  if rangeSize = 0 then .error .zeroRangeSize
  else
    let rangeCost := (last - start) / rangeSize + 1
    let searchCost := (high - low) * max 1 (last - start).size
    if rangeCost ≤ searchCost then .ok [(start, last)]
    else (nonceBlocks c last (nonceRange low high) start).map fun blocks =>
      (blocks.dedup.insertionSort (· ≤ ·)).map fun b => (b, b)

def rpcLogs (logs : List Log) (kind : Kind) (first last : ℕ) : List Log :=
  logs.filter fun l => l.kind = kind ∧ first ≤ l.block ∧ l.block ≤ last

/-- Log order on the chain. -/
def Log.key (l : Log) : ℕ ×ₗ ℕ := toLex (l.block, l.logIndex)

def foundLogs (logs : List Log) (kinds : List Kind) (accept : Log → Bool) (ws : List (ℕ × ℕ)) : List Log :=
  let found := kinds.flatMap fun kind => ws.flatMap fun w =>
    (rpcLogs logs kind w.1 w.2).filter accept
  found.insertionSort fun a b => a.key ≤ b.key

/-- One block's events, numbered from the counter before it. -/
def blockEvents (c : Counter) (low high : ℕ) (logs : List Log) (block : ℕ) :
    List (ℕ × Event) × List Problem :=
  let before := c.read (block - 1)
  let after := c.read block
  let items := logs.filter fun l => l.block = block
  if (after : ℤ) - before ≠ items.length then ([], [.counterMoved block (after - before) items.length])
  else
    ((items.zipIdx (before + 1)).filterMap fun p =>
      if low < p.2 ∧ p.2 ≤ high then some (p.2, decodeEvent p.1) else none, [])

abbrev Events := Dict ℕ Event

def collect (c : Counter) (logs : List Log) (kinds : List Kind) (accept : Log → Bool) (low high : ℕ)
    (search : ℕ × ℕ) (rangeSize : ℕ) : Except ScanError (Events × List Problem) :=
  if high ≤ low then .ok (.empty, [])
  else
    (firstBlockReaching c (low + 1) search.1 search.2).bind fun start =>
    (firstBlockReaching c high start search.2).bind fun last =>
    (windows c low high start last rangeSize).map fun ws =>
      let found := foundLogs logs kinds accept ws
      let blocks := (found.map Log.block).dedup.insertionSort (· ≤ ·)
      let results := blocks.map (blockEvents c low high found)
      let events := Dict.ofList (results.flatMap Prod.fst)
      let missing := (nonceRange low high).filter fun n => n ∉ events.keys
      (events, results.flatMap Prod.snd ++
        if missing = [] then [] else [.noEvent missing.length low high])

/-- What `collect` makes of the ranges it chose. -/
def windowEvents (c : Counter) (logs : List Log) (kinds : List Kind) (accept : Log → Bool) (low high : ℕ)
    (ws : List (ℕ × ℕ)) : Events × List Problem :=
  let found := foundLogs logs kinds accept ws
  let blocks := (found.map Log.block).dedup.insertionSort (· ≤ ·)
  let results := blocks.map (blockEvents c low high found)
  let events := Dict.ofList (results.flatMap Prod.fst)
  let missing := (nonceRange low high).filter fun n => n ∉ events.keys
  (events, results.flatMap Prod.snd ++ if missing = [] then [] else [.noEvent missing.length low high])

theorem collect_eq (c : Counter) (logs : List Log) (kinds : List Kind) (accept : Log → Bool) (low high : ℕ)
    (search : ℕ × ℕ) (rangeSize : ℕ) :
    collect c logs kinds accept low high search rangeSize =
      if high ≤ low then .ok (.empty, [])
      else (firstBlockReaching c (low + 1) search.1 search.2).bind fun start =>
        (firstBlockReaching c high start search.2).bind fun last =>
        (windows c low high start last rangeSize).map (windowEvents c logs kinds accept low high) := rfl

/-! ### A counter that counts its logs -/

/-- The logs of a contract in chain order, and which of them are messages of one path. Every
message is of one of the scanned kinds. -/
structure Stream where
  logs : List Log
  accept : Log → Bool
  kinds : List Kind
  ordered : logs.Pairwise fun a b => a.key < b.key
  distinct : kinds.Nodup
  known : ∀ l ∈ logs, accept l → l.kind ∈ kinds

namespace Stream

variable (S : Stream)

def messages : List Log := S.logs.filter S.accept

/-- The endpoint counter: the messages up to a block. -/
def counter : Counter := fun b => S.messages.countP fun l => l.block ≤ b

variable {S}

theorem messages_ordered : S.messages.Pairwise fun a b => a.key < b.key := S.ordered.filter _

theorem messages_sorted : S.messages.Pairwise fun a b => a.block ≤ b.block :=
  messages_ordered.imp fun {a b} h => by
    rcases Prod.Lex.toLex_lt_toLex.mp h with h | ⟨h, -⟩
    · exact h.le
    · exact h.le

theorem counter_mono {a b : ℕ} (h : a ≤ b) : S.counter a ≤ S.counter b :=
  List.countP_mono_left fun l _ hl => by simpa using le_trans (by simpa using hl) h

/-- The message of nonce `i + 1` is in the first block whose counter passes `i`. -/
theorem block_le_iff {i b : ℕ} {l : Log} (h : S.messages[i]? = some l) : l.block ≤ b ↔ i < S.counter b :=
  SortedBy.le_iff_lt_countP messages_sorted h

theorem read_pred (b : ℕ) : S.counter.read ((b : ℤ) - 1) = S.messages.countP fun l => l.block < b := by
  cases b with
  | zero => simp [Counter.read]
  | succ b =>
    have hb : ((b + 1 : ℕ) : ℤ) - 1 = b := by omega
    rw [hb, Counter.read, if_neg (by omega), Int.toNat_natCast, counter]
    simp only [Nat.lt_succ_iff]

theorem read_cast (b : ℕ) : S.counter.read b = S.counter b := by
  rw [Counter.read, if_neg (by omega), Int.toNat_natCast]

/-! ### The blocks that are read -/

theorem firstBlockReaching_ok {target low high block : ℕ} (hle : low ≤ high)
    (h : firstBlockReaching S.counter target low high = .ok block) :
    target ≤ S.counter high ∧ low ≤ block ∧ block ≤ high ∧ target ≤ S.counter block ∧
      ∀ b, low ≤ b → target ≤ S.counter b → block ≤ b := by
  unfold firstBlockReaching at h
  split_ifs at h with hhigh
  obtain rfl := Except.ok.inj h
  have hmono : ∀ a b, a ≤ b → decide (target ≤ S.counter a) → decide (target ≤ S.counter b) := by
    intro a b hab ha
    simp only [decide_eq_true_eq] at ha ⊢
    exact ha.trans (counter_mono hab)
  obtain ⟨h1, h2, h3, h4⟩ := bisect_spec hmono le_rfl hle (by simpa using hhigh)
  exact ⟨not_lt.mp hhigh, h1, h2, by simpa using h3, fun b hb ht => h4 b hb (by simpa using ht)⟩

/-- The block found for a nonce is the one its message is in. -/
theorem block_eq_of_firstBlockReaching {i low high block : ℕ} {l : Log} (hle : low ≤ high)
    (h : firstBlockReaching S.counter (i + 1) low high = .ok block) (hl : S.messages[i]? = some l)
    (hlow : low ≤ l.block) : l.block = block := by
  obtain ⟨-, -, -, h1, h2⟩ := firstBlockReaching_ok hle h
  refine le_antisymm ((block_le_iff hl).mpr h1) (h2 l.block hlow ?_)
  exact (block_le_iff hl).mp le_rfl

/-- Later messages are in later blocks or the same. -/
theorem block_le_of_le {i j : ℕ} {l l' : Log} (hij : i ≤ j) (hl : S.messages[i]? = some l)
    (hl' : S.messages[j]? = some l') : l.block ≤ l'.block :=
  (block_le_iff hl).mpr (hij.trans_lt ((block_le_iff hl').mp le_rfl))

theorem nonceBlocks_ok (n : ℕ) {i last low : ℕ} {blocks : List ℕ} (hle : low ≤ last)
    (hlow : ∀ l, S.messages[i]? = some l → low ≤ l.block)
    (h : nonceBlocks S.counter last (List.range' (i + 1) n) low = .ok blocks) :
    ∀ j l, i ≤ j → j < i + n → S.messages[j]? = some l → l.block ∈ blocks := by
  induction n generalizing i low blocks with
  | zero => intro j l h1 h2; omega
  | succ n ih =>
    rw [List.range'_succ] at h
    obtain ⟨block, hb, h⟩ := Except.of_bind_ok h
    obtain ⟨rest, hrest, rfl⟩ := Except.of_map_ok h
    have hblock {l : Log} (hl : S.messages[i]? = some l) : l.block = block :=
      block_eq_of_firstBlockReaching hle hb hl (hlow l hl)
    have hnext : ∀ l, S.messages[i + 1]? = some l → block ≤ l.block := by
      intro l hl
      have hi : i < S.messages.length := by
        have := (List.getElem?_eq_some_iff.mp hl).1
        omega
      have hli := List.getElem?_eq_getElem hi
      rw [← hblock hli]
      exact block_le_of_le (Nat.le_succ i) hli hl
    intro j l hij hjn hl
    rcases Nat.eq_or_lt_of_le hij with rfl | hlt
    · rw [hblock hl]
      exact List.mem_cons_self
    · refine List.mem_cons_of_mem _ (ih (firstBlockReaching_ok hle hb).2.2.1 hnext hrest j l hlt ?_ hl)
      omega

/-- A block is in one of the ranges. -/
def Within (ws : List (ℕ × ℕ)) (b : ℕ) : Prop := ∃ w ∈ ws, w.1 ≤ b ∧ b ≤ w.2

instance (ws : List (ℕ × ℕ)) (b : ℕ) : Decidable (Within ws b) := by unfold Within; infer_instance

/-- One range for everything. -/
def spanWindow (start last : ℕ) : List (ℕ × ℕ) := [(start, last)]

/-- Each block as a range of its own. -/
def blockWindows (blocks : List ℕ) : List (ℕ × ℕ) := (blocks.dedup.insertionSort (· ≤ ·)).map fun b => (b, b)

/-- Ranges that lie one behind another and hold every message asked for. -/
structure Reads (S : Stream) (low high : ℕ) (ws : List (ℕ × ℕ)) : Prop where
  apart : ws.Pairwise fun a b => a.2 < b.1
  covers : ∀ j l, low ≤ j → j < high → S.messages[j]? = some l → Within ws l.block

theorem reads_spanWindow {low high start last : ℕ} (hstart : ∀ l, S.messages[low]? = some l → start ≤ l.block)
    (hlast : high ≤ S.counter last) : Reads S low high (spanWindow start last) where
  apart := List.pairwise_singleton _ _
  covers := by
    intro j l hj hjh hl
    refine ⟨_, List.mem_singleton_self _, ?_, ?_⟩
    · have hlow : low < S.messages.length := by
        have := (List.getElem?_eq_some_iff.mp hl).1
        omega
      have hll := List.getElem?_eq_getElem hlow
      exact (hstart _ hll).trans (block_le_of_le hj hll hl)
    · exact (block_le_iff hl).mpr (hjh.trans_le hlast)

theorem reads_blockWindows {low high start last : ℕ} {blocks : List ℕ} (hle : start ≤ last)
    (hstart : ∀ l, S.messages[low]? = some l → start ≤ l.block)
    (h : nonceBlocks S.counter last (nonceRange low high) start = .ok blocks) :
    Reads S low high (blockWindows blocks) where
  apart := by
    have hnd : (blocks.dedup.insertionSort (· ≤ ·)).Nodup :=
      (List.perm_insertionSort _ _).nodup_iff.mpr (List.nodup_dedup _)
    apply List.pairwise_map.mpr
    exact ((List.pairwise_insertionSort (· ≤ ·) blocks.dedup).and hnd).imp fun h => lt_of_le_of_ne h.1 h.2
  covers := by
    intro j l hj hjh hl
    refine ⟨(l.block, l.block), List.mem_map.mpr ⟨l.block, ?_, rfl⟩, le_rfl, le_rfl⟩
    rw [List.mem_insertionSort, List.mem_dedup]
    exact nonceBlocks_ok (high - low) hle hstart h j l hj (by omega) hl

/-- Whichever ranges are chosen. -/
theorem windows_ok {low high start last rangeSize : ℕ} {ws : List (ℕ × ℕ)} (hle : start ≤ last)
    (hstart : ∀ l, S.messages[low]? = some l → start ≤ l.block) (hlast : high ≤ S.counter last)
    (h : windows S.counter low high start last rangeSize = .ok ws) : Reads S low high ws := by
  unfold windows at h
  split_ifs at h with h0
  dsimp only at h
  split_ifs at h
  · obtain rfl := Except.ok.inj h
    exact reads_spanWindow hstart hlast
  · obtain ⟨blocks, hblocks, rfl⟩ := Except.of_map_ok h
    exact reads_blockWindows hle hstart hblocks

/-! ### The logs that are found -/

theorem foundLogs_eq {ws : List (ℕ × ℕ)} (hws : ws.Pairwise fun a b => a.2 < b.1) :
    foundLogs S.logs S.kinds S.accept ws = S.messages.filter fun l => Within ws l.block := by
  have hnd : S.logs.Nodup := S.ordered.imp fun {a b} h hab => (hab ▸ h).false
  have hread (kind : Kind) (w : ℕ × ℕ) : ((rpcLogs S.logs kind w.1 w.2).filter S.accept).Nodup :=
    (hnd.filter _).filter _
  have hmemRead {kind : Kind} {w : ℕ × ℕ} {l : Log} :
      l ∈ (rpcLogs S.logs kind w.1 w.2).filter S.accept ↔
        l ∈ S.messages ∧ l.kind = kind ∧ w.1 ≤ l.block ∧ l.block ≤ w.2 := by
    simp only [rpcLogs, messages, List.mem_filter, decide_eq_true_eq]
    tauto
  -- nothing is read twice: a log has one kind, and a block is in one range
  have hnodup : (S.kinds.flatMap fun kind => ws.flatMap fun w =>
      (rpcLogs S.logs kind w.1 w.2).filter S.accept).Nodup := by
    refine List.nodup_flatMap.mpr ⟨fun kind _ => List.nodup_flatMap.mpr ⟨fun w _ => hread kind w, ?_⟩, ?_⟩
    · refine hws.imp fun {v w} hvw l hv hw => ?_
      obtain ⟨-, -, -, hv⟩ := hmemRead.mp hv
      obtain ⟨-, -, hw, -⟩ := hmemRead.mp hw
      omega
    · refine S.distinct.imp fun {k k'} hk l hl hl' => ?_
      obtain ⟨w, -, hl⟩ := List.mem_flatMap.mp hl
      obtain ⟨w', -, hl'⟩ := List.mem_flatMap.mp hl'
      exact hk ((hmemRead.mp hl).2.1.symm.trans (hmemRead.mp hl').2.1)
  have hperm : (S.kinds.flatMap fun kind => ws.flatMap fun w =>
      (rpcLogs S.logs kind w.1 w.2).filter S.accept).Perm
        (S.messages.filter fun l => Within ws l.block) := by
    have hnd' : (S.messages.filter fun l => Within ws l.block).Nodup := (hnd.filter _).filter _
    refine (List.perm_ext_iff_of_nodup hnodup hnd').mpr fun l => ⟨fun hl => ?_, fun hl => ?_⟩
    · obtain ⟨kind, -, hl⟩ := List.mem_flatMap.mp hl
      obtain ⟨w, hw, hl⟩ := List.mem_flatMap.mp hl
      obtain ⟨hl, -, hin⟩ := hmemRead.mp hl
      exact List.mem_filter.mpr ⟨hl, decide_eq_true ⟨w, hw, hin⟩⟩
    · obtain ⟨hl, hin⟩ := List.mem_filter.mp hl
      obtain ⟨w, hw, hin⟩ := of_decide_eq_true hin
      obtain ⟨hlog, hacc⟩ := List.mem_filter.mp hl
      exact List.mem_flatMap.mpr ⟨l.kind, S.known l hlog hacc,
        List.mem_flatMap.mpr ⟨w, hw, hmemRead.mpr ⟨hl, rfl, hin⟩⟩⟩
  have hkeys : (S.logs.map Log.key).Nodup := List.pairwise_map.mpr (S.ordered.imp fun h => h.ne)
  have hlogs {l : Log} (hl : l ∈ S.messages.filter fun l => Within ws l.block) : l ∈ S.logs :=
    List.mem_of_mem_filter (List.mem_of_mem_filter hl)
  have htotal : Std.Total fun a b : Log => a.key ≤ b.key := ⟨fun a b => le_total a.key b.key⟩
  have htrans : IsTrans Log fun a b => a.key ≤ b.key := ⟨fun a b c => le_trans⟩
  refine ((List.perm_insertionSort _ _).trans hperm).eq_of_pairwise ?_
    (List.pairwise_insertionSort _ _) ((messages_ordered.filter _).imp le_of_lt)
  intro a b ha hb hab hba
  have ha' := hlogs (hperm.mem_iff.mp ((List.mem_insertionSort _).mp ha))
  exact List.inj_on_of_nodup_map hkeys ha' (hlogs hb) (le_antisymm hab hba)

/-- The messages of nonces `low + 1` to `high`. -/
def between (S : Stream) (low high : ℕ) : List Log := (S.messages.take high).drop low

def numbered (ls : List Log) (first : ℕ) : List (ℕ × Event) :=
  (ls.zipIdx first).map fun p => (p.2, decodeEvent p.1)

theorem numbered_keys (ls : List Log) (first : ℕ) :
    (numbered ls first).map Prod.fst = List.range' first ls.length := by
  rw [numbered, List.map_map, ← List.zipIdx_map_snd first ls]
  rfl

/-- A block that is read as a whole is numbered as the chain numbers it. -/
theorem blockEvents_eq {ws : List (ℕ × ℕ)} {b : ℕ} (hb : Within ws b) (low high : ℕ) :
    blockEvents S.counter low high (S.messages.filter fun l => Within ws l.block) b =
      (((S.messages.zipIdx 1).filter fun p => p.1.block = b).filterMap fun p =>
        if low < p.2 ∧ p.2 ≤ high then some (p.2, decodeEvent p.1) else none, []) := by
  have hitems : ((S.messages.filter fun l => Within ws l.block).filter fun l => l.block = b) =
      S.messages.filter fun l => l.block = b := by
    rw [List.filter_filter]
    refine List.filter_congr fun l _ => ?_
    rw [Bool.eq_iff_iff]
    simp only [Bool.and_eq_true, decide_eq_true_eq, and_iff_left_iff_imp]
    rintro rfl
    exact hb
  have hcount : ((S.counter.read (b : ℤ) : ℕ) : ℤ) - (S.counter.read ((b : ℤ) - 1) : ℕ) =
      (S.messages.filter fun l => l.block = b).length := by
    rw [read_pred, read_cast, counter, SortedBy.countP_le_eq, ← List.countP_eq_length_filter]
    omega
  unfold blockEvents
  dsimp only
  rw [hitems, if_neg (not_not.mpr hcount), read_pred, Nat.add_comm, SortedBy.zipIdx_filter_eq messages_sorted]

theorem zipIdx_sorted : (S.messages.zipIdx 1).Pairwise fun p q => p.1.block ≤ q.1.block := by
  have h := messages_sorted (S := S)
  rw [← List.zipIdx_map_fst 1 S.messages, List.pairwise_map] at h
  exact h

section Windows

variable {low high : ℕ} {ws : List (ℕ × ℕ)}

/-- The blocks in which something was found, each once and in order. -/
theorem mem_foundBlocks {found : List Log} {b : ℕ} :
    b ∈ (found.map Log.block).dedup.insertionSort (· ≤ ·) ↔ ∃ l ∈ found, l.block = b := by
  rw [List.mem_insertionSort, List.mem_dedup, List.mem_map]

theorem foundBlocks_increasing (found : List Log) :
    ((found.map Log.block).dedup.insertionSort (· ≤ ·)).Pairwise (· < ·) := by
  have hnd : ((found.map Log.block).dedup.insertionSort (· ≤ ·)).Nodup :=
    (List.perm_insertionSort _ _).nodup_iff.mpr (List.nodup_dedup _)
  exact ((List.pairwise_insertionSort (· ≤ ·) _).and hnd).imp fun h => lt_of_le_of_ne h.1 h.2

/-- The blocks that were read number all messages of the range, and no others. -/
theorem flatMap_blockEvents {blocks : List ℕ} (hincr : blocks.Pairwise (· < ·))
    (hin : ∀ p ∈ S.messages.zipIdx 1, low < p.2 → p.2 ≤ high → p.1.block ∈ blocks) :
    (blocks.flatMap fun b => ((S.messages.zipIdx 1).filter fun p => p.1.block = b).filterMap fun p =>
      if low < p.2 ∧ p.2 ≤ high then some (p.2, decodeEvent p.1) else none) =
      numbered (S.between low high) (low + 1) := by
  have hrange := SortedBy.zipIdx_filter_range S.messages 1 low high
  rw [← List.filterMap_flatMap, SortedBy.flatMap_filter_eq zipIdx_sorted hincr, List.filterMap_filter, numbered, between,
    Nat.add_comm low 1, ← hrange, ← List.filterMap_eq_map, List.filterMap_filter]
  refine List.filterMap_congr fun p hp => ?_
  by_cases hp' : low < p.2 ∧ p.2 ≤ high
  · have hb := hin p hp hp'.1 hp'.2
    rw [if_pos (decide_eq_true hb), if_pos hp', if_pos (decide_eq_true (by omega))]
    rfl
  · rw [if_neg hp', ite_self, if_neg (by simp only [decide_eq_true_eq]; omega)]

/-- A range with as many messages as nonces has an event for each nonce. -/
theorem entries_numbered (hlength : (S.between low high).length = high - low) :
    (Dict.ofList (numbered (S.between low high) (low + 1))).entries = numbered (S.between low high) (low + 1) ∧
      (Dict.ofList (numbered (S.between low high) (low + 1))).keys = nonceRange low high := by
  have hkeys : (numbered (S.between low high) (low + 1)).map Prod.fst = nonceRange low high := by
    rw [numbered_keys, hlength]
    rfl
  have hnd : ((numbered (S.between low high) (low + 1)).map Prod.fst).Nodup := hkeys ▸ List.nodup_range'
  have hentries := Dict.entries_ofList hnd
  exact ⟨hentries, by rw [Dict.keys, hentries, hkeys]⟩

/-- Whatever ranges are read, as long as they are disjoint and hold every message asked for. -/
theorem windowEvents_ok (hreads : Reads S low high ws) (hlength : (S.between low high).length = high - low) :
    windowEvents S.counter S.logs S.kinds S.accept low high ws =
      (Dict.ofList (numbered (S.between low high) (low + 1)), []) := by
  unfold windowEvents
  rw [foundLogs_eq hreads.apart]
  set found := S.messages.filter fun l => Within ws l.block with hfound
  set blocks := (found.map Log.block).dedup.insertionSort (· ≤ ·) with hblocks
  have hmem : ∀ l ∈ S.messages, Within ws l.block → l.block ∈ blocks := by
    intro l hl hin
    exact mem_foundBlocks.mpr ⟨l, List.mem_filter.mpr ⟨hl, decide_eq_true hin⟩, rfl⟩
  have hresults : blocks.map (blockEvents S.counter low high found) =
      blocks.map fun b => (((S.messages.zipIdx 1).filter fun p => p.1.block = b).filterMap fun p =>
        if low < p.2 ∧ p.2 ≤ high then some (p.2, decodeEvent p.1) else none, []) := by
    refine List.map_congr_left fun b hb => ?_
    obtain ⟨l, hl, rfl⟩ := mem_foundBlocks.mp hb
    exact blockEvents_eq (of_decide_eq_true (List.mem_filter.mp hl).2) low high
  -- a nonce of the range has its message in one of the blocks that were read
  have hin : ∀ p ∈ S.messages.zipIdx 1, low < p.2 → p.2 ≤ high → p.1.block ∈ blocks := by
    intro p hp h1 h2
    obtain ⟨-, hget⟩ := List.mem_zipIdx_iff_le_and_getElem?_sub.mp hp
    exact hmem p.1 (List.mem_of_getElem? hget) (hreads.covers _ _ (by omega) (by omega) hget)
  have hevents : (blocks.map (blockEvents S.counter low high found)).flatMap Prod.fst =
      numbered (S.between low high) (low + 1) := by
    rw [hresults, List.flatMap_map]
    exact flatMap_blockEvents (foundBlocks_increasing found) hin
  have hproblems : (blocks.map (blockEvents S.counter low high found)).flatMap Prod.snd = [] := by
    rw [hresults, List.flatMap_map]
    simp
  have hmissing : ((nonceRange low high).filter fun n =>
      n ∉ (Dict.ofList (numbered (S.between low high) (low + 1))).keys) = [] := by
    refine List.filter_eq_nil_iff.mpr fun n hn => ?_
    rw [(entries_numbered hlength).2]
    simpa using hn
  dsimp only
  rw [hevents, hproblems, hmissing, if_pos rfl, List.append_nil]

end Windows

theorem length_between {low high last : ℕ} (h : high ≤ S.counter last) : (S.between low high).length = high - low := by
  have hlen : S.counter last ≤ S.messages.length := List.countP_le_length
  rw [between, List.length_drop, List.length_take, min_eq_left (by omega)]

/-- What `collect` returns: every nonce of the range with its message, and no problem. -/
theorem collect_ok {low high searchHigh rangeSize : ℕ} {result : Events × List Problem}
    (h : collect S.counter S.logs S.kinds S.accept low high (0, searchHigh) rangeSize = .ok result) :
    result.1.entries = numbered (S.between low high) (low + 1) ∧ result.2 = [] ∧
      (low < high → high ≤ S.counter searchHigh) := by
  rw [collect_eq] at h
  split_ifs at h with hle
  · obtain rfl := Except.ok.inj h
    have hnil : S.between low high = [] :=
      List.drop_eq_nil_of_le ((List.length_take_le _ _).trans hle)
    rw [hnil]
    exact ⟨rfl, rfl, fun hlt => absurd hle (not_le.mpr hlt)⟩
  obtain ⟨start, hstart, h⟩ := Except.of_bind_ok h
  obtain ⟨last, hlast, h⟩ := Except.of_bind_ok h
  obtain ⟨ws, hws, rfl⟩ := Except.of_map_ok h
  obtain ⟨-, -, hstartle, -, hfirst⟩ := firstBlockReaching_ok (Nat.zero_le _) hstart
  obtain ⟨hreach, hsl, -, hhigh, -⟩ := firstBlockReaching_ok hstartle hlast
  have hbegin : ∀ l, S.messages[low]? = some l → start ≤ l.block := fun l hl =>
    hfirst l.block (Nat.zero_le _) ((block_le_iff hl).mp le_rfl)
  have hlength : (S.between low high).length = high - low := length_between hhigh
  rw [windowEvents_ok (windows_ok hsl hbegin hhigh hws) hlength]
  exact ⟨(entries_numbered hlength).1, rfl, fun _ => hreach⟩

end Stream

end HarmonyMigration.Messages
