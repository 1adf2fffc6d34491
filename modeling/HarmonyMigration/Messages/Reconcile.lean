import HarmonyMigration.Messages.Ledger

/-! The adjustments of a pool reconcile the holder snapshot with the collateral. The counters of
both chains cut each direction into ranges of nonces; the ledger rows fill exactly the ranges
between what the snapshot shows and what the collateral backs. -/

namespace HarmonyMigration.Messages

inductive TimeLabel where
  | rollback | cutoff

def Labels.get {α : Type} (l : Labels α) : TimeLabel → α
  | .rollback => l.rollback
  | .cutoff => l.cutoff

/-- One pool over time: a Harmony proxy and a remote adapter that exchange messages in order, and
the labelled blocks. `abandoned` is the branch of Harmony that was rolled back. -/
structure History where
  poolId : String
  chain : String
  adapter : String
  harmonyLz : ℕ
  expectedPath : String
  harmonyBlock : Labels ℕ
  remoteBlock : RemoteLabels ℕ
  harmonyOut : Stream
  abandoned : Stream
  remoteIn : Stream
  remoteOut : Stream
  harmonyIn : Stream
  harmonySends : harmonyOut.accept = acceptNativeSend ∧ harmonyOut.kinds = sendKinds
  remoteSends : remoteOut.accept = acceptNativeSend ∧ remoteOut.kinds = sendKinds
  remoteReceives : remoteIn.accept = fromPath harmonyLz expectedPath ∧ remoteIn.kinds = receiveKinds
  noneFailed : ∀ m ∈ remoteIn.messages ++ harmonyIn.messages, m.kind = .receive
  harmonyOrder : harmonyBlock.rollback ≤ harmonyBlock.cutoff
  remoteOrder : remoteBlock.rollback ≤ remoteBlock.cutoff ∧ remoteBlock.cutoff ≤ remoteBlock.state
  -- the rollback block is the last one that both branches of Harmony share
  shared : (abandoned.messages.filter fun l => l.block ≤ harmonyBlock.rollback) =
    harmonyOut.messages.filter fun l => l.block ≤ harmonyBlock.rollback
  -- a delivery is of the send with its nonce, on either branch
  delivered : ∀ (i : ℕ) (m : Log), remoteIn.messages[i]? = some m →
    ∃ s : Log, (abandoned.messages[i]? = some s ∨ harmonyOut.messages[i]? = some s) ∧ s.amount = m.amount
  -- and what Harmony had received by the cutoff, the remote chain had sent by its state block
  received : ∀ (i : ℕ) (m : Log), harmonyIn.messages[i]? = some m →
    ∃ s : Log, remoteOut.messages[i]? = some s ∧ s.amount = m.amount ∧
      (m.block ≤ harmonyBlock.cutoff → s.block ≤ remoteBlock.state)

namespace History

variable (H : History)

/-! ### What the scripts read of it -/

def pathNonces : PathNonces (Option ℕ) where
  harmonyOutbound :=
    ⟨some (H.harmonyOut.counter H.harmonyBlock.rollback), some (H.harmonyOut.counter H.harmonyBlock.cutoff)⟩
  remoteInbound :=
    ⟨⟨some (H.remoteIn.counter H.remoteBlock.rollback), some (H.remoteIn.counter H.remoteBlock.cutoff)⟩,
      some (H.remoteIn.counter H.remoteBlock.state)⟩
  remoteInboundPrevious := ⟨⟨[], []⟩, []⟩

def adapterNonces : AdapterNonces (Option ℕ) where
  adapter := H.adapter
  remoteOutbound :=
    ⟨⟨some (H.remoteOut.counter H.remoteBlock.rollback), some (H.remoteOut.counter H.remoteBlock.cutoff)⟩,
      some (H.remoteOut.counter H.remoteBlock.state)⟩
  harmonyInbound :=
    ⟨[some (H.harmonyIn.counter H.harmonyBlock.rollback)], [some (H.harmonyIn.counter H.harmonyBlock.cutoff)]⟩

def analysis : Analysis := analyzePool [H.pathNonces] [H.adapterNonces]

def pathSources : PathSources where
  inbound := H.remoteIn.counter
  adapterLogs := H.remoteIn.logs
  outbound := H.harmonyOut.counter
  proxyLogs := H.harmonyOut.logs
  expectedPath := H.expectedPath

def adapterSources : AdapterSources where
  outbound := H.remoteOut.counter
  logs := H.remoteOut.logs

def scan (kind : PoolKind) (label : TimeLabel) (rangeSize : ℕ) : Scan where
  poolId := H.poolId
  chain := H.chain
  kind
  policy := .debitRecipient
  harmonyLz := H.harmonyLz
  snapshot := H.remoteBlock.get label
  remoteState := H.remoteBlock.state
  harmonyCutoff := H.harmonyBlock.cutoff
  rangeSize

def scanned (kind : PoolKind) (label : TimeLabel) (rangeSize : ℕ) (h2r : List PathAnalysis)
    (r2h : List AdapterAnalysis) : Except ScanError (Found × ℕ) :=
  (H.scan kind label rangeSize).scanPool (h2r.map fun p => (p, H.pathSources))
    (r2h.map fun a => (a, H.adapterSources))

/-! ### What the chains hold -/

/-- The bridged token on the remote chain: minted by receives, burned by sends. -/
def remoteHoldings (b : ℕ) : ℤ := H.remoteIn.amountAt b - H.remoteOut.amountAt b

/-- The wrapped token on Harmony. -/
def harmonyHoldings (b : ℕ) : ℤ := H.harmonyIn.amountAt b - H.harmonyOut.amountAt b

/-- Locked by canonical sends, released by canonical receives. -/
def harmonyCollateral : ℤ :=
  H.harmonyOut.amountAt H.harmonyBlock.cutoff - H.harmonyIn.amountAt H.harmonyBlock.cutoff

/-- The escrow: deposits less payouts. -/
def remoteCollateral : ℤ :=
  H.remoteOut.amountAt H.remoteBlock.state - H.remoteIn.amountAt H.remoteBlock.state

/-! ### The counters -/

/-- What an analysis without reasons says of the counters. -/
structure Comparable : Prop where
  collide : H.remoteIn.counter H.remoteBlock.state ≤ H.harmonyOut.counter H.harmonyBlock.rollback ∨
    H.harmonyOut.counter H.harmonyBlock.cutoff = H.harmonyOut.counter H.harmonyBlock.rollback
  returned : H.harmonyIn.counter H.harmonyBlock.rollback ≤ H.remoteOut.counter H.remoteBlock.rollback

def pathAnalysis : PathAnalysis := analyzePath
  { harmonyOutbound :=
      ⟨H.harmonyOut.counter H.harmonyBlock.rollback, H.harmonyOut.counter H.harmonyBlock.cutoff⟩
    remoteInbound :=
      ⟨⟨H.remoteIn.counter H.remoteBlock.rollback, H.remoteIn.counter H.remoteBlock.cutoff⟩,
        H.remoteIn.counter H.remoteBlock.state⟩
    remoteInboundPrevious := ⟨⟨[], []⟩, []⟩ }

def adapterAnalysis : AdapterAnalysis := analyzeAdapter
  { adapter := H.adapter
    remoteOutbound :=
      ⟨⟨H.remoteOut.counter H.remoteBlock.rollback, H.remoteOut.counter H.remoteBlock.cutoff⟩,
        H.remoteOut.counter H.remoteBlock.state⟩
    harmonyInbound :=
      ⟨[H.harmonyIn.counter H.harmonyBlock.rollback], [H.harmonyIn.counter H.harmonyBlock.cutoff]⟩ }

theorem analysis_eq : H.analysis =
    .analyzed (pathReasons H.pathAnalysis ++ adapterReasons H.adapterAnalysis) [H.pathAnalysis] [H.adapterAnalysis] := by
  unfold analysis analyzePool
  simp [pathNonces, adapterNonces, PathNonces.readable, AdapterNonces.readable, RemoteLabels.mapM, Labels.mapM,
    pathAnalysis, adapterAnalysis]

variable {H}

theorem comparable_of_analysis {h2r : List PathAnalysis} {r2h : List AdapterAnalysis}
    (h : H.analysis = .analyzed [] h2r r2h) :
    h2r = [H.pathAnalysis] ∧ r2h = [H.adapterAnalysis] ∧ H.Comparable := by
  rw [analysis_eq] at h
  injection h with hreasons hpaths hadapters
  obtain ⟨hpath, hadapter⟩ := List.append_eq_nil_iff.mp hreasons
  refine ⟨hpaths.symm, hadapters.symm, ?_, ?_⟩
  · obtain ⟨h1, -⟩ := List.append_eq_nil_iff.mp hpath
    obtain ⟨-, h1⟩ := List.append_eq_nil_iff.mp h1
    by_contra hne
    rw [if_pos ?_] at h1
    · cases h1
    · simp [pathAnalysis, analyzePath, PathNonces.delivered]
      omega
  · unfold adapterReasons at hadapter
    by_contra hne
    rw [if_pos ?_] at hadapter
    · cases hadapter
    · simp [adapterAnalysis, analyzeAdapter]
      omega

/-! ### The amounts of a message on both chains -/

/-- Up to the rollback block's counter, what arrived is what canonical Harmony sent. -/
theorem delivered_amountTo {n : ℕ} (hrb : n ≤ H.harmonyOut.counter H.harmonyBlock.rollback)
    (hin : n ≤ H.remoteIn.messages.length) : H.remoteIn.amountTo n = H.harmonyOut.amountTo n := by
  refine Stream.amountTo_congr hin (hrb.trans (Stream.counter_le_length _)) fun i m s hi hm hs => ?_
  obtain ⟨s', hs', hamount⟩ := H.delivered i m hm
  have hshared := H.shared
  rw [SortedBy.filter_le_eq_take Stream.messages_sorted, SortedBy.filter_le_eq_take Stream.messages_sorted]
    at hshared
  have hbranch : H.abandoned.messages[i]? = H.harmonyOut.messages[i]? := by
    have hget := congrArg (fun l : List Log => l[i]?) hshared
    simp only [List.getElem?_take] at hget
    rw [if_pos (show i < List.countP _ _ from hi.trans_le hrb)] at hget
    split_ifs at hget
    · exact hget
    · exact absurd (hget.trans hs) (by simp)
  have hsame : s' = s := by
    rcases hs' with hs' | hs'
    · exact Option.some.inj (hs'.symm.trans (hbranch.trans hs))
    · exact Option.some.inj (hs'.symm.trans hs)
  rw [← hamount, hsame]

/-- Canonical releases are of remote sends. -/
theorem received_amountTo {n : ℕ} (hin : n ≤ H.harmonyIn.messages.length) :
    H.harmonyIn.amountTo n = H.remoteOut.amountTo n := by
  have hsent : n ≤ H.remoteOut.messages.length := by
    rcases Nat.eq_zero_or_pos n with rfl | hn
    · exact Nat.zero_le _
    · obtain ⟨s, hs, -⟩ := H.received (n - 1) _ (List.getElem?_eq_getElem (by omega))
      have := (List.getElem?_eq_some_iff.mp hs).1
      omega
  refine Stream.amountTo_congr hin hsent fun i m s _ hm hs => ?_
  obtain ⟨s', hs', hamount, -⟩ := H.received i m hm
  obtain rfl : s' = s := Option.some.inj (hs'.symm.trans hs)
  exact hamount.symm

theorem received_le_sent :
    H.harmonyIn.counter H.harmonyBlock.cutoff ≤ H.remoteOut.counter H.remoteBlock.state := by
  by_contra hlt
  have hlen := Stream.counter_le_length (S := H.harmonyIn) H.harmonyBlock.cutoff
  have hm := List.getElem?_eq_getElem
    (l := H.harmonyIn.messages) (i := H.harmonyIn.counter H.harmonyBlock.cutoff - 1) (by omega)
  obtain ⟨s, hs, -, htime⟩ := H.received _ _ hm
  have hsent := (Stream.block_le_iff hs).mp (htime ((Stream.block_le_iff hm).mpr (by omega)))
  omega

/-! ### The ranges that are scanned -/

section Scanned
variable {kind : PoolKind} {label : TimeLabel} {rangeSize low high : ℕ} {result : Events × List Problem}

theorem of_collectReceives
    (h : (H.scan kind label rangeSize).collectReceives H.pathSources low high = .ok result) :
    result.1.Of (H.remoteIn.between low high) := by
  unfold Scan.collectReceives at h
  dsimp only [scan, pathSources] at h
  rw [← H.remoteReceives.1, ← H.remoteReceives.2] at h
  exact of_collect h

theorem of_collectHarmonySends
    (h : (H.scan kind label rangeSize).collectHarmonySends H.pathSources low high = .ok result) :
    result.1.Of (H.harmonyOut.between low high) := by
  unfold Scan.collectHarmonySends at h
  dsimp only [scan, pathSources] at h
  rw [← H.harmonySends.1, ← H.harmonySends.2] at h
  exact of_collect h

theorem of_collectRemoteSends
    (h : (H.scan kind label rangeSize).collectRemoteSends H.adapterSources low high = .ok result) :
    result.1.Of (H.remoteOut.between low high) := by
  unfold Scan.collectRemoteSends at h
  dsimp only [scan, adapterSources] at h
  rw [← H.remoteSends.1, ← H.remoteSends.2] at h
  exact of_collect h

end Scanned

theorem receive_of_mem {l : Log} {low high : ℕ} (h : l ∈ H.remoteIn.between low high) : l.kind = .receive :=
  H.noneFailed l (List.mem_append_left _ (Stream.mem_messages_of_mem_between h))

theorem isSend_of_mem {S : Stream} (hS : S.kinds = sendKinds) {l : Log} {low high : ℕ}
    (h : l ∈ S.between low high) : l.kind = .send ∨ l.kind = .nativeSend := by
  obtain ⟨hlog, hacc⟩ := List.mem_filter.mp (Stream.mem_messages_of_mem_between h)
  have hkind := S.known l hlog hacc
  rw [hS] at hkind
  simpa [sendKinds] using hkind

/-! ### Each direction -/

section Directions
variable {label : TimeLabel} {rangeSize : ℕ} {base : Base}

theorem snapshot_le_state (H : History) (label : TimeLabel) : H.remoteBlock.get label ≤ H.remoteBlock.state := by
  cases label with
  | rollback => exact H.remoteOrder.1.trans H.remoteOrder.2
  | cutoff => exact H.remoteOrder.2

theorem rollback_le_snapshot (H : History) (label : TimeLabel) : H.remoteBlock.rollback ≤ H.remoteBlock.get label := by
  cases label with
  | rollback => exact le_rfl
  | cutoff => exact H.remoteOrder.1

theorem scanPath_harmonyOrigin {found : Found}
    (h : (H.scan .harmonyOrigin label rangeSize).scanPath base H.pathAnalysis H.pathSources = .ok found) :
    ∃ lost after undelivered : Events,
      lost.Of (H.remoteIn.between (H.harmonyOut.counter H.harmonyBlock.rollback)
        (H.remoteIn.counter H.remoteBlock.state)) ∧
      after.Of (H.remoteIn.between (H.remoteIn.counter (H.remoteBlock.get label))
        (min (H.remoteIn.counter H.remoteBlock.state) (H.harmonyOut.counter H.harmonyBlock.rollback))) ∧
      undelivered.Of (H.harmonyOut.between (H.remoteIn.counter H.remoteBlock.state)
        (H.harmonyOut.counter H.harmonyBlock.cutoff)) ∧
      found.1 =
        rowsFor (lost.filter fun e => H.remoteBlock.get label < e.block) base "orphaned_mint" noOne
          "after the snapshot block, so already excluded" false ++
        rowsFor (lost.filter fun e => e.block ≤ H.remoteBlock.get label) base "orphaned_mint_in_snapshot"
          fromRecipient "inside the snapshot, so debited" false ++
        rowsFor after base "canonical_mint_after_snapshot" toRecipient "" true ++
        rowsFor undelivered base "undelivered_lock" toSender "" false := by
  unfold Scan.scanPath at h
  obtain ⟨orphaned, horphaned, h⟩ := Except.of_bind_ok h
  obtain ⟨undelivered, hundelivered, h⟩ := Except.of_bind_ok h
  obtain ⟨after, hafter, h⟩ := Except.of_bind_ok h
  obtain rfl := Except.ok.inj h
  have ha := of_collectReceives hafter
  rw [show H.pathSources.inbound = H.remoteIn.counter from rfl, Stream.read_cast] at ha
  exact ⟨_, _, _, (of_collectReceives horphaned).shiftNonces _, ha.shiftNonces _,
    of_collectHarmonySends hundelivered, rfl⟩

/-- Locked tokens: the snapshot with its forged mints debited, the mints after it and what never
arrived. -/
theorem sent_harmonyOrigin (hc : H.Comparable) {found : Found}
    (h : (H.scan .harmonyOrigin label rangeSize).scanPath base H.pathAnalysis H.pathSources = .ok found) :
    (H.remoteIn.amountAt (H.remoteBlock.get label) : ℤ) + adjusted found.1 =
      H.harmonyOut.amountAt H.harmonyBlock.cutoff := by
  obtain ⟨lost, after, undelivered, hlost, hafter, hundelivered, hrows⟩ := scanPath_harmonyOrigin h
  have hS := Stream.counter_mono (S := H.remoteIn) (H.snapshot_le_state label)
  have hcut := Stream.counter_mono (S := H.harmonyOut) H.harmonyOrder
  have hlen := Stream.counter_le_length (S := H.remoteIn) H.remoteBlock.state
  rw [hrows, adjusted_append, adjusted_append, adjusted_append,
    adjusted_range_after hlost fun l hl => weighs_noOne (receive_of_mem hl),
    adjusted_range_upTo hlost fun l hl => weighs_fromRecipient (receive_of_mem hl),
    adjusted_range hafter fun l hl => weighs_toRecipient (receive_of_mem hl),
    adjusted_range hundelivered fun l hl => weighs_toSender (isSend_of_mem H.harmonySends.2 hl),
    Stream.amountAt_eq, Stream.amountAt_eq, min_eq_right hS]
  by_cases hle : H.remoteIn.counter H.remoteBlock.state ≤ H.harmonyOut.counter H.harmonyBlock.rollback
  · -- nothing is lost: the remote chain is behind the rollback block
    have hsame := delivered_amountTo hle hlen
    rw [min_eq_left hle, max_eq_right hS, max_eq_left (hS.trans hle), max_eq_right (hle.trans hcut), hsame]
    ring
  · -- nothing is sent after the rollback, and what is lost has been delivered
    have heq := hc.collide.resolve_left hle
    have hge := (not_le.mp hle).le
    have hsame := delivered_amountTo le_rfl (hge.trans hlen)
    rw [min_eq_right hge, heq, max_eq_left hge, max_comm (H.remoteIn.counter _), ← hsame]
    ring

theorem scanPath_remoteEscrow {found : Found}
    (h : (H.scan .remoteEscrow label rangeSize).scanPath base H.pathAnalysis H.pathSources = .ok found) :
    ∃ lost undelivered : Events,
      lost.Of (H.remoteIn.between (H.harmonyOut.counter H.harmonyBlock.rollback)
        (H.remoteIn.counter H.remoteBlock.state)) ∧
      undelivered.Of (H.harmonyOut.between (H.remoteIn.counter H.remoteBlock.state)
        (H.harmonyOut.counter H.harmonyBlock.cutoff)) ∧
      found.1 = rowsFor lost base "orphaned_payout" fromRecipient "" false ++
        rowsFor undelivered base "undelivered_burn" toSender "" false := by
  unfold Scan.scanPath at h
  obtain ⟨orphaned, horphaned, h⟩ := Except.of_bind_ok h
  obtain ⟨undelivered, hundelivered, h⟩ := Except.of_bind_ok h
  obtain rfl := Except.ok.inj h
  exact ⟨_, _, (of_collectReceives horphaned).shiftNonces _, of_collectHarmonySends hundelivered, rfl⟩

/-- Burned tokens: those the escrow has paid for, less what it paid for nothing, and those it has
not paid yet. -/
theorem sent_remoteEscrow (hc : H.Comparable) {found : Found}
    (h : (H.scan .remoteEscrow label rangeSize).scanPath base H.pathAnalysis H.pathSources = .ok found) :
    -(H.harmonyOut.amountAt H.harmonyBlock.cutoff : ℤ) + adjusted found.1 =
      -(H.remoteIn.amountAt H.remoteBlock.state : ℤ) := by
  obtain ⟨lost, undelivered, hlost, hundelivered, hrows⟩ := scanPath_remoteEscrow h
  have hcut := Stream.counter_mono (S := H.harmonyOut) H.harmonyOrder
  have hlen := Stream.counter_le_length (S := H.remoteIn) H.remoteBlock.state
  rw [hrows, adjusted_append, adjusted_range hlost fun l hl => weighs_fromRecipient (receive_of_mem hl),
    adjusted_range hundelivered fun l hl => weighs_toSender (isSend_of_mem H.harmonySends.2 hl),
    Stream.amountAt_eq, Stream.amountAt_eq]
  by_cases hle : H.remoteIn.counter H.remoteBlock.state ≤ H.harmonyOut.counter H.harmonyBlock.rollback
  · have hsame := delivered_amountTo hle hlen
    rw [max_eq_left hle, max_eq_right (hle.trans hcut), hsame]
    ring
  · have heq := hc.collide.resolve_left hle
    have hge := (not_le.mp hle).le
    have hsame := delivered_amountTo le_rfl (hge.trans hlen)
    rw [heq, max_eq_right hge, max_eq_left hge, ← hsame]
    ring

theorem scanAdapter_harmonyOrigin {found : Found × ℕ}
    (h : (H.scan .harmonyOrigin label rangeSize).scanAdapter base H.adapterAnalysis H.adapterSources = .ok found) :
    ∃ undelivered released : Events,
      undelivered.Of (H.remoteOut.between (H.harmonyIn.counter H.harmonyBlock.cutoff)
        (min (H.remoteOut.counter H.remoteBlock.state) (H.remoteOut.counter (H.remoteBlock.get label)))) ∧
      released.Of (H.remoteOut.between (H.harmonyIn.counter H.harmonyBlock.rollback)
        (H.harmonyIn.counter H.harmonyBlock.cutoff)) ∧
      found.1.1 =
        rowsFor undelivered base "undelivered_return" toSender "sent at or before the snapshot block" false ++
        rowsFor (released.filter fun e => H.remoteBlock.get label < e.block) base
          "canonical_release_after_snapshot" fromSender "" false := by
  unfold Scan.scanAdapter at h
  obtain ⟨undelivered, hundelivered, h⟩ := Except.of_bind_ok h
  obtain ⟨released, hreleased, h⟩ := Except.of_bind_ok h
  obtain rfl := Except.ok.inj h
  have hu := of_collectRemoteSends hundelivered
  rw [show H.adapterSources.outbound = H.remoteOut.counter from rfl, Stream.read_cast] at hu
  exact ⟨_, _, hu, of_collectRemoteSends hreleased, rfl⟩

/-- Released tokens: those the snapshot no longer shows, less what is still to be released, and
those burned after it. -/
theorem returned_harmonyOrigin (hc : H.Comparable) {found : Found × ℕ}
    (h : (H.scan .harmonyOrigin label rangeSize).scanAdapter base H.adapterAnalysis H.adapterSources = .ok found) :
    -(H.remoteOut.amountAt (H.remoteBlock.get label) : ℤ) + adjusted found.1.1 =
      -(H.harmonyIn.amountAt H.harmonyBlock.cutoff : ℤ) := by
  obtain ⟨undelivered, released, hundelivered, hreleased, hrows⟩ := scanAdapter_harmonyOrigin h
  have hS := Stream.counter_mono (S := H.remoteOut) (H.snapshot_le_state label)
  have hrb := hc.returned.trans
    (Stream.counter_mono (S := H.remoteOut) (H.rollback_le_snapshot label))
  have hcut := Stream.counter_mono (S := H.harmonyIn) H.harmonyOrder
  have hsame := received_amountTo (Stream.counter_le_length (S := H.harmonyIn) H.harmonyBlock.cutoff)
  have hsend : ∀ {low high l}, l ∈ H.remoteOut.between low high → l.kind = .send ∨ l.kind = .nativeSend :=
    isSend_of_mem H.remoteSends.2
  rw [hrows, adjusted_append, adjusted_range hundelivered fun l hl => weighs_toSender (hsend hl),
    adjusted_range_after hreleased fun l hl => weighs_fromSender (hsend hl),
    Stream.amountAt_eq, Stream.amountAt_eq, hsame, min_eq_right hS, max_eq_right hcut,
    max_eq_right (le_min hcut hrb)]
  rcases le_total (H.harmonyIn.counter H.harmonyBlock.cutoff) (H.remoteOut.counter (H.remoteBlock.get label))
    with hle | hge
  · rw [max_eq_right hle, min_eq_left hle]
    ring
  · rw [max_eq_left hge, min_eq_right hge]
    ring

theorem scanAdapter_remoteEscrow {found : Found × ℕ}
    (h : (H.scan .remoteEscrow label rangeSize).scanAdapter base H.adapterAnalysis H.adapterSources = .ok found) :
    ∃ undelivered : Events,
      undelivered.Of (H.remoteOut.between (H.harmonyIn.counter H.harmonyBlock.cutoff)
        (H.remoteOut.counter H.remoteBlock.state)) ∧
      found.1.1 = rowsFor undelivered base "undelivered_deposit" toSender "" false := by
  unfold Scan.scanAdapter at h
  obtain ⟨undelivered, hundelivered, h⟩ := Except.of_bind_ok h
  obtain rfl := Except.ok.inj h
  exact ⟨_, of_collectRemoteSends hundelivered, rfl⟩

/-- Deposited tokens: those wrapped on Harmony and those on their way. -/
theorem returned_remoteEscrow {found : Found × ℕ}
    (h : (H.scan .remoteEscrow label rangeSize).scanAdapter base H.adapterAnalysis H.adapterSources = .ok found) :
    (H.harmonyIn.amountAt H.harmonyBlock.cutoff : ℤ) + adjusted found.1.1 =
      H.remoteOut.amountAt H.remoteBlock.state := by
  obtain ⟨undelivered, hundelivered, hrows⟩ := scanAdapter_remoteEscrow h
  have hsame := received_amountTo (Stream.counter_le_length (S := H.harmonyIn) H.harmonyBlock.cutoff)
  rw [hrows, adjusted_range hundelivered fun l hl => weighs_toSender (isSend_of_mem H.remoteSends.2 hl),
    Stream.amountAt_eq, Stream.amountAt_eq, hsame, max_eq_right received_le_sent]
  ring

theorem scanned_ok {kind : PoolKind} {rows : List Row} {problems : List (String × Problem)} {count : ℕ}
    (h : H.scanned kind label rangeSize [H.pathAnalysis] [H.adapterAnalysis] = .ok ((rows, problems), count)) :
    ∃ sent returned pathBase adapterBase,
      (H.scan kind label rangeSize).scanPath pathBase H.pathAnalysis H.pathSources = .ok sent ∧
      (H.scan kind label rangeSize).scanAdapter adapterBase H.adapterAnalysis H.adapterSources = .ok returned ∧
      rows = sent.1 ++ returned.1.1 := by
  unfold scanned Scan.scanPool at h
  obtain ⟨sent, hsent, h⟩ := Except.of_bind_ok h
  obtain ⟨returned, hreturned, h⟩ := Except.of_bind_ok h
  have hs := Except.forall₂_of_mapM_ok hsent
  have hr := Except.forall₂_of_mapM_ok hreturned
  obtain ⟨found, rest, hfound, hrest, rfl⟩ := List.forall₂_cons_left_iff.mp hs
  obtain rfl := List.forall₂_nil_left_iff.mp hrest
  obtain ⟨back, rest, hback, hrest, rfl⟩ := List.forall₂_cons_left_iff.mp hr
  obtain rfl := List.forall₂_nil_left_iff.mp hrest
  have hrows := congrArg (fun r => r.1.1) (Except.ok.inj h)
  refine ⟨found, back, _, _, hfound, hback, ?_⟩
  simpa using hrows.symm

end Directions

/-- Whatever the order of the counters, the adjustments make the snapshot's holdings equal to the
collateral, for both kinds of pool and both snapshot blocks. -/
theorem adjustments_reconcile (H : History) {h2r : List PathAnalysis} {r2h : List AdapterAnalysis}
    (hok : H.analysis = .analyzed [] h2r r2h) (label : TimeLabel) (rangeSize : ℕ) {rows : List Row} {count : ℕ} :
    (H.scanned .harmonyOrigin label rangeSize h2r r2h = .ok ((rows, []), count) →
      H.remoteHoldings (H.remoteBlock.get label) + adjusted rows = H.harmonyCollateral) ∧
    (H.scanned .remoteEscrow label rangeSize h2r r2h = .ok ((rows, []), count) →
      H.harmonyHoldings H.harmonyBlock.cutoff + adjusted rows = H.remoteCollateral) := by
  obtain ⟨rfl, rfl, hc⟩ := comparable_of_analysis hok
  refine ⟨fun h => ?_, fun h => ?_⟩
  · obtain ⟨sent, returned, _, _, hsent, hreturned, rfl⟩ := scanned_ok h
    have h1 := sent_harmonyOrigin hc hsent
    have h2 := returned_harmonyOrigin hc hreturned
    rw [adjusted_append, remoteHoldings, harmonyCollateral]
    linarith
  · obtain ⟨sent, returned, _, _, hsent, hreturned, rfl⟩ := scanned_ok h
    have h1 := sent_remoteEscrow hc hsent
    have h2 := returned_remoteEscrow hreturned
    rw [adjusted_append, harmonyHoldings, remoteCollateral]
    linarith

/-- Messages `(block, amount)` of one kind. -/
def streamOf (kind : Kind) (accept : Log → Bool) (kinds : List Kind) (ms : List (ℕ × ℕ))
    (ordered : (ms.map Prod.fst).Pairwise (· < ·)) (distinct : kinds.Nodup) (known : kind ∈ kinds) : Stream where
  logs := ms.map fun m => Log.mk m.1 0 kind "0x" 1 m.2 none none 1 ""
  accept
  kinds
  ordered := by
    refine List.pairwise_map.mpr ((List.pairwise_map.mp ordered).imp fun {a b} h => ?_)
    exact Prod.Lex.toLex_lt_toLex.mpr (Or.inl h)
  distinct
  known := by
    rintro l hl -
    obtain ⟨m, -, rfl⟩ := List.mem_map.mp hl
    exact known

/-- A forged delivery, a release after the rollback and a return on its way. -/
def forgedHistory : History where
  poolId := "bnb-one"
  chain := "bnb"
  adapter := "0xad"
  harmonyLz := 116
  expectedPath := "0xprad"
  harmonyBlock := ⟨10, 20⟩
  remoteBlock := ⟨⟨10, 20⟩, 30⟩
  harmonyOut := streamOf .send acceptNativeSend sendKinds [(5, 7)] (by decide) (by decide) (by decide)
  abandoned := streamOf .send acceptNativeSend sendKinds [(5, 7), (12, 100)] (by decide) (by decide) (by decide)
  remoteIn := streamOf .receive (fromPath 116 "0xprad") receiveKinds [(8, 7), (14, 100)] (by decide) (by decide)
    (by decide)
  remoteOut := streamOf .send acceptNativeSend sendKinds [(9, 2), (15, 3)] (by decide) (by decide) (by decide)
  harmonyIn := streamOf .receive (fun _ => true) receiveKinds [(16, 2)] (by decide) (by decide) (by decide)
  harmonySends := ⟨rfl, rfl⟩
  remoteSends := ⟨rfl, rfl⟩
  remoteReceives := ⟨rfl, rfl⟩
  noneFailed := by decide
  harmonyOrder := by decide
  remoteOrder := by decide
  shared := by decide
  delivered := by
    rintro (_ | _ | i) m hm
    · exact ⟨_, Or.inl rfl, by obtain rfl := Option.some.inj hm; rfl⟩
    · exact ⟨_, Or.inl rfl, by obtain rfl := Option.some.inj hm; rfl⟩
    · cases hm
  received := by
    rintro (_ | i) m hm
    · exact ⟨_, rfl, by obtain rfl := Option.some.inj hm; exact ⟨rfl, by decide⟩⟩
    · cases hm

theorem adjustments_reconcile_forged :
    ∃ rows count, forgedHistory.scanned .harmonyOrigin .cutoff 100 [forgedHistory.pathAnalysis]
        [forgedHistory.adapterAnalysis] = .ok ((rows, []), count) ∧
      forgedHistory.remoteHoldings 20 = 102 ∧ 102 + adjusted rows = 5 := by
  have hok : forgedHistory.analysis =
      .analyzed [] [forgedHistory.pathAnalysis] [forgedHistory.adapterAnalysis] := by
    rw [analysis_eq]
    rfl
  refine ⟨_, _, rfl, by decide, ?_⟩
  exact (adjustments_reconcile forgedHistory hok .cutoff 100).1 rfl

end History

end HarmonyMigration.Messages
