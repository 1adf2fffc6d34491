import HarmonyMigration.Airdrop.Contract
import HarmonyMigration.Lib.Except

/-! The run invariant of the airdrop: the bitmap, the two counters, the events and
the transfers out of the reserve all tell of the same batches, each sent once. -/

namespace HarmonyMigration.Airdrop

open Keccak Erc20 BatchTree Bitmap

variable {D : Type}

/-! ## What the logs and the ledger say -/

def Event.index? : Event D → Option Word
  | .batchExecuted batchIndex _ _ _ => some batchIndex
  | _ => none

/-- The indexes of the batches sent so far, in order. -/
def executedIndexes (s : State D) : List Word := s.logs.filterMap Event.index?

/-- Batch `i` of the list, empty where there is none. -/
def batchAt (B : List Batch) (i : Word) : Batch := B[i.toNat]?.getD ⟨[], []⟩

def batchSum (b : Batch) : ℕ := (b.amounts.map BitVec.toNat).sum

/-- What a batch pays to `a`. -/
def batchSumTo (a : Address) (b : Batch) : ℕ :=
  (((b.recipients.zip b.amounts).filter fun p => p.1 = a).map fun p => p.2.toNat).sum

def pullOf (cfg : Config D) (p : Address × Word) : Transfer :=
  ⟨.transferFrom, cfg.self, cfg.token, cfg.reserve, p.1, p.2.toNat⟩

def pullsOf (cfg : Config D) (b : Batch) : List Transfer := (b.recipients.zip b.amounts).map (pullOf cfg)

/-- Transfers of the token that the contract pulled out of the reserve. -/
def isPull (cfg : Config D) (m : Transfer) : Bool :=
  m.via = .transferFrom ∧ m.operator = cfg.self ∧ m.token = cfg.token ∧ m.payer = cfg.reserve

/-- Transfers of the token out of the reserve, by whomever. -/
def isOut (cfg : Config D) (m : Transfer) : Bool := m.token = cfg.token ∧ m.payer = cfg.reserve

structure Inv (cfg : Config D) (B : List Batch) (s : State D) : Prop where
  batches : ∀ i ∈ executedIndexes s, B[i.toNat]? = some (batchAt B i)
  nodup : (executedIndexes s).Nodup
  bits : ∀ i, isExecuted s i = true ↔ i ∈ executedIndexes s
  count : s.executedBatches = (executedIndexes s).length
  pulls : s.ledger.moves.filter (isPull cfg) =
    (executedIndexes s).flatMap fun i => pullsOf cfg (batchAt B i)
  amount : s.distributedAmount = ((executedIndexes s).map fun i => batchSum (batchAt B i)).sum
  out : cfg.reserve ≠ cfg.self → s.ledger.moves.filter (isOut cfg) = s.ledger.moves.filter (isPull cfg)

theorem inv_init (cfg : Config D) (B : List Batch) (executor : Address) (l : Ledger) :
    Inv cfg B ⟨executor, false, 0, 0, Bitmap.empty, { l with moves := [] },
      [.executorChanged 0 executor]⟩ where
  batches := by simp [executedIndexes, Event.index?]
  nodup := List.nodup_nil
  bits := by simp [executedIndexes, Event.index?, isExecuted, Bitmap.get_empty]
  count := rfl
  pulls := rfl
  amount := rfl
  out := fun _ => rfl

/-! ## The contract's steps -/

section
variable {T : Tokens} {cfg : Config D}

/-- A call answered `true` made the transfer. -/
theorem boolCall_true {l l' : Ledger} {m : Transfer} (h : boolCall (D := D) T l m = .ok (l', true)) :
    l' = l.apply m := by
  unfold boolCall at h
  rcases T.call_cases l m with ⟨hc, hcode⟩ | (hc | hc) | ⟨hcode, -, -, hc | hc⟩
  · simp [hc, hcode] at h
  · cases hcode : T.code m.token <;> simp [hc, hcode] at h
  · cases hcode : T.code m.token <;> simp [hc, hcode] at h
  · simpa [hc, hcode, eq_comm] using h
  · simp [hc, hcode] at h

theorem map_zip_toNat {r : List Address} {a : List Word} (h : a.length = r.length) :
    (r.zip a).map (fun p => p.2.toNat) = a.map BitVec.toNat := by
  calc (r.zip a).map (fun p => p.2.toNat) = ((r.zip a).map Prod.snd).map BitVec.toNat := by
        rw [List.map_map]; rfl
    _ = a.map BitVec.toNat := by rw [List.map_snd_zip h.le]

/-- The payment loop makes the transfers in order and adds them up. -/
theorem pay_ok {ps : List (Address × Word)} {l l' : Ledger} {n n' : ℕ}
    (h : pay T cfg l n ps = .ok (l', n')) :
    l'.moves = l.moves ++ ps.map (pullOf cfg) ∧ n' = n + (ps.map fun p => p.2.toNat).sum := by
  induction ps generalizing l n with
  | nil =>
    obtain ⟨rfl, rfl⟩ := Prod.mk.inj (Except.ok.inj h)
    simp
  | cons p rest ih =>
    simp only [pay] at h
    split at h
    · cases h
    · cases h
    · rename_i l1 hcall
      obtain ⟨n1, hadd, h⟩ := Except.of_bind_ok h
      unfold addChecked at hadd
      split_ifs at hadd
      obtain rfl := Except.ok.inj hadd
      obtain ⟨h1, h2⟩ := ih h
      rw [boolCall_true hcall] at h1
      simp only [List.map_cons, List.sum_cons]
      exact ⟨by rw [h1]; simp [Ledger.apply, pullOf], by omega⟩

/-- Everything a successful `execute` has checked and done. -/
theorem execute_ok [LinearOrder D] {K : Hash D} {s s' : State D} {sender : Address} {i : Word}
    {r : List Address} {a : List Word} {proof : List D}
    (h : execute T cfg K s sender i r a proof = .ok s') :
    sender = s.executor ∧ s.paused = false ∧ a.length = r.length ∧ i < cfg.batchCount ∧
      _verify K cfg proof (batchLeaf K i r a) = true ∧ isExecuted s i = false ∧
      ∃ l n, pay T cfg s.ledger 0 (r.zip a) = .ok (l, n) ∧
        s' = { s with
          executedBitmap := Bitmap.set s.executedBitmap i
          ledger := l
          executedBatches := s.executedBatches + 1
          distributedAmount := s.distributedAmount + n
          logs := s.logs ++ [.batchExecuted i (batchLeaf K i r a) r.length n] } := by
  unfold execute at h
  split_ifs at h with h1 h2 h3 h4 h5 h6 h7
  obtain ⟨⟨l, n⟩, hpay, h⟩ := Except.of_bind_ok h
  obtain ⟨e, he, h⟩ := Except.of_bind_ok h
  obtain ⟨d, hd, h⟩ := Except.of_bind_ok h
  unfold addChecked at he hd
  split_ifs at he hd
  obtain rfl := Except.ok.inj he
  obtain rfl := Except.ok.inj hd
  exact ⟨by simpa using h1, by simpa using h2, by simpa using h4, BitVec.not_le.mp h5,
    by simpa using h6, by simpa using h7, l, n, hpay, (Except.ok.inj h).symm⟩

/-- The published batches behind a deployed contract: root, number and total. -/
structure Published [LinearOrder D] (K : Hash D) (B : List Batch) (cfg : Config D) : Prop where
  lengths : ∀ b ∈ B, b.recipients.length = b.amounts.length
  root : ∃ ls lv, leaves K B = .ok ls ∧ treeLevels (hashPair K) ls = .ok lv ∧
    treeRoot lv = some cfg.root
  count : cfg.batchCount.toNat = B.length
  total : cfg.totalAmount.toNat = (B.map batchSum).sum

section
variable [LinearOrder D] {K : Hash D} {B : List Batch} {s s' : State D}

theorem Published.length_lt (hp : Published K B cfg) : B.length < 2 ^ 256 :=
  hp.count ▸ cfg.batchCount.isLt

theorem batch_of_execute (hp : Published K B cfg) {sender : Address} {i : Word} {r : List Address}
    {a : List Word} {proof : List D} (h : execute T cfg K s sender i r a proof = .ok s') :
    B[i.toNat]? = some ⟨r, a⟩ := by
  obtain ⟨-, -, hlen, -, hv, -, -⟩ := execute_ok h
  obtain ⟨ls, lv, hls, hlv, hr⟩ := hp.root
  exact batch_of_fold K hp.length_lt hp.lengths hls hlv hr hlen.symm proof (of_decide_eq_true hv)

theorem Inv.execute (hp : Published K B cfg) (hs : Inv cfg B s) {sender : Address} {i : Word}
    {r : List Address} {a : List Word} {proof : List D}
    (h : execute T cfg K s sender i r a proof = .ok s') : Inv cfg B s' := by
  have hb := batch_of_execute hp h
  obtain ⟨-, -, hlen, -, -, hi, l, n, hpay, rfl⟩ := execute_ok h
  obtain ⟨hmoves, hn⟩ := pay_ok hpay
  have hat : batchAt B i = ⟨r, a⟩ := by simp [batchAt, hb]
  have hnew : i ∉ executedIndexes s := by rw [← hs.bits i, hi]; simp
  have hidx : ∀ s0 : State D, s0.logs = s.logs ++ [.batchExecuted i (batchLeaf K i r a) r.length n] →
      executedIndexes s0 = executedIndexes s ++ [i] := by
    intro s0 h0
    simp [executedIndexes, h0, Event.index?]
  have hpulls : ((r.zip a).map (pullOf cfg)).filter (isPull cfg) = pullsOf cfg ⟨r, a⟩ := by
    rw [List.filter_eq_self.mpr]
    · rfl
    · intro m hm
      obtain ⟨p, -, rfl⟩ := List.mem_map.mp hm
      simp [isPull, pullOf]
  refine ⟨?_, ?_, ?_, ?_, ?_, ?_, ?_⟩
  · rw [hidx _ rfl]
    intro j hj
    rcases List.mem_append.mp hj with hj | hj
    · exact hs.batches j hj
    · rw [List.mem_singleton.mp hj, hat, hb]
  · rw [hidx _ rfl]
    exact hs.nodup.append (List.nodup_singleton i) (by simpa using hnew)
  · intro j
    rw [hidx _ rfl, List.mem_append, List.mem_singleton, ← hs.bits j]
    simp only [isExecuted, Bitmap.get_set, Bool.or_eq_true, decide_eq_true_eq]
    exact or_comm
  · rw [hidx _ rfl]
    simp [hs.count]
  · rw [hidx _ rfl]
    simp only [hmoves, List.filter_append, hs.pulls, List.flatMap_append, List.flatMap_singleton, hat,
      hpulls]
  · rw [hidx _ rfl]
    simp [hs.amount, hat, hn, batchSum, map_zip_toNat hlen]
  · intro hne
    have hout : ((r.zip a).map (pullOf cfg)).filter (isOut cfg) = (r.zip a).map (pullOf cfg) := by
      rw [List.filter_eq_self]
      intro m hm
      obtain ⟨p, -, rfl⟩ := List.mem_map.mp hm
      simp [isOut, pullOf]
    simp only [hmoves, List.filter_append, hs.out hne, hpulls, hout]
    rfl

end

/-- A step that executes no batch and pulls nothing keeps the invariant. -/
theorem Inv.quiet {B : List Batch} {s s' : State D} (hs : Inv cfg B s)
    (hlogs : executedIndexes s' = executedIndexes s) (hbits : s'.executedBitmap = s.executedBitmap)
    (hcount : s'.executedBatches = s.executedBatches)
    (hamount : s'.distributedAmount = s.distributedAmount)
    (hpull : s'.ledger.moves.filter (isPull cfg) = s.ledger.moves.filter (isPull cfg))
    (hout : cfg.reserve ≠ cfg.self →
      s'.ledger.moves.filter (isOut cfg) = s.ledger.moves.filter (isOut cfg)) : Inv cfg B s' := by
  refine ⟨?_, ?_, ?_, ?_, ?_, ?_, ?_⟩
  · rw [hlogs]; exact hs.batches
  · rw [hlogs]; exact hs.nodup
  · rw [hlogs]; simpa only [isExecuted, hbits] using hs.bits
  · rw [hlogs, hcount]; exact hs.count
  · rw [hlogs, hpull]; exact hs.pulls
  · rw [hlogs, hamount]; exact hs.amount
  · intro hne; rw [hpull, hout hne, hs.out hne]

theorem Inv.setExecutor {B : List Batch} {s s' : State D} (hs : Inv cfg B s) {sender a : Address}
    (h : setExecutor cfg s sender a = .ok s') : Inv cfg B s' := by
  unfold Airdrop.setExecutor at h
  split_ifs at h
  obtain rfl := Except.ok.inj h
  exact hs.quiet (by simp [executedIndexes, Event.index?]) rfl rfl rfl rfl (fun _ => rfl)

theorem Inv.setPaused {B : List Batch} {s s' : State D} (hs : Inv cfg B s) {sender : Address}
    {p : Bool} (h : setPaused cfg s sender p = .ok s') : Inv cfg B s' := by
  unfold Airdrop.setPaused at h
  split_ifs at h
  obtain rfl := Except.ok.inj h
  exact hs.quiet (by simp [executedIndexes, Event.index?]) rfl rfl rfl rfl (fun _ => rfl)

/-- `rescue` sends the contract's own tokens, never the reserve's. -/
theorem Inv.rescue {B : List Batch} {s s' : State D} (hs : Inv cfg B s) {sender asset payee : Address}
    {n : ℕ} (h : rescue T cfg s sender asset payee n = .ok s') : Inv cfg B s' := by
  unfold Airdrop.rescue at h
  split_ifs at h
  split at h
  · cases h
  · cases h
  · rename_i l hcall
    obtain rfl := Except.ok.inj h
    obtain rfl := boolCall_true hcall
    refine hs.quiet (by simp [executedIndexes, Event.index?]) rfl rfl rfl ?_ (fun hne => ?_)
    · simp [Ledger.apply, isPull]
    · simp [Ledger.apply, isOut, Ne.symm hne]

theorem Inv.run [LinearOrder D] {K : Hash D} {B : List Batch} (hp : Published K B cfg)
    (txs : List (Address × Call D)) {s : State D} (hs : Inv cfg B s) :
    Inv cfg B (run T cfg K s txs) := by
  induction txs generalizing s with
  | nil => exact hs
  | cons tx rest ih =>
    refine ih ?_
    unfold transact
    split
    · rename_i s1 h
      cases hc : tx.2 with
      | execute i r a p => rw [hc] at h; exact hs.execute hp h
      | setExecutor a => rw [hc] at h; exact hs.setExecutor h
      | setPaused p => rw [hc] at h; exact hs.setPaused h
      | rescue asset payee n => rw [hc] at h; exact hs.rescue h
    · exact hs

end

/-! ## The invariant as its readers see it -/

/-- The batches whose bit is set, with their indexes. -/
def sent (B : List Batch) (s : State D) : List (Word × Batch) :=
  (enumerate B).filter fun p => isExecuted s p.1

theorem Inv.perm_sent {cfg : Config D} {B : List Batch} {s : State D} (hs : Inv cfg B s)
    (hB : B.length < 2 ^ 256) :
    ((executedIndexes s).map fun i => (i, batchAt B i)).Perm (sent B s) := by
  have hfst : ((executedIndexes s).map fun i => (i, batchAt B i)).map Prod.fst = executedIndexes s := by
    rw [List.map_map]
    exact List.map_id _
  refine perm_enumerate_filter hB ?_ (by rw [hfst]; exact hs.nodup) (fun i => by rw [hfst]; exact hs.bits i)
  intro p hp
  obtain ⟨i, hi, rfl⟩ := List.mem_map.mp hp
  exact hs.batches i hi

theorem Inv.sum_sent {cfg : Config D} {B : List Batch} {s : State D} (hs : Inv cfg B s)
    (hB : B.length < 2 ^ 256) (f : Batch → ℕ) :
    ((executedIndexes s).map fun i => f (batchAt B i)).sum = ((sent B s).map fun p => f p.2).sum := by
  have h := ((hs.perm_sent hB).map fun p => f p.2).sum_eq
  rwa [List.map_map] at h

theorem sum_sent_le (B : List Batch) (s : State D) :
    ((sent B s).map fun p => batchSum p.2).sum ≤ (B.map batchSum).sum := by
  have hsub : ((sent B s).map fun p => batchSum p.2).Sublist ((enumerate B).map fun p => batchSum p.2) :=
    List.filter_sublist.map _
  have hall : (enumerate B).map (fun p => batchSum p.2) = B.map batchSum := by
    calc (enumerate B).map (fun p => batchSum p.2) = ((enumerate B).map Prod.snd).map batchSum := by
          rw [List.map_map]; rfl
      _ = B.map batchSum := by rw [enumerate_map_snd]
  exact hall ▸ hsub.sum_le_sum (fun _ _ => Nat.zero_le _)

theorem sumWhere_pullsOf (cfg : Config D) (a : Address) (b : Batch) :
    sumWhere (fun m => m.payee = a) (pullsOf cfg b) = batchSumTo a b := by
  rw [sumWhere, pullsOf, List.filter_map, List.map_map]
  rfl

/-- The state `s` of a run that distributes the batches `B`. -/
structure Distributes (cfg : Config D) (B : List Batch) (s : State D) : Prop where
  executedBatches : s.executedBatches = {i : Word | isExecuted s i = true}.ncard
  below : ∀ i, isExecuted s i = true → i.toNat < cfg.batchCount.toNat
  distributed : s.distributedAmount = ((sent B s).map fun p => batchSum p.2).sum
  moved : sumWhere (isPull cfg) s.ledger.moves = s.distributedAmount
  /-- with the reserve another account than the contract, nothing else left it -/
  out : cfg.reserve ≠ cfg.self → sumWhere (isOut cfg) s.ledger.moves = s.distributedAmount
  le_total : s.distributedAmount ≤ cfg.totalAmount.toNat
  remaining : remainingAmount cfg s = .ok (cfg.totalAmount.toNat - s.distributedAmount)
  received : ∀ a, sumWhere (fun m => isPull cfg m && m.payee = a) s.ledger.moves =
    ((sent B s).map fun p => batchSumTo a p.2).sum

theorem Inv.distributes [LinearOrder D] {K : Hash D} {cfg : Config D} {B : List Batch} {s : State D}
    (hp : Published K B cfg) (hs : Inv cfg B s) : Distributes cfg B s := by
  have hd : s.distributedAmount = ((sent B s).map fun p => batchSum p.2).sum := by
    rw [hs.amount, hs.sum_sent hp.length_lt batchSum]
  have hpulls : ∀ q : Transfer → Bool, sumWhere (fun m => isPull cfg m && q m) s.ledger.moves =
      ((sent B s).map fun p => sumWhere q (pullsOf cfg p.2)).sum := by
    intro q
    rw [← sumWhere_filter, hs.pulls, sumWhere_flatMap, hs.sum_sent hp.length_lt
      (fun b => sumWhere q (pullsOf cfg b))]
  have hmoved : sumWhere (isPull cfg) s.ledger.moves = s.distributedAmount := by
    have h := hpulls fun _ => true
    simp only [Bool.and_true] at h
    rw [h, hd]
    congr 1
    refine List.map_congr_left (fun p hp' => ?_)
    have hb := hp.lengths p.2 (List.mem_of_getElem? ((mem_enumerate hp.length_lt).mp
      (List.mem_filter.mp hp').1))
    rw [sumWhere, pullsOf, List.filter_true, List.map_map, batchSum, ← map_zip_toNat hb.symm]
    rfl
  have hle : s.distributedAmount ≤ cfg.totalAmount.toNat := by
    rw [hd, hp.total]; exact sum_sent_le B s
  refine ⟨?_, ?_, hd, hmoved, ?_, hle, if_pos hle, ?_⟩
  · have hset : {i : Word | isExecuted s i = true} = ((executedIndexes s).toFinset : Set Word) := by
      ext i
      simp [hs.bits i]
    rw [hset, Set.ncard_coe_finset, List.toFinset_card_of_nodup hs.nodup, hs.count]
  · intro i hi
    rw [hp.count]
    exact (List.getElem?_eq_some_iff.mp (hs.batches i ((hs.bits i).mp hi))).1
  · intro hne
    rw [← hmoved, sumWhere, sumWhere, hs.out hne]
  · intro a
    rw [hpulls]
    simp only [sumWhere_pullsOf]

/-- The run invariant. For any non-empty list of batches with equally many
recipients and amounts the tree has a root, and the contract deployed with that
root, the number of batches and their total keeps its books after any calls: the
counters, the bitmap, the reserve and every recipient tell of the same batches; a
successful `execute` was from the executor, not paused, for the published batch
of its index, not sent before; a reverted call changes nothing. -/
theorem airdrop_run_invariant [LinearOrder D] (K : Hash D) (B : List Batch) (hne : B ≠ [])
    (hB : ∀ b ∈ B, b.recipients.length = b.amounts.length) :
    ∃ ls lv r, leaves K B = .ok ls ∧ treeLevels (hashPair K) ls = .ok lv ∧ treeRoot lv = some r ∧
      ∀ (self token reserve admin executor : Address) (batchCount totalAmount : Word) (l : Ledger)
        (cfg : Config D) (s₀ : State D), batchCount.toNat = B.length →
        totalAmount.toNat = (B.map batchSum).sum →
        constructor K self token reserve admin executor r batchCount totalAmount l = .ok (cfg, s₀) →
        ∀ (T : Tokens) (txs : List (Address × Call D)),
          Distributes cfg B (run T cfg K s₀ txs) ∧
          (∀ (sender : Address) (i : Word) (rs : List Address) (as : List Word) (proof : List D)
            (s' : State D), execute T cfg K (run T cfg K s₀ txs) sender i rs as proof = .ok s' →
            B[i.toNat]? = some ⟨rs, as⟩ ∧ isExecuted (run T cfg K s₀ txs) i = false ∧
            isExecuted s' i = true ∧ sender = (run T cfg K s₀ txs).executor ∧
            (run T cfg K s₀ txs).paused = false) ∧
          (∀ (sender : Address) (c : Call D) (e : Error D),
            call T cfg K (run T cfg K s₀ txs) sender c = .error e →
            run T cfg K s₀ (txs ++ [(sender, c)]) = run T cfg K s₀ txs) := by
  obtain ⟨ls, lv, r, hls, hlv, hr⟩ := exists_root K.toHashFn hne hB
  refine ⟨ls, lv, r, hls, hlv, hr, ?_⟩
  intro self token reserve admin executor batchCount totalAmount l cfg s₀ hcount htotal hnew T txs
  unfold constructor at hnew
  split_ifs at hnew
  obtain ⟨rfl, rfl⟩ := Prod.mk.inj (Except.ok.inj hnew)
  have hp : Published K B ⟨self, token, reserve, admin, r, batchCount, totalAmount⟩ :=
    ⟨hB, ⟨ls, lv, hls, hlv, hr⟩, hcount, htotal⟩
  refine ⟨(Inv.run hp txs (inv_init _ B executor l)).distributes hp, ?_, ?_⟩
  · intro sender i rs as proof s' h
    have hb := batch_of_execute hp h
    obtain ⟨hsender, hpaused, -, -, -, hi, l', n, -, rfl⟩ := execute_ok h
    exact ⟨hb, hi, by simp [isExecuted, Bitmap.get_set], hsender, hpaused⟩
  · intro sender c e h
    rw [run, List.foldl_append, List.foldl_cons, List.foldl_nil, transact, ← run, h]

/-- Two batches over three payments of token 7 out of account 1, which approved account 2. -/
def twoBatches : List Batch := [⟨[10, 11], [4, 5]⟩, ⟨[10], [6]⟩]

def twoBatchLeaves : ℕ × ℕ := (batchLeaf Hash.nat 0 [10, 11] [4, 5], batchLeaf Hash.nat 1 [10] [6])

def twoBatchRoot : ℕ := hashPair Hash.nat twoBatchLeaves.1 twoBatchLeaves.2

def twoBatchLedger : Ledger where
  balance := fun p => if p = (7, 1) then 15 else 0
  allowance := fun p => if p = (7, 1, 2) then 15 else 0
  coin := fun _ => 0
  moves := []

def twoBatchConfig : Config ℕ := ⟨2, 7, 1, 3, twoBatchRoot, 2, 15⟩

def plainTokens : Tokens := ⟨fun _ => true, fun _ => .isTrue, fun _ => .reverts, fun _ _ => false⟩

/-- Batch 1 is sent, sent again, and batch 0 is tried while paused. -/
def twoBatchCalls : List (Address × Call ℕ) :=
  [(4, .execute 1 [10] [6] [twoBatchLeaves.1]), (4, .execute 1 [10] [6] [twoBatchLeaves.1]),
    (3, .setPaused true), (4, .execute 0 [10, 11] [4, 5] [twoBatchLeaves.2])]

def twoBatchStart : State ℕ :=
  ⟨4, false, 0, 0, Bitmap.empty, twoBatchLedger, [.executorChanged 0 4]⟩

theorem airdrop_run_invariant_two_batches :
    Distributes twoBatchConfig twoBatches
        (run plainTokens twoBatchConfig Hash.nat twoBatchStart twoBatchCalls) ∧
      (run plainTokens twoBatchConfig Hash.nat twoBatchStart twoBatchCalls).distributedAmount = 6 := by
  obtain ⟨ls, lv, r, hls, hlv, hr, h⟩ := airdrop_run_invariant Hash.nat twoBatches (by decide) (by decide)
  have hls' : leaves Hash.nat twoBatches = .ok [twoBatchLeaves.1, twoBatchLeaves.2] := rfl
  obtain rfl := Except.ok.inj (hls.symm.trans hls')
  have hlv' : treeLevels (hashPair Hash.nat) [twoBatchLeaves.1, twoBatchLeaves.2] =
      .ok [[twoBatchLeaves.1, twoBatchLeaves.2], [twoBatchRoot]] := rfl
  obtain rfl := Except.ok.inj (hlv.symm.trans hlv')
  obtain rfl := Option.some.inj hr
  exact ⟨(h 2 7 1 3 4 2 15 twoBatchLedger twoBatchConfig twoBatchStart rfl rfl rfl plainTokens
    twoBatchCalls).1, by decide⟩

end HarmonyMigration.Airdrop
