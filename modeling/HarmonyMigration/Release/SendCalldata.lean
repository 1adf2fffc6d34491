import HarmonyMigration.Lib.Runs

/-! `send_calldata.py`: runs that send one calldata file, each resumed from a log of
confirmed transactions. A run may stop after any step; what it broadcast is mined later. -/

namespace HarmonyMigration.SendCalldata

/-- One line of `<file>.sent.json`. A transaction's place among the sender's stands for its hash. -/
structure Entry where
  index : ℕ
  txHash : ℕ
  nonce : ℕ
  deriving DecidableEq, Repr

/-- What the chain sees of the file's transactions. -/
inductive Event where
  | sent (index : ℕ)
  | mined (index : ℕ) (ok : Bool)
  deriving DecidableEq, Repr

/-- Where a run of the script is. -/
inductive Phase where
  | loaded
  | receiptChecked
  | minedRead (mined : ℕ)
  | next (i : ℕ)
  | simulated (i : ℕ)
  | waiting (i txHash : ℕ)
  | confirmed (i txHash : ℕ)
  deriving DecidableEq, Repr

structure Proc where
  log : List Entry
  phase : Phase
  deriving DecidableEq, Repr

/-- The file's length, the sender's first nonce, the chain's view, the log on disk, and the
run in progress. -/
structure State where
  txs : ℕ
  base : ℕ
  trace : List Event
  log : List Entry
  proc : Option Proc
  deriving DecidableEq, Repr

def init (txs base : ℕ) : State := ⟨txs, base, [], [], none⟩

/-- The transactions the sender broadcast, in nonce order. -/
def sentTxs (trace : List Event) : List ℕ :=
  trace.filterMap fun | .sent i => some i | .mined _ _ => none

/-- The mined ones, in nonce order, with their receipts' status. -/
def minedTxs (trace : List Event) : List (ℕ × Bool) :=
  trace.filterMap fun | .sent _ => none | .mined i ok => some (i, ok)

inductive Action where
  | start | checkReceipt | readMined | readPending
  | simulate (ok : Bool)
  | broadcast | receipt | append
  | stop
  | mine (ok : Bool)
  deriving DecidableEq, Repr

/-- The run ends: it is finished, refuses, fails or is killed. -/
def State.halt (s : State) : State := { s with proc := none }

def State.goto (s : State) (log : List Entry) (phase : Phase) : State := { s with proc := some ⟨log, phase⟩ }

/-- The nonce check of `main`: nothing pending, and nothing sent after the last logged one. -/
def mayResume (log : List Entry) (mined pending : ℕ) : Bool :=
  pending = mined && log.getLast?.all fun last => mined = last.nonce + 1

def procStep (s : State) (log : List Entry) : Phase → Action → Option State
  | .loaded, .checkReceipt => match log.getLast? with
    | none => some (s.goto log .receiptChecked)
    | some last => match (minedTxs s.trace)[last.txHash]? with
      | some (_, true) => some (s.goto log .receiptChecked)
      | _ => some s.halt
  | .receiptChecked, .readMined => some (s.goto log (.minedRead (s.base + (minedTxs s.trace).length)))
  | .minedRead mined, .readPending =>
    let pending := s.base + (sentTxs s.trace).length
    if ¬mayResume log mined pending then some s.halt
    else if log.length = s.txs then some s.halt
    else some (s.goto log (.next log.length))
  | .next i, .simulate ok => if ok then some (s.goto log (.simulated i)) else some s.halt
  | .simulated i, .broadcast =>
    some { s.goto log (.waiting i (sentTxs s.trace).length) with trace := s.trace ++ [.sent i] }
  | .waiting i txHash, .receipt => match (minedTxs s.trace)[txHash]? with
    | some (_, true) => some (s.goto log (.confirmed i txHash))
    | some (_, false) => some s.halt
    | none => none
  | .confirmed i txHash, .append =>
    let log := log ++ [⟨i, txHash, s.base + txHash⟩]
    let saved := { s with log }
    some (if i + 1 < s.txs then saved.goto log (.next (i + 1)) else saved.halt)
  | _, _ => none

def step (s : State) : Action → Option State
  | .start => if s.proc = none then some (s.goto s.log .loaded) else none
  | .stop => if s.proc = none then none else some s.halt
  | .mine ok => match (sentTxs s.trace)[(minedTxs s.trace).length]? with
    | some i => some { s with trace := s.trace ++ [.mined i ok] }
    | none => none
  | a => match s.proc with
    | some p => procStep s p.log p.phase a
    | none => none

/-- No transaction is broadcast before the one ahead of it in the file succeeded. -/
def Ordered (trace : List Event) : Prop :=
  ∀ a i b, trace = a ++ .sent (i + 1) :: b → .mined i true ∈ a

/-- The step is not the nonce check of a run with an empty log after something was sent. -/
def Clean (s : State) (a : Action) : Prop :=
  a = .readPending → s.proc.map Proc.log = some [] → sentTxs s.trace = []

instance (s : State) (a : Action) : Decidable (Clean s a) := by unfold Clean; infer_instance

/-! ### Invariant -/

@[simp] theorem sentTxs_sent (t : List Event) (i : ℕ) : sentTxs (t ++ [.sent i]) = sentTxs t ++ [i] := by
  simp [sentTxs]

@[simp] theorem sentTxs_mined (t : List Event) (i : ℕ) (ok : Bool) :
    sentTxs (t ++ [.mined i ok]) = sentTxs t := by
  simp [sentTxs]

@[simp] theorem minedTxs_sent (t : List Event) (i : ℕ) : minedTxs (t ++ [.sent i]) = minedTxs t := by
  simp [minedTxs]

@[simp] theorem minedTxs_mined (t : List Event) (i : ℕ) (ok : Bool) :
    minedTxs (t ++ [.mined i ok]) = minedTxs t ++ [(i, ok)] := by
  simp [minedTxs]

theorem mem_of_mem_minedTxs {t : List Event} {i : ℕ} {ok : Bool} (h : (i, ok) ∈ minedTxs t) :
    .mined i ok ∈ t := by
  obtain ⟨e, he, hi⟩ := List.mem_filterMap.mp h
  cases e with
  | sent j => cases hi
  | mined j ok' => cases hi; exact he

theorem ordered_snoc {t : List Event} {e : Event} (h : Ordered t)
    (he : ∀ i, e = .sent (i + 1) → .mined i true ∈ t) : Ordered (t ++ [e]) := by
  intro a i b hab
  rcases List.eq_nil_or_concat b with rfl | ⟨b', x, rfl⟩
  · obtain ⟨rfl, hx⟩ := List.append_inj' hab rfl
    exact he i (List.cons.inj hx).1
  · have hab' : t ++ [e] = (a ++ .sent (i + 1) :: b') ++ [x] := by rw [hab]; simp
    exact h a i b' (List.append_inj' hab' rfl).1

/-- The log of the first `n` transactions. -/
def fullLog (base n : ℕ) : List Entry := (List.range n).map fun j => ⟨j, j, base + j⟩

/-- What the run in progress relies on. -/
def Phase.Ok (s : State) (n : ℕ) : Phase → Prop
  | .loaded | .receiptChecked => True
  | .minedRead mined => mined ≤ s.base + (minedTxs s.trace).length
  | .next i | .simulated i => i = n ∧ (sentTxs s.trace).length = n
  | .waiting i txHash => i = n ∧ txHash = n ∧ (sentTxs s.trace).length = n + 1
  | .confirmed i txHash =>
    i = n ∧ txHash = n ∧ (sentTxs s.trace).length = n + 1 ∧ (minedTxs s.trace)[n]? = some (n, true)

/-- The log holds the first `n` transactions, all successful; at most one more was sent. -/
structure Inv (s : State) (n : ℕ) : Prop where
  log : s.log = fullLog s.base n
  sent : sentTxs s.trace = List.range (sentTxs s.trace).length
  sent_le : (sentTxs s.trace).length ≤ n + 1
  mined : (minedTxs s.trace).map Prod.fst = List.range (minedTxs s.trace).length
  logged : ∀ j < n, (minedTxs s.trace)[j]? = some (j, true)
  ordered : Ordered s.trace
  procLog : ∀ p, s.proc = some p → p.log = s.log
  phase : ∀ p, s.proc = some p → p.phase.Ok s n

theorem fullLog_getLast? (base n : ℕ) :
    (fullLog base n).getLast? = if n = 0 then none else some ⟨n - 1, n - 1, base + (n - 1)⟩ := by
  cases n with
  | zero => rfl
  | succ n => simp [fullLog, List.range_succ]

theorem Inv.halt {s : State} {n : ℕ} (h : Inv s n) : Inv s.halt n :=
  { h with procLog := by simp [State.halt], phase := by simp [State.halt] }

theorem Inv.goto {s : State} {n : ℕ} (h : Inv s n) {phase : Phase} (hp : phase.Ok s n) :
    Inv (s.goto s.log phase) n :=
  { h with
    procLog := by rintro p ⟨⟩; rfl
    phase := by
      rintro p ⟨⟩
      cases phase <;> exact hp }

/-- The check passes only when everything sent is in the log. -/
theorem Inv.mayResume {s : State} {n mined : ℕ} (h : Inv s n)
    (hempty : s.log = [] → sentTxs s.trace = [])
    (hr : mayResume s.log mined (s.base + (sentTxs s.trace).length) = true) :
    (sentTxs s.trace).length = n := by
  simp only [SendCalldata.mayResume, Bool.and_eq_true, decide_eq_true_eq, h.log, fullLog_getLast?] at hr
  obtain ⟨hpend, hlast⟩ := hr
  by_cases hn : n = 0
  · have hnil : s.log = [] := by rw [h.log, hn]; rfl
    rw [hempty hnil, hn]
    rfl
  · simp only [hn, if_false, Option.all_some, decide_eq_true_eq] at hlast
    omega

theorem Inv.broadcast {s : State} {n : ℕ} (h : Inv s n) (hs : (sentTxs s.trace).length = n) :
    Inv { s.goto s.log (.waiting n n) with trace := s.trace ++ [.sent n] } n where
  log := h.log
  sent := by
    rw [sentTxs_sent, List.length_append, List.length_singleton, List.range_succ, ← h.sent, hs]
  sent_le := by simp [hs]
  mined := by simpa using h.mined
  logged := by simpa using h.logged
  ordered := by
    refine ordered_snoc h.ordered fun i hi => ?_
    obtain rfl : n = i + 1 := Event.sent.inj hi
    exact mem_of_mem_minedTxs (List.mem_of_getElem? (h.logged i (by omega)))
  procLog := by rintro p ⟨⟩; rfl
  phase := by
    rintro p ⟨⟩
    exact ⟨rfl, rfl, by simp [hs]⟩

theorem Inv.append {s : State} {n : ℕ} (h : Inv s n) (hs : (sentTxs s.trace).length = n + 1)
    (hm : (minedTxs s.trace)[n]? = some (n, true)) :
    Inv { s with log := s.log ++ [⟨n, n, s.base + n⟩], proc := none } (n + 1) where
  log := by simp [h.log, fullLog, List.range_succ]
  sent := h.sent
  sent_le := by rw [hs]; omega
  mined := h.mined
  logged := by
    intro j hj
    rcases Nat.lt_succ_iff_lt_or_eq.mp hj with hj | rfl
    · exact h.logged j hj
    · exact hm
  ordered := h.ordered
  procLog := by simp
  phase := by simp

theorem Inv.mine {s : State} {n i : ℕ} (h : Inv s n) (ok : Bool)
    (hi : (sentTxs s.trace)[(minedTxs s.trace).length]? = some i) :
    Inv { s with trace := s.trace ++ [.mined i ok] } n := by
  have hidx : i = (minedTxs s.trace).length := by
    rw [h.sent, List.getElem?_eq_some_iff] at hi
    obtain ⟨_, he⟩ := hi
    simpa using he.symm
  have hkeep : ∀ (j : ℕ) v, (minedTxs s.trace)[j]? = some v →
      (minedTxs (s.trace ++ [.mined i ok]))[j]? = some v := by
    intro j v hj
    rw [minedTxs_mined, List.getElem?_append_left (List.getElem?_eq_some_iff.mp hj).1]
    exact hj
  exact {
    log := h.log
    sent := by simpa using h.sent
    sent_le := by simpa using h.sent_le
    mined := by
      rw [minedTxs_mined, List.map_append, List.length_append, List.length_singleton, List.range_succ,
        ← h.mined, ← hidx]
      rfl
    logged := fun j hj => hkeep _ _ (h.logged j hj)
    ordered := ordered_snoc h.ordered fun j hj => by cases hj
    procLog := h.procLog
    phase := by
      intro p hp
      have := h.phase p hp
      revert this
      cases p.phase with
      | loaded | receiptChecked => exact fun _ => trivial
      | minedRead m => simp only [Phase.Ok, minedTxs_mined, List.length_append]; omega
      | next j | simulated j => simp [Phase.Ok]
      | waiting j t => simp [Phase.Ok]
      | confirmed j t =>
        rintro ⟨h1, h2, h3, h4⟩
        exact ⟨h1, h2, by simpa using h3, hkeep _ _ h4⟩ }

theorem Inv.procStep {s s' : State} {n : ℕ} {phase : Phase} {a : Action} (h : Inv s n)
    (hp : phase.Ok s n) (hc : a = .readPending → s.log = [] → sentTxs s.trace = [])
    (hs : procStep s s.log phase a = some s') : ∃ m, Inv s' m := by
  cases phase with
  | loaded =>
    cases a <;> simp only [SendCalldata.procStep, reduceCtorEq] at hs
    split at hs
    · cases hs; exact ⟨n, h.goto trivial⟩
    · split at hs <;> cases hs
      · exact ⟨n, h.goto trivial⟩
      · exact ⟨n, h.halt⟩
  | receiptChecked =>
    cases a <;> simp only [SendCalldata.procStep, reduceCtorEq] at hs
    cases hs
    exact ⟨n, h.goto le_rfl⟩
  | minedRead mined =>
    cases a <;> simp only [SendCalldata.procStep, reduceCtorEq] at hs
    by_cases hr : SendCalldata.mayResume s.log mined (s.base + (sentTxs s.trace).length) = true
    · rw [if_neg (not_not.mpr hr)] at hs
      have hlen : s.log.length = n := by simp [h.log, fullLog]
      split_ifs at hs
      · cases hs; exact ⟨n, h.halt⟩
      · cases hs
        have hnext : (Phase.next s.log.length).Ok s n := ⟨hlen, h.mayResume (hc rfl) hr⟩
        exact ⟨n, h.goto hnext⟩
    · rw [if_pos hr] at hs
      cases hs
      exact ⟨n, h.halt⟩
  | next i =>
    cases a <;> simp only [SendCalldata.procStep, reduceCtorEq] at hs
    split_ifs at hs
    · cases hs; exact ⟨n, h.goto hp⟩
    · cases hs; exact ⟨n, h.halt⟩
  | simulated i =>
    cases a <;> simp only [SendCalldata.procStep, reduceCtorEq] at hs
    obtain ⟨rfl, hsent⟩ := hp
    cases hs
    rw [hsent]
    exact ⟨_, h.broadcast hsent⟩
  | waiting i txHash =>
    cases a <;> simp only [SendCalldata.procStep, reduceCtorEq] at hs
    obtain ⟨rfl, rfl, hsent⟩ := hp
    split at hs
    · rename_i j hm
      cases hs
      refine ⟨_, h.goto ⟨rfl, rfl, hsent, ?_⟩⟩
      have hj := congrArg (Option.map Prod.fst) hm
      rw [← List.getElem?_map, h.mined] at hj
      obtain ⟨_, he⟩ := List.getElem?_eq_some_iff.mp hj
      rw [List.getElem_range] at he
      rw [hm, he]
    · cases hs; exact ⟨_, h.halt⟩
    · cases hs
  | confirmed i txHash =>
    cases a <;> simp only [SendCalldata.procStep, reduceCtorEq] at hs
    obtain ⟨rfl, rfl, hsent, hm⟩ := hp
    have hnext := h.append hsent hm
    cases hs
    split_ifs
    · exact ⟨_, hnext.goto (show (Phase.next _).Ok _ _ from ⟨rfl, hsent⟩)⟩
    · exact ⟨_, hnext.halt⟩

theorem Inv.step {s s' : State} {n : ℕ} {a : Action} (h : Inv s n) (hc : Clean s a)
    (hs : step s a = some s') : ∃ m, Inv s' m := by
  have hproc : ∀ p, s.proc = some p → SendCalldata.procStep s p.log p.phase a = some s' →
      ∃ m, Inv s' m := by
    intro p hp hps
    have hlog := h.procLog p hp
    exact h.procStep (h.phase p hp) (fun ha hnil => hc ha (by simp [hp, hlog, hnil])) (hlog ▸ hps)
  cases a with
  | start =>
    simp only [SendCalldata.step] at hs
    split_ifs at hs
    cases hs
    exact ⟨n, h.goto trivial⟩
  | stop =>
    simp only [SendCalldata.step] at hs
    split_ifs at hs
    cases hs
    exact ⟨n, h.halt⟩
  | mine ok =>
    simp only [SendCalldata.step] at hs
    split at hs
    · cases hs; exact ⟨n, h.mine ok ‹_›⟩
    · cases hs
  | _ =>
    simp only [SendCalldata.step] at hs
    split at hs
    · exact hproc _ ‹_› hs
    · cases hs

theorem inv_init (txs base : ℕ) : Inv (init txs base) 0 where
  log := rfl
  sent := rfl
  sent_le := Nat.zero_le _
  mined := rfl
  logged := by simp
  ordered := by intro a i b h; cases a <;> simp [init] at h
  procLog := by simp [init]
  phase := by simp [init]

/-- In every sequence of runs in which no run passes from an empty log over transactions
already sent, each transaction is mined at most once, and none is sent before the one ahead
of it succeeded. -/
theorem sends_once_in_order {txs base : ℕ} {s : State}
    (h : Runs.Reach step Clean (init txs base) s) :
    ((minedTxs s.trace).map Prod.fst).Nodup ∧ Ordered s.trace := by
  obtain ⟨n, hn⟩ := h.invariant (I := fun t => ∃ n, Inv t n) ⟨0, inv_init txs base⟩
    fun t a u ⟨_, ht⟩ hc hu => ht.step hc hu
  exact ⟨hn.mined ▸ List.nodup_range, hn.ordered⟩

/-- Two transactions sent and logged in one run. -/
def oneRun : List Action :=
  [.start, .checkReceipt, .readMined, .readPending, .simulate true, .broadcast, .mine true, .receipt,
    .append, .simulate true, .broadcast, .mine true, .receipt, .append]

/-- A run killed between the mining of transaction 0 and its log entry, and a second run. -/
def killedRun : List Action :=
  [.start, .checkReceipt, .readMined, .readPending, .simulate true, .broadcast, .mine true, .stop,
    .start, .checkReceipt, .readMined, .readPending, .simulate true, .broadcast, .mine true]

theorem sends_once_in_order_oneRun :
    ∃ s, Runs.run step (init 2 7) oneRun = some s ∧
      minedTxs s.trace = [(0, true), (1, true)] ∧
      ((minedTxs s.trace).map Prod.fst).Nodup ∧ Ordered s.trace := by
  have hg : Runs.guardedRun step Clean (init 2 7) oneRun = Runs.run step (init 2 7) oneRun := by decide
  cases hr : Runs.run step (init 2 7) oneRun with
  | none => exact absurd hr (by decide)
  | some s =>
    have hs : minedTxs ((Runs.run step (init 2 7) oneRun).getD (init 2 7)).trace =
        [(0, true), (1, true)] := by decide
    exact ⟨s, rfl, by simpa [hr] using hs,
      sends_once_in_order (Runs.reach_of_guardedRun .refl (hg.trans hr))⟩

/-- After the kill the log is empty, nothing is checked against it, and transaction 0 is
mined twice. -/
theorem killedRun_sends_twice :
    ∃ s, Runs.run step (init 2 7) killedRun = some s ∧
      minedTxs s.trace = [(0, true), (0, true)] ∧ ¬((minedTxs s.trace).map Prod.fst).Nodup :=
  ⟨_, rfl, rfl, by decide⟩

end HarmonyMigration.SendCalldata
