import HarmonyMigration.Archive.ArchiveLib

/-! `internal_transfers` of `archive_lib.py`: the value that the frames of a block move, and which of it a failed frame
takes back. -/

namespace HarmonyMigration.Archive

open Airdrop.One1 Decimal

/-! ### The source's functions -/

/-- The action of a frame. An address that is missing is blank, a missing amount zero, a missing `callType` `call`. -/
inductive FrameAction
  | call (callType sender recipient : Text) (value : ℕ)
  | create (sender created : Text) (value : ℕ)
  | suicide (account refundAddress : Text) (balance : ℕ)
  | other
  deriving DecidableEq

structure TransferFrame where
  action : FrameAction
  error : Bool
  traceAddress : List ℕ
  transactionPosition : ℕ
  transactionHash : Text
  deriving DecidableEq

/-- Kind, sender, recipient and amount. -/
structure Transfer where
  kind : Text
  sender : Text
  recipient : Text
  value : ℕ
  deriving DecidableEq

def frameTransfer : FrameAction → Option Transfer
  | .call callType sender recipient value =>
    if callType = "delegatecall".toList ∨ callType = "staticcall".toList then some ⟨callType, sender, recipient, 0⟩
    else some ⟨callType, sender, recipient, value⟩
  | .create sender created value => some ⟨"create".toList, sender, created, value⟩
  | .suicide account refundAddress balance => some ⟨"selfdestruct".toList, account, refundAddress, balance⟩
  | .other => none

/-- `reverted_paths` at one transaction position. -/
def erroredPaths (frames : List TransferFrame) (position : ℕ) : List (List ℕ) :=
  (frames.filter fun frame => frame.error ∧ frame.transactionPosition = position).map TransferFrame.traceAddress

/-- `".".join(str(item) for item in path)`. -/
def pathText (path : List ℕ) : Text := List.intercalate ['.'] (path.map Decimal.render)

/-- A row of `internal_transfers`, but for `effective`. -/
structure Moved where
  txIndex : ℕ
  ethHash : Text
  traceAddress : Text
  type : Text
  sender : Text
  recipient : Text
  valueAtto : ℕ
  deriving DecidableEq

structure TransferRow where
  moved : Moved
  effective : Bool
  deriving DecidableEq

/-- The counters of the frames and of those that move value. -/
structure TransferCounters where
  frames : ℕ
  internalValueGt0 : ℕ
  deriving DecidableEq

section Transfers

variable (u : Lower)

/-- What a frame below the root moves. -/
def frameMoved (frame : TransferFrame) : Option Moved :=
  if frame.traceAddress = [] then none
  else
    match frameTransfer frame.action with
    | none => none
    | some transfer =>
      if transfer.value = 0 then none
      else some
        { txIndex := frame.transactionPosition, ethHash := frame.transactionHash,
          traceAddress := pathText frame.traceAddress, type := transfer.kind, sender := u.lower transfer.sender,
          recipient := u.lower transfer.recipient, valueAtto := transfer.value }

def movedRow (frames : List TransferFrame) (frame : TransferFrame) : Option TransferRow :=
  (frameMoved u frame).map fun moved =>
    ⟨moved, !hasRevertedAncestor frame.traceAddress (erroredPaths frames frame.transactionPosition) true⟩

def internalTransfers (frames : List TransferFrame) : List TransferRow × TransferCounters :=
  let rows := frames.filterMap (movedRow u frames)
  (rows, ⟨frames.length, rows.length⟩)

end Transfers

/-! ### Transactions as trees -/

/-- What a frame does, and whether it failed. -/
structure Step where
  action : FrameAction
  error : Bool
  deriving DecidableEq

/-- The calls of a frame in order, each with its own calls. -/
inductive Calls
  | nil
  | cons (step : Step) (inner later : Calls)

/-- A transaction: its root frame and the calls under it. -/
structure TransactionTree where
  position : ℕ
  hash : Text
  root : Step
  calls : Calls

section Trees

variable (u : Lower)

def frameAt (position : ℕ) (hash : Text) (path : List ℕ) (step : Step) : TransferFrame :=
  ⟨step.action, step.error, path, position, hash⟩

/-- The frames of calls under `path`, the first of which has the index `i`. -/
def Calls.frames (position : ℕ) (hash : Text) : List ℕ → ℕ → Calls → List TransferFrame
  | _, _, .nil => []
  | path, i, .cons step inner later =>
    frameAt position hash (path ++ [i]) step ::
      (Calls.frames position hash (path ++ [i]) 0 inner ++ Calls.frames position hash path (i + 1) later)

def TransactionTree.frames (tx : TransactionTree) : List TransferFrame :=
  frameAt tx.position tx.hash [] tx.root :: tx.calls.frames tx.position tx.hash [] 0

/-- What a frame below the root moves by itself. -/
def ownMoves (position : ℕ) (hash : Text) (path : List ℕ) (step : Step) : List Moved :=
  (frameMoved u (frameAt position hash path step)).toList

/-- All positive moves of the calls, failed or not. -/
def Calls.allMoves (position : ℕ) (hash : Text) : List ℕ → ℕ → Calls → List Moved
  | _, _, .nil => []
  | path, i, .cons step inner later =>
    ownMoves u position hash (path ++ [i]) step ++
      (Calls.allMoves position hash (path ++ [i]) 0 inner ++ Calls.allMoves position hash path (i + 1) later)

/-- The effect of the calls: a failed call undoes its own moves and those of the calls in it. -/
def Calls.effect (position : ℕ) (hash : Text) : List ℕ → ℕ → Calls → List Moved
  | _, _, .nil => []
  | path, i, .cons step inner later =>
    (if step.error then [] else ownMoves u position hash (path ++ [i]) step ++
      Calls.effect position hash (path ++ [i]) 0 inner) ++ Calls.effect position hash path (i + 1) later

/-- The moves that failed calls undo. -/
def Calls.undone (position : ℕ) (hash : Text) : List ℕ → ℕ → Calls → List Moved
  | _, _, .nil => []
  | path, i, .cons step inner later =>
    (if step.error then ownMoves u position hash (path ++ [i]) step ++
      Calls.allMoves u position hash (path ++ [i]) 0 inner
      else Calls.undone position hash (path ++ [i]) 0 inner) ++ Calls.undone position hash path (i + 1) later

/-- The effect of a transaction below its root frame, which undoes everything when it fails. -/
def TransactionTree.effect (tx : TransactionTree) : List Moved :=
  if tx.root.error then [] else tx.calls.effect u tx.position tx.hash [] 0

def TransactionTree.undone (tx : TransactionTree) : List Moved :=
  if tx.root.error then tx.calls.allMoves u tx.position tx.hash [] 0 else tx.calls.undone u tx.position tx.hash [] 0

/-! ### Paths -/

variable {position i : ℕ} {hash : Text} {path : List ℕ} {calls : Calls} {frame : TransferFrame}

theorem exists_index_of_mem (h : frame ∈ calls.frames position hash path i) :
    ∃ j, i ≤ j ∧ path ++ [j] <+: frame.traceAddress := by
  induction calls generalizing path i with
  | nil => cases h
  | cons step inner later hinner hlater =>
    rw [Calls.frames, List.mem_cons, List.mem_append] at h
    rcases h with rfl | h | h
    · exact ⟨i, le_rfl, List.prefix_rfl⟩
    · obtain ⟨j, -, hj⟩ := hinner h
      exact ⟨i, le_rfl, (List.prefix_append _ _).trans hj⟩
    · obtain ⟨j, hij, hj⟩ := hlater h
      exact ⟨j, by omega, hj⟩

theorem position_of_mem (h : frame ∈ calls.frames position hash path i) : frame.transactionPosition = position := by
  induction calls generalizing path i with
  | nil => cases h
  | cons step inner later hinner hlater =>
    rw [Calls.frames, List.mem_cons, List.mem_append] at h
    rcases h with rfl | h | h
    · rfl
    · exact hinner h
    · exact hlater h

/-- Two indices after one path do not lead to one path. -/
theorem index_eq_of_prefix {j k : ℕ} {q : List ℕ} (hj : path ++ [j] <+: q) (hk : path ++ [k] <+: q) : j = k := by
  have hlen : (path ++ [j]).length = (path ++ [k]).length := by simp
  have heq := (List.prefix_of_prefix_length_le hj hk hlen.le).eq_of_length hlen
  simpa using heq

theorem hasRevertedAncestor_iff {errored : List (List ℕ)} :
    hasRevertedAncestor path errored true = true ↔ ∃ r, r <+: path ∧ r ∈ errored := by
  rw [hasRevertedAncestor, List.any_eq_true]
  simp only [List.mem_range, if_true, decide_eq_true_eq]
  constructor
  · rintro ⟨k, -, hk⟩
    exact ⟨_, List.take_prefix k path, hk⟩
  · rintro ⟨r, hr, hmem⟩
    refine ⟨r.length, by have := hr.length_le; omega, ?_⟩
    rwa [← List.prefix_iff_eq_take.mp hr]

/-! ### The rows of one transaction -/

/-- The row of a frame among frames that failed at `errored`. -/
def rowAmong (errored : List (List ℕ)) (frame : TransferFrame) : Option TransferRow :=
  (frameMoved u frame).map fun moved => ⟨moved, !hasRevertedAncestor frame.traceAddress errored true⟩

/-- The moves of the calls, with the mark that no frame above them or with them failed. -/
def Calls.marked (position : ℕ) (hash : Text) : Bool → List ℕ → ℕ → Calls → List TransferRow
  | _, _, _, .nil => []
  | dead, path, i, .cons step inner later =>
    (ownMoves u position hash (path ++ [i]) step).map (⟨·, !(dead || step.error)⟩) ++
      (Calls.marked position hash (dead || step.error) (path ++ [i]) 0 inner ++
        Calls.marked position hash dead path (i + 1) later)

/-- The failed paths are those of the calls, and the ancestors of the calls have failed or not. -/
structure Covers (errored : List (List ℕ)) (position : ℕ) (hash : Text) (dead : Bool) (path : List ℕ) (i : ℕ)
    (calls : Calls) : Prop where
  below : ∀ q j, i ≤ j → path ++ [j] <+: q →
    (q ∈ errored ↔ ∃ frame ∈ calls.frames position hash path i, frame.error = true ∧ frame.traceAddress = q)
  above : dead = true ↔ ∃ r, r <+: path ∧ r ∈ errored

section Covers

variable {errored : List (List ℕ)} {dead : Bool} {step : Step} {inner later : Calls}

/-- The call itself is among the failed paths just where it failed. -/
theorem Covers.self (h : Covers errored position hash dead path i (.cons step inner later)) :
    path ++ [i] ∈ errored ↔ step.error = true := by
  rw [h.below _ i le_rfl List.prefix_rfl]
  constructor
  · rintro ⟨frame, hmem, herror, hpath⟩
    rw [Calls.frames, List.mem_cons, List.mem_append] at hmem
    rcases hmem with rfl | hmem | hmem
    · exact herror
    · obtain ⟨j, -, hj⟩ := exists_index_of_mem hmem
      have hlen := hj.length_le
      rw [hpath] at hlen
      simp at hlen
    · obtain ⟨j, hij, hj⟩ := exists_index_of_mem hmem
      rw [hpath] at hj
      have heq := index_eq_of_prefix hj List.prefix_rfl
      omega
  · intro herror
    exact ⟨_, List.mem_cons_self, herror, rfl⟩

theorem Covers.dead_iff (h : Covers errored position hash dead path i (.cons step inner later)) :
    (dead || step.error) = true ↔ ∃ r, r <+: path ++ [i] ∧ r ∈ errored := by
  rw [Bool.or_eq_true, h.above, ← h.self]
  constructor
  · rintro (⟨r, hr, hmem⟩ | hmem)
    · exact ⟨r, hr.trans (List.prefix_append _ _), hmem⟩
    · exact ⟨_, List.prefix_rfl, hmem⟩
  · rintro ⟨r, hr, hmem⟩
    rcases List.prefix_concat_iff.mp hr with rfl | hr
    · exact .inr hmem
    · exact .inl ⟨r, hr, hmem⟩

theorem Covers.of_cons_inner (h : Covers errored position hash dead path i (.cons step inner later)) :
    Covers errored position hash (dead || step.error) (path ++ [i]) 0 inner := by
  refine ⟨fun q j _ hq => ?_, h.dead_iff⟩
  have hi : path ++ [i] <+: q := (List.prefix_append _ _).trans hq
  rw [h.below q i le_rfl hi]
  constructor
  · rintro ⟨frame, hmem, herror, rfl⟩
    rw [Calls.frames, List.mem_cons, List.mem_append] at hmem
    rcases hmem with rfl | hmem | hmem
    · have hlen := hq.length_le
      simp [frameAt] at hlen
    · exact ⟨frame, hmem, herror, rfl⟩
    · obtain ⟨k, hik, hk⟩ := exists_index_of_mem hmem
      have heq := index_eq_of_prefix hk hi
      omega
  · rintro ⟨frame, hmem, herror, hpath⟩
    exact ⟨frame, List.mem_cons_of_mem _ (List.mem_append_left _ hmem), herror, hpath⟩

theorem Covers.of_cons_later (h : Covers errored position hash dead path i (.cons step inner later)) :
    Covers errored position hash dead path (i + 1) later := by
  refine ⟨fun q j hj hq => ?_, h.above⟩
  rw [h.below q j (by omega) hq]
  constructor
  · rintro ⟨frame, hmem, herror, rfl⟩
    rw [Calls.frames, List.mem_cons, List.mem_append] at hmem
    rcases hmem with rfl | hmem | hmem
    · have heq := index_eq_of_prefix hq List.prefix_rfl
      omega
    · obtain ⟨k, -, hk⟩ := exists_index_of_mem hmem
      have heq := index_eq_of_prefix hq ((List.prefix_append _ _).trans hk)
      omega
    · exact ⟨frame, hmem, herror, rfl⟩
  · rintro ⟨frame, hmem, herror, hpath⟩
    exact ⟨frame, List.mem_cons_of_mem _ (List.mem_append_right _ hmem), herror, hpath⟩

theorem Covers.hasRevertedAncestor (h : Covers errored position hash dead path i (.cons step inner later)) :
    hasRevertedAncestor (path ++ [i]) errored true = (dead || step.error) := by
  rw [Bool.eq_iff_iff, hasRevertedAncestor_iff, h.dead_iff]

theorem Covers.rows (h : Covers errored position hash dead path i calls) :
    (calls.frames position hash path i).filterMap (rowAmong u errored) = calls.marked u position hash dead path i := by
  induction calls generalizing dead path i with
  | nil => rfl
  | cons step inner later hinner hlater =>
    have hself : (rowAmong u errored (frameAt position hash (path ++ [i]) step)).toList =
        (ownMoves u position hash (path ++ [i]) step).map (⟨·, !(dead || step.error)⟩) := by
      rw [rowAmong, ownMoves, Option.toList_map]
      simp only [frameAt, h.hasRevertedAncestor]
    rw [Calls.frames, Calls.marked, List.filterMap_cons, List.filterMap_append, hinner h.of_cons_inner, hlater h.of_cons_later, ← hself]
    cases rowAmong u errored (frameAt position hash (path ++ [i]) step) <;> rfl

end Covers

/-! ### The marks are the rollback of the tree -/

/-- The moves of the rows that count, and of those that do not. -/
def effectiveMoves (rows : List TransferRow) : List Moved := (rows.filter (·.effective)).map (·.moved)

def revertedMoves (rows : List TransferRow) : List Moved := (rows.filter (!·.effective)).map (·.moved)

theorem effectiveMoves_append (xs ys : List TransferRow) :
    effectiveMoves (xs ++ ys) = effectiveMoves xs ++ effectiveMoves ys := by
  rw [effectiveMoves, List.filter_append, List.map_append]
  rfl

theorem revertedMoves_append (xs ys : List TransferRow) :
    revertedMoves (xs ++ ys) = revertedMoves xs ++ revertedMoves ys := by
  rw [revertedMoves, List.filter_append, List.map_append]
  rfl

theorem effectiveMoves_map (moves : List Moved) (dead : Bool) :
    effectiveMoves (moves.map (⟨·, !dead⟩)) = if dead then [] else moves := by
  induction moves with
  | nil => cases dead <;> rfl
  | cons m moves ih => cases dead <;> simp_all [effectiveMoves]

theorem revertedMoves_map (moves : List Moved) (dead : Bool) :
    revertedMoves (moves.map (⟨·, !dead⟩)) = if dead then moves else [] := by
  induction moves with
  | nil => cases dead <;> rfl
  | cons m moves ih => cases dead <;> simp_all [revertedMoves]

theorem effectiveMoves_marked (dead : Bool) : effectiveMoves (calls.marked u position hash dead path i) =
    if dead then [] else calls.effect u position hash path i := by
  induction calls generalizing dead path i with
  | nil => cases dead <;> rfl
  | cons step inner later hinner hlater =>
    rw [Calls.marked, effectiveMoves_append, effectiveMoves_append, effectiveMoves_map, hinner, hlater, Calls.effect]
    cases dead <;> cases step.error <;> simp

theorem revertedMoves_marked (dead : Bool) : revertedMoves (calls.marked u position hash dead path i) =
    if dead then calls.allMoves u position hash path i else calls.undone u position hash path i := by
  induction calls generalizing dead path i with
  | nil => cases dead <;> rfl
  | cons step inner later hinner hlater =>
    rw [Calls.marked, revertedMoves_append, revertedMoves_append, revertedMoves_map, hinner, hlater, Calls.allMoves,
      Calls.undone]
    cases dead <;> cases step.error <;> simp

end Trees

/-! ### Blocks -/

section Blocks

variable (u : Lower) {txs : List TransactionTree} {frames : List TransferFrame} {tx : TransactionTree}

theorem mem_erroredPaths {q : List ℕ} {position : ℕ} : q ∈ erroredPaths frames position ↔
    ∃ frame ∈ frames, frame.error = true ∧ frame.transactionPosition = position ∧ frame.traceAddress = q := by
  rw [erroredPaths, List.mem_map]
  constructor
  · rintro ⟨frame, hmem, rfl⟩
    obtain ⟨hmem, hcond⟩ := List.mem_filter.mp hmem
    obtain ⟨herror, hposition⟩ := of_decide_eq_true hcond
    exact ⟨frame, hmem, herror, hposition, rfl⟩
  · rintro ⟨frame, hmem, herror, hposition, rfl⟩
    exact ⟨frame, List.mem_filter.mpr ⟨hmem, decide_eq_true ⟨herror, hposition⟩⟩, rfl⟩

theorem TransactionTree.position_of_mem {frame : TransferFrame} (h : frame ∈ tx.frames) :
    frame.transactionPosition = tx.position := by
  rcases List.mem_cons.mp h with rfl | h
  · rfl
  · exact Archive.position_of_mem h

/-- The failed paths at the position of a transaction are those of its own frames. -/
theorem mem_erroredPaths_of_mem (hperm : frames.Perm (txs.flatMap TransactionTree.frames))
    (hnodup : (txs.map TransactionTree.position).Nodup) (htx : tx ∈ txs) {q : List ℕ} :
    q ∈ erroredPaths frames tx.position ↔ ∃ frame ∈ tx.frames, frame.error = true ∧ frame.traceAddress = q := by
  rw [mem_erroredPaths]
  constructor
  · rintro ⟨frame, hmem, herror, hposition, hpath⟩
    obtain ⟨tx', htx', hframe⟩ := List.mem_flatMap.mp (hperm.mem_iff.mp hmem)
    have hsame : tx' = tx :=
      List.inj_on_of_nodup_map hnodup htx' htx (by rw [← hposition, TransactionTree.position_of_mem hframe])
    exact ⟨frame, hsame ▸ hframe, herror, hpath⟩
  · rintro ⟨frame, hmem, herror, hpath⟩
    exact ⟨frame, hperm.mem_iff.mpr (List.mem_flatMap.mpr ⟨tx, htx, hmem⟩), herror,
      TransactionTree.position_of_mem hmem, hpath⟩

theorem covers_of_mem (hperm : frames.Perm (txs.flatMap TransactionTree.frames))
    (hnodup : (txs.map TransactionTree.position).Nodup) (htx : tx ∈ txs) :
    Covers (erroredPaths frames tx.position) tx.position tx.hash tx.root.error [] 0 tx.calls := by
  constructor
  · intro q j _ hq
    rw [mem_erroredPaths_of_mem hperm hnodup htx]
    constructor
    · rintro ⟨frame, hmem, herror, rfl⟩
      rcases List.mem_cons.mp hmem with rfl | hmem
      · simp [frameAt] at hq
      · exact ⟨frame, hmem, herror, rfl⟩
    · rintro ⟨frame, hmem, herror, hpath⟩
      exact ⟨frame, List.mem_cons_of_mem _ hmem, herror, hpath⟩
  · simp only [List.prefix_nil, exists_eq_left]
    rw [mem_erroredPaths_of_mem hperm hnodup htx]
    constructor
    · intro herror
      exact ⟨_, List.mem_cons_self, herror, rfl⟩
    · rintro ⟨frame, hmem, herror, hpath⟩
      rcases List.mem_cons.mp hmem with rfl | hmem
      · exact herror
      · obtain ⟨j, -, hj⟩ := exists_index_of_mem hmem
        rw [hpath] at hj
        simp at hj

theorem rows_perm (hperm : frames.Perm (txs.flatMap TransactionTree.frames))
    (hnodup : (txs.map TransactionTree.position).Nodup) : (internalTransfers u frames).1.Perm
      (txs.flatMap fun tx => tx.calls.marked u tx.position tx.hash tx.root.error [] 0) := by
  have hone : ∀ tx ∈ txs, tx.frames.filterMap (movedRow u frames) =
      tx.calls.marked u tx.position tx.hash tx.root.error [] 0 := by
    intro tx htx
    have hroot : movedRow u frames (frameAt tx.position tx.hash [] tx.root) = none := by
      have hpath : (frameAt tx.position tx.hash [] tx.root).traceAddress = [] := rfl
      rw [movedRow, frameMoved, if_pos hpath, Option.map_none]
    have hrows : (tx.calls.frames tx.position tx.hash [] 0).filterMap (movedRow u frames) =
        (tx.calls.frames tx.position tx.hash [] 0).filterMap (rowAmong u (erroredPaths frames tx.position)) :=
      List.filterMap_congr fun frame hmem => by rw [movedRow, rowAmong, Archive.position_of_mem hmem]
    rw [TransactionTree.frames, List.filterMap_cons, hroot, hrows]
    exact (covers_of_mem hperm hnodup htx).rows u
  have hlist := hperm.filterMap (movedRow u frames)
  rw [List.filterMap_flatMap] at hlist
  rwa [List.flatMap_congr hone] at hlist

/-- The effective rows are the effect of the transactions, the other rows what failed frames undo, and the counter
counts both. -/
theorem internalTransfers_rollback (hperm : frames.Perm (txs.flatMap TransactionTree.frames))
    (hnodup : (txs.map TransactionTree.position).Nodup) :
    (effectiveMoves (internalTransfers u frames).1).Perm (txs.flatMap (TransactionTree.effect u)) ∧
    (revertedMoves (internalTransfers u frames).1).Perm (txs.flatMap (TransactionTree.undone u)) ∧
    (internalTransfers u frames).2 = ⟨frames.length,
      (txs.flatMap (TransactionTree.effect u)).length + (txs.flatMap (TransactionTree.undone u)).length⟩ := by
  have hrows := rows_perm u hperm hnodup
  have heffective : (effectiveMoves (internalTransfers u frames).1).Perm (txs.flatMap (TransactionTree.effect u)) := by
    refine ((hrows.filter _).map _).trans (List.Perm.of_eq ?_)
    rw [List.filter_flatMap, List.map_flatMap]
    exact List.flatMap_congr fun tx _ => effectiveMoves_marked u tx.root.error
  have hreverted : (revertedMoves (internalTransfers u frames).1).Perm (txs.flatMap (TransactionTree.undone u)) := by
    refine ((hrows.filter _).map _).trans (List.Perm.of_eq ?_)
    rw [List.filter_flatMap, List.map_flatMap]
    exact List.flatMap_congr fun tx _ => revertedMoves_marked u tx.root.error
  refine ⟨heffective, hreverted, ?_⟩
  rw [← heffective.length_eq, ← hreverted.length_eq, effectiveMoves, revertedMoves, List.length_map, List.length_map,
    ← List.length_eq_length_filter_add]
  rfl

/-- A transaction with a call of 2 and a failed call of 4 that contains a call of 1, and one whose root failed. -/
def twoTransactions : List TransactionTree :=
  let call (value : ℕ) (error : Bool) : Step := ⟨.call "call".toList [] [] value, error⟩
  [⟨0, [], call 10 false, .cons (call 2 false) .nil (.cons (call 4 true) (.cons (call 1 false) .nil .nil) .nil)⟩,
    ⟨1, [], call 0 true, .cons (call 3 false) .nil .nil⟩]

theorem twoTransactions_rollback :
    ((effectiveMoves (internalTransfers asciiLower (twoTransactions.flatMap TransactionTree.frames).reverse).1).map
      (·.valueAtto)).Perm [2] := by
  have h := (internalTransfers_rollback asciiLower
    (List.reverse_perm (twoTransactions.flatMap TransactionTree.frames)) (by decide)).1
  exact h.map (·.valueAtto)

end Blocks

end HarmonyMigration.Archive
