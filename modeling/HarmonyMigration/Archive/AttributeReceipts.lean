import HarmonyMigration.Archive.ArchiveLib
import HarmonyMigration.Lib.Loader
import HarmonyMigration.Lib.RowEach

/-! `attribute-receipts.py`: the outgoing receipts of a completed scan, each given to its transaction. -/

namespace HarmonyMigration.Archive.AttributeReceipts

open Airdrop.One1 ContractReview Decimal Except

/-! ### What a scan left -/

structure Header where
  incomingReceiptsRoot : Text
  outgoingReceiptsRoot : Text
  deriving DecidableEq

def emptyRoot : Text := "0x56e81f171bcc55a6ff8345e692c0f86e5b48e01b996cadc001622fb5e363b421".toList

/-- The header proves an outgoing receipt. -/
def Header.Proves (header : Header) : Prop := header.outgoingReceiptsRoot ≠ emptyRoot

instance : DecidablePred Header.Proves := fun _ => inferInstanceAs (Decidable (_ ≠ _))

/-- What the node and the trace node answer; no trace where the call fails. -/
structure Node where
  byNumber : ℕ → Option Block
  byHash : Text → Option Block
  header : Block → Header
  traceBlock : ℕ → Option (List Frame)
  traceBlockByHash : Text → Option (List TraceItem)

/-- A row of `xshard-blocks.csv`. -/
structure XshardRow where
  blockNumber : ℕ
  blockHash : Text
  incoming : Bool
  outgoing : Bool
  deriving DecidableEq

/-- The row that `scan-blocks.py` writes for a block. Without a header the transactions tell. -/
def xshardRow (u : Lower) (block : Block) (header : Option Header) : Except LibError (Option XshardRow) :=
  match header with
  | some header =>
    let incoming := decide (header.incomingReceiptsRoot ≠ emptyRoot)
    let outgoing := decide header.Proves
    .ok (if incoming || outgoing then some ⟨block.number, block.hash, incoming, outgoing⟩ else none)
  | none =>
    (block.transactions.mapM fun tx => (address u tx.recipient).map (classifyTx tx)).map fun kinds =>
      let outgoing := kinds.any fun kind => kind = .xshardNative ∨ kind = .xshardPrecompile
      if outgoing then some ⟨block.number, block.hash, false, outgoing⟩ else none

/-- A completed scan of a canonical range, or of blocks read by hash. -/
structure Scan (u : Lower) (node : Node) where
  shard : ℕ
  listed : Bool
  blocks : List Block
  xshardBlocks : List XshardRow
  traceBlocks : List (ℕ × Text)
  read : ∀ b ∈ blocks, if listed then node.byHash b.hash = some b else node.byNumber b.number = some b
  flags : (blocks.mapM fun b => xshardRow u b (if listed then none else some (node.header b))).map List.reduceOption =
    .ok xshardBlocks
  traced : ∀ row ∈ traceBlocks, ∃ b ∈ blocks, row = (b.number, b.hash)

/-! ### The stage -/

inductive StageError
  | noBlock (number : ℕ)
  | lib (e : LibError)
  deriving DecidableEq

section Stage

variable (u : Lower) (node : Node) (scan : Scan u node)

def flagged : Dict ℕ Text :=
  .ofList ((scan.xshardBlocks.filter XshardRow.outgoing).map fun row => (row.blockNumber, row.blockHash))

/-- The blocks that are read by hash. -/
def hashes : Dict ℕ Text :=
  if scan.listed then scan.traceBlocks.foldl (fun d row => d.setdefault row.1 row.2) (flagged u node scan) else .empty

def examined : List ℕ :=
  ((flagged u node scan).keys ++ (hashes u node scan).keys).dedup.insertionSort (· ≤ ·)

def blockAt (number : ℕ) : Option Block :=
  if scan.listed then ((hashes u node scan).get? number).bind node.byHash else node.byNumber number

/-- `tracer` says that there is a trace node. -/
def framesAt (tracer : Bool) (number : ℕ) : Option (List Frame) :=
  if ¬tracer then none
  else if scan.listed then
    (((hashes u node scan).get? number).bind node.traceBlockByHash).bind flattenBlockTrace
  else node.traceBlock number

/-- What `attribute` returns for a block. -/
structure Found where
  number : ℕ
  rows : List OutgoingReceipt
  fallback : Bool
  traced : Bool

def attributeBlock (fixEpoch : ℕ) (tracer : Bool) (number : ℕ) : Except StageError Found :=
  (ofOption (blockAt u node scan number) (.noBlock number)).bind fun block =>
  match outgoingReceipts u scan.shard block fixEpoch (framesAt u node scan tracer number) with
  | .error e => .error (.lib e)
  | .ok (rows, fallback) => .ok ⟨number, rows, fallback, (framesAt u node scan tracer number).isSome⟩

structure Attribution where
  rows : List OutgoingReceipt
  unexplained : List ℕ
  untraced : List ℕ
  fallbackBlocks : ℕ

def main (fixEpoch : ℕ) (tracer : Bool) : Except StageError Attribution :=
  ((examined u node scan).mapM (attributeBlock u node scan fixEpoch tracer)).map fun found =>
  { rows := found.flatMap Found.rows
    unexplained := (found.filter fun f => f.rows = [] ∧ f.number ∈ (flagged u node scan).keys).map Found.number
    untraced := (found.filter fun f => ¬f.traced).map Found.number
    fallbackBlocks := found.countP Found.fallback }

end Stage

/-! ### Calls of the precompile -/

section Calls

variable {u : Lower} {shard : ℕ} {block : Block} {fixEpoch : ℕ} {frames : List Frame}

/-- A call frame to the precompile with calldata that can be read. -/
structure Attempted (u : Lower) (frame : Frame) (decoded : Decoded) : Prop where
  type : frame.type = .call
  recipient : u.lower frame.recipient = xshardPrecompile
  input : decodeXshardInput u frame.input = .ok (some decoded)

/-- A frame above it, of the same transaction, reverted. -/
def RevertedAbove (frames : List Frame) (frame : Frame) : Prop :=
  ∃ f ∈ frames, f.error = true ∧ f.transactionPosition = frame.transactionPosition ∧
    f.traceAddress <+: frame.traceAddress ∧ f.traceAddress ≠ frame.traceAddress

/-- The call raised no error and, from the fix epoch on, nothing above it reverted. -/
structure Completed (block : Block) (fixEpoch : ℕ) (frames : List Frame) (frame : Frame) : Prop where
  error : frame.error = false
  ancestor : fixEpoch ≤ block.epoch → ¬RevertedAbove frames frame

/-- The row of an attempted call. -/
def callRowOf (u : Lower) (shard : ℕ) (block : Block) (frames : List Frame) (mechanism : Text → Mechanism) (frame : Frame)
    (decoded : Decoded) : OutgoingReceipt :=
  callRow u shard block mechanism
    (hasRevertedAncestor frame.traceAddress (revertedPaths frames frame.transactionPosition) false) frame decoded

theorem hasRevertedAncestor_iff (frames : List Frame) (frame : Frame) :
    hasRevertedAncestor frame.traceAddress (revertedPaths frames frame.transactionPosition) false = true ↔
      RevertedAbove frames frame := by
  have hmem : ∀ path, path ∈ revertedPaths frames frame.transactionPosition ↔
      ∃ f ∈ frames, f.error = true ∧ f.transactionPosition = frame.transactionPosition ∧ f.traceAddress = path := fun path => by
    simp only [revertedPaths, List.mem_map, List.mem_filter, decide_eq_true_eq, and_assoc]
  simp only [hasRevertedAncestor, Bool.false_eq_true, if_false, List.any_eq_true, List.mem_range, decide_eq_true_eq, hmem]
  constructor
  · rintro ⟨k, hk, f, hf, herror, hposition, hpath⟩
    refine ⟨f, hf, herror, hposition, hpath ▸ List.take_prefix k _, fun he => ?_⟩
    have hlen := congrArg List.length (hpath.symm.trans he)
    rw [List.length_take] at hlen
    omega
  · rintro ⟨f, hf, herror, hposition, hinit, hne⟩
    refine ⟨f.traceAddress.length, ?_, f, hf, herror, hposition, List.prefix_iff_eq_take.mp hinit⟩
    exact lt_of_le_of_ne hinit.length_le fun he => hne (hinit.eq_of_length he)

theorem frameRow_some_iff {includeFailed : Bool} {mechanism : Text → Mechanism} {frame : Frame} {row : OutgoingReceipt} :
    frameRow u shard block fixEpoch frames includeFailed mechanism frame = .ok (some row) ↔
      ∃ decoded, Attempted u frame decoded ∧ (includeFailed = false → Completed block fixEpoch frames frame) ∧
        row = callRowOf u shard block frames mechanism frame decoded := by
  rw [frameRow]
  split_ifs with hkind hfailed
  · refine ⟨fun h => by simp at h, fun ⟨decoded, hattempted, _⟩ => ?_⟩
    rcases hkind with hkind | hkind
    · exact absurd hattempted.type hkind
    · exact absurd hattempted.recipient hkind
  · refine ⟨fun h => by simp at h, fun ⟨decoded, _, hcompleted, _⟩ => ?_⟩
    have hfalse := (hcompleted (by simpa using hfailed.2)).error
    rw [hfailed.1] at hfalse
    cases hfalse
  push Not at hkind
  constructor
  · intro h
    obtain ⟨o, ho, h⟩ := of_map_ok h
    obtain ⟨decoded, rfl, hrow⟩ := Option.bind_eq_some_iff.mp h
    dsimp only at hrow
    split_ifs at hrow with habove
    refine ⟨decoded, ⟨hkind.1, hkind.2, ho⟩, fun hincluded => ⟨?_, fun hepoch hrev => ?_⟩, (Option.some.inj hrow).symm⟩
    · simpa [hincluded] using hfailed
    · exact habove ⟨(hasRevertedAncestor_iff frames frame).mpr hrev, hepoch, by simp [hincluded]⟩
  · rintro ⟨decoded, hattempted, hcompleted, rfl⟩
    have habove : ¬(hasRevertedAncestor frame.traceAddress (revertedPaths frames frame.transactionPosition) false = true ∧
        fixEpoch ≤ block.epoch ∧ ¬includeFailed = true) := by
      rintro ⟨hrev, hepoch, hincluded⟩
      exact (hcompleted (by simpa using hincluded)).ancestor hepoch ((hasRevertedAncestor_iff frames frame).mp hrev)
    rw [hattempted.input]
    exact congrArg Except.ok (if_neg habove)

theorem precompileRows_each {includeFailed : Bool} {mechanism : Text → Mechanism} {rows : List OutgoingReceipt}
    (h : precompileRows u shard block fixEpoch frames includeFailed mechanism = .ok rows) :
    OneRowEach (fun frame row => ∃ decoded, Attempted u frame decoded ∧
      (includeFailed = false → Completed block fixEpoch frames frame) ∧
        row = callRowOf u shard block frames mechanism frame decoded) frames rows :=
  (oneRowEach_mapM h).congr fun _ _ _ => frameRow_some_iff

/-! ### The rows of a block -/

/-- A plain transaction to the precompile with calldata that can be read. -/
structure SentToPrecompile (u : Lower) (tx : PlainTx) (decoded : Decoded) : Prop where
  recipient : address u tx.recipient = .ok xshardPrecompile
  input : decodeXshardInput u tx.input = .ok (some decoded)

theorem directRow_none_iff {tx : PlainTx} {o : Option OutgoingReceipt} (h : directRow u shard block tx = .ok o) :
    o = none ↔ ∀ decoded, ¬SentToPrecompile u tx decoded := by
  obtain ⟨recipient, hrecipient, h⟩ := of_bind_ok h
  split_ifs at h with hother
  · obtain rfl := Except.ok.inj h
    refine iff_of_true rfl fun decoded hsent => hother ?_
    exact Except.ok.inj (hrecipient.symm.trans hsent.recipient)
  push Not at hother
  obtain ⟨decoded, hdecoded, h⟩ := of_bind_ok h
  cases decoded with
  | none =>
    obtain rfl := Except.ok.inj h
    refine iff_of_true rfl fun decoded hsent => ?_
    have hinput := hsent.input
    rw [hdecoded] at hinput
    simp at hinput
  | some decoded =>
    obtain ⟨sender, -, rfl⟩ := of_map_ok h
    exact iff_of_false (by simp) fun hnone => hnone decoded ⟨hother ▸ hrecipient, hdecoded⟩

/-- What a row may stand for. -/
inductive Justified (u : Lower) (shard : ℕ) (block : Block) (header : Header) (fixEpoch : ℕ) (frames : Option (List Frame))
    (row : OutgoingReceipt) : Prop
  | native (tx : PlainTx) (mem : tx ∈ block.transactions) (leaves : tx.Native) (made : nativeRow u shard block tx = .ok row)
  | completed (list : List Frame) (known : frames = some list) (frame : Frame) (mem : frame ∈ list) (decoded : Decoded)
      (attempted : Attempted u frame decoded) (done : Completed block fixEpoch list frame)
      (made : row = callRowOf u shard block list .precompile frame decoded)
  | attempted (list : List Frame) (known : frames = some list) (frame : Frame) (mem : frame ∈ list) (decoded : Decoded)
      (attempted : Attempted u frame decoded) (proves : header.Proves)
      (noNative : ∀ tx ∈ block.transactions, ¬tx.Native)
      (noCompleted : ∀ f ∈ list, ∀ d, Attempted u f d → ¬Completed block fixEpoch list f)
      (made : row = callRowOf u shard block list .precompileReplayIncompatible frame decoded)

/-- What lets the rows of a block be justified: without a trace nothing was sent to the precompile, and attempts alone
are counted only where the header proves a receipt. -/
def Justifiable (u : Lower) (block : Block) (header : Header) (fixEpoch : ℕ) : Option (List Frame) → Prop
  | none => ∀ tx ∈ block.transactions, ∀ decoded, ¬SentToPrecompile u tx decoded
  | some list => (∀ tx ∈ block.transactions, ¬tx.Native) →
      (∀ f ∈ list, ∀ d, Attempted u f d → ¬Completed block fixEpoch list f) →
      (∃ f ∈ list, ∃ d, Attempted u f d) → header.Proves

/-- The native transactions and the completed calls of a traced block have one row each, in order. -/
def Each (u : Lower) (shard : ℕ) (block : Block) (fixEpoch : ℕ) (list : List Frame) (rows : List OutgoingReceipt) : Prop :=
  ∃ natives calls, OneRowEach (fun tx row => tx.Native ∧ nativeRow u shard block tx = .ok row) block.transactions natives ∧
    OneRowEach (fun frame row => ∃ decoded, Attempted u frame decoded ∧ Completed block fixEpoch list frame ∧
      row = callRowOf u shard block list .precompile frame decoded) list calls ∧
    (natives ++ calls ≠ [] → rows = natives ++ calls)

variable {header : Header} {o : Option (List Frame)} {rows : List OutgoingReceipt} {fallback : Bool}

theorem justified_untraced (h : outgoingReceipts u shard block fixEpoch none = .ok (rows, fallback)) :
    (∀ row ∈ rows, Justified u shard block header fixEpoch none row) ↔ Justifiable u block header fixEpoch none := by
  obtain ⟨natives, hnatives, h⟩ := of_bind_ok h
  obtain ⟨direct, hdirect, hrows⟩ := of_map_ok h
  obtain ⟨rfl, rfl⟩ := Prod.mk.inj hrows
  have hnative := oneRowEach_filter_mapM hnatives
  have heach := forall₂_of_mapM_ok hdirect
  constructor
  · intro hall tx htx decoded hsent
    obtain ⟨o, hmem, ho⟩ := ok_of_mem_left heach htx
    obtain ⟨row, rfl⟩ : ∃ row, o = some row := by
      refine Option.ne_none_iff_exists'.mp fun hnone => ?_
      exact (directRow_none_iff ho).mp hnone decoded hsent
    have hin : row ∈ natives ++ direct.reduceOption :=
      List.mem_append_right _ (List.reduceOption_mem_iff.mpr hmem)
    -- a direct row says that it comes from the precompile
    have hmechanism : row.mechanism = .precompile callText := by
      obtain ⟨recipient, hrecipient, ho⟩ := of_bind_ok ho
      obtain rfl := Except.ok.inj (hsent.recipient.symm.trans hrecipient)
      rw [if_neg (not_not.mpr rfl)] at ho
      obtain ⟨d, -, ho⟩ := of_bind_ok ho
      cases d with
      | none => cases ho
      | some d =>
        obtain ⟨sender, -, ho⟩ := of_map_ok ho
        obtain rfl := Option.some.inj ho
        rfl
    cases hall row hin with
    | native tx' _ _ made =>
      obtain ⟨sender, -, made⟩ := of_bind_ok made
      obtain ⟨recipient, -, rfl⟩ := of_map_ok made
      cases hmechanism
    | completed _ known => cases known
    | attempted _ known => cases known
  · intro hnone row hrow
    have hempty : direct.reduceOption = [] := by
      refine List.eq_nil_iff_forall_not_mem.mpr fun r hr => ?_
      obtain ⟨tx, htx, ho⟩ := ok_of_mem_right heach (List.reduceOption_mem_iff.mp hr)
      exact absurd ((directRow_none_iff ho).mpr (hnone tx htx)) (by simp)
    rw [hempty, List.append_nil] at hrow
    obtain ⟨tx, htx, hleaves, made⟩ := hnative.mem_iff.mp hrow
    exact .native tx htx hleaves made

variable (header) in
/-- The two ways the rows of a traced block are made. -/
theorem outgoingReceipts_traced {list : List Frame}
    (h : outgoingReceipts u shard block fixEpoch (some list) = .ok (rows, fallback)) :
    Each u shard block fixEpoch list rows ∧
      ((∃ tx ∈ block.transactions, tx.Native) ∨
          (∃ f ∈ list, ∃ d, Attempted u f d ∧ Completed block fixEpoch list f) →
        ∀ row ∈ rows, Justified u shard block header fixEpoch (some list) row) ∧
      ((∀ tx ∈ block.transactions, ¬tx.Native) →
        (∀ f ∈ list, ∀ d, Attempted u f d → ¬Completed block fixEpoch list f) →
        ∀ row, row ∈ rows ↔ ∃ f ∈ list, ∃ d, Attempted u f d ∧
          row = callRowOf u shard block list .precompileReplayIncompatible f d) := by
  obtain ⟨natives, hnatives, h⟩ := of_bind_ok h
  obtain ⟨calls, hcalls, h⟩ := of_bind_ok h
  have hnative := oneRowEach_filter_mapM hnatives
  have hcall : OneRowEach (fun frame row => ∃ decoded, Attempted u frame decoded ∧ Completed block fixEpoch list frame ∧
      row = callRowOf u shard block list .precompile frame decoded) list calls :=
    (precompileRows_each hcalls).congr fun f _ r => by simp
  have hjustified : ∀ row ∈ natives ++ calls, Justified u shard block header fixEpoch (some list) row := by
    intro row hrow
    rcases List.mem_append.mp hrow with hrow | hrow
    · obtain ⟨tx, htx, hleaves, made⟩ := hnative.mem_iff.mp hrow
      exact .native tx htx hleaves made
    · obtain ⟨frame, hframe, decoded, hattempted, hdone, made⟩ := hcall.mem_iff.mp hrow
      exact .completed list rfl frame hframe decoded hattempted hdone made
  by_cases hne : natives ++ calls ≠ []
  · rw [if_pos hne] at h
    obtain ⟨rfl, rfl⟩ := Prod.mk.inj (Except.ok.inj h)
    refine ⟨⟨natives, calls, hnative, hcall, fun _ => rfl⟩, fun _ => hjustified, fun hnone hnotdone => ?_⟩
    refine absurd (List.eq_nil_iff_forall_not_mem.mpr fun row hrow => ?_) hne
    rcases List.mem_append.mp hrow with hrow | hrow
    · obtain ⟨tx, htx, hleaves, -⟩ := hnative.mem_iff.mp hrow
      exact hnone tx htx hleaves
    · obtain ⟨frame, hframe, decoded, hattempted, hdone, -⟩ := hcall.mem_iff.mp hrow
      exact hnotdone frame hframe decoded hattempted hdone
  · rw [if_neg hne] at h
    rw [not_ne_iff] at hne
    obtain ⟨attempts, hattempts, hrows⟩ := of_map_ok h
    obtain ⟨rfl, rfl⟩ := Prod.mk.inj hrows
    have hattempt := precompileRows_each hattempts
    have hnil := List.append_eq_nil_iff.mp hne
    refine ⟨⟨natives, calls, hnative, hcall, fun h => absurd hne h⟩, fun hsome => ?_, fun _ _ row => ?_⟩
    · rcases hsome with ⟨tx, htx, hleaves⟩ | ⟨f, hf, d, hattempted, hdone⟩
      · obtain ⟨row, -, made⟩ := ok_of_mem_left (forall₂_of_mapM_ok hnatives)
          (List.mem_filter.mpr ⟨htx, by simpa using hleaves⟩)
        have hmem := hnative.mem_iff.mpr ⟨tx, htx, hleaves, made⟩
        simp [hnil.1] at hmem
      · have hmem := hcall.mem_iff.mpr ⟨f, hf, d, hattempted, hdone, rfl⟩
        simp [hnil.2] at hmem
    · rw [hattempt.mem_iff]
      simp

theorem justified_traced {list : List Frame} (h : outgoingReceipts u shard block fixEpoch (some list) = .ok (rows, fallback)) :
    (∀ row ∈ rows, Justified u shard block header fixEpoch (some list) row) ↔
      Justifiable u block header fixEpoch (some list) := by
  obtain ⟨-, hsome, hnone⟩ := outgoingReceipts_traced header h
  constructor
  · intro hall hnative hnotdone hexists
    obtain ⟨f, hf, d, hattempted⟩ := hexists
    have hrow := (hnone hnative hnotdone _).mpr ⟨f, hf, d, hattempted, rfl⟩
    cases hall _ hrow with
    | native tx mem leaves => exact absurd leaves (hnative tx mem)
    | completed list' known frame mem decoded attempted done =>
      obtain rfl := Option.some.inj known
      exact absurd done (hnotdone frame mem decoded attempted)
    | attempted _ _ _ _ _ _ proves => exact proves
  · intro hproves row hrow
    by_cases hnative : ∀ tx ∈ block.transactions, ¬tx.Native
    · by_cases hnotdone : ∀ f ∈ list, ∀ d, Attempted u f d → ¬Completed block fixEpoch list f
      · obtain ⟨f, hf, d, hattempted, made⟩ := (hnone hnative hnotdone row).mp hrow
        exact .attempted list rfl f hf d hattempted (hproves hnative hnotdone ⟨f, hf, d, hattempted⟩) hnative hnotdone made
      · push Not at hnotdone
        exact hsome (.inr hnotdone) row hrow
    · push Not at hnative
      exact hsome (.inl hnative) row hrow

theorem justified_iff (h : outgoingReceipts u shard block fixEpoch o = .ok (rows, fallback)) :
    (∀ row ∈ rows, Justified u shard block header fixEpoch o row) ↔ Justifiable u block header fixEpoch o := by
  cases o with
  | none => exact justified_untraced h
  | some list => exact justified_traced h

end Calls

/-! ### A scan -/

section Run

variable {u : Lower} {node : Node} {scan : Scan u node} {fixEpoch : ℕ} {tracer : Bool} {out : Attribution}

/-- The rows that a block gives to the output. -/
def rowsAt (u : Lower) (node : Node) (scan : Scan u node) (fixEpoch : ℕ) (tracer : Bool) (number : ℕ) :
    List OutgoingReceipt :=
  ((attributeBlock u node scan fixEpoch tracer number).toOption.map Found.rows).getD []

/-- The output has the rows of the examined blocks. Each is justified, each native transaction and completed call of a
traced block has one, and a flagged block without any is reported. -/
structure Attributed (u : Lower) (node : Node) (scan : Scan u node) (fixEpoch : ℕ) (tracer : Bool) (out : Attribution) :
    Prop where
  rows : out.rows = (examined u node scan).flatMap (rowsAt u node scan fixEpoch tracer)
  justified : ∀ n ∈ examined u node scan, ∀ block, blockAt u node scan n = some block →
    ∀ row ∈ rowsAt u node scan fixEpoch tracer n,
      Justified u scan.shard block (node.header block) fixEpoch (framesAt u node scan tracer n) row
  each : ∀ n ∈ examined u node scan, ∀ block, blockAt u node scan n = some block →
    ∀ list, framesAt u node scan tracer n = some list →
      Each u scan.shard block fixEpoch list (rowsAt u node scan fixEpoch tracer n)
  unexplained : ∀ n ∈ (flagged u node scan).keys, rowsAt u node scan fixEpoch tracer n = [] → n ∈ out.unexplained

theorem flagged_examined {n : ℕ} (h : n ∈ (flagged u node scan).keys) : n ∈ examined u node scan := by
  rw [examined, List.mem_insertionSort, List.mem_dedup]
  exact List.mem_append_left _ h

/-- In a range, what is examined is flagged, and the header of what is flagged proves a receipt. -/
theorem proves_of_range (hrange : scan.listed = false) {n : ℕ} (h : n ∈ examined u node scan) {block : Block}
    (hblock : blockAt u node scan n = some block) : (node.header block).Proves := by
  have hkey : n ∈ (flagged u node scan).keys := by
    rw [examined, List.mem_insertionSort, List.mem_dedup, hashes, hrange, List.mem_append] at h
    exact h.resolve_right (by simp [Dict.empty, Dict.keys])
  obtain ⟨v, hv⟩ := Dict.exists_of_mem_keys hkey
  obtain ⟨row, hrow, he⟩ := List.mem_map.mp (Dict.mem_of_mem_ofList hv)
  obtain ⟨hrow, houtgoing⟩ := List.mem_filter.mp hrow
  obtain ⟨b, hb, hmade⟩ := (oneRowEach_mapM scan.flags).mem_iff.mp hrow
  have hread := scan.read b hb
  rw [hrange] at hmade hread
  simp only [Bool.false_eq_true, if_false, xshardRow, Except.ok.injEq] at hmade hread
  split_ifs at hmade
  obtain rfl := Option.some.inj hmade
  obtain ⟨rfl, -⟩ := Prod.mk.inj he
  rw [blockAt, hrange] at hblock
  simp only [Bool.false_eq_true, if_false] at hblock
  obtain rfl := Option.some.inj (hread.symm.trans hblock)
  simpa using houtgoing

theorem rowsAt_ok {n : ℕ} {f : Found} (h : attributeBlock u node scan fixEpoch tracer n = .ok f) :
    rowsAt u node scan fixEpoch tracer n = f.rows := by
  rw [rowsAt, h]
  rfl

theorem number_of_attributeBlock {n : ℕ} {f : Found} (h : attributeBlock u node scan fixEpoch tracer n = .ok f) :
    f.number = n := by
  obtain ⟨block, -, h⟩ := ofOption_bind_ok.mp h
  split at h
  · cases h
  · obtain rfl := Except.ok.inj h
    rfl

/-- The rows of a block are its outgoing receipts. -/
theorem outgoingReceipts_rowsAt (h : main u node scan fixEpoch tracer = .ok out) {n : ℕ} (hn : n ∈ examined u node scan)
    {block : Block} (hblock : blockAt u node scan n = some block) :
    ∃ fallback, outgoingReceipts u scan.shard block fixEpoch (framesAt u node scan tracer n) =
      .ok (rowsAt u node scan fixEpoch tracer n, fallback) := by
  obtain ⟨list, hlist, rfl⟩ := of_map_ok h
  obtain ⟨f, -, hf⟩ := ok_of_mem_left (forall₂_of_mapM_ok hlist) hn
  rw [rowsAt_ok hf]
  obtain ⟨block', hblock', hf⟩ := ofOption_bind_ok.mp hf
  obtain rfl := Option.some.inj (hblock.symm.trans hblock')
  split at hf
  · cases hf
  · next hrun =>
    obtain rfl := Except.ok.inj hf
    exact ⟨_, hrun⟩

theorem rows_of_main (h : main u node scan fixEpoch tracer = .ok out) :
    out.rows = (examined u node scan).flatMap (rowsAt u node scan fixEpoch tracer) := by
  obtain ⟨list, hlist, rfl⟩ := of_map_ok h
  rw [List.flatMap_def, List.flatMap_def]
  exact congrArg List.flatten (map_eq_of_forall₂ (forall₂_of_mapM_ok hlist) fun n f hf => rowsAt_ok hf).symm

theorem unexplained_of_main (h : main u node scan fixEpoch tracer = .ok out) {n : ℕ}
    (hn : n ∈ (flagged u node scan).keys) (hnil : rowsAt u node scan fixEpoch tracer n = []) : n ∈ out.unexplained := by
  obtain ⟨list, hlist, rfl⟩ := of_map_ok h
  obtain ⟨f, hmem, hf⟩ := ok_of_mem_left (forall₂_of_mapM_ok hlist) (flagged_examined hn)
  rw [rowsAt_ok hf] at hnil
  have hnumber := number_of_attributeBlock hf
  exact List.mem_map.mpr ⟨f, List.mem_filter.mpr ⟨hmem, by simp [hnil, hnumber, hn]⟩, hnumber⟩

/-- The rows of a completed stage are justified, one for each native transaction and completed call, exactly where nothing
was sent to the precompile in a block without a trace and, in a scan by hash, the attempts of a block count only where its
header proves a receipt. -/
theorem attributed_iff (u : Lower) (node : Node) (scan : Scan u node) (fixEpoch : ℕ) (tracer : Bool) {out : Attribution}
    (h : main u node scan fixEpoch tracer = .ok out) :
    Attributed u node scan fixEpoch tracer out ↔
      ∀ n ∈ examined u node scan, ∀ block, blockAt u node scan n = some block →
        (framesAt u node scan tracer n = none ∨ scan.listed = true) →
        Justifiable u block (node.header block) fixEpoch (framesAt u node scan tracer n) := by
  constructor
  · intro ha n hn block hblock _
    obtain ⟨fallback, hrun⟩ := outgoingReceipts_rowsAt h hn hblock
    exact (justified_iff hrun).mp (ha.justified n hn block hblock)
  · intro hall
    refine ⟨rows_of_main h, fun n hn block hblock => ?_, fun n hn block hblock list hlist => ?_,
      fun n hn => unexplained_of_main h hn⟩
    · obtain ⟨fallback, hrun⟩ := outgoingReceipts_rowsAt h hn hblock
      refine (justified_iff hrun).mpr ?_
      by_cases hcase : framesAt u node scan tracer n = none ∨ scan.listed = true
      · exact hall n hn block hblock hcase
      · push Not at hcase
        obtain ⟨list, hlist⟩ := Option.ne_none_iff_exists'.mp hcase.1
        rw [hlist]
        exact fun _ _ _ => proves_of_range (by simpa using hcase.2) hn hblock
    · obtain ⟨fallback, hrun⟩ := outgoingReceipts_rowsAt h hn hblock
      rw [hlist] at hrun
      exact (outgoingReceipts_traced (node.header block) hrun).1

/-! ### A call that failed in a block without receipts -/

/-- Calldata of a transfer of seven atto to shard 1. -/
def sevenAtto : Text := hexPrefix ++ List.replicate 8 'a' ++ Hex.digits 64 7 ++ Hex.digits 64 5 ++ Hex.digits 64 1

def failedCall : Frame := ⟨.call, callText, [], xshardPrecompile, sevenAtto, true, [0], 0⟩

def quietBlock : Block := ⟨9, ['b'], ['a'], 0, 3000, [], []⟩

/-- The block is read by hash; its header has no outgoing receipt. -/
def quietNode : Node where
  byNumber _ := none
  byHash hash := if hash = ['b'] then some quietBlock else none
  header _ := ⟨emptyRoot, emptyRoot⟩
  traceBlock _ := none
  traceBlockByHash _ := some [.frames [failedCall]]

def quietScan : Scan asciiLower quietNode where
  shard := 0
  listed := true
  blocks := [quietBlock]
  xshardBlocks := []
  traceBlocks := [(9, ['b'])]
  read := by decide
  flags := by decide
  traced := by decide

/-- A receipt that no header proves. -/
theorem failed_call_counted : ∃ out, main asciiLower quietNode quietScan 2964 true = .ok out ∧
    out.rows.map (fun row => (row.mechanism, row.valueAtto)) = [(.precompileReplayIncompatible callText, 7)] ∧
    ¬Attributed asciiLower quietNode quietScan 2964 true out := by
  have hrun : ((main asciiLower quietNode quietScan 2964 true).toOption.map fun out =>
      out.rows.map fun row => (row.mechanism, row.valueAtto)) =
        some [(.precompileReplayIncompatible callText, 7)] := by decide +kernel
  obtain ⟨out, hmain, hrows⟩ := Except.exists_ok_of_map hrun
  refine ⟨out, hmain, hrows, fun ha => ?_⟩
  have hmem : 9 ∈ examined asciiLower quietNode quietScan := by decide
  obtain ⟨row, hrow⟩ : ∃ row, row ∈ rowsAt asciiLower quietNode quietScan 2964 true 9 := by
    have hexamined : examined asciiLower quietNode quietScan = [9] := by decide
    rw [ha.rows, hexamined, List.flatMap_singleton] at hrows
    exact List.exists_mem_of_ne_nil _ fun hnil => by simp [hnil] at hrows
  cases ha.justified 9 hmem quietBlock (by decide) row hrow with
  | native tx mem => exact absurd mem List.not_mem_nil
  | completed list known frame mem decoded attempted done =>
    obtain rfl : [failedCall] = list := Option.some.inj known
    obtain rfl := List.mem_singleton.mp mem
    exact absurd done.error (by decide)
  | attempted _ _ _ _ _ _ proves => exact proves rfl

/-- A native transaction in a range. -/
def sentOver : PlainTx := ⟨['h'], [], [], [], 5, [], 0, 0, 0, 0, 1, 0, 0, 0, 0⟩

def nativeBlock : Block := ⟨9, ['b'], ['a'], 0, 3000, [sentOver], []⟩

def nativeNode : Node where
  byNumber number := if number = 9 then some nativeBlock else none
  byHash _ := none
  header _ := ⟨emptyRoot, ['r']⟩
  traceBlock _ := some []
  traceBlockByHash _ := none

def nativeScan : Scan asciiLower nativeNode where
  shard := 0
  listed := false
  blocks := [nativeBlock]
  xshardBlocks := [⟨9, ['b'], false, true⟩]
  traceBlocks := []
  read := by decide
  flags := by decide
  traced := by simp

theorem attributed_native : ∃ out, main asciiLower nativeNode nativeScan 2964 true = .ok out ∧
    Attributed asciiLower nativeNode nativeScan 2964 true out := by
  have hok : (main asciiLower nativeNode nativeScan 2964 true).toBool = true := by decide +kernel
  obtain ⟨out, hmain⟩ := Except.exists_ok_of_toBool hok
  refine ⟨out, hmain, (attributed_iff asciiLower nativeNode nativeScan 2964 true hmain).mpr fun n hn block _ hcase => ?_⟩
  exact absurd hcase (by simp [framesAt, nativeScan, nativeNode])

end Run

end HarmonyMigration.Archive.AttributeReceipts
