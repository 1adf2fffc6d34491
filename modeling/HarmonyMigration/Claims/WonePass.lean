import HarmonyMigration.Claims.WoneAllocationRun
import HarmonyMigration.Lib.ExceptRun

/-! `ledger_pass` of `verify-wone-allocation.py`: the holder file, the metadata and the three ledgers; what the
summaries record is not compared here. A pass settles every balance once, and the reserve closes. -/

namespace HarmonyMigration.Claims.WoneAllocation

open Erc20 Except Decimal Wone Verify

/-! ### The holder file -/

structure HolderText where
  address : Text
  woneBalanceAtto : Text
  woneBalance : Text

inductive PassError where
  | invalidAddress
  | addressesNotIncreasing
  | notCanonical
  | notPositive
  | fixedMismatch
  | layerzeroHolder
  | ledgers (e : Error)
  | exceedsReserve
  deriving DecidableEq

/-- One row of the holders, after those up to `previous`. -/
def loadHolderRow (previous : Option Address) (row : HolderText) : Except PassError (Address × ℤ) :=
  (ofOption (normalizeAddress row.address) .invalidAddress).bind fun address =>
  (require (previous.all fun a => a.toNat < address.toNat) .addressesNotIncreasing).bind fun _ =>
  (ofOption (parseCanonical row.woneBalanceAtto) .notCanonical).bind fun amount =>
  (require (0 < amount) .notPositive).bind fun _ =>
  (require (row.woneBalance = fixed 18 amount) .fixedMismatch).map fun _ => (address, (amount : ℤ))

def loadHolderRows : Option Address → List HolderText → Except PassError (List (Address × ℤ))
  | _, [] => .ok []
  | previous, row :: rest =>
    (loadHolderRow previous row).bind fun e => (loadHolderRows (some e.1) rest).map fun l => e :: l

/-- The holders and their total. -/
def loadHolders (rows : List HolderText) : Except PassError (Dict Address ℤ × ℤ) :=
  (loadHolderRows none rows).map fun l => (.ofList l, (l.map Prod.snd).sum)

/-! ### The pass -/

structure PassInput where
  keccak : Keccak
  exclusions : List Address
  aggregateRequested : List Address
  cutoffBlock : ℕ
  holders : List HolderText
  metadata : List MetadataText
  native : List Row
  migration : List Row
  threshold : List Row

/-- The exchange wallets that no exclusion suppresses. -/
def PassInput.aggregateDelivery (i : PassInput) : List Address := i.aggregateRequested.filter fun a => a ∉ i.exclusions

def PassInput.context (i : PassInput) (metadata : Metadata) : Context :=
  ⟨i.keccak, i.exclusions, i.aggregateDelivery, metadata, i.cutoffBlock⟩

structure Pass where
  holders : Dict Address ℤ
  reserve : ℤ
  metadata : Metadata
  claimMetrics : Metrics
  special : Dict Address Values
  woneRecipients : List Address
  retained : ℤ

def ledgerPass (i : PassInput) : Except PassError Pass :=
  (loadHolders i.holders).bind fun loaded =>
  (require (apart layerzeroAddresses loaded.1.keys) .layerzeroHolder).bind fun _ =>
  ((loadMetadata loaded.1 i.exclusions i.aggregateDelivery i.metadata).mapError .ledgers).bind fun metadata =>
  ((verifyClaimLedgers (i.context metadata) loaded.1 i.native i.migration i.threshold).mapError .ledgers).bind fun out =>
  (require (0 ≤ loaded.2 - out.1.priorityWone) .exceedsReserve).map fun _ =>
    ⟨loaded.1, loaded.2, metadata, out.1, out.2.1, out.2.2, loaded.2 - out.1.priorityWone⟩

/-! ### What is loaded -/

theorem loadHolderRow_ok {previous : Option Address} {row : HolderText} {e : Address × ℤ}
    (h : loadHolderRow previous row = .ok e) : (∀ a ∈ previous, a.toNat < e.1.toNat) ∧ 0 < e.2 := by
  unfold loadHolderRow at h
  obtain ⟨address, -, h⟩ := ofOption_bind_ok.mp h
  obtain ⟨habove, h⟩ := require_bind_ok.mp h
  obtain ⟨amount, -, h⟩ := ofOption_bind_ok.mp h
  obtain ⟨hpositive, h⟩ := require_bind_ok.mp h
  obtain ⟨_, -, rfl⟩ := of_map_ok h
  refine ⟨fun a ha => ?_, Int.natCast_pos.mpr hpositive⟩
  obtain rfl : previous = some a := ha
  exact of_decide_eq_true habove

theorem loadHolderRows_ok {rows : List HolderText} {previous : Option Address} {l : List (Address × ℤ)}
    (h : loadHolderRows previous rows = .ok l) : (∀ a ∈ previous, ∀ e ∈ l, a.toNat < e.1.toNat) ∧
      (l.Pairwise fun e e' => e.1.toNat < e'.1.toNat) ∧ ∀ e ∈ l, 0 < e.2 := by
  induction rows generalizing previous l with
  | nil =>
    cases h
    simp
  | cons row rest ih =>
    obtain ⟨e, he, h⟩ := of_bind_ok h
    obtain ⟨l', hl', rfl⟩ := of_map_ok h
    obtain ⟨habove, hpositive⟩ := loadHolderRow_ok he
    obtain ⟨hbehind, hincreasing, hrest⟩ := ih hl'
    refine ⟨fun a ha => List.forall_mem_cons.mpr ⟨habove a ha, fun e' he' => ?_⟩, .cons (hbehind _ rfl) hincreasing,
      List.forall_mem_cons.mpr ⟨hpositive, hrest⟩⟩
    exact (habove a ha).trans (hbehind _ rfl e' he')

/-- Every holder has a positive balance, and the total is that of the balances. -/
theorem loadHolders_ok {rows : List HolderText} {holders : Dict Address ℤ} {total : ℤ}
    (h : loadHolders rows = .ok (holders, total)) : (∀ e ∈ holders.entries, 0 < e.2) ∧ total = holders.values.sum := by
  obtain ⟨l, hl, hout⟩ := of_map_ok h
  obtain ⟨rfl, rfl⟩ := Prod.mk.inj hout
  obtain ⟨-, hincreasing, hpositive⟩ := loadHolderRows_ok hl
  have hnodup : (l.map Prod.fst).Nodup :=
    List.pairwise_map.mpr (hincreasing.imp fun hlt heq => absurd (congrArg BitVec.toNat heq) hlt.ne)
  rw [Dict.values, Dict.entries_ofList hnodup]
  exact ⟨hpositive, rfl⟩

/-! ### What a pass says -/

/-- What an address claims in the native ledger. -/
def claimOf (native : List Row) (a : Address) : ℤ :=
  ((native.find? fun n => normalizeAddress (n .address) = some a).map fun n => (value n .totalClaim : ℤ)).getD 0

/-- The overlay `run` of the files: every row is the one that its holder is to have, no row of the native ledger is
missing, the threshold file holds the rows that qualify, and the other rows are those of the holders who are owed
something without a native claim. -/
structure Allocated (ctx : Context) (holders : Dict Address ℤ) (native migration threshold : List Row)
    (run : List Settled) : Prop where
  rows : run.map Settled.row = migration
  natives : run.filterMap Settled.native = native
  copies : List.Forall₂ Copies threshold ((run.filter Settled.qualifies).map Settled.row)
  increasing : run.Pairwise fun e e' => e.values.key < e'.values.key
  settles : ∀ e ∈ run, Settles ctx holders e
  fresh : ∀ a, (∃ e ∈ run, e.native = none ∧ e.values.address = a) ↔
    (∀ n ∈ native, normalizeAddress (n .address) ≠ some a) ∧ owed ctx holders 0 a ≠ 0
  metadata : ∀ a, a ∈ ctx.metadata.keys ↔ ∃ e ∈ run, e.native = none ∧ e.values.address = a

theorem sameSet_iff {l l' : List Address} : sameSet l l' = true ↔ ∀ a, a ∈ l ↔ a ∈ l' := by
  simp only [sameSet, Bool.and_eq_true, within_iff]
  exact ⟨fun h a => ⟨h.1 a, h.2 a⟩, fun h => ⟨fun a => (h a).mp, fun a => (h a).mpr⟩⟩

section Pass
variable {ctx : Context} {holders : Dict Address ℤ} {native migration threshold : List Row} {run : List Settled}

theorem owed_zero_ne {a : Address} (hpositive : ∀ e ∈ holders.entries, 0 < e.2) : owed ctx holders 0 a ≠ 0 ↔
    ∃ w, holders.get? a = some w ∧ (minimum ≤ w ∨ a ∈ ctx.aggregateDelivery) ∧ a ∉ ctx.exclusions := by
  unfold owed
  cases hget : holders.get? a with
  | none => simp [Dict.getD, hget]
  | some w =>
    have hw : w ≠ 0 := (hpositive _ (Dict.get?_eq_some_iff.mp hget)).ne'
    by_cases hexcluded : a ∈ ctx.exclusions
    · simp [hexcluded]
    · have hdue : (w < minimum → a ∈ ctx.aggregateDelivery) ↔ minimum ≤ w ∨ a ∈ ctx.aggregateDelivery := by
        rw [or_iff_not_imp_left, not_le]
      simpa [Dict.getD, hget, hexcluded, hw] using hdue

/-- A native row of the files is the native row of the one settled row with its address. -/
theorem exists_settled_of_native (hnatives : run.filterMap Settled.native = native)
    (hsettles : ∀ e ∈ run, Settles ctx holders e) {n : Row} (hn : n ∈ native) {a : Address}
    (ha : normalizeAddress (n .address) = some a) : ∃ e ∈ run, e.native = some n ∧ e.values.address = a := by
  rw [← hnatives] at hn
  obtain ⟨e, he, hsome⟩ := List.mem_filterMap.mp hn
  have haddress := (validateNativeRow_ok ((hsettles e he).preserved n hsome).1).1
  exact ⟨e, he, hsome, Option.some.inj (haddress.symm.trans ha)⟩

theorem verifyClaimLedgers_ok {out : Metrics × Dict Address Values × List Address}
    (h : verifyClaimLedgers ctx holders native migration threshold = .ok out)
    (hpositive : ∀ e ∈ holders.entries, 0 < e.2) : ∃ run, Allocated ctx holders native migration threshold run ∧
      out.1 = run.foldl (fun m e => m.add e.values) {} ∧
      (∀ a, a ∈ out.2.2 ↔ ∃ e ∈ run, e.values.woneAirdrop ≠ 0 ∧ e.values.address = a) ∧
      out.2.1.entries =
        (run.filter fun e => e.values.address ∈ requiredSpecial).map fun e => (e.values.address, e.values) := by
  unfold verifyClaimLedgers at h
  obtain ⟨thresholdCursor, hthreshold, h⟩ := of_bind_ok h
  obtain ⟨nativeCursor, hnative, h⟩ := of_bind_ok h
  obtain ⟨⟨threshold', s⟩, hwalk, h⟩ := of_bind_ok h
  obtain ⟨_, hfinish, h⟩ := of_bind_ok h
  obtain ⟨⟨hmetadata, hseen⟩, h⟩ := require_bind_ok.mp h
  obtain ⟨_, -, rfl⟩ := of_map_ok h
  obtain ⟨hthresholdRows, hthresholdRead⟩ := pop_ok hthreshold
  obtain ⟨hnativeRows, hnativeRead⟩ := pop_ok hnative
  obtain ⟨run, hrun⟩ := walked hwalk hnativeRead hthresholdRead
  have hnatives : run.filterMap Settled.native = native := hrun.natives.trans hnativeRows
  have hfresh : ∀ a, a ∈ s.seenMetadata ↔ ∃ e ∈ run, e.native = none ∧ e.values.address = a := by
    intro a
    rw [hrun.seen]
    exact or_iff_right List.not_mem_nil
  -- a marked balance is negative, and every other one is the holder's
  have hexpected : ∀ a, a ∈ expectedMetadata ctx s.holders ↔
      (∀ n ∈ native, normalizeAddress (n .address) ≠ some a) ∧ owed ctx holders 0 a ≠ 0 := by
    intro a
    rw [owed_zero_ne hpositive, expectedMetadata, List.mem_map]
    by_cases hclaims : ∃ e ∈ run, e.native.isSome ∧ e.values.address = a
    · obtain ⟨e, he, hsome, rfl⟩ := hclaims
      obtain ⟨n, hn⟩ := Option.isSome_iff_exists.mp hsome
      have hmem : n ∈ native := hnatives ▸ List.mem_filterMap.mpr ⟨e, he, hn⟩
      have haddress := (validateNativeRow_ok ((hrun.settles e he).preserved n hn).1).1
      refine ⟨?_, fun h => absurd haddress (h.1 n hmem)⟩
      rintro ⟨⟨a, w⟩, hw, rfl⟩
      obtain ⟨hentry, hdue⟩ := List.mem_filter.mp hw
      have hget := hrun.marked e he hsome
      rw [Dict.get?_eq_some_iff.mpr hentry] at hget
      obtain ⟨w₀, hw₀, hneg⟩ := Option.map_eq_some_iff.mp hget.symm
      have hw₀pos : 0 < w₀ := hpositive _ (Dict.get?_eq_some_iff.mp hw₀)
      have hwpos : 0 < w := (of_decide_eq_true hdue).1
      omega
    · have hnone : ∀ n ∈ native, normalizeAddress (n .address) ≠ some a := by
        intro n hn ha
        obtain ⟨e, he, hsome, haddress⟩ := exists_settled_of_native hnatives hrun.settles hn ha
        exact hclaims ⟨e, he, by rw [hsome]; rfl, haddress⟩
      have hkept : s.holders.get? a = holders.get? a :=
        hrun.kept a fun e he hsome haddress => hclaims ⟨e, he, hsome, haddress⟩
      rw [and_iff_right hnone, ← hkept]
      constructor
      · rintro ⟨⟨a, w⟩, hw, rfl⟩
        obtain ⟨hentry, hdue⟩ := List.mem_filter.mp hw
        obtain ⟨-, hdue, hexcluded⟩ := of_decide_eq_true hdue
        exact ⟨w, Dict.get?_eq_some_iff.mpr hentry, hdue, hexcluded⟩
      · rintro ⟨w, hw, hdue, hexcluded⟩
        have hwpos : 0 < w := hpositive _ (Dict.get?_eq_some_iff.mp (hkept ▸ hw))
        exact ⟨(a, w), List.mem_filter.mpr ⟨Dict.get?_eq_some_iff.mp hw, decide_eq_true ⟨hwpos, hdue, hexcluded⟩⟩, rfl⟩
  obtain ⟨copies, hcopies, hcopied⟩ := hrun.copied
  have hend : threshold'.rows = [] :=
    hrun.wellRead.rows_eq_nil (Option.isNone_iff_eq_none.mp (of_require_ok hfinish))
  rw [hthresholdRows, hend, List.append_nil] at hcopies
  refine ⟨run, ⟨hrun.rows, hnatives, hcopies ▸ hcopied, hrun.increasing, hrun.settles, fun a => ?_, fun a => ?_⟩,
    hrun.metrics, fun a => ?_, ?_⟩
  · rw [← hfresh, sameSet_iff.mp hseen, hexpected]
  · rw [← hfresh, sameSet_iff.mp hseen, sameSet_iff.mp hmetadata]
  · rw [hrun.recipients]
    exact or_iff_right List.not_mem_nil
  · exact hrun.special

namespace Allocated

theorem addresses_nodup (h : Allocated ctx holders native migration threshold run) :
    (run.map fun e => e.values.address).Nodup := by
  refine List.pairwise_map.mpr (h.increasing.imp_of_mem fun he he' hlt heq => ?_)
  rw [(h.settles _ he).key, (h.settles _ he').key, heq] at hlt
  exact lt_irrefl _ hlt

theorem eq_of_address (h : Allocated ctx holders native migration threshold run) {e e' : Settled} (he : e ∈ run)
    (he' : e' ∈ run) (haddress : e.values.address = e'.values.address) : e = e' :=
  List.inj_on_of_nodup_map h.addresses_nodup he he' haddress

/-- A row's native claim is the one of its address. -/
theorem claimOf_eq (h : Allocated ctx holders native migration threshold run) {e : Settled} (he : e ∈ run) :
    claimOf native e.values.address = e.nativeAmount .totalClaim := by
  unfold claimOf Settled.nativeAmount
  refine congrArg (fun o : Option Row => (o.map fun n => (value n .totalClaim : ℤ)).getD 0) ?_
  cases hnative : e.native with
  | none =>
    refine List.find?_eq_none.mpr fun n hn ha => ?_
    obtain ⟨e', he', hsome, haddress⟩ := exists_settled_of_native h.natives h.settles hn (of_decide_eq_true ha)
    rw [h.eq_of_address he' he haddress, hnative] at hsome
    cases hsome
  | some n =>
    have hn : n ∈ native := h.natives ▸ List.mem_filterMap.mpr ⟨e, he, hnative⟩
    have ha := (validateNativeRow_ok ((h.settles e he).preserved n hnative).1).1
    have hsome : (native.find? fun n => normalizeAddress (n .address) = some e.values.address).isSome :=
      List.find?_isSome.mpr ⟨n, hn, decide_eq_true ha⟩
    obtain ⟨n', hfound⟩ := Option.isSome_iff_exists.mp hsome
    have hmatches : normalizeAddress (n' .address) = some e.values.address := by simpa using List.find?_some hfound
    obtain ⟨e', he', hsome, haddress⟩ := exists_settled_of_native h.natives h.settles
      (List.mem_of_find?_eq_some hfound) hmatches
    rw [h.eq_of_address he' he haddress, hnative] at hsome
    rw [hfound, Option.some.inj hsome]

theorem woneAirdrop_eq (h : Allocated ctx holders native migration threshold run) {e : Settled} (he : e ∈ run) :
    e.values.woneAirdrop = owed ctx holders (claimOf native e.values.address) e.values.address := by
  rw [h.claimOf_eq he]
  exact (h.settles e he).woneAirdrop

theorem owed_of_notMem {a : Address} {nativeTotal : ℤ} (ha : a ∉ holders.keys) : owed ctx holders nativeTotal a = 0 := by
  unfold owed
  rw [Dict.getD_of_notMem ha]
  simp

/-- Every holder who is owed something has a row. -/
theorem exists_row (h : Allocated ctx holders native migration threshold run) {a : Address}
    (howed : owed ctx holders (claimOf native a) a ≠ 0) : ∃ e ∈ run, e.values.address = a := by
  by_cases hclaims : ∃ n ∈ native, normalizeAddress (n .address) = some a
  · obtain ⟨n, hn, ha⟩ := hclaims
    obtain ⟨e, he, -, haddress⟩ := exists_settled_of_native h.natives h.settles hn ha
    exact ⟨e, he, haddress⟩
  · push Not at hclaims
    have hzero : claimOf native a = 0 := by
      rw [claimOf, List.find?_eq_none.mpr fun n hn ha => hclaims n hn (of_decide_eq_true ha)]
      rfl
    obtain ⟨e, he, -, haddress⟩ := (h.fresh a).mpr ⟨hclaims, hzero ▸ howed⟩
    exact ⟨e, he, haddress⟩

/-- Over the rows of the overlay every holder's due is met once. -/
theorem sum_woneAirdrop (h : Allocated ctx holders native migration threshold run) :
    (run.map fun e => e.values.woneAirdrop).sum =
      (holders.keys.map fun a => owed ctx holders (claimOf native a) a).sum := by
  have hrows : (run.map fun e => e.values.woneAirdrop).sum =
      ((run.map fun e => e.values.address).map fun a => owed ctx holders (claimOf native a) a).sum := by
    rw [List.map_map]
    exact congrArg List.sum (List.map_congr_left fun e he => h.woneAirdrop_eq he)
  rw [hrows]
  refine Dict.sum_map_eq_of_support h.addresses_nodup holders.nodup fun a howed => ⟨fun _ => ?_, fun _ => ?_⟩
  · by_contra hout
    exact howed (owed_of_notMem hout)
  · obtain ⟨e, he, haddress⟩ := h.exists_row howed
    exact List.mem_map.mpr ⟨e, he, haddress⟩

theorem sum_nativeTotal (h : Allocated ctx holders native migration threshold run) :
    (run.map fun e => e.values.nativeTotal).sum = (native.map fun n => (value n .totalClaim : ℤ)).sum := by
  rw [← h.natives]
  have hsettles := h.settles
  clear h
  induction run with
  | nil => rfl
  | cons e run ih =>
    obtain ⟨he, hrun⟩ := List.forall_mem_cons.mp hsettles
    rw [List.map_cons, List.sum_cons, ih hrun, he.nativeTotal, Settled.nativeAmount, List.filterMap_cons]
    cases e.native with
    | none => exact zero_add _
    | some n => rfl

end Allocated

theorem foldl_add {p : Metrics → ℤ} {g : Values → ℤ} (h : ∀ m v, p (m.add v) = p m + g v) (run : List Settled) (m : Metrics) :
    p (run.foldl (fun m e => m.add e.values) m) = p m + (run.map fun e => g e.values).sum := by
  induction run generalizing m with
  | nil => simp
  | cons e run ih => rw [List.foldl_cons, ih, h, List.map_cons, List.sum_cons, add_assoc]

theorem owed_le {a : Address} {nativeTotal : ℤ} (hpositive : ∀ e ∈ holders.entries, 0 < e.2) :
    owed ctx holders nativeTotal a ≤ holders.getD a 0 := by
  have hnonneg : 0 ≤ holders.getD a 0 := by
    cases hget : holders.get? a with
    | none => rw [Dict.getD, hget]; rfl
    | some w =>
      rw [Dict.getD, hget]
      exact (hpositive _ (Dict.get?_eq_some_iff.mp hget)).le
  unfold owed
  dsimp only
  split_ifs <;> simp [hnonneg]

/-- The copies in the threshold file add up as the rows that qualify. -/
theorem Allocated.sum_threshold (h : Allocated ctx holders native migration threshold run) :
    (threshold.map fun t => (value t .totalClaim : ℤ)).sum =
      ((run.filter Settled.qualifies).map fun e => e.values.total).sum := by
  have hsettles : ∀ e ∈ run.filter Settled.qualifies, Settles ctx holders e :=
    fun e he => h.settles e (List.mem_of_mem_filter he)
  have hvalue : ∀ e ∈ run.filter Settled.qualifies, (value e.row .totalClaim : ℤ) = e.values.total := by
    intro e he
    obtain ⟨⟨n, hn, hcast⟩, -⟩ := (hsettles e he).columns (.totalClaim, e.values.total) (by simp [Values.expected])
    rw [value, hn]
    exact hcast
  have hcopies : threshold.map (fun t => (value t .totalClaim : ℤ)) =
      ((run.filter Settled.qualifies).map Settled.row).map fun t => (value t .totalClaim : ℤ) := by
    refine map_eq_of_forall₂ h.copies fun t row hcopy => ?_
    rw [value, value, hcopy (.atto .totalClaim) (by simp [migrationFields, nativeFields, componentNames])]
  rw [hcopies, List.map_map]
  exact congrArg List.sum (List.map_congr_left hvalue)

end Pass

/-! ### The whole pass -/

/-- The steps of a pass. -/
structure Passed (i : PassInput) (out : Pass) : Prop where
  positive : ∀ e ∈ out.holders.entries, 0 < e.2
  reserve : out.reserve = out.holders.values.sum
  ledgers : verifyClaimLedgers (i.context out.metadata) out.holders i.native i.migration i.threshold =
    .ok (out.claimMetrics, out.special, out.woneRecipients)
  retained : out.retained = out.reserve - out.claimMetrics.priorityWone

theorem ledgerPass_ok {i : PassInput} {out : Pass} (h : ledgerPass i = .ok out) : Passed i out := by
  obtain ⟨⟨holders, total⟩, hloaded, h⟩ := of_bind_ok h
  obtain ⟨-, h⟩ := require_bind_ok.mp h
  obtain ⟨metadata, -, h⟩ := of_bind_ok h
  obtain ⟨⟨metrics, special, recipients⟩, hledgers, h⟩ := of_bind_ok h
  obtain ⟨_, -, rfl⟩ := of_map_ok h
  obtain ⟨hpositive, htotal⟩ := loadHolders_ok hloaded
  exact ⟨hpositive, htotal, mapError_ok hledgers, rfl⟩

/-- The files of a pass hold the overlay, and the recipients are the holders who are owed something. -/
theorem ledgerPass_sound {i : PassInput} {out : Pass} (h : ledgerPass i = .ok out) : ∃ run,
    Allocated (i.context out.metadata) out.holders i.native i.migration i.threshold run ∧
    (∀ a, a ∈ out.woneRecipients ↔ owed (i.context out.metadata) out.holders (claimOf i.native a) a ≠ 0) ∧
    out.special.entries =
      (run.filter fun e => e.values.address ∈ requiredSpecial).map fun e => (e.values.address, e.values) := by
  have hpassed := ledgerPass_ok h
  obtain ⟨run, hrun, -, hrecipients, hspecial⟩ := verifyClaimLedgers_ok hpassed.ledgers hpassed.positive
  refine ⟨run, hrun, fun a => (hrecipients a).trans ⟨?_, fun howed => ?_⟩, hspecial⟩
  · rintro ⟨e, he, hdelivers, rfl⟩
    rwa [← hrun.woneAirdrop_eq he]
  · obtain ⟨e, he, rfl⟩ := hrun.exists_row howed
    exact ⟨e, he, by rwa [hrun.woneAirdrop_eq he], rfl⟩

/-- What the ledgers deliver is within the reserve. -/
theorem priorityWone_eq {i : PassInput} {holders : Dict Address ℤ} {metadata : Metadata}
    {out : Metrics × Dict Address Values × List Address} (hpositive : ∀ e ∈ holders.entries, 0 < e.2)
    (h : verifyClaimLedgers (i.context metadata) holders i.native i.migration i.threshold = .ok out) :
    out.1.priorityWone =
        (holders.keys.map fun a => owed (i.context metadata) holders (claimOf i.native a) a).sum ∧
      out.1.priorityWone ≤ holders.values.sum := by
  obtain ⟨run, hrun, hmetrics, -, -⟩ := verifyClaimLedgers_ok h hpositive
  have hsum : out.1.priorityWone = (run.map fun e => e.values.woneAirdrop).sum := by
    rw [hmetrics, foldl_add (fun _ _ => rfl) (p := fun m => m.priorityWone) (g := fun v => v.woneAirdrop)]
    exact zero_add _
  rw [hsum, hrun.sum_woneAirdrop]
  refine ⟨rfl, ?_⟩
  rw [← Dict.sum_getD holders.nodup fun _ hk => hk]
  exact List.sum_le_sum fun a _ => owed_le hpositive

theorem loadHolderRows_ne_error (rows : List HolderText) (previous : Option Address) :
    loadHolderRows previous rows ≠ .error .exceedsReserve := by
  induction rows generalizing previous with
  | nil => exact fun h => by cases h
  | cons row rest ih =>
    refine bind_ne_error ?_ fun e _ => map_ne_error (ih (some e.1))
    refine bind_ne_error (ofOption_ne_error (by decide)) fun address _ => ?_
    refine bind_ne_error (require_ne_error (by decide)) fun _ _ => ?_
    refine bind_ne_error (ofOption_ne_error (by decide)) fun amount _ => ?_
    refine bind_ne_error (require_ne_error (by decide)) fun _ _ => ?_
    exact map_ne_error (require_ne_error (by decide))

/-- What is owed never exceeds the reserve, so that the last check does not fail. -/
theorem ledgerPass_ne_exceedsReserve (i : PassInput) : ledgerPass i ≠ .error .exceedsReserve := by
  refine bind_ne_error (map_ne_error (loadHolderRows_ne_error i.holders none)) fun loaded hloaded => ?_
  refine bind_ne_error (require_ne_error (by decide)) fun _ _ => ?_
  refine bind_ne_error (mapError_ne_error fun e h => by cases h) fun metadata _ => ?_
  refine bind_ne_error (mapError_ne_error fun e h => by cases h) fun out hout => ?_
  obtain ⟨hpositive, htotal⟩ := loadHolders_ok hloaded
  have hle := (priorityWone_eq hpositive (mapError_ok hout)).2
  rw [require_ok (by omega)]
  exact fun h => by cases h

/-- The reserve is what the holders are owed and what stays behind, the total is the native one and what is
delivered, and the last check never fails. -/
theorem ledgerPass_closes (i : PassInput) : ledgerPass i ≠ .error .exceedsReserve ∧ ∀ out, ledgerPass i = .ok out →
    out.claimMetrics.priorityWone =
      (out.holders.keys.map fun a => owed (i.context out.metadata) out.holders (claimOf i.native a) a).sum ∧
    out.claimMetrics.priorityWone + out.retained = out.reserve ∧ out.reserve = out.holders.values.sum ∧
    0 ≤ out.retained ∧
    out.claimMetrics.total = (i.native.map fun n => (value n .totalClaim : ℤ)).sum + out.claimMetrics.priorityWone ∧
    out.claimMetrics.wallet + out.claimMetrics.staked = out.claimMetrics.total ∧
    out.claimMetrics.thresholdTotal = (i.threshold.map fun t => (value t .totalClaim : ℤ)).sum := by
  refine ⟨ledgerPass_ne_exceedsReserve i, fun out h => ?_⟩
  have hpassed := ledgerPass_ok h
  obtain ⟨run, hrun, hmetrics, -, -⟩ := verifyClaimLedgers_ok hpassed.ledgers hpassed.positive
  obtain ⟨howed, hle⟩ := priorityWone_eq hpassed.positive hpassed.ledgers
  dsimp only at howed hle
  have hretained := hpassed.retained
  have hreserve := hpassed.reserve
  have hfield := fun p g hp => (congrArg p hmetrics).trans (foldl_add (p := p) (g := g) hp run {})
  have hpriority := hfield (fun m => m.priorityWone) (fun v => v.woneAirdrop) fun _ _ => rfl
  have htotal := hfield (fun m => m.total) (fun v => v.total) fun _ _ => rfl
  have hwallet := hfield (fun m => m.wallet) (fun v => v.wallet) fun _ _ => rfl
  have hstaked := hfield (fun m => m.staked) (fun v => v.staked) fun _ _ => rfl
  have hthreshold := hfield (fun m => m.thresholdTotal) (fun v => if minimum ≤ v.qualification then v.total else 0)
    fun _ _ => rfl
  dsimp only at hpriority htotal hwallet hstaked hthreshold
  rw [zero_add] at hpriority htotal hwallet hstaked hthreshold
  refine ⟨howed, by omega, hreserve, by omega, ?_, ?_, ?_⟩
  · rw [htotal, hpriority, ← hrun.sum_nativeTotal, ← List.sum_map_add]
    exact congrArg List.sum (List.map_congr_left fun e he => (hrun.settles e he).total)
  · rw [htotal, hwallet, hstaked, ← List.sum_map_add]
    exact congrArg List.sum (List.map_congr_left fun e he => (hrun.settles e he).closes)
  · rw [hthreshold, hrun.sum_threshold]
    exact (Dict.sum_filter_eq (fun e : Settled => minimum ≤ e.values.qualification) run).symm

/-! ### A pass -/

def plainKeccak : Keccak := { plainHash with digest := fun _ => 0 }

/-- A native row with `liquid` on shard 0. -/
def plainRow (a : Address) (liquid : ℕ) : Row
  | .secureKey => secureKeyText plainKeccak a
  | .address | .addressOrSecureKey => Hex.render 40 a.toNat
  | .addressResolved => "true".toList
  | .valuationPriceUsdPerOne => "0.5".toList
  | .atto .liquidShard0 | .atto .liquidTotal | .atto .walletAirdrop | .atto .totalClaim => render liquid
  | .one .liquidShard0 | .one .liquidTotal | .one .walletAirdrop | .one .totalClaim => fixed 18 liquid
  | .one _ => fixed 18 0
  | .walletAirdropUsd | .totalUsd => usdText 1 (usd ⟨5, 1⟩ liquid)
  | _ => "0".toList

/-- The row of `plainRow` with `wone` more, `delivered` of it given. -/
def plainOverlay (row : Row) (liquid wone delivered : ℕ) : Row
  | .atto .woneBalance => render wone
  | .atto .woneAirdrop => render delivered
  | .atto .nativeWalletAirdrop | .atto .nativeTotalClaim => render liquid
  | .atto .qualificationTotal => render (liquid + wone)
  | .atto .walletAirdrop | .atto .totalClaim => render (liquid + delivered)
  | .one .woneBalance => fixed 18 wone
  | .one .woneAirdrop => fixed 18 delivered
  | .one .nativeWalletAirdrop | .one .nativeTotalClaim => fixed 18 liquid
  | .one .qualificationTotal => fixed 18 (liquid + wone : ℕ)
  | .one .walletAirdrop | .one .totalClaim => fixed 18 (liquid + delivered : ℕ)
  | .walletAirdropUsd | .totalUsd => usdText 1 (usd ⟨5, 1⟩ (liquid + delivered : ℕ))
  | .nonceShard1 | .codeHashShard1 => if liquid = 0 ∧ wone ≠ 0 then [] else "0".toList
  | .codeHashShard0 => if liquid = 0 ∧ wone ≠ 0 then emptyCodeHash else "0".toList
  | f => row f

def plainHolder (a : Address) (wone : ℕ) : HolderText := ⟨Hex.render 40 a.toNat, render wone, fixed 18 wone⟩

/-- A holder with a native claim, one below the minimum, one without a claim, and the contract's collateral. -/
def plainPass : PassInput where
  keccak := plainKeccak
  exclusions := [9]
  aggregateRequested := [9]
  cutoffBlock := 0
  holders := [plainHolder 5 (10 ^ 18), plainHolder 6 2, plainHolder 7 (10 ^ 21), plainHolder 9 3]
  metadata := [⟨Hex.render 40 7, render (10 ^ 21), render (10 ^ 21), "false".toList, "0".toList, emptyCodeHash,
    "code_less".toList⟩]
  native := [plainRow 5 (10 ^ 21), plainRow 6 1] ++
    (layerzeroAddresses ++ [woneAddress]).map fun a => plainRow a 4
  migration := [plainOverlay (plainRow 5 (10 ^ 21)) (10 ^ 21) (10 ^ 18) (10 ^ 18), plainOverlay (plainRow 6 1) 1 2 0,
      plainOverlay (plainRow 7 0) 0 (10 ^ 21) (10 ^ 21)] ++
    (layerzeroAddresses ++ [woneAddress]).map fun a => plainOverlay (plainRow a 4) 4 0 0
  threshold := [plainOverlay (plainRow 5 (10 ^ 21)) (10 ^ 21) (10 ^ 18) (10 ^ 18),
    plainOverlay (plainRow 7 0) 0 (10 ^ 21) (10 ^ 21)]

/-- Five atto stay behind: those of the excluded holder and those below the minimum. -/
theorem plainPass_ok : ∃ out, ledgerPass plainPass = .ok out ∧ out.retained = 5 :=
  Except.exists_ok_of_map (f := Pass.retained) (by decide +kernel)

theorem plainPass_sound : ∃ out run, ledgerPass plainPass = .ok out ∧
    Allocated (plainPass.context out.metadata) out.holders plainPass.native plainPass.migration plainPass.threshold run := by
  obtain ⟨out, hout, -⟩ := plainPass_ok
  obtain ⟨run, hrun, -, -⟩ := ledgerPass_sound hout
  exact ⟨out, run, hout, hrun⟩

theorem plainPass_closes : ∃ out, ledgerPass plainPass = .ok out ∧ out.retained = 5 ∧
    out.claimMetrics.priorityWone + out.retained = out.reserve := by
  obtain ⟨out, hout, hretained⟩ := plainPass_ok
  exact ⟨out, hout, hretained, ((ledgerPass_closes plainPass).2 out hout).2.1⟩

end HarmonyMigration.Claims.WoneAllocation
