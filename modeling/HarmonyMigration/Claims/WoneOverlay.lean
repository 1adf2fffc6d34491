import HarmonyMigration.Claims.Wone
import HarmonyMigration.Lib.SortedBy

/-! The WONE overlay delivers every holder's balance once, and what it does not deliver is what
stays in the reserve. -/

namespace HarmonyMigration.Claims.Wone

open Erc20 Except
open scoped List

theorem applyOverlay_ok {row : NativeRow} {wone : ℤ} {threshold : ℕ} {agg : Bool} {r : ClaimRow}
    (h : applyOverlay row wone threshold agg = .ok r) :
    r.key = row.key ∧ r.address = row.address ∧ r.staked = row.staked ∧ r.nativeWallet = row.wallet ∧
      r.nativeTotal = row.total ∧ r.woneBalance = wone ∧ r.qualificationTotal = row.total + wone ∧
      r.woneAirdrop = (if (threshold : ℤ) ≤ row.total + wone ∨ agg then wone else 0) ∧
      r.wallet = row.wallet + r.woneAirdrop ∧ r.total = row.total + r.woneAirdrop := by
  unfold applyOverlay at h
  cases hp : row.price with
  | none => simp [hp] at h
  | some p =>
    rw [hp] at h
    obtain rfl := Except.ok.inj h
    exact ⟨rfl, rfl, rfl, rfl, rfl, rfl, rfl, rfl, rfl, rfl⟩

section Merge
variable {i : Input} {holders : Dict Address ℤ} {reserve : ℤ}

def airdropSum (rows : List ClaimRow) : ℤ := (rows.map ClaimRow.woneAirdrop).sum

@[simp] theorem airdropSum_nil : airdropSum [] = 0 := rfl

@[simp] theorem airdropSum_cons (r : ClaimRow) (rows : List ClaimRow) :
    airdropSum (r :: rows) = r.woneAirdrop + airdropSum rows := by simp [airdropSum]

@[simp] theorem airdropSum_append (rows rows' : List ClaimRow) :
    airdropSum (rows ++ rows') = airdropSum rows + airdropSum rows' := by simp [airdropSum]

theorem emitNew_foldl (m : ℕ) (l : List ClaimRow) (s : Totals) :
    (l.foldl (emitNew m) s).rows = s.rows ++ l ∧
      (l.foldl (emitNew m) s).delivered = s.delivered + airdropSum l ∧
      (l.foldl (emitNew m) s).nativeTotal = s.nativeTotal ∧
      (l.foldl (emitNew m) s).candidates = s.candidates ∧
      (l.foldl (emitNew m) s).contractSeen = s.contractSeen := by
  induction l generalizing s with
  | nil => simp
  | cons r l ih =>
    obtain ⟨h1, h2, h3, h4, h5⟩ := ih (emitNew m s r)
    refine ⟨?_, ?_, h3, h4, h5⟩
    · rw [List.foldl_cons, h1]
      simp [emitNew]
    · rw [List.foldl_cons, h2, airdropSum_cons]
      simp only [emitNew]
      ring

/-- The row a native row becomes. -/
def Overlaid (i : Input) (holders : Dict Address ℤ) (row : NativeRow) (r : ClaimRow) : Prop :=
  validNative row ∧ applyOverlay row (holders.getD row.address 0) i.minimumOne (i.aggregate row.address) = .ok r

/-- The holder would be delivered even without a native claim. -/
def Candidate (i : Input) (holders : Dict Address ℤ) (a : Address) : Prop :=
  (i.minimumOne : ℤ) ≤ holders.getD a 0 ∨ i.aggregate a

theorem emitNative_ok {s t : Totals} {row : NativeRow} (h : emitNative i holders reserve s row = .ok t) :
    ∃ r, Overlaid i holders row r ∧ (row.address = woneAddress → row.liquidShard0 = reserve) ∧
      t.rows = s.rows ++ [r] ∧ t.delivered = s.delivered + r.woneAirdrop ∧
      t.nativeTotal = s.nativeTotal + row.total ∧
      (∀ a, a ∈ t.candidates ↔ a ∈ s.candidates ∨ a = row.address ∧ Candidate i holders a) ∧
      (t.contractSeen = true ↔ s.contractSeen = true ∨ row.address = woneAddress) := by
  unfold emitNative at h
  simp only [require_bind_ok] at h
  obtain ⟨hvalid, h⟩ := h
  obtain ⟨r, hr, h⟩ := of_bind_ok h
  simp only [require_bind_ok] at h
  obtain ⟨-, hreserve, h⟩ := h
  obtain rfl := Except.ok.inj h
  refine ⟨r, ⟨hvalid, hr⟩, hreserve, rfl, rfl, rfl, fun a => ?_, by simp⟩
  dsimp only
  split_ifs with hc
  · rw [List.mem_cons]
    constructor
    · rintro (rfl | ha)
      · exact Or.inr ⟨rfl, hc⟩
      · exact Or.inl ha
    · rintro (ha | ⟨rfl, -⟩)
      · exact Or.inr ha
      · exact Or.inl rfl
  · exact ⟨Or.inl, Or.rec id fun ⟨ha, hca⟩ => absurd (ha ▸ hca) hc⟩

/-- What the merge writes, from any totals on. -/
structure Merged (i : Input) (holders : Dict Address ℤ) (reserve : ℤ) (native : List NativeRow)
    (new : List ClaimRow) (s t : Totals) (old merged : List ClaimRow) : Prop where
  rows : t.rows = s.rows ++ merged
  overlaid : List.Forall₂ (Overlaid i holders) native old
  perm : merged.Perm (old ++ new)
  increasing : merged.Pairwise fun a b => a.key < b.key
  delivered : t.delivered = s.delivered + airdropSum merged
  nativeTotal : t.nativeTotal = s.nativeTotal + (native.map NativeRow.total).sum
  candidates : ∀ a, a ∈ t.candidates ↔ a ∈ s.candidates ∨ a ∈ native.map NativeRow.address ∧ Candidate i holders a
  contractSeen : t.contractSeen = true ↔ s.contractSeen = true ∨ woneAddress ∈ native.map NativeRow.address
  reserve : ∀ row ∈ native, row.address = woneAddress → row.liquidShard0 = reserve

/-- The merge of two increasing sources, by induction on the native rows. -/
theorem merge_ok {native : List NativeRow} {previous : Option ℕ} {new : List ClaimRow} {s t : Totals}
    (h : merge i holders reserve native previous new s = .ok t)
    (hnew : new.Pairwise fun a b => a.key < b.key) (hprev : ∀ k ∈ previous, ∀ r ∈ new, k < r.key) :
    ∃ old merged, Merged i holders reserve native new s t old merged ∧
      ∀ k ∈ previous, ∀ r ∈ merged, k < r.key := by
  induction native generalizing previous new s with
  | nil =>
    obtain rfl := Except.ok.inj h
    obtain ⟨h1, h2, h3, h4, h5⟩ := emitNew_foldl i.minimumOne new s
    exact ⟨[], new, ⟨h1, .nil, .refl _, hnew, h2, by simp [h3], by simp [h4], by simp [h5], by simp⟩, hprev⟩
  | cons row rest ih =>
    simp only [merge, require_bind_ok] at h
    obtain ⟨hlt, hhead, h⟩ := h
    obtain ⟨s', hs', h⟩ := of_bind_ok h
    have hdrop := SortedBy.lt_of_mem_dropWhile hnew hhead
    have hsub : (new.dropWhile fun r => r.key < row.key).Sublist new := List.dropWhile_sublist _
    obtain ⟨old, merged, hm, hgt⟩ := ih h (hnew.sublist hsub) (by simpa using hdrop)
    obtain ⟨r, hr, hreserve, hrows, hdel, hnat, hcand, hseen⟩ := emitNative_ok hs'
    obtain ⟨f1, f2, f3, f4, f5⟩ := emitNew_foldl i.minimumOne (new.takeWhile fun r => r.key < row.key) s
    have hkey : r.key = row.key := (applyOverlay_ok hr.2).1
    have htake : ∀ x ∈ new.takeWhile fun r => r.key < row.key, x.key < row.key := fun x hx => by
      simpa using List.all_eq_true.mp List.all_takeWhile x hx
    have hgt' : ∀ x ∈ merged, row.key < x.key := hgt row.key rfl
    refine ⟨r :: old, (new.takeWhile fun r => r.key < row.key) ++ r :: merged, ⟨?_, .cons hr hm.overlaid, ?_, ?_, ?_,
      ?_, ?_, ?_, ?_⟩, ?_⟩
    · rw [hm.rows, hrows, f1]
      simp
    · calc (new.takeWhile fun r => r.key < row.key) ++ r :: merged
        _ ~ r :: ((new.takeWhile fun r => r.key < row.key) ++ merged) := List.perm_middle
        _ ~ r :: ((new.takeWhile fun r => r.key < row.key) ++
            (old ++ new.dropWhile fun r => r.key < row.key)) := (hm.perm.append_left _).cons _
        _ ~ r :: (old ++ ((new.takeWhile fun r => r.key < row.key) ++
            new.dropWhile fun r => r.key < row.key)) := by
          refine List.Perm.cons _ ?_
          rw [← List.append_assoc, ← List.append_assoc]
          exact List.perm_append_comm.append_right _
        _ = r :: old ++ new := by rw [List.takeWhile_append_dropWhile, List.cons_append]
    · refine List.pairwise_append.mpr ⟨hnew.sublist (List.takeWhile_sublist _), ?_, ?_⟩
      · exact List.pairwise_cons.mpr ⟨fun x hx => hkey ▸ hgt' x hx, hm.increasing⟩
      · rintro x hx y (_ | ⟨_, hy⟩)
        · exact hkey ▸ htake x hx
        · exact (htake x hx).trans (hgt' y hy)
    · rw [hm.delivered, hdel, f2, airdropSum_append, airdropSum_cons]
      ring
    · rw [hm.nativeTotal, hnat, f3, List.map_cons, List.sum_cons]
      ring
    · intro a
      rw [hm.candidates, hcand, f4, List.map_cons, List.mem_cons]
      tauto
    · rw [hm.contractSeen, hseen, f5, List.map_cons, List.mem_cons, eq_comm (a := woneAddress)]
      tauto
    · rintro x (_ | ⟨_, hx⟩)
      · exact hreserve
      · exact hm.reserve x hx
    · intro k hk x hx
      have hrow := hlt k hk
      rcases List.mem_append.mp hx with hx | hx
      · exact hprev k hk x ((List.takeWhile_sublist _).subset hx)
      · rcases List.mem_cons.mp hx with rfl | hx
        · exact hkey ▸ hrow
        · exact hrow.trans (hgt' x hx)

theorem emitNew_foldl_staked (m : ℕ) (l : List ClaimRow) (s : Totals) : (l.foldl (emitNew m) s).staked = s.staked := by
  induction l generalizing s with
  | nil => rfl
  | cons r l ih => exact ih (emitNew m s r)

/-- What the merge demands of the native rows, and their stake. -/
theorem merge_native {native : List NativeRow} {previous : Option ℕ} {new : List ClaimRow} {s t : Totals}
    (h : merge i holders reserve native previous new s = .ok t) :
    (native.Pairwise fun a b => a.key < b.key) ∧ (∀ k ∈ previous, ∀ row ∈ native, k < row.key) ∧
      t.staked = s.staked + (native.map NativeRow.staked).sum := by
  induction native generalizing previous new s with
  | nil =>
    obtain rfl := Except.ok.inj h
    exact ⟨.nil, by simp, by simp [emitNew_foldl_staked]⟩
  | cons row rest ih =>
    simp only [merge, require_bind_ok] at h
    obtain ⟨hlt, -, h⟩ := h
    obtain ⟨s', hs', h⟩ := of_bind_ok h
    obtain ⟨hkeys, hafter, hstaked⟩ := ih h
    have hrow : s'.staked = s.staked + row.staked := by
      unfold emitNative at hs'
      simp only [require_bind_ok] at hs'
      obtain ⟨r, -, hs'⟩ := of_bind_ok hs'.2
      simp only [require_bind_ok] at hs'
      obtain rfl := Except.ok.inj hs'.2.2
      rw [← emitNew_foldl_staked i.minimumOne (new.takeWhile fun r => r.key < row.key) s]
    refine ⟨List.pairwise_cons.mpr ⟨hafter row.key rfl, hkeys⟩, fun k hk x hx => ?_, ?_⟩
    · rcases List.mem_cons.mp hx with rfl | hx
      · exact hlt k hk
      · exact (hlt k hk).trans (hafter row.key rfl x hx)
    · rw [hstaked, hrow, List.map_cons, List.sum_cons, add_assoc]

end Merge

section Run
variable {K : Keys} {i : Input} {out : Output}

theorem loadWone_ok {rows : List HolderRow} {excluded : List Address} {holders : Dict Address ℤ}
    (h : loadWone rows excluded = .ok holders) :
    (rows.map HolderRow.address).Nodup ∧ (∀ r ∈ rows, 0 < r.amount) ∧
      holders.entries = (rows.filter fun r => r.address ∉ excluded).map fun r => (r.address, r.amount) := by
  unfold loadWone at h
  simp only [require_bind_ok] at h
  obtain ⟨hinc, h⟩ := h
  obtain ⟨_, hpos, rfl⟩ := of_map_ok h
  have hnd : (rows.map HolderRow.address).Nodup := by
    refine List.Nodup.of_map BitVec.toNat ?_
    rw [List.map_map]
    exact hinc.imp fun hlt => hlt.ne
  refine ⟨hnd, fun r hr => (of_require_ok hpos r hr).1, Dict.entries_ofList ?_⟩
  rw [List.map_map]
  exact hnd.sublist (List.filter_sublist.map _)

theorem newHolderRow_ok {holders : Dict Address ℤ} {m : MetadataRow} {r : ClaimRow}
    (h : newHolderRow K i holders m = .ok r) :
    r.key = K.key m.address ∧ r.address = m.address ∧ r.staked = 0 ∧ r.nativeWallet = 0 ∧ r.nativeTotal = 0 ∧
      r.woneAirdrop = holders.getD m.address 0 ∧ r.wallet = r.woneAirdrop ∧ r.total = r.woneAirdrop ∧
      r.qualificationTotal = holders.getD m.address 0 ∧ Candidate i holders m.address := by
  unfold newHolderRow at h
  cases hw : holders.get? m.address with
  | none => simp [hw] at h
  | some wone =>
    have hget : holders.getD m.address 0 = wone := by rw [Dict.getD, hw]; rfl
    simp only [hw, require_bind_ok] at h
    obtain ⟨-, hcand, h⟩ := h
    obtain ⟨hkey, haddr, hstaked, hnw, hnt, -, hq, hair, hwallet, htotal⟩ := applyOverlay_ok h
    have hpass : (i.minimumOne : ℤ) ≤ (blankRow K m).total + wone ∨ i.aggregate m.address = true := by
      simpa [blankRow] using hcand
    rw [if_pos hpass] at hair
    refine ⟨hkey, haddr, hstaked, hnw, hnt, by rw [hair, hget], ?_, ?_, ?_, ?_⟩
    · simpa [blankRow] using hwallet
    · simpa [blankRow] using htotal
    · rw [hq, hget]
      simp [blankRow]
    · rw [Candidate, hget]
      exact hcand

/-- What a successful run has loaded and merged. -/
structure Ran (K : Keys) (i : Input) (out : Output) (holders : Dict Address ℤ) (metadata : List Address)
    (old new : List ClaimRow) : Prop where
  holdersNodup : (i.holders.map HolderRow.address).Nodup
  positive : ∀ r ∈ i.holders, 0 < r.amount
  entries : holders.entries =
    (i.holders.filter fun r => r.address ∉ i.excluded).map fun r => (r.address, r.amount)
  metadataNodup : metadata.Nodup
  addresses : new.map ClaimRow.address ~ metadata
  fresh : ∀ r ∈ new, r.key = K.key r.address ∧ r.staked = 0 ∧ r.nativeWallet = 0 ∧ r.nativeTotal = 0 ∧
    r.woneAirdrop = holders.getD r.address 0 ∧ r.wallet = r.woneAirdrop ∧ r.total = r.woneAirdrop ∧
    r.qualificationTotal = holders.getD r.address 0 ∧ Candidate i holders r.address
  merged : Merged i holders i.holderTotal i.native new {} out.totals old out.totals.rows
  complete : ∀ a, a ∈ metadata ↔ ∃ w, (a, w) ∈ holders.entries ∧ ((i.minimumOne : ℤ) ≤ w ∨ i.aggregate a) ∧
    a ∉ out.totals.candidates
  contractSeen : out.totals.contractSeen = true
  reserve : out.reserve = i.holderTotal
  delivered : out.totals.delivered ≤ i.holderTotal
  retained : out.retained = i.holderTotal - out.totals.delivered

/-- The steps of a successful run. -/
structure Steps (K : Keys) (i : Input) (out : Output) (holders : Dict Address ℤ) (metadata : List MetadataRow)
    (new : List ClaimRow) : Prop where
  loadHolders : loadWone i.holders i.excluded = .ok holders
  loadMetadata : loadNewHolderMetadata i.metadata = .ok metadata
  newRows : metadata.mapM (newHolderRow K i holders) = .ok new
  merged : merge i holders i.holderTotal i.native none (new.insertionSort fun a b => a.key ≤ b.key) {} = .ok out.totals
  contractSeen : out.totals.contractSeen = true
  complete : completeMetadata i holders out.totals.candidates (metadata.map MetadataRow.address)
  closes : out.totals.wallet + out.totals.staked = out.totals.total ∧
    out.totals.nativeTotal - out.totals.nativeWallet = out.totals.staked ∧
    out.totals.total = out.totals.nativeTotal + out.totals.delivered
  delivered : out.totals.delivered ≤ i.holderTotal
  reserve : out.reserve = i.holderTotal
  retained : out.retained = i.holderTotal - out.totals.delivered

theorem steps_of_main (h : main K i = .ok out) : ∃ holders metadata new, Steps K i out holders metadata new := by
  simp only [main, require_bind_ok] at h
  obtain ⟨-, h⟩ := h
  obtain ⟨holders, hload, h⟩ := of_bind_ok h
  obtain ⟨metadata, hmeta, h⟩ := of_bind_ok h
  obtain ⟨new, hnew, h⟩ := of_bind_ok h
  obtain ⟨s, hs, h⟩ := of_bind_ok h
  simp only [require_bind_ok] at h
  obtain ⟨hseen, -, hcomplete, hcloses, hle, h⟩ := h
  obtain rfl := Except.ok.inj h
  exact ⟨holders, metadata, new, hload, hmeta, hnew, hs, hseen, hcomplete, hcloses, hle, rfl, rfl⟩

theorem Steps.ran {holders : Dict Address ℤ} {metadata : List MetadataRow} {new : List ClaimRow}
    (h : Steps K i out holders metadata new) :
    ∃ old, Ran K i out holders (metadata.map MetadataRow.address) old (new.insertionSort fun a b => a.key ≤ b.key) := by
  obtain ⟨hload, hmeta, hnew, hs, hseen, hcomplete, -, hle, hreserve, hretained⟩ := h
  obtain ⟨hnd, hpos, hentries⟩ := loadWone_ok hload
  have hmnd : (metadata.map MetadataRow.address).Nodup := by
    simp only [loadNewHolderMetadata, require_bind_ok] at hmeta
    obtain ⟨hmnd, hmeta⟩ := hmeta
    obtain ⟨_, -, rfl⟩ := of_map_ok hmeta
    exact hmnd
  have hall := forall₂_of_mapM_ok hnew
  have haddr : metadata.map MetadataRow.address = new.map ClaimRow.address :=
    map_eq_of_forall₂ hall fun m r hr => (newHolderRow_ok hr).2.1.symm
  have hkey : metadata.map (K.key ∘ MetadataRow.address) = new.map ClaimRow.key :=
    map_eq_of_forall₂ hall fun m r hr => (newHolderRow_ok hr).1.symm
  have hkeys : (new.map ClaimRow.key).Nodup := by
    rw [← hkey, ← List.map_map]
    exact hmnd.map K.injective
  have hperm := List.perm_insertionSort (fun a b : ClaimRow => a.key ≤ b.key) new
  obtain ⟨old, merged, hm, -⟩ := merge_ok hs (SortedBy.insertionSort_lt hkeys) (by simp)
  obtain rfl : merged = out.totals.rows := hm.rows.symm
  refine ⟨old, ⟨hnd, hpos, hentries, hmnd, ?_, ?_, hm, ?_, hseen, hreserve, hle, hretained⟩⟩
  · rw [haddr]
    exact hperm.map _
  · intro r hr
    obtain ⟨m, -, hmr⟩ := ok_of_mem_right hall (hperm.mem_iff.mp hr)
    obtain ⟨h1, h2, h3⟩ := newHolderRow_ok hmr
    rw [h2]
    exact ⟨h1, h3⟩
  · intro a
    obtain ⟨h1, h2⟩ := hcomplete
    rw [within_iff] at h1 h2
    have hexpected : a ∈ metadata.map MetadataRow.address ↔ a ∈ (holders.entries.filter fun e =>
        ((i.minimumOne : ℤ) ≤ e.2 ∨ i.aggregate e.1) ∧ e.1 ∉ out.totals.candidates).map Prod.fst := ⟨h1 a, h2 a⟩
    rw [hexpected]
    simp

theorem main_ok (h : main K i = .ok out) : ∃ holders metadata old new, Ran K i out holders metadata old new := by
  obtain ⟨holders, metadata, new, hsteps⟩ := steps_of_main h
  obtain ⟨old, hran⟩ := hsteps.ran
  exact ⟨holders, _, old, _, hran⟩

/-- The native claim of an address, zero where the ledger has none. -/
def Input.nativeTotalOf (i : Input) (a : Address) : ℤ :=
  ((i.native.filter fun row => row.address = a).map NativeRow.total).sum

/-- The holder's WONE leaves the reserve. -/
def Input.Delivers (i : Input) (r : HolderRow) : Prop :=
  r.address ∉ i.excluded ∧ ((i.minimumOne : ℤ) ≤ i.nativeTotalOf r.address + r.amount ∨ i.aggregate r.address)

instance (i : Input) (r : HolderRow) : Decidable (i.Delivers r) := by unfold Input.Delivers; infer_instance

/-- A delivered holder that the native ledger does not have. -/
def Input.WoneOnly (i : Input) (r : HolderRow) : Prop :=
  r.address ∉ i.excluded ∧ r.address ∉ i.native.map NativeRow.address ∧
    ((i.minimumOne : ℤ) ≤ r.amount ∨ i.aggregate r.address)

instance (i : Input) (r : HolderRow) : Decidable (i.WoneOnly r) := by unfold Input.WoneOnly; infer_instance

/-- What an address is given, whichever row it stands in. -/
def delivery (i : Input) (holders : Dict Address ℤ) (a : Address) : ℤ :=
  if (i.minimumOne : ℤ) ≤ i.nativeTotalOf a + holders.getD a 0 ∨ i.aggregate a then holders.getD a 0 else 0

namespace Ran
variable {holders : Dict Address ℤ} {metadata : List Address} {old new : List ClaimRow}

theorem mem_entries (h : Ran K i out holders metadata old new) {a : Address} {w : ℤ} :
    (a, w) ∈ holders.entries ↔ ∃ r ∈ i.holders, r.address = a ∧ r.amount = w ∧ a ∉ i.excluded := by
  rw [h.entries]
  simp only [List.mem_map, List.mem_filter, decide_eq_true_eq, Prod.mk.injEq]
  constructor
  · rintro ⟨r, ⟨hr, hex⟩, rfl, rfl⟩
    exact ⟨r, hr, rfl, rfl, hex⟩
  · rintro ⟨r, hr, rfl, rfl, hex⟩
    exact ⟨r, ⟨hr, hex⟩, rfl, rfl⟩

theorem getD_holder (h : Ran K i out holders metadata old new) {r : HolderRow} (hr : r ∈ i.holders) :
    holders.getD r.address 0 = if r.address ∈ i.excluded then 0 else r.amount := by
  split_ifs with hex
  · refine Dict.getD_of_notMem (fun hmem => ?_) 0
    obtain ⟨⟨a, w⟩, he, rfl : a = r.address⟩ := List.mem_map.mp hmem
    obtain ⟨_, -, -, -, hne⟩ := h.mem_entries.mp he
    exact hne hex
  · exact Dict.getD_of_mem (h.mem_entries.mpr ⟨r, hr, rfl, rfl, hex⟩) 0

theorem exists_holder (h : Ran K i out holders metadata old new) {a : Address} (ha : holders.getD a 0 ≠ 0) :
    ∃ r ∈ i.holders, r.address = a ∧ a ∉ i.excluded := by
  have hmem : a ∈ holders.keys := by
    by_contra hn
    exact ha (Dict.getD_of_notMem hn 0)
  obtain ⟨⟨b, w⟩, he, rfl⟩ := List.mem_map.mp hmem
  obtain ⟨r, hr, hra, -, hex⟩ := h.mem_entries.mp he
  exact ⟨r, hr, hra, hex⟩

theorem mem_rows (h : Ran K i out holders metadata old new) {r : ClaimRow} :
    r ∈ out.totals.rows ↔ r ∈ old ∨ r ∈ new := by
  rw [h.merged.perm.mem_iff, List.mem_append]

theorem of_mem_old (h : Ran K i out holders metadata old new) {r : ClaimRow} (hr : r ∈ old) :
    ∃ row ∈ i.native, Overlaid i holders row r :=
  ok_of_mem_right h.merged.overlaid hr

theorem rowKey (h : Ran K i out holders metadata old new)
    (hkeys : ∀ row ∈ i.native, row.key = K.key row.address) {r : ClaimRow} (hr : r ∈ out.totals.rows) :
    r.key = K.key r.address := by
  rcases h.mem_rows.mp hr with hr | hr
  · obtain ⟨row, hrow, hover⟩ := h.of_mem_old hr
    obtain ⟨hk, ha, -⟩ := applyOverlay_ok hover.2
    rw [hk, ha, hkeys row hrow]
  · exact (h.fresh r hr).1

/-- Increasing keys are distinct addresses. -/
theorem rows_nodup (h : Ran K i out holders metadata old new)
    (hkeys : ∀ row ∈ i.native, row.key = K.key row.address) :
    (out.totals.rows.map ClaimRow.address).Nodup := by
  refine List.Nodup.of_map K.key ?_
  have hkey : out.totals.rows.map (K.key ∘ ClaimRow.address) = out.totals.rows.map ClaimRow.key :=
    List.map_congr_left fun r hr => (h.rowKey hkeys hr).symm
  rw [List.map_map, hkey]
  exact List.pairwise_map.mpr (h.merged.increasing.imp fun hlt => hlt.ne)

theorem native_addresses (h : Ran K i out holders metadata old new) :
    i.native.map NativeRow.address = old.map ClaimRow.address :=
  map_eq_of_forall₂ h.merged.overlaid fun _ _ hr => (applyOverlay_ok hr.2).2.1.symm

/-- The fresh rows are those of the delivered holders outside the ledger. -/
theorem mem_new_iff (h : Ran K i out holders metadata old new) {a : Address} :
    a ∈ new.map ClaimRow.address ↔ ∃ r ∈ i.holders, r.address = a ∧ i.WoneOnly r := by
  rw [h.addresses.mem_iff, h.complete]
  have hcandidate : ∀ r ∈ i.holders, r.address ∉ i.excluded →
      (r.address ∈ out.totals.candidates ↔
        r.address ∈ i.native.map NativeRow.address ∧ ((i.minimumOne : ℤ) ≤ r.amount ∨ i.aggregate r.address)) := by
    intro r hr hex
    have hget := h.getD_holder hr
    rw [if_neg hex] at hget
    rw [h.merged.candidates, Candidate, hget]
    simp
  constructor
  · rintro ⟨w, he, hdue, hnc⟩
    obtain ⟨r, hr, rfl, rfl, hex⟩ := h.mem_entries.mp he
    rw [hcandidate r hr hex] at hnc
    exact ⟨r, hr, rfl, hex, fun hn => hnc ⟨hn, hdue⟩, hdue⟩
  · rintro ⟨r, hr, rfl, hex, hn, hdue⟩
    refine ⟨r.amount, h.mem_entries.mpr ⟨r, hr, rfl, rfl, hex⟩, hdue, ?_⟩
    rw [hcandidate r hr hex]
    exact fun hc => hn hc.1

theorem native_nodup (h : Ran K i out holders metadata old new)
    (hkeys : ∀ row ∈ i.native, row.key = K.key row.address) : (i.native.map NativeRow.address).Nodup := by
  have hnd := h.rows_nodup hkeys
  rw [(h.merged.perm.map ClaimRow.address).nodup_iff, List.map_append, ← h.native_addresses] at hnd
  exact (List.nodup_append.mp hnd).1

/-- No fresh row has an address of the ledger. -/
theorem addresses_nodup (h : Ran K i out holders metadata old new) (hnd : (i.native.map NativeRow.address).Nodup) :
    (i.native.map NativeRow.address ++ new.map ClaimRow.address).Nodup := by
  refine List.nodup_append.mpr ⟨hnd, h.addresses.nodup_iff.mpr h.metadataNodup, fun a ha b hb => ?_⟩
  rintro rfl
  obtain ⟨r, -, rfl, honly⟩ := h.mem_new_iff.mp hb
  exact honly.2.1 ha

theorem written_nodup (h : Ran K i out holders metadata old new) (hnd : (i.native.map NativeRow.address).Nodup) :
    (out.totals.rows.map ClaimRow.address).Nodup := by
  rw [(h.merged.perm.map ClaimRow.address).nodup_iff, List.map_append, ← h.native_addresses]
  exact h.addresses_nodup hnd

theorem nativeTotalOf_eq (hnd : (i.native.map NativeRow.address).Nodup) {row : NativeRow} (hrow : row ∈ i.native) :
    i.nativeTotalOf row.address = row.total :=
  Dict.sum_filter_key hnd hrow

theorem nativeTotalOf_eq_zero {a : Address} (ha : a ∉ i.native.map NativeRow.address) : i.nativeTotalOf a = 0 := by
  have hnil : (i.native.filter fun row => row.address = a) = [] := by
    refine List.filter_eq_nil_iff.mpr fun row hrow => ?_
    have hne : row.address ≠ a := fun he => ha (he ▸ List.mem_map_of_mem hrow)
    simpa using hne
  rw [Input.nativeTotalOf, hnil]
  rfl

/-- Every row is given what its address is due. -/
theorem airdrop_eq (h : Ran K i out holders metadata old new)
    (hnd : (i.native.map NativeRow.address).Nodup) {r : ClaimRow} (hr : r ∈ out.totals.rows) :
    r.woneAirdrop = delivery i holders r.address := by
  rcases h.mem_rows.mp hr with hr | hr
  · obtain ⟨row, hrow, hover⟩ := h.of_mem_old hr
    obtain ⟨-, ha, -, -, -, -, -, hair, -⟩ := applyOverlay_ok hover.2
    rw [hair, ha, delivery, nativeTotalOf_eq hnd hrow]
  · have hnot : r.address ∉ i.native.map NativeRow.address := fun hmem =>
      (List.nodup_append.mp (h.addresses_nodup hnd)).2.2 _ hmem _ (List.mem_map_of_mem hr) rfl
    obtain ⟨-, -, -, -, hair, -, -, -, hcand⟩ := h.fresh r hr
    rw [hair, delivery, nativeTotalOf_eq_zero hnot, zero_add]
    exact (if_pos hcand).symm

/-- No delivery is missed: an address that is due something has a row. -/
theorem mem_rows_of_delivery (h : Ran K i out holders metadata old new) {a : Address}
    (ha : delivery i holders a ≠ 0) : a ∈ out.totals.rows.map ClaimRow.address := by
  have hdue : (i.minimumOne : ℤ) ≤ i.nativeTotalOf a + holders.getD a 0 ∨ i.aggregate a := by
    by_contra hn
    exact ha (if_neg hn)
  rw [delivery, if_pos hdue] at ha
  obtain ⟨r, hr, rfl, hex⟩ := h.exists_holder ha
  have hget := h.getD_holder hr
  rw [if_neg hex] at hget
  rw [(h.merged.perm.map ClaimRow.address).mem_iff, List.map_append, List.mem_append, ← h.native_addresses]
  by_cases hn : r.address ∈ i.native.map NativeRow.address
  · exact Or.inl hn
  · rw [nativeTotalOf_eq_zero hn, zero_add, hget] at hdue
    exact Or.inr (h.mem_new_iff.mpr ⟨r, hr, rfl, hex, hn, hdue⟩)

theorem delivery_holder (h : Ran K i out holders metadata old new) {r : HolderRow} (hr : r ∈ i.holders) :
    delivery i holders r.address = if i.Delivers r then r.amount else 0 := by
  have hget := h.getD_holder hr
  unfold delivery Input.Delivers
  rw [hget]
  by_cases hex : r.address ∈ i.excluded
  · simp [hex]
  · simp [hex]

theorem airdropSum_eq (h : Ran K i out holders metadata old new)
    (hnd : (i.native.map NativeRow.address).Nodup) :
    airdropSum out.totals.rows = (i.holders.map fun r => if i.Delivers r then r.amount else 0).sum := by
  have hrows : airdropSum out.totals.rows = ((out.totals.rows.map ClaimRow.address).map (delivery i holders)).sum := by
    rw [airdropSum, List.map_map]
    exact congrArg _ (List.map_congr_left fun r hr => h.airdrop_eq hnd hr)
  have hholders : (i.holders.map fun r => if i.Delivers r then r.amount else 0) =
      (i.holders.map HolderRow.address).map (delivery i holders) := by
    rw [List.map_map]
    exact List.map_congr_left fun r hr => (h.delivery_holder hr).symm
  rw [hrows, hholders]
  refine Dict.sum_map_eq_of_support (h.written_nodup hnd) h.holdersNodup fun a ha => ?_
  refine ⟨fun _ => ?_, fun _ => h.mem_rows_of_delivery ha⟩
  have hget : holders.getD a 0 ≠ 0 := by
    intro h0
    unfold delivery at ha
    simp [h0] at ha
  obtain ⟨r, hr, rfl, -⟩ := h.exists_holder hget
  exact List.mem_map_of_mem hr

/-- The airdrop of one address, summed over its rows. -/
theorem airdropSum_address (h : Ran K i out holders metadata old new)
    (hnd : (i.native.map NativeRow.address).Nodup) (a : Address) :
    airdropSum (out.totals.rows.filter fun r => r.address = a) = delivery i holders a := by
  by_cases ha : a ∈ out.totals.rows.map ClaimRow.address
  · obtain ⟨r, hr, rfl⟩ := List.mem_map.mp ha
    rw [← h.airdrop_eq hnd hr]
    exact Dict.sum_filter_key (h.written_nodup hnd) hr
  · have hnil : (out.totals.rows.filter fun r => r.address = a) = [] := by
      refine List.filter_eq_nil_iff.mpr fun r hr => ?_
      have hne : r.address ≠ a := fun he => ha (he ▸ List.mem_map_of_mem hr)
      simpa using hne
    have hzero : delivery i holders a = 0 := by
      by_contra h0
      exact ha (h.mem_rows_of_delivery h0)
    rw [hnil, hzero]
    rfl

theorem row_closes (h : Ran K i out holders metadata old new) {r : ClaimRow} (hr : r ∈ out.totals.rows) :
    r.wallet + r.staked = r.total ∧ r.total = r.nativeTotal + r.woneAirdrop := by
  rcases h.mem_rows.mp hr with hr | hr
  · obtain ⟨row, -, hvalid, hover⟩ := h.of_mem_old hr
    obtain ⟨-, -, hs, -, hn, -, -, -, hw, ht⟩ := applyOverlay_ok hover
    obtain ⟨-, -, -, -, hsum, -⟩ := hvalid
    exact ⟨by rw [hw, hs, ht, ← hsum]; ring, by rw [ht, hn]⟩
  · obtain ⟨-, hs, -, hn, -, hw, ht, -⟩ := h.fresh r hr
    exact ⟨by rw [hw, hs, ht, add_zero], by rw [ht, hn, zero_add]⟩

end Ran

theorem overlay_delivers_once (h : main K i = .ok out)
    (hkeys : ∀ row ∈ i.native, row.key = K.key row.address) :
    (∃ old new, out.totals.rows ~ old ++ new ∧
        List.Forall₂ (fun row r => r.key = row.key ∧ r.address = row.address ∧ r.nativeWallet = row.wallet ∧
          r.staked = row.staked ∧ r.nativeTotal = row.total) i.native old ∧
        new.map ClaimRow.address ~ (i.holders.filter fun r => i.WoneOnly r).map HolderRow.address) ∧
      (out.totals.rows.Pairwise fun a b => a.key < b.key) ∧
      (∀ r ∈ i.holders, airdropSum (out.totals.rows.filter fun x => x.address = r.address) =
        if i.Delivers r then r.amount else 0) ∧
      (∀ r ∈ out.totals.rows, r.wallet + r.staked = r.total ∧ r.total = r.nativeTotal + r.woneAirdrop) ∧
      out.totals.delivered = airdropSum out.totals.rows ∧
      out.totals.delivered + out.retained = i.holderTotal ∧ 0 ≤ out.retained ∧
      out.retained = ((i.holders.filter fun r => ¬i.Delivers r).map HolderRow.amount).sum := by
  obtain ⟨holders, metadata, old, new, hran⟩ := main_ok h
  have hnd := hran.native_nodup hkeys
  have hdelivered : out.totals.delivered = airdropSum out.totals.rows := by
    rw [hran.merged.delivered]
    exact zero_add _
  have hsplit : i.holderTotal = airdropSum out.totals.rows +
      ((i.holders.filter fun r => ¬i.Delivers r).map HolderRow.amount).sum := by
    rw [hran.airdropSum_eq hnd]
    exact (Dict.sum_map_ite_add_filter i.Delivers i.holders).symm
  refine ⟨⟨old, new, hran.merged.perm, ?_, ?_⟩, hran.merged.increasing, ?_, fun r hr => hran.row_closes hr, hdelivered,
    ?_, ?_, ?_⟩
  · refine hran.merged.overlaid.imp fun row r hr => ?_
    obtain ⟨hk, ha, hs, hw, ht, -⟩ := applyOverlay_ok hr.2
    exact ⟨hk, ha, hw, hs, ht⟩
  · refine (List.perm_ext_iff_of_nodup (hran.addresses.nodup_iff.mpr hran.metadataNodup)
      (hran.holdersNodup.sublist (List.filter_sublist.map _))).mpr fun a => ?_
    rw [hran.mem_new_iff]
    simp only [List.mem_map, List.mem_filter, decide_eq_true_eq]
    exact ⟨fun ⟨r, hr, ha, hw⟩ => ⟨r, ⟨hr, hw⟩, ha⟩, fun ⟨r, ⟨hr, hw⟩, ha⟩ => ⟨r, hr, ha, hw⟩⟩
  · intro r hr
    rw [hran.airdropSum_address hnd, hran.delivery_holder hr]
  · rw [hran.retained]
    ring
  · rw [hran.retained]
    exact sub_nonneg.mpr hran.delivered
  · rw [hran.retained, hdelivered, hsplit]
    ring

/-- A ledger with the contract and one holder; of three further holders one qualifies, one is an
exchange's, one is excluded. -/
def smallOverlay : Input where
  native :=
    [{ key := 5, address := 5, wallet := 4, staked := 3, total := 7, liquidShard0 := 4, liquidShard1 := 0,
       liquidTotal := 4, price := some ⟨1, 0⟩, codeHashShard0 := "", codeHashShard1 := "" },
     { key := woneAddress.toNat, address := woneAddress, wallet := 26, staked := 0, total := 26, liquidShard0 := 26,
       liquidShard1 := 0, liquidTotal := 26, price := some ⟨1, 0⟩, codeHashShard0 := "", codeHashShard1 := "" }]
  holders := [⟨2, 1, true⟩, ⟨3, 11, true⟩, ⟨5, 3, true⟩, ⟨6, 9, true⟩, ⟨9, 2, true⟩]
  holdersSha256 := ""
  summary := ⟨true, 93623067, woneAddress, 0, 26, 26, "", 5, 26⟩
  metadata := [⟨3, 11, false, "c"⟩, ⟨2, 1, false, "c"⟩]
  excludeAddresses := [6]
  aggregateRequested := [2]
  minimumOne := 10

theorem overlay_delivers_once_small :
    ∃ out, main ⟨BitVec.toNat, fun _ _ => BitVec.eq_of_toNat_eq⟩ smallOverlay = .ok out ∧
      out.totals.delivered + out.retained = 26 ∧
      out.retained = ((smallOverlay.holders.filter fun r => ¬smallOverlay.Delivers r).map HolderRow.amount).sum := by
  have hrun : (main ⟨BitVec.toNat, fun _ _ => BitVec.eq_of_toNat_eq⟩ smallOverlay).toBool = true := by
    decide +kernel
  obtain ⟨out, hmain⟩ := Except.exists_ok_of_toBool hrun
  have hkeys : ∀ row ∈ smallOverlay.native, row.key = row.address.toNat := by decide
  obtain ⟨-, -, -, -, -, hsum, -, hretained⟩ := overlay_delivers_once hmain hkeys
  exact ⟨out, hmain, hsum, hretained⟩

end Run

end HarmonyMigration.Claims.Wone
