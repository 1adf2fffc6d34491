import HarmonyMigration.Cutoff.ClaimsDiffMerge

/-! The difference of two ledgers is an exact patch, and the verification reads back every difference of ledgers whose sums close. -/

namespace HarmonyMigration.ClaimsDiff

open Airdrop.One1 Decimal Except

/-! ### What the difference is compared with -/

def rowAt (ledger : List LedgerRow) (key : Text) : Option LedgerRow := ledger.find? (·.secureKey = key)

def amountsAt (ledger : List LedgerRow) (key : Text) : Option (Component → ℤ) := (rowAt ledger key).map LedgerRow.amount

/-- The amount that is written. -/
def attoOf (r : Rendering) : ℤ := (parseInt r.atto).getD 0

/-- The ledger with the deleted keys taken out, the created ones put in and the deltas of the others added. -/
def patched (all : List DiffRow) (ledger : Text → Option (Component → ℤ)) (key : Text) : Option (Component → ℤ) :=
  match all.find? (·.secureKey = key) with
  | none => ledger key
  | some row =>
    match row.changeType with
    | .deleted => none
    | .created => some fun c => attoOf (row.final c)
    | _ => (ledger key).map fun amounts c => amounts c + attoOf (row.delta c)

/-- Equal in everything whose change is reported, or both missing. -/
def SameClaim : Option LedgerRow → Option LedgerRow → Prop
  | none, none => True
  | some a, some b => a.amount = b.amount ∧ a.metadata = b.metadata
  | _, _ => False

/-- The claim of the key is above one dollar. -/
def overAt (ledger : List LedgerRow) (key : Text) : Bool := over1usd (values (rowAt ledger key) .totalClaim)

def columnSum (ledger : List LedgerRow) (c : Component) : ℤ := (ledger.map fun row => row.amount c).sum

/-- Both sums of the row close. -/
def LedgerRow.Closes (row : LedgerRow) : Prop := LiquidCloses row.amount ∧ TotalCloses row.amount

/-- What the files and the summary say about the two ledgers. -/
structure ExactPatch (u : Lower) (old new : List LedgerRow) (originalKeys : List Text) (out : Output) : Prop where
  increasing : out.all.Pairwise fun a b => a.secureKey < b.secureKey
  patch : ∀ key, patched out.all (amountsAt old) key = amountsAt new key
  oldMetadata : ∀ d ∈ out.all, ∀ row ∈ rowAt old d.secureKey, d.oldMetadata = row.metadata
  finalMetadata : ∀ d ∈ out.all, ∀ row ∈ rowAt new d.secureKey, d.finalMetadata = row.metadata
  unlisted : ∀ key, key ∉ out.all.map DiffRow.secureKey → SameClaim (rowAt old key) (rowAt new key)
  unionRows : out.summary.unionRows = ((old ++ new).map LedgerRow.secureKey).dedup.length
  totals : ∀ c, out.summary.componentTotals c = ⟨columnSum old c, columnSum new c, columnSum new c - columnSum old c⟩
  thresholdUnion : out.thresholdUnion = out.all.filter fun d => overAt old d.secureKey || overAt new d.secureKey
  originalPopulation : out.originalPopulation = out.all.filter fun d => d.secureKey ∈ originalKeys
  verified : (∀ row ∈ old ++ new, row.Closes) → ∀ expected ∈ [none, some (columnSum new .totalClaim - columnSum old .totalClaim)],
    ∃ result, verifyDiff u expected out.all = .ok result

/-! ### Numbers written and read -/

theorem parseInt_renderInt (z : ℤ) : parseInt (renderInt z) = some z := by
  rw [renderInt]
  split_ifs with h
  · rw [parseInt, parseNat_render]
    have hz : -(z.natAbs : ℤ) = z := by omega
    exact congrArg some hz
  · rw [parseInt_of_digits (render_ne_nil _) fun c hc => isDigit_of_mem_render hc, render, Nat.ofDigitChars_ten_toDigits]
    exact congrArg some (by omega)

theorem attoOf_rendering (z : ℤ) : attoOf (rendering z) = z := by
  rw [attoOf, rendering, parseInt_renderInt]
  rfl

theorem split_of_parseFixed {scale : ℕ} {t : Text} {n : ℕ} (h : parseFixed scale t = some n) :
    ∃ whole fraction, t.splitOn '.' = [whole, fraction] ∧ fraction.length = scale ∧
      parseUnsigned (whole ++ fraction) = some n := by
  unfold parseFixed at h
  split at h
  · rename_i whole fraction hsplit
    split_ifs at h with hlength
    exact ⟨whole, fraction, hsplit, hlength, h⟩
  · cases h

theorem readUnsigned_fixed {scale : ℕ} (hscale : 0 < scale) {z : ℤ} (h : 0 ≤ z) :
    readUnsigned scale (Decimal.fixed scale z) = some z := by
  obtain ⟨whole, fraction, hsplit, hlength, hparse⟩ := split_of_parseFixed (parseFixed_fixed hscale h)
  obtain ⟨n, hn, hz⟩ := Option.bind_eq_some_iff.mp hparse
  split_ifs at hz with hnonneg
  have hcast : n.toNat = z.toNat := Option.some.inj hz
  unfold readUnsigned
  rw [hsplit]
  dsimp only
  rw [if_pos hlength, hn]
  exact congrArg some (by omega)

theorem head_fixed (scale : ℕ) {z : ℤ} (h : 0 ≤ z) : ∀ t, Decimal.fixed scale z ≠ '-' :: t := by
  intro t heq
  have hwhole : 0 ≤ z / 10 ^ scale := Int.ediv_nonneg h (by positivity)
  rw [Decimal.fixed, renderInt_of_nonneg hwhole] at heq
  cases hrender : render (z / 10 ^ scale).toNat with
  | nil => exact render_ne_nil _ hrender
  | cons c rest =>
    rw [hrender] at heq
    have hminus : c = '-' := (List.cons.inj heq).1
    have hdigit : c.isDigit = true := isDigit_of_mem_render (hrender ▸ List.mem_cons_self)
    rw [hminus] at hdigit
    exact absurd hdigit (by decide)

/-- The sign is written even where the whole part is zero, and it is read before the digits. -/
theorem readFixed_fixed {scale : ℕ} (hscale : 0 < scale) (z : ℤ) : readFixed (fixed z scale) scale = some z := by
  have habs := readUnsigned_fixed hscale (abs_nonneg z)
  rw [fixed]
  split_ifs with hneg
  · rw [List.singleton_append, readFixed, habs, abs_of_neg hneg]
    exact congrArg some (neg_neg z)
  · rw [List.nil_append]
    have hnot := head_fixed scale (abs_nonneg z)
    unfold readFixed
    split
    · rename_i heq
      exact absurd heq (hnot _)
    · rw [habs, abs_of_nonneg (not_lt.mp hneg)]

/-! ### Rows of the two ledgers -/

section Align

variable {old new ledger : List LedgerRow} {pairs : List RowPair} {p : RowPair} {key : Text}

theorem find?_of_mem {α : Type} {f : α → Text} {l : List α} (h : l.Pairwise fun a b => f a < f b) {a : α} (ha : a ∈ l) :
    (l.find? fun b => f b = f a) = some a := by
  induction l with
  | nil => simp at ha
  | cons b l ih =>
    obtain ⟨hhead, htail⟩ := List.pairwise_cons.mp h
    rcases List.mem_cons.mp ha with rfl | ha
    · exact List.find?_cons_of_pos (by simp)
    · rw [List.find?_cons_of_neg]
      · exact ih htail ha
      · simpa using (hhead a ha).ne

theorem rowAt_eq_none_iff : rowAt ledger key = none ↔ ∀ row ∈ ledger, row.secureKey ≠ key := by
  rw [rowAt, List.find?_eq_none]
  simp

theorem Aligned.eq_of_key (h : Aligned old new pairs) {q : RowPair} (hp : p ∈ pairs) (hq : q ∈ pairs)
    (hkey : pairKey p = pairKey q) : p = q := by
  have hnodup : (pairs.map pairKey).Nodup := List.pairwise_map.mpr (h.increasing.imp fun hlt => hlt.ne)
  exact List.inj_on_of_nodup_map hnodup hp hq hkey

theorem Aligned.rowAt_old (h : Aligned old new pairs) (hsorted : Sorted old) (hp : p ∈ pairs) :
    rowAt old (pairKey p) = p.1 := by
  cases hfst : p.1 with
  | some a =>
    have hmem : a ∈ old := h.old ▸ List.mem_filterMap.mpr ⟨p, hp, hfst⟩
    rw [← (h.keyed p hp).1 a hfst]
    exact find?_of_mem hsorted hmem
  | none =>
    apply rowAt_eq_none_iff.mpr
    intro row hrow heq
    rw [← h.old] at hrow
    obtain ⟨q, hq, hfstq⟩ := List.mem_filterMap.mp hrow
    rw [(h.keyed q hq).1 row hfstq] at heq
    rw [h.eq_of_key hq hp heq, hfst] at hfstq
    cases hfstq

theorem Aligned.pairKey_swap (h : Aligned old new pairs) (hp : p ∈ pairs) : pairKey p.swap = pairKey p := by
  obtain ⟨hfst, hsnd⟩ := h.keyed p hp
  cases h1 : p.1 with
  | none => simp [pairKey, h1]
  | some a =>
    cases h2 : p.2 with
    | none => simp [pairKey, h1, h2]
    | some b =>
      rw [← hsnd b h2, pairKey, Prod.fst_swap, h2]
      rfl

theorem Aligned.swap (h : Aligned old new pairs) : Aligned new old (pairs.map Prod.swap) := by
  refine ⟨?_, ?_, ?_, ?_, ?_⟩
  · rw [List.filterMap_map, ← h.new]
    rfl
  · rw [List.filterMap_map, ← h.old]
    rfl
  · refine List.pairwise_map.mpr (h.increasing.imp_of_mem ?_)
    intro a b ha hb hlt
    rwa [h.pairKey_swap ha, h.pairKey_swap hb]
  · intro q hq
    obtain ⟨p, hp, rfl⟩ := List.mem_map.mp hq
    rw [h.pairKey_swap hp]
    exact (h.keyed p hp).symm
  · intro q hq
    obtain ⟨p, hp, rfl⟩ := List.mem_map.mp hq
    exact (h.occupied p hp).symm

theorem Aligned.rowAt_new (h : Aligned old new pairs) (hsorted : Sorted new) (hp : p ∈ pairs) :
    rowAt new (pairKey p) = p.2 := by
  have hswap := h.swap.rowAt_old hsorted (List.mem_map_of_mem hp)
  rwa [h.pairKey_swap hp] at hswap

theorem Aligned.rowAt_of_notMem (h : Aligned old new pairs) (hkey : key ∉ pairs.map pairKey) :
    rowAt old key = none ∧ rowAt new key = none := by
  refine ⟨rowAt_eq_none_iff.mpr fun row hrow heq => ?_, rowAt_eq_none_iff.mpr fun row hrow heq => ?_⟩
  · rw [← h.old] at hrow
    obtain ⟨p, hp, hfst⟩ := List.mem_filterMap.mp hrow
    exact hkey (List.mem_map.mpr ⟨p, hp, ((h.keyed p hp).1 row hfst).symm.trans heq⟩)
  · rw [← h.new] at hrow
    obtain ⟨p, hp, hsnd⟩ := List.mem_filterMap.mp hrow
    exact hkey (List.mem_map.mpr ⟨p, hp, ((h.keyed p hp).2 row hsnd).symm.trans heq⟩)

/-- The pairs are the keys of both ledgers, each counted once. -/
theorem Aligned.length_eq (h : Aligned old new pairs) :
    pairs.length = ((old ++ new).map LedgerRow.secureKey).dedup.length := by
  have hnodup : (pairs.map pairKey).Nodup := List.pairwise_map.mpr (h.increasing.imp fun hlt => hlt.ne)
  rw [← List.length_map (f := pairKey)]
  refine ((List.perm_ext_iff_of_nodup hnodup (List.nodup_dedup _)).mpr fun key => ?_).length_eq
  rw [List.mem_dedup, List.map_append, List.mem_append]
  refine ⟨fun hkey => ?_, fun hkey => ?_⟩
  · obtain ⟨p, hp, rfl⟩ := List.mem_map.mp hkey
    rcases h.occupied p hp with ⟨a, ha⟩ | ⟨b, hb⟩
    · exact Or.inl (List.mem_map.mpr ⟨a, h.old ▸ List.mem_filterMap.mpr ⟨p, hp, ha⟩, (h.keyed p hp).1 a ha⟩)
    · exact Or.inr (List.mem_map.mpr ⟨b, h.new ▸ List.mem_filterMap.mpr ⟨p, hp, hb⟩, (h.keyed p hp).2 b hb⟩)
  · by_contra hnot
    obtain ⟨hold, hnew⟩ := h.rowAt_of_notMem hnot
    rcases hkey with hkey | hkey
    · obtain ⟨row, hrow, rfl⟩ := List.mem_map.mp hkey
      exact absurd rfl (rowAt_eq_none_iff.mp hold row hrow)
    · obtain ⟨row, hrow, rfl⟩ := List.mem_map.mp hkey
      exact absurd rfl (rowAt_eq_none_iff.mp hnew row hrow)

theorem sum_values (l : List (Option LedgerRow)) (c : Component) :
    (l.map fun row => values row c).sum = columnSum (l.filterMap id) c := by
  induction l with
  | nil => rfl
  | cons row l ih =>
    cases row with
    | none => simpa [values, columnSum] using ih
    | some row => simpa [values, columnSum] using ih

end Align

/-! ### The fold over the differences -/

def Diff.changed (d : Diff) : Bool := d.row.changeType ≠ .unchanged

section Fold

variable (original : Diff → Bool)

def folded (original : Diff → Bool) (ds : List Diff) (out : Output) : Output :=
  ds.foldl (fun out d => out.add d (original d)) out

theorem add_all (out : Output) (d : Diff) (b : Bool) :
    (out.add d b).all = out.all ++ ([d].filter Diff.changed).map Diff.row := by
  by_cases h : d.row.changeType = .unchanged
  · simp [Output.add, Diff.changed, h]
  · simp [Output.add, Diff.changed, h]

theorem add_thresholdUnion (out : Output) (d : Diff) (b : Bool) : (out.add d b).thresholdUnion =
    out.thresholdUnion ++ (([d].filter Diff.changed).filter fun d => d.oldOver || d.newOver).map Diff.row := by
  by_cases h : d.row.changeType = .unchanged
  · simp [Output.add, Diff.changed, h]
  · by_cases hover : d.oldOver || d.newOver
    · simp [Output.add, Diff.changed, h, hover]
    · simp [Output.add, Diff.changed, h, hover]

theorem add_originalPopulation (out : Output) (d : Diff) : (out.add d (original d)).originalPopulation =
    out.originalPopulation ++ (([d].filter Diff.changed).filter original).map Diff.row := by
  by_cases h : d.row.changeType = .unchanged
  · simp [Output.add, Diff.changed, h]
  · by_cases horiginal : original d
    · simp [Output.add, Diff.changed, h, horiginal]
    · simp [Output.add, Diff.changed, h, horiginal]

theorem add_summary (out : Output) (d : Diff) (b : Bool) : (out.add d b).summary = out.summary.add d b := by
  by_cases h : d.row.changeType ≠ .unchanged
  · rw [Output.add, if_pos h]
  · rw [Output.add, if_neg h]

theorem folded_files (ds : List Diff) (out : Output) :
    (folded original ds out).all = out.all ++ (ds.filter Diff.changed).map Diff.row ∧
    (folded original ds out).thresholdUnion =
      out.thresholdUnion ++ ((ds.filter Diff.changed).filter fun d => d.oldOver || d.newOver).map Diff.row ∧
    (folded original ds out).originalPopulation =
      out.originalPopulation ++ ((ds.filter Diff.changed).filter original).map Diff.row := by
  induction ds generalizing out with
  | nil => simp [folded]
  | cons d ds ih =>
    obtain ⟨hall, hthreshold, horiginal⟩ := ih (out.add d (original d))
    have hcons : d :: ds = [d] ++ ds := rfl
    rw [hcons]
    simp only [List.filter_append, List.map_append, ← List.append_assoc]
    rw [← add_all out d (original d), ← add_thresholdUnion out d (original d), ← add_originalPopulation original]
    exact ⟨hall, hthreshold, horiginal⟩

theorem folded_summary (ds : List Diff) (out : Output) :
    (folded original ds out).summary.unionRows = out.summary.unionRows + ds.length ∧
    ∀ c, (folded original ds out).summary.componentTotals c =
      ⟨(out.summary.componentTotals c).oldAtto + (ds.map fun d => d.oldValues c).sum,
        (out.summary.componentTotals c).finalAtto + (ds.map fun d => d.newValues c).sum,
        (out.summary.componentTotals c).deltaAtto + (ds.map fun d => d.deltas c).sum⟩ := by
  induction ds generalizing out with
  | nil => simp [folded]
  | cons d ds ih =>
    obtain ⟨hrows, htotals⟩ := ih (out.add d (original d))
    rw [add_summary] at hrows htotals
    refine ⟨?_, fun c => ?_⟩
    · rw [List.length_cons]
      have hone : (out.summary.add d (original d)).unionRows = out.summary.unionRows + 1 := rfl
      refine Eq.trans hrows ?_
      rw [hone]
      omega
    · refine (htotals c).trans ?_
      simp only [Summary.add, List.map_cons, List.sum_cons, add_assoc]

end Fold

/-! ### Every pair and its difference -/

section Pairs

variable {u : Lower} {old new : List LedgerRow} {pairs : List RowPair} {ds : List Diff} {p : RowPair} {d : Diff} {key : Text}

/-- The rows that are written. -/
def listed (ds : List Diff) : List DiffRow := (ds.filter Diff.changed).map Diff.row

/-- A difference for each pair. -/
structure Diffs (u : Lower) (old new : List LedgerRow) (pairs : List RowPair) (ds : List Diff) : Prop where
  oldSorted : Sorted old
  newSorted : Sorted new
  aligned : Aligned old new pairs
  made : List.Forall₂ (fun p d => makeDiff u p.1 p.2 = .ok d) pairs ds

theorem Diffs.keys (h : Diffs u old new pairs ds) : ds.map (fun d => d.row.secureKey) = pairs.map pairKey :=
  (map_eq_of_forall₂ h.made fun _ _ hpd => (makeDiff_key hpd).symm).symm

theorem Diffs.increasing (h : Diffs u old new pairs ds) : ds.Pairwise fun a b => a.row.secureKey < b.row.secureKey := by
  have hkeys : (ds.map fun d => d.row.secureKey).Pairwise (· < ·) := by
    rw [h.keys]
    exact List.pairwise_map.mpr h.aligned.increasing
  exact List.pairwise_map.mp hkeys

theorem Diffs.listed_increasing (h : Diffs u old new pairs ds) :
    (listed ds).Pairwise fun a b => a.secureKey < b.secureKey :=
  List.pairwise_map.mpr (h.increasing.filter _)

/-- What is listed under the key of a pair. -/
theorem Diffs.find?_listed (h : Diffs u old new pairs ds) (hd : d ∈ ds) :
    (listed ds).find? (·.secureKey = d.row.secureKey) = if d.changed then some d.row else none := by
  split_ifs with hchanged
  · exact find?_of_mem (f := DiffRow.secureKey) h.listed_increasing
      (List.mem_map_of_mem (List.mem_filter.mpr ⟨hd, hchanged⟩))
  · rw [List.find?_eq_none]
    intro row hrow
    obtain ⟨d', hd', rfl⟩ := List.mem_map.mp hrow
    obtain ⟨hmem, hchanged'⟩ := List.mem_filter.mp hd'
    have hnodup : (ds.map fun d => d.row.secureKey).Nodup := List.pairwise_map.mpr (h.increasing.imp fun hlt => hlt.ne)
    intro heq
    have hsame : d' = d := List.inj_on_of_nodup_map hnodup hmem hd (by simpa using heq)
    exact hchanged (hsame ▸ hchanged')

theorem Diffs.find?_listed_none (h : Diffs u old new pairs ds) (hkey : key ∉ pairs.map pairKey) :
    (listed ds).find? (·.secureKey = key) = none := by
  rw [List.find?_eq_none]
  intro row hrow heq
  obtain ⟨d, hd, rfl⟩ := List.mem_map.mp hrow
  rw [← h.keys] at hkey
  exact hkey (List.mem_map.mpr ⟨d, (List.mem_filter.mp hd).1, by simpa using heq⟩)

theorem not_changed : ¬d.changed ↔ d.row.changeType = .unchanged := by simp [Diff.changed]

theorem changeType_unchanged {old new : Option LedgerRow} {deltas : Component → ℤ}
    (hoccupied : (∃ a, old = some a) ∨ ∃ b, new = some b) (h : changeType old new deltas = .unchanged) :
    ∃ a b, old = some a ∧ new = some b ∧ (∀ c, deltas c = 0) ∧ a.metadata = b.metadata := by
  cases old with
  | none => cases h
  | some a =>
    cases new with
    | none => cases h
    | some b =>
      simp only [changeType] at h
      split_ifs at h with hamount hmetadata
      push Not at hamount hmetadata
      refine ⟨a, b, rfl, rfl, fun c => hamount c (mem_components c), funext fun field => hmetadata field ?_⟩
      cases field <;> decide

theorem changeType_changed {a b : LedgerRow} {deltas : Component → ℤ} :
    changeType (some a) (some b) deltas ≠ .created ∧ changeType (some a) (some b) deltas ≠ .deleted := by
  simp only [changeType]
  split_ifs <;> decide

theorem patched_of_find? {all : List DiffRow} {ledger : Text → Option (Component → ℤ)} {row : DiffRow}
    (h : all.find? (·.secureKey = key) = some row) (hcreated : row.changeType ≠ .created)
    (hdeleted : row.changeType ≠ .deleted) :
    patched all ledger key = (ledger key).map fun amounts c => amounts c + attoOf (row.delta c) := by
  rw [patched, h]
  cases htype : row.changeType with
  | created => exact absurd htype hcreated
  | deleted => exact absurd htype hdeleted
  | amountChanged => simp [htype]
  | metadataChanged => simp [htype]
  | unchanged => simp [htype]

/-- The patch at one key, by which rows there are. -/
theorem patched_pair {all : List DiffRow} {ledger : Text → Option (Component → ℤ)} {old new : Option LedgerRow} {address : Text}
    (hoccupied : (∃ a, old = some a) ∨ ∃ b, new = some b)
    (hfind : all.find? (·.secureKey = key) = if (diffOf old new address (values old) (values new)).changed then
      some (diffOf old new address (values old) (values new)).row else none)
    (hledger : ledger key = old.map LedgerRow.amount) : patched all ledger key = new.map LedgerRow.amount := by
  cases old with
  | none =>
    cases new with
    | none => simp at hoccupied
    | some b =>
      rw [if_pos (by rfl)] at hfind
      rw [patched, hfind]
      refine congrArg some (funext fun c => ?_)
      exact attoOf_rendering _
  | some a =>
    cases new with
    | none =>
      rw [if_pos (by rfl)] at hfind
      rw [patched, hfind]
      rfl
    | some b =>
      by_cases hchanged : (diffOf (some a) (some b) address (values (some a)) (values (some b))).changed
      · rw [if_pos hchanged] at hfind
        rw [patched_of_find? hfind changeType_changed.1 changeType_changed.2, hledger]
        refine congrArg some (funext fun c => ?_)
        have hdelta : attoOf ((diffOf (some a) (some b) address (values (some a)) (values (some b))).row.delta c) =
            b.amount c - a.amount c := attoOf_rendering _
        exact (congrArg (a.amount c + ·) hdelta).trans (add_sub_cancel _ _)
      · have htype : changeType (some a) (some b) (fun c => b.amount c - a.amount c) = .unchanged := by
          simpa [Diff.changed, diffOf, values] using hchanged
        obtain ⟨a', b', ha, hb, hzero, -⟩ := changeType_unchanged hoccupied htype
        rw [if_neg hchanged] at hfind
        rw [patched, hfind, hledger]
        exact congrArg some (funext fun c => (sub_eq_zero.mp (hzero c)).symm)

theorem Diffs.patch (h : Diffs u old new pairs ds) (key : Text) :
    patched (listed ds) (amountsAt old) key = amountsAt new key := by
  by_cases hkey : key ∈ pairs.map pairKey
  · obtain ⟨p, hp, rfl⟩ := List.mem_map.mp hkey
    obtain ⟨d, hd, hpd⟩ := ok_of_mem_left h.made hp
    have hfind := h.find?_listed hd
    rw [makeDiff_key hpd] at hfind
    have hold : amountsAt old (pairKey p) = p.1.map LedgerRow.amount := by
      rw [amountsAt, h.aligned.rowAt_old h.oldSorted hp]
    have hnew : amountsAt new (pairKey p) = p.2.map LedgerRow.amount := by
      rw [amountsAt, h.aligned.rowAt_new h.newSorted hp]
    obtain ⟨⟨address, rfl⟩, -, -⟩ := makeDiff_ok hpd
    rw [hnew]
    exact patched_pair (h.aligned.occupied p hp) hfind hold
  · obtain ⟨hold, hnew⟩ := h.aligned.rowAt_of_notMem hkey
    rw [patched, h.find?_listed_none hkey, amountsAt, amountsAt, hold, hnew]

theorem Diffs.unlisted (h : Diffs u old new pairs ds) (hkey : key ∉ (listed ds).map DiffRow.secureKey) :
    SameClaim (rowAt old key) (rowAt new key) := by
  by_cases hpair : key ∈ pairs.map pairKey
  · obtain ⟨p, hp, rfl⟩ := List.mem_map.mp hpair
    obtain ⟨d, hd, hpd⟩ := ok_of_mem_left h.made hp
    rw [h.aligned.rowAt_old h.oldSorted hp, h.aligned.rowAt_new h.newSorted hp]
    have hunchanged : ¬d.changed := by
      intro hchanged
      rw [← makeDiff_key hpd] at hkey
      exact hkey (List.mem_map_of_mem (List.mem_map_of_mem (List.mem_filter.mpr ⟨hd, hchanged⟩)))
    obtain ⟨⟨address, rfl⟩, -, -⟩ := makeDiff_ok hpd
    obtain ⟨a, b, ha, hb, hzero, hmetadata⟩ :=
      changeType_unchanged (h.aligned.occupied p hp) (not_changed.mp hunchanged)
    rw [ha, hb] at hzero ⊢
    exact ⟨funext fun c => (sub_eq_zero.mp (hzero c)).symm, hmetadata⟩
  · obtain ⟨hold, hnew⟩ := h.aligned.rowAt_of_notMem hpair
    rw [hold, hnew]
    trivial

/-- The pair behind a listed row. -/
theorem Diffs.exists_pair (h : Diffs u old new pairs ds) {row : DiffRow} (hrow : row ∈ listed ds) : ∃ p ∈ pairs, ∃ address,
    row = (diffOf p.1 p.2 address (values p.1) (values p.2)).row ∧ rowAt old row.secureKey = p.1 ∧
      rowAt new row.secureKey = p.2 := by
  obtain ⟨d, hd, rfl⟩ := List.mem_map.mp hrow
  obtain ⟨p, hp, hpd⟩ := ok_of_mem_right h.made (List.mem_filter.mp hd).1
  have hkey := makeDiff_key hpd
  obtain ⟨⟨address, rfl⟩, -, -⟩ := makeDiff_ok hpd
  refine ⟨p, hp, address, rfl, ?_, ?_⟩
  · rw [hkey, h.aligned.rowAt_old h.oldSorted hp]
  · rw [hkey, h.aligned.rowAt_new h.newSorted hp]

theorem Diffs.metadata (h : Diffs u old new pairs ds) {row : DiffRow} (hrow : row ∈ listed ds) :
    (∀ a ∈ rowAt old row.secureKey, row.oldMetadata = a.metadata) ∧
      ∀ b ∈ rowAt new row.secureKey, row.finalMetadata = b.metadata := by
  obtain ⟨p, -, address, rfl, hold, hnew⟩ := h.exists_pair hrow
  rw [hold, hnew]
  refine ⟨fun a ha => ?_, fun b hb => ?_⟩
  · rw [Option.mem_def.mp ha]
    rfl
  · rw [Option.mem_def.mp hb]
    rfl

theorem Diffs.over (h : Diffs u old new pairs ds) (hd : d ∈ ds) :
    d.oldOver = overAt old d.row.secureKey ∧ d.newOver = overAt new d.row.secureKey := by
  obtain ⟨p, hp, hpd⟩ := ok_of_mem_right h.made hd
  rw [makeDiff_key hpd, overAt, overAt, h.aligned.rowAt_old h.oldSorted hp, h.aligned.rowAt_new h.newSorted hp]
  obtain ⟨⟨address, rfl⟩, -, -⟩ := makeDiff_ok hpd
  exact ⟨rfl, rfl⟩

theorem listed_filter {q : Diff → Bool} {r : DiffRow → Bool} (hqr : ∀ d ∈ ds, q d = r d.row) :
    ((ds.filter Diff.changed).filter q).map Diff.row = (listed ds).filter r := by
  rw [listed, List.filter_map]
  exact congrArg _ (List.filter_congr fun d hd => hqr d (List.mem_filter.mp hd).1)

theorem Aligned.sums (h : Aligned old new pairs) (c : Component) : (pairs.map fun p => values p.1 c).sum = columnSum old c := by
  have hsum := sum_values (pairs.map Prod.fst) c
  rwa [List.map_map, List.filterMap_map, Function.id_comp, h.old] at hsum

theorem sum_map_sub {α : Type} (f g : α → ℤ) (l : List α) :
    (l.map fun a => f a - g a).sum = (l.map f).sum - (l.map g).sum := by
  induction l with
  | nil => rfl
  | cons a l ih =>
    rw [List.map_cons, List.sum_cons, ih, List.map_cons, List.sum_cons, List.map_cons, List.sum_cons]
    ring

theorem Diffs.sums (h : Diffs u old new pairs ds) (c : Component) :
    (ds.map fun d => d.oldValues c).sum = columnSum old c ∧ (ds.map fun d => d.newValues c).sum = columnSum new c ∧
      (ds.map fun d => d.deltas c).sum = columnSum new c - columnSum old c := by
  have hvalues : ∀ p : RowPair, ∀ d : Diff, makeDiff u p.1 p.2 = .ok d →
      values p.1 c = d.oldValues c ∧ values p.2 c = d.newValues c ∧ d.deltas c = d.newValues c - d.oldValues c := by
    intro p d hpd
    obtain ⟨⟨address, rfl⟩, -, -⟩ := makeDiff_ok hpd
    exact ⟨rfl, rfl, rfl⟩
  have hold : (ds.map fun d => d.oldValues c).sum = columnSum old c := by
    rw [← h.aligned.sums, map_eq_of_forall₂ h.made fun p d hpd => (hvalues p d hpd).1]
  have hnew : (ds.map fun d => d.newValues c).sum = columnSum new c := by
    have hswap := h.aligned.swap.sums c
    rw [List.map_map] at hswap
    rw [← hswap]
    exact congrArg List.sum (map_eq_of_forall₂ h.made fun p d hpd => (hvalues p d hpd).2.1).symm
  have hdeltas : (ds.map fun d => d.deltas c) = ds.map fun d => d.newValues c - d.oldValues c := by
    refine List.map_congr_left fun d hd => ?_
    obtain ⟨p, -, hpd⟩ := ok_of_mem_right h.made hd
    exact (hvalues p d hpd).2.2
  exact ⟨hold, hnew, by rw [hdeltas, sum_map_sub, hold, hnew]⟩

/-! ### The verification -/

theorem closes_sub {a b : Component → ℤ} (ha : LiquidCloses a ∧ TotalCloses a) (hb : LiquidCloses b ∧ TotalCloses b) :
    LiquidCloses (fun c => a c - b c) ∧ TotalCloses fun c => a c - b c := by
  simp only [LiquidCloses, TotalCloses] at ha hb ⊢
  omega

theorem checkTotals_ok {values : Component → ℤ} (h : LiquidCloses values ∧ TotalCloses values) (line : ℕ) :
    checkTotals values line = .ok () := by
  rw [checkTotals, require, if_pos h.1, bind_ok_left, require, if_pos h.2]

theorem valuesOf_components (f : Component → Values) (c : Component) :
    valuesOf (components.map fun c => (c, f c)) c = f c := by cases c <;> rfl

theorem boolText_true_iff (b : Bool) : boolText b = "true".toList ↔ b := by cases b <;> decide

theorem readComponent_ok {row : DiffRow} {line : ℕ} {c : Component} {old final : ℤ} (hold : row.old c = rendering old)
    (hfinal : row.final c = rendering final) (hdelta : row.delta c = rendering (final - old)) (h0 : 0 ≤ old)
    (h1 : 0 ≤ final) : readComponent row line c = .ok ⟨old, final, final - old⟩ := by
  have hnonneg : ¬(old < 0 ∨ final < 0) := not_or.mpr ⟨not_lt.mpr h0, not_lt.mpr h1⟩
  have hread : ∀ z : ℤ, readFixed (rendering z).one 18 = some z := readFixed_fixed (by decide)
  have hparse : ∀ z : ℤ, ofOption (parseInt (rendering z).atto) (VerifyError.notANumber line) = .ok z := by
    intro z
    rw [rendering, parseInt_renderInt]
    rfl
  rw [readComponent, hold, hfinal, hdelta, hparse, bind_ok_left, hparse, bind_ok_left, hparse, bind_ok_left, require,
    if_pos hnonneg, bind_ok_left, require, if_pos rfl, bind_ok_left, require, if_pos (hread old), bind_ok_left, require,
    if_pos (hread final), bind_ok_left, require, if_pos (hread (final - old))]
  rfl

/-- A difference of rows whose sums close is accepted after any lesser key. -/
theorem verifyRow_ok {old new : Option LedgerRow} {address : Text} (line : ℕ) {st : Option Text × Result}
    (hold : ∀ c, 0 ≤ values old c) (hnew : ∀ c, 0 ≤ values new c) (hchanged : (diffOf old new address (values old)
      (values new)).changed) (holdCloses : LiquidCloses (values old) ∧ TotalCloses (values old))
    (hnewCloses : LiquidCloses (values new) ∧ TotalCloses (values new))
    (hprevious : ∀ previous ∈ st.1, previous < u.lower (pairKey (old, new))) :
    verifyRow u st ((diffOf old new address (values old) (values new)).row, line) =
      .ok (some (u.lower (pairKey (old, new))), st.2.add (changeType old new fun c => values new c - values old c)
        fun c => values new c - values old c) := by
  obtain ⟨row, hrow⟩ : ∃ row, row = (diffOf old new address (values old) (values new)).row := ⟨_, rfl⟩
  have hread : components.mapM (fun c => (readComponent row line c).map (c, ·)) =
      .ok (components.map fun c => (c, ⟨values old c, values new c, values new c - values old c⟩)) := by
    apply mapM_ok_of_forall
    intro c _
    have hcomponent : readComponent row line c = .ok ⟨values old c, values new c, values new c - values old c⟩ :=
      readComponent_ok (by rw [hrow]; rfl) (by rw [hrow]; rfl) (by rw [hrow]; rfl) (hold c) (hnew c)
    rw [hcomponent]
    rfl
  have husd : ∀ z : ℤ, readFixed (usd z) 26 = some (z * priceNumerator) := fun z => readFixed_fixed (by decide) _
  have hover : ∀ z : ℤ, (boolText (over1usd z) = "true".toList ↔ usdThreshold < z * priceNumerator) := fun z =>
    (boolText_true_iff _).trans decide_eq_true_iff
  have hkey : row.secureKey = pairKey (old, new) := by rw [hrow]; rfl
  have holdUsd : readFixed row.oldTotalUsd 26 = some (values old .totalClaim * priceNumerator) := by
    rw [hrow]
    exact husd _
  have hfinalUsd : readFixed row.finalTotalUsd 26 = some (values new .totalClaim * priceNumerator) := by
    rw [hrow]
    exact husd _
  have hdeltaUsd : readFixed row.deltaTotalUsd 26 =
      some ((values new .totalClaim - values old .totalClaim) * priceNumerator) := by
    rw [hrow]
    exact husd _
  have holdOver : row.oldOver1usd = "true".toList ↔ usdThreshold < values old .totalClaim * priceNumerator := by
    rw [hrow]
    exact hover _
  have hfinalOver : row.finalOver1usd = "true".toList ↔ usdThreshold < values new .totalClaim * priceNumerator := by
    rw [hrow]
    exact hover _
  have htype : row.changeType ≠ .unchanged := by
    rw [hrow]
    exact of_decide_eq_true hchanged
  have hresult : changeType old new (fun c => values new c - values old c) = row.changeType := by rw [hrow]; rfl
  rw [← hrow, hresult, verifyRow]
  simp only [hkey, hread, valuesOf_components, bind_ok_left, require, if_pos hprevious, checkTotals_ok holdCloses,
    checkTotals_ok hnewCloses, checkTotals_ok (closes_sub hnewCloses holdCloses), if_pos holdUsd, if_pos hfinalUsd,
    if_pos hdeltaUsd, if_pos holdOver, if_pos hfinalOver, if_pos htype]
  rfl

/-- A row that the verification takes after any lesser key. -/
def ReadsBack (u : Lower) (row : DiffRow) : Prop :=
  ∀ (line : ℕ) (st : Option Text × Result), (∀ previous ∈ st.1, previous < u.lower row.secureKey) →
    verifyRow u st (row, line) =
      .ok (some (u.lower row.secureKey), st.2.add row.changeType fun c => attoOf (row.delta c))

theorem verify_fold {rows : List DiffRow} (hrows : ∀ row ∈ rows, ReadsBack u row)
    (hsorted : rows.Pairwise fun a b => u.lower a.secureKey < u.lower b.secureKey) (line : ℕ) (st : Option Text × Result)
    (hprevious : ∀ previous ∈ st.1, ∀ row ∈ rows, previous < u.lower row.secureKey) :
    ∃ st', (rows.zipIdx line).foldlM (verifyRow u) st = .ok st' ∧
      ∀ c, st'.2.totals c = st.2.totals c + (rows.map fun row => attoOf (row.delta c)).sum := by
  induction rows generalizing line st with
  | nil => exact ⟨st, rfl, fun c => (add_zero _).symm⟩
  | cons row rows ih =>
    obtain ⟨hhead, htail⟩ := List.pairwise_cons.mp hsorted
    have hstep := hrows row List.mem_cons_self line st fun previous hp => hprevious previous hp row List.mem_cons_self
    obtain ⟨st', hst', htotals⟩ := ih (fun r hr => hrows r (List.mem_cons_of_mem _ hr)) htail (line + 1)
      (some (u.lower row.secureKey), st.2.add row.changeType fun c => attoOf (row.delta c)) fun previous hp r hr => by
        rw [← Option.mem_some_iff.mp hp]
        exact hhead r hr
    refine ⟨st', ?_, fun c => ?_⟩
    · rw [List.zipIdx_cons, List.foldlM_cons, hstep]
      exact hst'
    · rw [htotals, List.map_cons, List.sum_cons, ← add_assoc]
      rfl

theorem Aligned.closes (h : Aligned old new pairs) (hcloses : ∀ row ∈ old ++ new, row.Closes) (hp : p ∈ pairs) :
    (LiquidCloses (values p.1) ∧ TotalCloses (values p.1)) ∧ LiquidCloses (values p.2) ∧ TotalCloses (values p.2) := by
  have hzero : ∀ row : Option LedgerRow, (∀ a, row = some a → a ∈ old ++ new) →
      LiquidCloses (values row) ∧ TotalCloses (values row) := by
    intro row hrow
    cases row with
    | none => exact ⟨rfl, rfl⟩
    | some a => exact hcloses a (hrow a rfl)
  refine ⟨hzero p.1 fun a ha => ?_, hzero p.2 fun b hb => ?_⟩
  · exact List.mem_append_left _ (h.old ▸ List.mem_filterMap.mpr ⟨p, hp, ha⟩)
  · exact List.mem_append_right _ (h.new ▸ List.mem_filterMap.mpr ⟨p, hp, hb⟩)

theorem Diffs.readsBack (h : Diffs u old new pairs ds) (hcloses : ∀ row ∈ old ++ new, row.Closes) {row : DiffRow}
    (hrow : row ∈ listed ds) : ReadsBack u row := by
  obtain ⟨d, hd, rfl⟩ := List.mem_map.mp hrow
  obtain ⟨hmem, hchanged⟩ := List.mem_filter.mp hd
  obtain ⟨p, hp, hpd⟩ := ok_of_mem_right h.made hmem
  obtain ⟨⟨address, rfl⟩, hold, hnew⟩ := makeDiff_ok hpd
  obtain ⟨holdCloses, hnewCloses⟩ := h.aligned.closes hcloses hp
  intro line st hprevious
  have hdelta : (fun c => attoOf ((diffOf p.1 p.2 address (values p.1) (values p.2)).row.delta c)) =
      fun c => values p.2 c - values p.1 c := funext fun c => attoOf_rendering _
  rw [hdelta]
  exact verifyRow_ok line hold hnew hchanged holdCloses hnewCloses hprevious

/-- The deltas that are not listed are zero. -/
theorem Diffs.listed_sum (h : Diffs u old new pairs ds) (c : Component) :
    ((listed ds).map fun row => attoOf (row.delta c)).sum = columnSum new c - columnSum old c := by
  have hdelta : ∀ d ∈ ds, attoOf (d.row.delta c) = d.deltas c ∧ (¬d.changed → d.deltas c = 0) := by
    intro d hd
    obtain ⟨p, hp, hpd⟩ := ok_of_mem_right h.made hd
    obtain ⟨⟨address, rfl⟩, -, -⟩ := makeDiff_ok hpd
    refine ⟨attoOf_rendering _, fun hunchanged => ?_⟩
    obtain ⟨a, b, -, -, hzero, -⟩ := changeType_unchanged (h.aligned.occupied p hp) (not_changed.mp hunchanged)
    exact hzero c
  rw [← (h.sums c).2.2, listed, List.map_map]
  clear h
  induction ds with
  | nil => rfl
  | cons d ds ih =>
    obtain ⟨heq, hzero⟩ := hdelta d List.mem_cons_self
    have hrest := ih fun d hd => hdelta d (List.mem_cons_of_mem _ hd)
    by_cases hchanged : d.changed
    · rw [List.filter_cons_of_pos hchanged, List.map_cons, List.map_cons, List.sum_cons, List.sum_cons, hrest]
      exact congrArg (· + _) heq
    · rw [List.filter_cons_of_neg hchanged, List.map_cons, List.sum_cons, hzero hchanged, zero_add, hrest]

theorem Diffs.verified (h : Diffs u old new pairs ds) (hlower : ∀ row ∈ old ++ new, u.lower row.secureKey = row.secureKey)
    (hcloses : ∀ row ∈ old ++ new, row.Closes) {expected : Option ℤ}
    (hexpected : ∀ e ∈ expected, e = columnSum new .totalClaim - columnSum old .totalClaim) :
    ∃ result, verifyDiff u expected (listed ds) = .ok result := by
  have hkey : ∀ row ∈ listed ds, u.lower row.secureKey = row.secureKey := by
    intro row hrow
    obtain ⟨d, hd, rfl⟩ := List.mem_map.mp hrow
    obtain ⟨p, hp, hpd⟩ := ok_of_mem_right h.made (List.mem_filter.mp hd).1
    rw [makeDiff_key hpd]
    rcases h.aligned.occupied p hp with ⟨a, ha⟩ | ⟨b, hb⟩
    · rw [← (h.aligned.keyed p hp).1 a ha]
      exact hlower a (List.mem_append_left _ (h.aligned.old ▸ List.mem_filterMap.mpr ⟨p, hp, ha⟩))
    · rw [← (h.aligned.keyed p hp).2 b hb]
      exact hlower b (List.mem_append_right _ (h.aligned.new ▸ List.mem_filterMap.mpr ⟨p, hp, hb⟩))
  have hsorted : (listed ds).Pairwise fun a b => u.lower a.secureKey < u.lower b.secureKey := by
    refine h.listed_increasing.imp_of_mem ?_
    intro a b ha hb hlt
    rwa [hkey a ha, hkey b hb]
  obtain ⟨st, hst, htotals⟩ := verify_fold (fun row hrow => h.readsBack hcloses hrow) hsorted 2 (none, Result.start) (by simp)
  have htotal : st.2.totals .totalClaim = columnSum new .totalClaim - columnSum old .totalClaim := by
    rw [htotals, h.listed_sum]
    exact zero_add _
  refine ⟨st.2, ?_⟩
  rw [verifyDiff, hst, bind_ok_left, require, if_pos fun e he => htotal.trans (hexpected e he).symm]
  rfl

end Pairs

/-! ### The whole run -/

section Run

variable (u : Lowercase)

theorem foldlM_checkKey {l : List LedgerRow} :
    ∀ (line : ℕ) (previous last : Option Text), (l.zipIdx line).foldlM checkKey previous = .ok last →
      Sorted l ∧ ∀ p ∈ previous, ∀ row ∈ l, p < row.secureKey := by
  induction l with
  | nil => exact fun _ _ _ _ => ⟨.nil, by simp⟩
  | cons row l ih =>
    intro line previous last h
    rw [List.zipIdx_cons] at h
    obtain ⟨next, hnext, hrest⟩ := foldlM_cons_ok h
    obtain ⟨_, hrequire, rfl⟩ := of_map_ok hnext
    have hprevious : ∀ p ∈ previous, p < row.secureKey := of_require_ok hrequire
    obtain ⟨hsorted, hall⟩ := ih (line + 1) _ last hrest
    have hhead : ∀ r ∈ l, row.secureKey < r.secureKey := hall row.secureKey rfl
    refine ⟨List.pairwise_cons.mpr ⟨hhead, hsorted⟩, fun p hp r hr => ?_⟩
    rcases List.mem_cons.mp hr with rfl | hr
    · exact hprevious p hp
    · exact (hprevious p hp).trans (hhead r hr)

theorem rows_ok {file ledger : List LedgerRow} (h : rows u.toLower file = .ok ledger) :
    Sorted ledger ∧ ∀ row ∈ ledger, u.lower row.secureKey = row.secureKey := by
  obtain ⟨last, hfold, rfl⟩ := of_map_ok h
  refine ⟨(foldlM_checkKey _ _ _ hfold).1, ?_⟩
  intro row hrow
  obtain ⟨raw, -, rfl⟩ := List.mem_map.mp hrow
  exact u.lower_lower _

/-- A run that succeeds has written an exact patch of the two ledgers. -/
theorem claimsDiff_exact {oldAll newAll original : List LedgerRow} {out : Output}
    (h : claimsDiff u.toLower oldAll newAll original = .ok out) :
    ∃ old new population, rows u.toLower oldAll = .ok old ∧ rows u.toLower newAll = .ok new ∧
      rows u.toLower original = .ok population ∧
      ExactPatch u.toLower old new (population.map LedgerRow.secureKey) out := by
  obtain ⟨population, hpopulation, h⟩ := of_bind_ok h
  obtain ⟨old, hold, h⟩ := of_bind_ok h
  obtain ⟨new, hnew, h⟩ := of_bind_ok h
  obtain ⟨holdSorted, holdLower⟩ := rows_ok u hold
  obtain ⟨hnewSorted, hnewLower⟩ := rows_ok u hnew
  obtain ⟨pairs, ds, haligned, hmade, hout⟩ := mergeLoop_ok holdSorted hnewSorted h
  have hd : Diffs u.toLower old new pairs ds := ⟨holdSorted, hnewSorted, haligned, hmade⟩
  refine ⟨old, new, population, hold, hnew, hpopulation, ?_⟩
  obtain ⟨original, horiginal⟩ : ∃ f : Diff → Bool, f = fun d => decide (d.row.secureKey ∈ population.map (·.secureKey)) :=
    ⟨_, rfl⟩
  have hfolded : out = folded original ds Output.start := by
    rw [hout, horiginal]
    rfl
  obtain ⟨hall, hthreshold, hpopulationFile⟩ := folded_files original ds Output.start
  obtain ⟨hrows, htotals⟩ := folded_summary original ds Output.start
  have hlisted : (folded original ds Output.start).all = listed ds := hall.trans (List.nil_append _)
  rw [hfolded]
  refine ⟨?_, ?_, ?_, ?_, ?_, ?_, ?_, ?_, ?_, ?_⟩
  · rw [hlisted]
    exact hd.listed_increasing
  · rw [hlisted]
    exact hd.patch
  · rw [hlisted]
    exact fun row hrow => (hd.metadata hrow).1
  · rw [hlisted]
    exact fun row hrow => (hd.metadata hrow).2
  · rw [hlisted]
    exact fun key hkey => hd.unlisted hkey
  · rw [hrows, ← haligned.length_eq, hmade.length_eq]
    exact Nat.zero_add _
  · intro c
    obtain ⟨hold, hnew, hdelta⟩ := hd.sums c
    rw [htotals, hold, hnew, hdelta]
    exact congrArg₂ (fun a b => Totals.mk a b _) (zero_add _) (zero_add _) |>.trans (congrArg (Totals.mk _ _) (zero_add _))
  · rw [hthreshold, hlisted]
    refine (List.nil_append _).trans (listed_filter fun d hmem => ?_)
    rw [(hd.over hmem).1, (hd.over hmem).2]
  · rw [hpopulationFile, hlisted]
    refine (List.nil_append _).trans (listed_filter fun d _ => ?_)
    rw [horiginal]
  · intro hcloses expected hexpected
    rw [hlisted]
    refine hd.verified ?_ hcloses fun e he => ?_
    · intro row hrow
      rcases List.mem_append.mp hrow with hrow | hrow
      · exact holdLower row hrow
      · exact hnewLower row hrow
    · rcases List.mem_cons.mp hexpected with rfl | hexpected
      · cases he
      · rw [List.mem_singleton.mp hexpected] at he
        exact (Option.mem_some_iff.mp he).symm

end Run

theorem toLower_toLower (c : Char) : c.toLower.toLower = c.toLower := by
  by_cases h : c.toNat < 128
  · have hall : ∀ n < 128, (Char.ofNat n).toLower.toLower = (Char.ofNat n).toLower := by decide
    rw [← Char.ofNat_toNat c]
    exact hall _ h
  · have hupper : ¬(c.val ≥ 'A'.val ∧ c.val ≤ 'Z'.val) := by
      rintro ⟨-, hle⟩
      have hle : c.toNat ≤ 90 := UInt32.le_iff_toNat_le.mp hle
      omega
    have hsame : c.toLower = c := dif_neg hupper
    rw [hsame, hsame]

/-- `str.lower` on ASCII texts. -/
def asciiLowercase : Lowercase := ⟨asciiLower, fun t => by
  change (t.map Char.toLower).map Char.toLower = t.map Char.toLower
  rw [List.map_map]
  exact List.map_congr_left fun c _ => toLower_toLower c⟩

/-- A row with liquid funds on shard 0 only. -/
def liquidRow (key : Text) (amount : ℤ) : LedgerRow :=
  ⟨key, "0x".toList ++ key, ['1'], ['1'], ['1'], "0.074801".toList,
    fun c => if c = .liquidShard0 ∨ c = .liquidTotal ∨ c = .totalClaim then amount else 0, fun _ => ['0']⟩

/-- One key is deleted, one loses a single atto and one is created. -/
theorem singleAtto_exact : ∃ out old new population,
    claimsDiff asciiLowercase.toLower [liquidRow ['a'] 5, liquidRow ['b'] 7] [liquidRow ['B'] 6, liquidRow ['c'] 2]
      [liquidRow ['b'] 7] = .ok out ∧
    ExactPatch asciiLowercase.toLower old new population out := by
  have hok : (claimsDiff asciiLowercase.toLower [liquidRow ['a'] 5, liquidRow ['b'] 7]
      [liquidRow ['B'] 6, liquidRow ['c'] 2] [liquidRow ['b'] 7]).toBool = true := by decide +kernel
  obtain ⟨out, h⟩ := Except.exists_ok_of_toBool hok
  obtain ⟨old, new, population, -, -, -, hexact⟩ := claimsDiff_exact asciiLowercase h
  exact ⟨out, old, new, _, h, hexact⟩

end HarmonyMigration.ClaimsDiff
