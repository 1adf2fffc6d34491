import HarmonyMigration.Cutoff.ClaimsDiff

/-! The merge of `migration-claims-diff` visits each key of the two ledgers once, in order, with the rows of both. -/

namespace HarmonyMigration.ClaimsDiff

open Airdrop.One1 Decimal Except

abbrev RowPair := Option LedgerRow × Option LedgerRow

def pairKey (p : RowPair) : Text := textOf (p.1.or p.2) (·.secureKey)

/-- The keys increase. -/
def Sorted (ledger : List LedgerRow) : Prop := ledger.Pairwise fun a b => a.secureKey < b.secureKey

/-- The rows of two ledgers side by side, one pair for each key. -/
structure Aligned (old new : List LedgerRow) (pairs : List RowPair) : Prop where
  old : pairs.filterMap Prod.fst = old
  new : pairs.filterMap Prod.snd = new
  increasing : pairs.Pairwise fun p q => pairKey p < pairKey q
  keyed : ∀ p ∈ pairs, (∀ a ∈ p.1, a.secureKey = pairKey p) ∧ ∀ b ∈ p.2, b.secureKey = pairKey p
  occupied : ∀ p ∈ pairs, (∃ a, p.1 = some a) ∨ ∃ b, p.2 = some b

section Align

variable {old new : List LedgerRow} {pairs : List RowPair} {key : Text}

theorem Aligned.nil : Aligned [] [] [] := ⟨rfl, rfl, .nil, by simp, by simp⟩

/-- A pair in front, whose key is below all the rows behind. -/
theorem Aligned.cons (h : Aligned old new pairs) {p : RowPair} (hkey : pairKey p = key)
    (hkeyed : (∀ a ∈ p.1, a.secureKey = key) ∧ ∀ b ∈ p.2, b.secureKey = key)
    (hoccupied : (∃ a, p.1 = some a) ∨ ∃ b, p.2 = some b) (hold : ∀ a ∈ old, key < a.secureKey)
    (hnew : ∀ b ∈ new, key < b.secureKey) : Aligned (p.1.toList ++ old) (p.2.toList ++ new) (p :: pairs) := by
  subst hkey
  refine ⟨?_, ?_, List.pairwise_cons.mpr ⟨?_, h.increasing⟩, ?_, ?_⟩
  · rw [← h.old]
    cases hfst : p.1 with
    | none => exact List.filterMap_cons_none hfst
    | some a => exact List.filterMap_cons_some hfst
  · rw [← h.new]
    cases hsnd : p.2 with
    | none => exact List.filterMap_cons_none hsnd
    | some b => exact List.filterMap_cons_some hsnd
  · intro q hq
    rcases h.occupied q hq with ⟨a, ha⟩ | ⟨b, hb⟩
    · rw [← (h.keyed q hq).1 a ha]
      exact hold a (h.old ▸ List.mem_filterMap.mpr ⟨q, hq, ha⟩)
    · rw [← (h.keyed q hq).2 b hb]
      exact hnew b (h.new ▸ List.mem_filterMap.mpr ⟨q, hq, hb⟩)
  · intro q hq
    rcases List.mem_cons.mp hq with rfl | hq
    · exact hkeyed
    · exact h.keyed q hq
  · intro q hq
    rcases List.mem_cons.mp hq with rfl | hq
    · exact hoccupied
    · exact h.occupied q hq

/-! ### One round of the loop -/

variable {ledger : List LedgerRow}

theorem current_append_advance (key : Text) (ledger : List LedgerRow) :
    (current key ledger).toList ++ advance (current key ledger) ledger = ledger := by
  cases ledger with
  | nil => rfl
  | cons a ledger =>
    by_cases h : a.secureKey = key
    · simp [current, advance, h, Option.filter]
    · simp [current, advance, h]

theorem current_key {a : LedgerRow} (h : a ∈ current key ledger) : a.secureKey = key := by
  have := (Option.mem_filter_iff.mp h).2
  simpa using this

theorem Sorted.advance (h : Sorted ledger) : Sorted (advance (current key ledger) ledger) :=
  (List.pairwise_append.mp ((current_append_advance key ledger).symm ▸ h)).2.1

theorem key_lt_advance (h : Sorted ledger) (hle : ∀ a ∈ ledger.head?, key ≤ a.secureKey) :
    ∀ a ∈ ClaimsDiff.advance (current key ledger) ledger, key < a.secureKey := by
  cases ledger with
  | nil => simp [current, ClaimsDiff.advance]
  | cons b ledger =>
    obtain ⟨hhead, -⟩ := List.pairwise_cons.mp h
    have hb : key ≤ b.secureKey := hle b rfl
    intro a ha
    by_cases heq : b.secureKey = key
    · have ha : a ∈ ledger := by simpa [current, ClaimsDiff.advance, heq] using ha
      exact heq ▸ hhead a ha
    · have ha : a ∈ b :: ledger := by simpa [current, ClaimsDiff.advance, heq] using ha
      have hlt : key < b.secureKey := lt_of_le_of_ne hb (Ne.symm heq)
      rcases List.mem_cons.mp ha with rfl | ha
      · exact hlt
      · exact hlt.trans (hhead a ha)

theorem nextKey_none (h : nextKey old.head? new.head? = none) : old = [] ∧ new = [] := by
  cases old with
  | nil =>
    cases new with
    | nil => exact ⟨rfl, rfl⟩
    | cons b new => cases h
  | cons a old =>
    cases new with
    | nil => cases h
    | cons b new => cases h

/-- The next key is the least one, and one of the two ledgers has it. -/
theorem nextKey_some (h : nextKey old.head? new.head? = some key) :
    (∀ a ∈ old.head?, key ≤ a.secureKey) ∧ (∀ b ∈ new.head?, key ≤ b.secureKey) ∧
      ((∃ a, current key old = some a) ∨ ∃ b, current key new = some b) := by
  cases old with
  | nil =>
    cases new with
    | nil => cases h
    | cons b new =>
      obtain rfl : b.secureKey = key := Option.some.inj h
      exact ⟨by simp, by simp, Or.inr ⟨b, by simp [current]⟩⟩
  | cons a old =>
    cases new with
    | nil =>
      obtain rfl : a.secureKey = key := Option.some.inj h
      exact ⟨by simp, by simp, Or.inl ⟨a, by simp [current]⟩⟩
    | cons b new =>
      obtain rfl : min a.secureKey b.secureKey = key := Option.some.inj h
      refine ⟨by simp, by simp, ?_⟩
      rcases min_choice a.secureKey b.secureKey with hmin | hmin
      · exact Or.inl ⟨a, by simp [current, hmin]⟩
      · exact Or.inr ⟨b, by simp [current, hmin]⟩

theorem pairKey_current (h : (∃ a, current key old = some a) ∨ ∃ b, current key new = some b) :
    pairKey (current key old, current key new) = key := by
  cases hold : current key old with
  | some a =>
    have ha : a ∈ current key old := hold
    exact current_key ha
  | none =>
    obtain ⟨b, hb⟩ := h.resolve_left (by simp [hold])
    have hmem : b ∈ current key new := hb
    rw [hb]
    exact current_key hmem

end Align

/-! ### One pair -/

theorem mem_components (c : Component) : c ∈ components := by cases c <;> decide

/-- The amounts of a row, zero where there is none. -/
def values (row : Option LedgerRow) : Component → ℤ := row.elim (fun _ => 0) LedgerRow.amount

theorem attos_ok {row : Option LedgerRow} {v : Component → ℤ} (h : attos row = .ok v) :
    v = values row ∧ ∀ c, 0 ≤ values row c := by
  cases row with
  | none => exact ⟨(Except.ok.inj h).symm, fun _ => le_rfl⟩
  | some row =>
    obtain ⟨_, hrequire, rfl⟩ := of_map_ok h
    exact ⟨rfl, fun c => of_require_ok hrequire c (mem_components c)⟩

theorem makeDiff_ok {u : Lower} {old new : Option LedgerRow} {d : Diff} (h : makeDiff u old new = .ok d) :
    (∃ address, d = diffOf old new address (values old) (values new)) ∧ (∀ c, 0 ≤ values old c) ∧
      ∀ c, 0 ≤ values new c := by
  simp only [makeDiff, ofOption_bind_ok, require_bind_ok] at h
  obtain ⟨address, -, -, h⟩ := h
  obtain ⟨oldValues, hold, h⟩ := of_bind_ok h
  obtain ⟨newValues, hnew, rfl⟩ := of_map_ok h
  obtain ⟨rfl, holdNonneg⟩ := attos_ok hold
  obtain ⟨rfl, hnewNonneg⟩ := attos_ok hnew
  exact ⟨⟨address, rfl⟩, holdNonneg, hnewNonneg⟩

theorem makeDiff_key {u : Lower} {old new : Option LedgerRow} {d : Diff} (h : makeDiff u old new = .ok d) :
    d.row.secureKey = pairKey (old, new) := by
  obtain ⟨⟨address, rfl⟩, -, -⟩ := makeDiff_ok h
  rfl

/-- The loop is a fold over the pairs. -/
theorem mergeLoop_ok {u : Lower} {originalKeys : List Text} {fuel : ℕ} {old new : List LedgerRow} {out out' : Output}
    (hold : Sorted old) (hnew : Sorted new) (h : mergeLoop u originalKeys fuel old new out = .ok out') :
    ∃ pairs ds, Aligned old new pairs ∧ List.Forall₂ (fun p d => makeDiff u p.1 p.2 = .ok d) pairs ds ∧
      out' = ds.foldl (fun out d => out.add d (d.row.secureKey ∈ originalKeys)) out := by
  induction fuel generalizing old new out with
  | zero => cases h
  | succ fuel ih =>
    rw [mergeLoop] at h
    cases hkey : nextKey old.head? new.head? with
    | none =>
      obtain ⟨rfl, rfl⟩ := nextKey_none hkey
      rw [hkey] at h
      exact ⟨[], [], .nil, .nil, (Except.ok.inj h).symm⟩
    | some key =>
      simp only [hkey] at h
      obtain ⟨d, hd, h⟩ := of_bind_ok h
      obtain ⟨hleOld, hleNew, hoccupied⟩ := nextKey_some hkey
      obtain ⟨pairs, ds, haligned, hds, hout⟩ := ih hold.advance hnew.advance h
      have hpair := pairKey_current hoccupied
      have hcons := haligned.cons hpair ⟨fun a ha => current_key ha, fun b hb => current_key hb⟩ hoccupied
        (key_lt_advance hold hleOld) (key_lt_advance hnew hleNew)
      rw [current_append_advance, current_append_advance] at hcons
      refine ⟨_, d :: ds, hcons, .cons hd hds, ?_⟩
      rw [List.foldl_cons, makeDiff_key hd, hpair]
      exact hout

end HarmonyMigration.ClaimsDiff
