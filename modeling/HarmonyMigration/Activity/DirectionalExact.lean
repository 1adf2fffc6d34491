import HarmonyMigration.Activity.Directional
import HarmonyMigration.Lib.ExceptRun
import Mathlib.Tactic

/-! What the directional activity of an address is worth. The blocks come from the lookup table and the bodies; the order
within a block is the recorded one until a transaction is located. -/

namespace HarmonyMigration.DirectionalActivity

open Except Worker

/-! ### The chain, the lookup table and the index -/

section Chain

variable (w : Worker) (kind : Kind) (a : Address)

/-- The canonical transaction at a position. -/
def At (b i : ℕ) (tx : TxBody) : Prop := ∃ block, w.blocks[b]? = some block ∧ (block.txs kind)[i]? = some tx

def Signs (tx : TxBody) : Prop := tx.sender = some a

/-- Sent to the address by another sender. -/
def Receives (tx : TxBody) : Prop := tx.sender ≠ some a ∧ tx.recipient = some a

instance : DecidablePred (Signs a) := fun _ => inferInstanceAs (Decidable (_ = _))

instance : DecidablePred (Receives a) := fun _ => inferInstanceAs (Decidable (_ ∧ _))

/-- The entry has the hash of the transaction. -/
def Entry.Names (e : Entry) (tx : TxBody) : Prop := ∃ key ∈ e.key, key.hash ∈ tx.names

/-- A canonical chain, a lookup table that gives each transaction's block, and an index of the address. -/
structure World : Prop where
  cutoff : w.cutoff < w.blocks.length
  unique : ∀ kind b i tx b' i' tx' hash, At w kind b i tx → At w kind b' i' tx' → hash ∈ tx.names → hash ∈ tx'.names →
    b = b' ∧ i = i'
  sender : ∀ kind b i tx, At w kind b i tx → tx.sender ≠ none
  nonces : ∀ kind b i tx b' i' tx', At w kind b i tx → At w kind b' i' tx' → Signs a tx → Signs a tx' →
    b < b' ∨ b = b' ∧ i < i' → tx.nonce < tx'.nonce
  staking : ∀ b i tx, At w .staking b i tx → w.shard = 0
  keys : ∀ kind, ∀ e ∈ w.explorer kind a, e.key ≠ none
  lookup : ∀ kind, ∀ e ∈ w.explorer kind a, ∀ key ∈ e.key, ∀ b i tx, At w kind b i tx → key.hash ∈ tx.names →
    ∃ position, w.lookup key.hash = some (b, position) ∧ ∀ p ∈ position, p = i
  indexed : ∀ kind b i tx, At w kind b i tx → tx.sender = some a ∨ tx.recipient = some a →
    ∃ e ∈ w.explorer kind a, e.Names tx
  flags : ∀ kind, ∀ e ∈ w.explorer kind a, ∀ b i tx, At w kind b i tx → e.Names tx → e.flag = 1 → Signs a tx

/-- Where two transactions under the index share a block, an entry's position is the lookup's or is recorded right. -/
def Known : Prop :=
  ∀ e ∈ w.explorer kind a, ∀ key ∈ e.key, ∀ b i tx, At w kind b i tx → key.hash ∈ tx.names →
    ∀ f ∈ w.explorer kind a, ∀ i' tx', At w kind b i' tx' → f.Names tx' → i' ≠ i → (w.resolve key).2 = i

end Chain

variable {w : Worker} {kind : Kind} {a : Address}

/-! ### One entry -/

section Locate

variable {block : Block} {index i : ℕ} {hash : Hash} {tx : TxBody}

theorem quick_subset {kind : Kind} {tx : TxBody} (h : tx ∈ block.txs kind) : tx.quick ⊆ tx.names := by
  cases kind with
  | regular =>
    obtain ⟨r, -, rfl⟩ := List.mem_map.mp h
    exact List.subset_append_left _ [r.hash]
  | staking =>
    obtain ⟨s, -, rfl⟩ := List.mem_map.mp h
    exact List.Subset.refl _

theorem position_some (h : block.position hash kind = some (i, tx)) : (block.txs kind)[i]? = some tx ∧ hash ∈ tx.names := by
  obtain ⟨p, hp, heq⟩ := Option.map_eq_some_iff.mp h
  obtain ⟨hi, htx⟩ := Prod.mk.inj heq
  have hmem := List.mem_reverse.mp (List.mem_of_find?_eq_some hp)
  have hget := List.mk_mem_zipIdx_iff_getElem?.mp hmem
  rw [← hi, ← htx]
  exact ⟨hget, by simpa using List.find?_some hp⟩

theorem position_total (htx : (block.txs kind)[i]? = some tx) (hhash : hash ∈ tx.names) :
    block.position hash kind ≠ none := by
  intro hnone
  have hfind := Option.map_eq_none_iff.mp hnone
  have hmem : (tx, i) ∈ (block.txs kind).zipIdx.reverse :=
    List.mem_reverse.mpr (List.mk_mem_zipIdx_iff_getElem?.mpr htx)
  exact absurd (List.find?_eq_none.mp hfind _ hmem) (by simpa using hhash)

theorem locate_some (h : block.locate index hash kind = some (i, tx)) :
    (block.txs kind)[i]? = some tx ∧ hash ∈ tx.names := by
  unfold Block.locate at h
  cases hget : (block.txs kind)[index]? with
  | none =>
    rw [hget] at h
    exact position_some h
  | some tx' =>
    rw [hget] at h
    dsimp only at h
    split_ifs at h with hquick
    · obtain ⟨rfl, rfl⟩ := Prod.mk.inj (Option.some.inj h)
      exact ⟨hget, quick_subset (List.mem_of_getElem? hget) hquick⟩
    · exact position_some h

theorem locate_total (htx : (block.txs kind)[i]? = some tx) (hhash : hash ∈ tx.names) :
    block.locate index hash kind ≠ none := by
  unfold Block.locate
  cases (block.txs kind)[index]? with
  | none => exact position_total htx hhash
  | some tx' =>
    dsimp only
    split_ifs
    · exact Option.some_ne_none _
    · exact position_total htx hhash

end Locate

section Step

variable {key : Key} {s : Scan}

theorem classify_signed {could : Could} {current : Event} {tx : TxBody} : (classify a could current tx s).signed =
    if could.sign ∧ Signs a tx then some current else s.signed := by
  by_cases hself : tx.sender = some a
  · cases hsign : could.sign <;> simp [classify, Signs, hself, hsign]
  · by_cases hreceive : could.receive ∧ tx.recipient = some a <;> simp [classify, Signs, hself, hreceive]

theorem classify_inbound {could : Could} {current : Event} {tx : TxBody} : (classify a could current tx s).inbound =
    if could.receive ∧ Receives a tx then some current else s.inbound := by
  by_cases hself : tx.sender = some a
  · cases hsign : could.sign <;> simp [classify, Receives, hself, hsign]
  · by_cases hreceive : could.receive ∧ tx.recipient = some a <;> simp [classify, Receives, hself, hreceive]

/-- An entry's block is its transaction's. -/
theorem World.resolve_block (hw : World w a) {e : Entry} (he : e ∈ w.explorer kind a) (hkey : key ∈ e.key) {b i : ℕ}
    {tx : TxBody} (hat : At w kind b i tx) (hhash : key.hash ∈ tx.names) : (w.resolve key).1 = b := by
  obtain ⟨position, hlookup, -⟩ := hw.lookup kind e he key hkey b i tx hat hhash
  unfold resolve
  rw [hlookup]

/-- Of a located transaction the body is canonical; one that an entry names at or below the cutoff is located. -/
theorem World.locate_eq (hw : World w a) {block : Block} {b i index : ℕ} {tx : TxBody} {hash : Hash}
    (hblock : w.blocks[b]? = some block) (hat : At w kind b i tx) (hhash : hash ∈ tx.names) :
    block.locate index hash kind = some (i, tx) := by
  obtain ⟨block', hblock', htx⟩ := hat
  obtain rfl := Option.some.inj (hblock.symm.trans hblock')
  cases hlocate : block.locate index hash kind with
  | none => exact absurd hlocate (locate_total htx hhash)
  | some found =>
    obtain ⟨j, tx'⟩ := found
    obtain ⟨hfound, hname⟩ := locate_some hlocate
    obtain ⟨-, rfl⟩ := hw.unique kind b j tx' b i tx hash ⟨block, hblock, hfound⟩ ⟨block, hblock, htx⟩ hname hhash
    rw [Option.some.inj (htx.symm.trans hfound)]

/-- What an entry that names a canonical transaction at or below the cutoff does. -/
theorem World.step_named (hw : World w a) (wantSigned wantInbound : Bool) (s : Scan) {e : Entry} (he : e ∈ w.explorer kind a) (hkey : key ∈ e.key) {b i : ℕ}
    {tx : TxBody} (hat : At w kind b i tx) (hhash : key.hash ∈ tx.names) (hb : b ≤ w.cutoff) :
    ∃ s', w.step kind a wantSigned wantInbound key e.flag s = .ok s' ∧
      s'.signed = (if wantSigned ∧ Later b (w.resolve key).2 s.signed ∧ Signs a tx then some (event kind b i tx)
        else s.signed) ∧
      s'.inbound = if wantInbound ∧ kind = .regular ∧ Later b (w.resolve key).2 s.inbound ∧ Receives a tx then
        some (event kind b i tx) else s.inbound := by
  have hnumber := hw.resolve_block he hkey hat hhash
  have hflag : e.flag = 1 → Signs a tx := hw.flags kind e he b i tx hat ⟨key, hkey, hhash⟩
  obtain ⟨block, hblock, htx⟩ := id hat
  have hlocate : ∀ index, block.locate index key.hash kind = some (i, tx) := fun _ => hw.locate_eq hblock hat hhash
  have hsender := hw.sender kind b i tx hat
  have hnot : ¬w.cutoff < b := not_lt.mpr hb
  obtain ⟨number, index, hresolve⟩ : ∃ number index, w.resolve key = (number, index) := ⟨_, _, rfl⟩
  obtain rfl : number = b := by rw [← hnumber, hresolve]
  unfold step
  rw [hresolve]
  by_cases hskip : e.flag = 1 ∧ wantSigned = false
  · refine ⟨s, if_pos hskip, ?_, ?_⟩
    · simp [hskip.2]
    · simp [Receives, show tx.sender = some a from hflag hskip.1]
  rw [if_neg hskip]
  dsimp only
  rw [if_neg hnot]
  by_cases hcould : decide (wantSigned = true ∧ Later number index s.signed) = false ∧
      decide (wantInbound = true ∧ e.flag ≠ 1 ∧ kind = .regular ∧ Later number index s.inbound) = false
  · refine ⟨s, if_pos hcould, ?_, ?_⟩
    · rw [if_neg]
      exact fun h => of_decide_eq_false hcould.1 ⟨h.1, h.2.1⟩
    · rw [if_neg]
      intro h
      refine of_decide_eq_false hcould.2 ⟨h.1, fun hone => h.2.2.2.1 (hflag hone), h.2.1, h.2.2.1⟩
  rw [if_neg hcould, hblock]
  simp only [ofOption, Option.elim, bind_ok_left, hlocate, require, hsender, ne_eq, not_false_eq_true, if_true,
    Except.map]
  refine ⟨_, rfl, ?_, ?_⟩
  · rw [classify_signed]
    refine if_congr ?_ rfl rfl
    simp only [decide_eq_true_eq]
    tauto
  · rw [classify_inbound]
    refine if_congr ?_ rfl rfl
    simp only [decide_eq_true_eq]
    have hone : Receives a tx → e.flag ≠ 1 := fun h hone => h.1 (hflag hone)
    tauto

/-- An entry of a stale transaction, or of one after the cutoff, changes neither event. -/
theorem World.step_other (hw : World w a) (wantSigned wantInbound : Bool) (flag : BitVec 8) (s : Scan)
    (hno : ∀ b i tx, At w kind b i tx → key.hash ∈ tx.names → w.cutoff < b) :
    ∃ s', w.step kind a wantSigned wantInbound key flag s = .ok s' ∧ s'.signed = s.signed ∧ s'.inbound = s.inbound := by
  obtain ⟨number, index, hresolve⟩ : ∃ number index, w.resolve key = (number, index) := ⟨_, _, rfl⟩
  unfold step
  rw [hresolve]
  by_cases hskip : flag = 1 ∧ wantSigned = false
  · exact ⟨s, if_pos hskip, rfl, rfl⟩
  rw [if_neg hskip]
  dsimp only
  by_cases hcutoff : w.cutoff < number
  · exact ⟨s, if_pos hcutoff, rfl, rfl⟩
  rw [if_neg hcutoff]
  split_ifs with hcould
  · exact ⟨s, rfl, rfl, rfl⟩
  obtain ⟨block, hblock⟩ : ∃ block, w.blocks[number]? = some block :=
    ⟨_, List.getElem?_eq_getElem ((not_lt.mp hcutoff).trans_lt hw.cutoff)⟩
  rw [hblock]
  simp only [ofOption, Option.elim, bind_ok_left]
  cases hlocate : block.locate index key.hash kind with
  | none => exact ⟨_, rfl, rfl, rfl⟩
  | some found =>
    obtain ⟨i, tx⟩ := found
    obtain ⟨hfound, hname⟩ := locate_some hlocate
    exact absurd (hno number i tx ⟨block, hblock, hfound⟩ hname) hcutoff

end Step

/-! ### The newest of the entries seen -/

section Newest

variable {P : TxBody → Prop} {best best' : Option Event} {seen : List Entry} {e : Entry} {key : Key}

/-- The best is an indexed canonical transaction of the wanted sort, at or below the cutoff. -/
def Holds (w : Worker) (kind : Kind) (a : Address) (P : TxBody → Prop) (best : Option Event) : Prop :=
  ∀ ev ∈ best, ∃ tx, At w kind ev.block ev.index tx ∧ ev = event kind ev.block ev.index tx ∧ ev.block ≤ w.cutoff ∧ P tx ∧
    ∃ f ∈ w.explorer kind a, f.Names tx

/-- No seen transaction of the wanted sort is after the best. -/
def Covers (w : Worker) (kind : Kind) (P : TxBody → Prop) (best : Option Event) (seen : List Entry) : Prop :=
  ∀ e ∈ seen, ∀ b i tx, At w kind b i tx → e.Names tx → P tx → b ≤ w.cutoff →
    ∃ ev ∈ best, b < ev.block ∨ b = ev.block ∧ i ≤ ev.index

/-- What an entry does to the best of a sort. -/
structure Updates (w : Worker) (kind : Kind) (key : Key) (P : TxBody → Prop) [DecidablePred P]
    (best best' : Option Event) : Prop where
  named : ∀ b i tx, At w kind b i tx → key.hash ∈ tx.names → b ≤ w.cutoff →
    best' = if Later b (w.resolve key).2 best ∧ P tx then some (event kind b i tx) else best
  other : (∀ b i tx, At w kind b i tx → key.hash ∈ tx.names → w.cutoff < b) → best' = best

/-- An entry names a canonical transaction at or below the cutoff, or nothing that counts. -/
theorem named_or_other (w : Worker) (kind : Kind) (key : Key) :
    (∃ b i tx, At w kind b i tx ∧ key.hash ∈ tx.names ∧ b ≤ w.cutoff) ∨
      ∀ b i tx, At w kind b i tx → key.hash ∈ tx.names → w.cutoff < b := by
  by_cases h : ∃ b i tx, At w kind b i tx ∧ key.hash ∈ tx.names ∧ b ≤ w.cutoff
  · exact .inl h
  · refine .inr fun b i tx hat hhash => ?_
    by_contra hle
    exact h ⟨b, i, tx, hat, hhash, not_lt.mp hle⟩

theorem Holds.updates [DecidablePred P] (h : Holds w kind a P best) (hu : Updates w kind key P best best') (he : e ∈ w.explorer kind a)
    (hkey : key ∈ e.key) : Holds w kind a P best' := by
  rcases named_or_other w kind key with ⟨b, i, tx, hat, hhash, hb⟩ | hno
  · rw [hu.named b i tx hat hhash hb]
    split_ifs with hnew
    · intro ev hev
      obtain rfl := Option.some.inj hev
      exact ⟨tx, hat, rfl, hb, hnew.2, e, he, key, hkey, hhash⟩
    · exact h
  · rw [hu.other hno]
    exact h

/-- The positions within a block are known where they are compared. -/
theorem Known.index_eq (hknown : Known w kind a) (h : Holds w kind a P best) (he : e ∈ w.explorer kind a)
    (hkey : key ∈ e.key) {b i : ℕ} {tx : TxBody} (hat : At w kind b i tx) (hhash : key.hash ∈ tx.names) {ev : Event}
    (hev : ev ∈ best) (hblock : b = ev.block) : ev.index = i ∨ (w.resolve key).2 = i := by
  obtain ⟨tx', hat', -, -, -, f, hf, hname⟩ := h ev hev
  by_cases hi : ev.index = i
  · exact .inl hi
  · refine .inr (hknown e he key hkey b i tx hat hhash f hf ev.index tx' ?_ hname hi)
    rwa [hblock]

theorem Covers.updates [DecidablePred P] (hw : World w a) (hknown : Known w kind a) (h : Holds w kind a P best)
    (hc : Covers w kind P best seen) (hu : Updates w kind key P best best') (he : e ∈ w.explorer kind a)
    (hkey : key ∈ e.key) : Covers w kind P best' (seen ++ [e]) := by
  intro e' he' b' i' tx' hat' hname' hP' hb'
  rcases named_or_other w kind key with ⟨b, i, tx, hat, hhash, hb⟩ | hno
  · have hindex : ∀ ev ∈ best, b = ev.block → ev.index = i ∨ (w.resolve key).2 = i :=
      fun ev hev => hknown.index_eq h he hkey hat hhash hev
    have hself : e' = e → b' = b ∧ i' = i ∧ P tx := by
      rintro rfl
      obtain ⟨key', hkey', hhash'⟩ := hname'
      obtain rfl := Option.some.inj (hkey.symm.trans hkey')
      obtain ⟨rfl, rfl⟩ := hw.unique kind b' i' tx' b i tx _ hat' hat hhash' hhash
      obtain ⟨block, hblock, htx⟩ := hat
      obtain ⟨block', hblock', htx'⟩ := hat'
      obtain rfl := Option.some.inj (hblock.symm.trans hblock')
      exact ⟨rfl, rfl, Option.some.inj (htx'.symm.trans htx) ▸ hP'⟩
    rw [hu.named b i tx hat hhash hb]
    split_ifs with hnew
    · refine ⟨_, rfl, ?_⟩
      change b' < b ∨ b' = b ∧ i' ≤ i
      rcases List.mem_append.mp he' with hseen | hlast
      · obtain ⟨ev, hev, hle⟩ := hc e' hseen b' i' tx' hat' hname' hP' hb'
        have hlater := hnew.1 ev hev
        have hpos := hindex ev hev
        omega
      · obtain ⟨rfl, rfl, -⟩ := hself (List.mem_singleton.mp hlast)
        exact .inr ⟨rfl, le_refl _⟩
    · rcases List.mem_append.mp he' with hseen | hlast
      · exact hc e' hseen b' i' tx' hat' hname' hP' hb'
      · obtain ⟨rfl, rfl, hP⟩ := hself (List.mem_singleton.mp hlast)
        have hnot : ¬Later b' (w.resolve key).2 best := fun hlater => hnew ⟨hlater, hP⟩
        unfold Later at hnot
        push Not at hnot
        obtain ⟨ev, hev, hle, hne⟩ := hnot
        have hpos := hindex ev hev
        refine ⟨ev, hev, ?_⟩
        by_cases heq : b' = ev.block
        · have hk := hne heq
          have hpos' := hpos heq
          omega
        · omega
  · rw [hu.other hno]
    rcases List.mem_append.mp he' with hseen | hlast
    · exact hc e' hseen b' i' tx' hat' hname' hP' hb'
    · obtain rfl := List.mem_singleton.mp hlast
      obtain ⟨key', hkey', hhash'⟩ := hname'
      obtain rfl := Option.some.inj (hkey.symm.trans hkey')
      have hafter := hno b' i' tx' hat' hhash'
      omega

end Newest

/-! ### A scan -/

section Scan

variable (w kind a) (wantSigned wantInbound : Bool)

def SignedSort (tx : TxBody) : Prop := wantSigned = true ∧ Signs a tx

def InboundSort (tx : TxBody) : Prop := wantInbound = true ∧ kind = .regular ∧ Receives a tx

instance : DecidablePred (SignedSort a wantSigned) := fun _ => inferInstanceAs (Decidable (_ ∧ _))

instance : DecidablePred (InboundSort kind a wantInbound) := fun _ => inferInstanceAs (Decidable (_ ∧ _))

/-- What a scan has after the entries seen. -/
structure Progress (seen : List Entry) (s : Scan) : Prop where
  signed : Holds w kind a (SignedSort a wantSigned) s.signed
  inbound : Holds w kind a (InboundSort kind a wantInbound) s.inbound
  signedNewest : Known w kind a → Covers w kind (SignedSort a wantSigned) s.signed seen
  inboundNewest : Known w kind a → Covers w kind (InboundSort kind a wantInbound) s.inbound seen

variable {w kind a wantSigned wantInbound} {seen entries : List Entry} {s : Scan} {e : Entry}

theorem World.step_updates (hw : World w a) (he : e ∈ w.explorer kind a) {key : Key} (hkey : key ∈ e.key) :
    ∃ s', w.step kind a wantSigned wantInbound key e.flag s = .ok s' ∧
      Updates w kind key (SignedSort a wantSigned) s.signed s'.signed ∧
      Updates w kind key (InboundSort kind a wantInbound) s.inbound s'.inbound := by
  rcases named_or_other w kind key with ⟨b, i, tx, hat, hhash, hb⟩ | hno
  · obtain ⟨s', hs', -⟩ := hw.step_named wantSigned wantInbound s he hkey hat hhash hb
    refine ⟨s', hs', ⟨fun b' i' tx' hat' hhash' hb' => ?_, fun hno => absurd (hno b i tx hat hhash) (not_lt.mpr hb)⟩,
      ⟨fun b' i' tx' hat' hhash' hb' => ?_, fun hno => absurd (hno b i tx hat hhash) (not_lt.mpr hb)⟩⟩
    · obtain ⟨s'', hs'', hsigned, -⟩ := hw.step_named wantSigned wantInbound s he hkey hat' hhash' hb'
      obtain rfl := Except.ok.inj (hs'.symm.trans hs'')
      rw [hsigned]
      refine if_congr ?_ rfl rfl
      unfold SignedSort
      tauto
    · obtain ⟨s'', hs'', -, hinbound⟩ := hw.step_named wantSigned wantInbound s he hkey hat' hhash' hb'
      obtain rfl := Except.ok.inj (hs'.symm.trans hs'')
      rw [hinbound]
      refine if_congr ?_ rfl rfl
      unfold InboundSort
      tauto
  · obtain ⟨s', hs', hsigned, hinbound⟩ := hw.step_other wantSigned wantInbound e.flag s hno
    exact ⟨s', hs', ⟨fun b i tx hat hhash hb => absurd (hno b i tx hat hhash) (not_lt.mpr hb), fun _ => hsigned⟩,
      ⟨fun b i tx hat hhash hb => absurd (hno b i tx hat hhash) (not_lt.mpr hb), fun _ => hinbound⟩⟩

theorem Progress.step (hw : World w a) (h : Progress w kind a wantSigned wantInbound seen s)
    (he : e ∈ w.explorer kind a) {key : Key} (hkey : key ∈ e.key) :
    ∃ s', w.step kind a wantSigned wantInbound key e.flag s = .ok s' ∧
      Progress w kind a wantSigned wantInbound (seen ++ [e]) s' := by
  obtain ⟨s', hs', hsigned, hinbound⟩ := hw.step_updates (s := s) he hkey
  refine ⟨s', hs', ?_⟩
  constructor
  · exact h.signed.updates hsigned he hkey
  · exact h.inbound.updates hinbound he hkey
  · exact fun hknown => (h.signedNewest hknown).updates hw hknown h.signed hsigned he hkey
  · exact fun hknown => (h.inboundNewest hknown).updates hw hknown h.inbound hinbound he hkey

/-- A scan ends; it has seen all the entries where the limit allows it. -/
theorem Progress.scanLoop (hw : World w a) (hwant : ¬(wantSigned = false ∧ wantInbound = false)) (examined : ℕ)
    (h : Progress w kind a wantSigned wantInbound seen s) (hsub : ∀ e ∈ entries, e ∈ w.explorer kind a) :
    ∃ s' n all, w.scanLoop kind a wantSigned wantInbound examined entries s = .ok (s', n) ∧
      Progress w kind a wantSigned wantInbound all s' ∧
      (examined + entries.length ≤ w.maxEntries → all = seen ++ entries) := by
  induction entries generalizing seen s examined with
  | nil => exact ⟨s, examined, seen, rfl, h, fun _ => (List.append_nil _).symm⟩
  | cons e rest ih =>
    have he := hsub e (List.mem_cons_self ..)
    obtain ⟨key, hkey⟩ := Option.ne_none_iff_exists'.mp (hw.keys kind e he)
    unfold Worker.scanLoop
    rw [if_neg hwant, hkey]
    simp only [ofOption, Option.elim, bind_ok_left]
    split_ifs with hlimit
    · refine ⟨s, examined + 1, seen, rfl, h, fun hle => ?_⟩
      rw [List.length_cons] at hle
      omega
    · obtain ⟨s', hs', hnext⟩ := h.step hw he hkey
      rw [hs', bind_ok_left]
      obtain ⟨t, n, all, ht, hprogress, hall⟩ := ih (examined + 1) hnext fun e he => hsub e (List.mem_cons_of_mem _ he)
      refine ⟨t, n, all, ht, hprogress, fun hle => ?_⟩
      rw [List.length_cons] at hle
      rw [hall (by omega), List.append_assoc]
      rfl

theorem World.scan (hw : World w a) (kind : Kind) (wantSigned wantInbound : Bool)
    (hwant : ¬(wantSigned = false ∧ wantInbound = false)) :
    ∃ s n all, w.scan kind a wantSigned wantInbound = .ok (s, n) ∧ Progress w kind a wantSigned wantInbound all s ∧
      ((w.explorer kind a).length ≤ w.maxEntries → all = w.explorer kind a) := by
  have hstart : Progress w kind a wantSigned wantInbound [] ⟨none, none, 0⟩ :=
    ⟨nofun, nofun, fun _ => nofun, fun _ => nofun⟩
  obtain ⟨s, n, all, hs, hprogress, hall⟩ := hstart.scanLoop hw hwant 0 fun e he => he
  exact ⟨s, n, all, hs, hprogress, fun hle => by simpa using hall (by simpa using hle)⟩

end Scan

/-! ### The result of an address -/

section Process

variable (w a)

/-- The event of a canonical transaction with its block's time. -/
def Reports (kind : Kind) (b i : ℕ) (tx : TxBody) (ev : Event) : Prop :=
  ∃ block, w.blocks[b]? = some block ∧ (block.txs kind)[i]? = some tx ∧
    ev = { event kind b i tx with timestamp := block.timestamp }

/-- A transaction that the address signed at or below the cutoff. -/
def SignedTx (kind : Kind) (b i : ℕ) (tx : TxBody) : Prop := At w kind b i tx ∧ Signs a tx ∧ b ≤ w.cutoff

/-- A regular transaction that the address received at or below the cutoff. -/
def InboundTx (b i : ℕ) (tx : TxBody) : Prop := At w .regular b i tx ∧ Receives a tx ∧ b ≤ w.cutoff

/-- The signed transaction with the greatest nonce, or none where there is none. -/
def LastSigned : Option Event → Prop
  | none => ∀ kind b i tx, ¬SignedTx w a kind b i tx
  | some ev => ∃ kind b i tx, SignedTx w a kind b i tx ∧ Reports w kind b i tx ev ∧
      ∀ kind' b' i' tx', SignedTx w a kind' b' i' tx' → tx'.nonce ≤ ev.nonce

/-- The newest received transaction, or none where there is none. -/
def LastInbound : Option Event → Prop
  | none => ∀ b i tx, ¬InboundTx w a b i tx
  | some ev => ∃ b i tx, InboundTx w a b i tx ∧ Reports w .regular b i tx ev ∧
      ∀ b' i' tx', InboundTx w a b' i' tx' → b' < b ∨ b' = b ∧ i' ≤ i

/-- The scans reach the end of the indexes, know the positions they compare, and the candidate's row is right where it
keeps the scans from looking for signed transactions. -/
structure Covered (c : Candidate) : Prop where
  regular : (w.explorer .regular c.address).length ≤ w.maxEntries
  staking : (w.explorer .staking c.address).length ≤ w.maxEntries
  known : ∀ kind, Known w kind c.address
  signs : c.contract = 1 ∨ c.nonce = 0 → ∀ kind b i tx, ¬SignedTx w c.address kind b i tx

/-- The candidate's nonce is one after the greatest that it signed. -/
structure TrueNonce (c : Candidate) : Prop where
  above : ∀ kind b i tx, SignedTx w c.address kind b i tx → (tx.nonce : ℤ) < c.nonce
  reached : c.nonce = 0 ∨ ∃ kind b i tx, SignedTx w c.address kind b i tx ∧ (tx.nonce : ℤ) = c.nonce - 1

/-- What the two scans of a candidate have. -/
structure Scanned (c : Candidate) (regular staking : Scan) : Prop where
  regularSigned : Holds w .regular c.address (SignedSort c.address (wantsSigned c)) regular.signed
  inbound : Holds w .regular c.address (InboundSort .regular c.address true) regular.inbound
  stakingSigned : Holds w .staking c.address (SignedSort c.address true) staking.signed
  regularCovers : Covered w c →
    Covers w .regular (SignedSort c.address (wantsSigned c)) regular.signed (w.explorer .regular c.address)
  inboundCovers : Covered w c →
    Covers w .regular (InboundSort .regular c.address true) regular.inbound (w.explorer .regular c.address)
  stakingCovers : Covered w c → wantsSigned c = true → w.shard = 0 →
    Covers w .staking (SignedSort c.address true) staking.signed (w.explorer .staking c.address)

variable {w a} {c : Candidate} {regular staking : Scan}

theorem World.scanned (hw : World w c.address) : ∃ regular staking examined examinedStaking,
    w.scan .regular c.address (wantsSigned c) true = .ok (regular, examined) ∧
      w.scanStaking c = .ok (staking, examinedStaking) ∧ Scanned w c regular staking := by
  obtain ⟨regular, n, all, hregular, hprogress, hall⟩ := hw.scan .regular (wantsSigned c) true (by simp)
  by_cases hwants : wantsSigned c = true ∧ w.shard = 0
  · obtain ⟨staking, m, all', hstaking, hprogress', hall'⟩ := hw.scan .staking true false (by simp)
    refine ⟨regular, staking, n, m, hregular, (if_pos hwants).trans hstaking, ?_⟩
    constructor
    · exact hprogress.signed
    · exact hprogress.inbound
    · exact hprogress'.signed
    · exact fun hcovered => hall hcovered.regular ▸ hprogress.signedNewest (hcovered.known _)
    · exact fun hcovered => hall hcovered.regular ▸ hprogress.inboundNewest (hcovered.known _)
    · exact fun hcovered _ _ => hall' hcovered.staking ▸ hprogress'.signedNewest (hcovered.known _)
  · refine ⟨regular, ⟨none, none, 0⟩, n, 0, hregular, if_neg hwants, ?_⟩
    constructor
    · exact hprogress.signed
    · exact hprogress.inbound
    · exact nofun
    · exact fun hcovered => hall hcovered.regular ▸ hprogress.signedNewest (hcovered.known _)
    · exact fun hcovered => hall hcovered.regular ▸ hprogress.inboundNewest (hcovered.known _)
    · exact fun _ hsigns hshard => absurd ⟨hsigns, hshard⟩ hwants

/-- What a run that succeeds returns, in terms of the scans. -/
theorem World.process_ok (hw : World w c.address) {r : Result} (h : w.process c = .ok r) : ∃ regular staking,
    Scanned w c regular staking ∧ checkSigned c (newerSigned regular.signed staking.signed) = .ok r.check ∧
      w.stamp (newerSigned regular.signed staking.signed) = .ok r.signed ∧ w.stamp regular.inbound = .ok r.inbound := by
  obtain ⟨regular, staking, n, m, hregular, hstaking, hscanned⟩ := hw.scanned
  unfold process at h
  rw [hregular, bind_ok_left] at h
  dsimp only at h
  rw [hstaking, bind_ok_left] at h
  obtain ⟨check, hcheck, h⟩ := of_bind_ok h
  obtain ⟨signed, hsigned, h⟩ := of_bind_ok h
  obtain ⟨inbound, hinbound, rfl⟩ := of_map_ok h
  exact ⟨regular, staking, hscanned, hcheck, hsigned, hinbound⟩

/-- The event that is taken is one of the two, with a nonce at least as great as either. -/
theorem newerSigned_spec (regular staking : Option Event) :
    (∀ ev ∈ newerSigned regular staking, ev ∈ regular ∨ ev ∈ staking) ∧
      (∀ ev ∈ regular, ∃ ev' ∈ newerSigned regular staking, ev.nonce ≤ ev'.nonce) ∧
      ∀ ev ∈ staking, ∃ ev' ∈ newerSigned regular staking, ev.nonce ≤ ev'.nonce := by
  cases regular with
  | none => cases staking <;> simp [newerSigned]
  | some r =>
    cases staking with
    | none => simp [newerSigned]
    | some s =>
      by_cases hlt : r.nonce < s.nonce
      · simp [newerSigned, hlt, hlt.le]
      · simp [newerSigned, hlt, not_lt.mp hlt]

/-- The signed event is a transaction that the address signed at or below the cutoff. -/
theorem Scanned.signed_tx (h : Scanned w c regular staking) {ev : Event}
    (hev : ev ∈ newerSigned regular.signed staking.signed) :
    ∃ kind tx, SignedTx w c.address kind ev.block ev.index tx ∧ ev = event kind ev.block ev.index tx := by
  rcases (newerSigned_spec _ _).1 ev hev with hregular | hstaking
  · obtain ⟨tx, hat, heq, hb, hsort, -⟩ := h.regularSigned ev hregular
    exact ⟨.regular, tx, ⟨hat, hsort.2, hb⟩, heq⟩
  · obtain ⟨tx, hat, heq, hb, hsort, -⟩ := h.stakingSigned ev hstaking
    exact ⟨.staking, tx, ⟨hat, hsort.2, hb⟩, heq⟩

theorem stamp_ok {ev : Event} {out : Option Event} {kind : Kind} {tx : TxBody} (hat : At w kind ev.block ev.index tx)
    (hev : ev = event kind ev.block ev.index tx) (h : w.stamp (some ev) = .ok out) :
    ∃ ev', out = some ev' ∧ Reports w kind ev.block ev.index tx ev' ∧ ev'.nonce = ev.nonce := by
  obtain ⟨block, hblock, htx⟩ := hat
  unfold stamp at h
  simp only [hblock, ofOption, Option.elim, Except.map, Except.ok.injEq] at h
  refine ⟨_, h.symm, ⟨block, hblock, htx, ?_⟩, rfl⟩
  rw [← hev]

theorem stamp_total {ev : Option Event} (h : ∀ e ∈ ev, ∃ kind tx, At w kind e.block e.index tx) :
    ∃ out, w.stamp ev = .ok out := by
  cases ev with
  | none => exact ⟨none, rfl⟩
  | some e =>
    obtain ⟨kind, tx, block, hblock, -⟩ := h e rfl
    unfold stamp
    simp only [hblock, ofOption, Option.elim, Except.map]
    exact ⟨_, rfl⟩

/-- A signed transaction has a nonce at most that of one which a scan kept. -/
theorem World.nonce_le (hw : World w a) {P : TxBody → Prop} {best : Option Event} (hbest : Holds w kind a P best)
    (hP : ∀ tx, P tx ↔ Signs a tx) (hcovers : Covers w kind P best (w.explorer kind a)) {b i : ℕ} {tx : TxBody}
    (htx : SignedTx w a kind b i tx) : ∃ ev ∈ best, tx.nonce ≤ ev.nonce := by
  obtain ⟨hat, hsigns, hb⟩ := htx
  obtain ⟨e, he, hname⟩ := hw.indexed kind b i tx hat (.inl hsigns)
  obtain ⟨ev, hev, hle⟩ := hcovers e he b i tx hat hname ((hP tx).mpr hsigns) hb
  obtain ⟨tx', hat', heq, -, hP', -⟩ := hbest ev hev
  refine ⟨ev, hev, ?_⟩
  have hnonce : ev.nonce = tx'.nonce := congrArg Event.nonce heq
  rw [hnonce]
  by_cases hsame : b = ev.block ∧ i = ev.index
  · obtain ⟨rfl, rfl⟩ := hsame
    obtain ⟨block, hblock, hget⟩ := hat
    obtain ⟨block', hblock', hget'⟩ := hat'
    obtain rfl := Option.some.inj (hblock.symm.trans hblock')
    rw [Option.some.inj (hget.symm.trans hget')]
  · refine (hw.nonces kind b i tx ev.block ev.index tx' hat hat' hsigns ((hP tx').mp hP') ?_).le
    omega

theorem Scanned.nonce_le (hw : World w c.address) (h : Scanned w c regular staking) (hcovered : Covered w c) {kind : Kind}
    {b i : ℕ} {tx : TxBody} (htx : SignedTx w c.address kind b i tx) :
    ∃ ev ∈ newerSigned regular.signed staking.signed, tx.nonce ≤ ev.nonce := by
  have hwants : wantsSigned c = true := by
    by_contra hnot
    have hor : c.contract = 1 ∨ c.nonce = 0 := by
      simp only [wantsSigned, decide_eq_true_eq] at hnot
      tauto
    exact hcovered.signs hor kind b i tx htx
  obtain ⟨-, hregular, hstaking⟩ := newerSigned_spec regular.signed staking.signed
  cases kind with
  | regular =>
    obtain ⟨ev, hev, hle⟩ := hw.nonce_le h.regularSigned (fun tx => by simp [SignedSort, hwants])
      (h.regularCovers hcovered) htx
    obtain ⟨ev', hev', hle'⟩ := hregular ev hev
    exact ⟨ev', hev', hle.trans hle'⟩
  | staking =>
    have hshard := hw.staking b i tx htx.1
    obtain ⟨ev, hev, hle⟩ := hw.nonce_le h.stakingSigned (fun tx => by simp [SignedSort])
      (h.stakingCovers hcovered hwants hshard) htx
    obtain ⟨ev', hev', hle'⟩ := hstaking ev hev
    exact ⟨ev', hev', hle.trans hle'⟩

/-- The signed result is the last one where no signed transaction has a greater nonce. -/
theorem Scanned.lastSigned (h : Scanned w c regular staking) {out : Option Event}
    (hout : w.stamp (newerSigned regular.signed staking.signed) = .ok out)
    (hmax : ∀ kind b i tx, SignedTx w c.address kind b i tx →
      ∃ ev ∈ newerSigned regular.signed staking.signed, tx.nonce ≤ ev.nonce) : LastSigned w c.address out := by
  cases hsigned : newerSigned regular.signed staking.signed with
  | none =>
    rw [hsigned] at hout
    obtain rfl := Except.ok.inj hout
    intro kind b i tx htx
    obtain ⟨ev, hev, -⟩ := hmax kind b i tx htx
    rw [hsigned] at hev
    cases hev
  | some ev =>
    obtain ⟨kind, tx, htx, heq⟩ := h.signed_tx hsigned
    rw [hsigned] at hout
    obtain ⟨ev', rfl, hreports, hnonce⟩ := stamp_ok htx.1 heq hout
    refine ⟨kind, ev.block, ev.index, tx, htx, hreports, fun kind' b' i' tx' htx' => ?_⟩
    obtain ⟨ev'', hev'', hle⟩ := hmax kind' b' i' tx' htx'
    rw [hsigned] at hev''
    obtain rfl := Option.some.inj hev''
    rw [hnonce]
    exact hle

theorem Scanned.lastInbound (hw : World w c.address) (h : Scanned w c regular staking) (hcovered : Covered w c)
    {out : Option Event} (hout : w.stamp regular.inbound = .ok out) : LastInbound w c.address out := by
  have hcovers : ∀ b i tx, InboundTx w c.address b i tx →
      ∃ ev ∈ regular.inbound, b < ev.block ∨ b = ev.block ∧ i ≤ ev.index := by
    intro b i tx htx
    obtain ⟨e, he, hname⟩ := hw.indexed .regular b i tx htx.1 (.inr htx.2.1.2)
    exact h.inboundCovers hcovered e he b i tx htx.1 hname ⟨rfl, rfl, htx.2.1⟩ htx.2.2
  cases hinbound : regular.inbound with
  | none =>
    rw [hinbound] at hout
    obtain rfl := Except.ok.inj hout
    intro b i tx htx
    obtain ⟨ev, hev, -⟩ := hcovers b i tx htx
    rw [hinbound] at hev
    cases hev
  | some ev =>
    obtain ⟨tx, hat, heq, hb, hsort, -⟩ := h.inbound ev hinbound
    rw [hinbound] at hout
    obtain ⟨ev', rfl, hreports, -⟩ := stamp_ok hat heq hout
    refine ⟨ev.block, ev.index, tx, ⟨hat, hsort.2.2, hb⟩, hreports, fun b' i' tx' htx' => ?_⟩
    obtain ⟨ev'', hev'', hle⟩ := hcovers b' i' tx' htx'
    rw [hinbound] at hev''
    obtain rfl := Option.some.inj hev''
    exact hle

/-! ### The nonce check -/

theorem int64_of_lt {nonce : ℕ} {n : ℤ} (h : (nonce : ℤ) < n) (hn : n < 2 ^ 63) : int64 nonce = nonce := by
  unfold int64
  rw [BitVec.toInt_eq_toNat_of_lt]
  · rw [BitVec.toNat_ofNat, Nat.mod_eq_of_lt (by omega)]
  · rw [BitVec.toNat_ofNat, Nat.mod_eq_of_lt (by omega)]
    omega

/-- With the true nonce no signed event exceeds the candidate's. -/
theorem Scanned.nonce_lt (h : Scanned w c regular staking) (htrue : TrueNonce w c) {ev : Event}
    (hev : ev ∈ newerSigned regular.signed staking.signed) : (ev.nonce : ℤ) < c.nonce := by
  obtain ⟨kind, tx, htx, heq⟩ := h.signed_tx hev
  have hnonce : ev.nonce = tx.nonce := congrArg Event.nonce heq
  rw [hnonce]
  exact htrue.above kind _ _ tx htx

theorem Scanned.check_total (h : Scanned w c regular staking) (htrue : TrueNonce w c) :
    ∃ check, checkSigned c (newerSigned regular.signed staking.signed) = .ok check := by
  unfold checkSigned
  by_cases hcontract : c.contract = 1
  · exact ⟨_, if_pos hcontract⟩
  rw [if_neg hcontract]
  by_cases hzero : c.nonce = 0
  · exact ⟨_, if_pos hzero⟩
  rw [if_neg hzero]
  cases hsigned : newerSigned regular.signed staking.signed with
  | none =>
    by_cases hneg : c.nonce < 0
    · exact ⟨_, if_pos hneg⟩
    · exact ⟨_, if_neg hneg⟩
  | some ev =>
    have hlt := h.nonce_lt htrue hsigned
    have hint := int64_of_lt hlt c.nonce_lt
    dsimp only
    by_cases hneg : c.nonce < 0
    · exact ⟨_, if_pos hneg⟩
    rw [if_neg hneg]
    by_cases heq : int64 ev.nonce = c.nonce - 1
    · exact ⟨_, if_pos heq⟩
    · exact ⟨_, (if_neg heq).trans (if_pos (by omega))⟩

theorem checkSigned_verified {signed : Option Event} (h : checkSigned c signed = .ok .verified) :
    ∃ ev, signed = some ev ∧ int64 ev.nonce = c.nonce - 1 := by
  unfold checkSigned at h
  by_cases hcontract : c.contract = 1
  · rw [if_pos hcontract] at h
    cases h
  rw [if_neg hcontract] at h
  by_cases hzero : c.nonce = 0
  · rw [if_pos hzero] at h
    cases h
  rw [if_neg hzero] at h
  cases signed with
  | none =>
    by_cases hneg : c.nonce < 0
    · simp [hneg] at h
    · simp [hneg] at h
  | some ev =>
    refine ⟨ev, rfl, ?_⟩
    by_contra hne
    by_cases hneg : c.nonce < 0
    · simp [hneg] at h
    · by_cases hless : int64 ev.nonce < c.nonce - 1
      · simp [hneg, hne, hless] at h
      · simp [hneg, hne, hless] at h

/-- Where the scans are covered the two events are the last ones. With the true nonce a run never aborts, and what it calls
verified is the last signed transaction. -/
theorem process_exact (w : Worker) (c : Candidate) (hw : World w c.address) :
    (Covered w c → ∀ r, w.process c = .ok r → LastSigned w c.address r.signed ∧ LastInbound w c.address r.inbound) ∧
    (TrueNonce w c → (∃ r, w.process c = .ok r) ∧
      ∀ r, w.process c = .ok r → r.check = .verified → LastSigned w c.address r.signed) := by
  refine ⟨fun hcovered r hr => ?_, fun htrue => ⟨?_, fun r hr hverified => ?_⟩⟩
  · obtain ⟨regular, staking, hscanned, -, hsigned, hinbound⟩ := hw.process_ok hr
    exact ⟨hscanned.lastSigned hsigned fun kind b i tx htx => hscanned.nonce_le hw hcovered htx,
      hscanned.lastInbound hw hcovered hinbound⟩
  · obtain ⟨regular, staking, n, m, hregular, hstaking, hscanned⟩ := hw.scanned
    obtain ⟨check, hcheck⟩ := hscanned.check_total htrue
    obtain ⟨signed, hsigned⟩ : ∃ out, w.stamp (newerSigned regular.signed staking.signed) = .ok out := by
      refine stamp_total fun e he => ?_
      obtain ⟨kind, tx, htx, -⟩ := hscanned.signed_tx he
      exact ⟨kind, tx, htx.1⟩
    obtain ⟨inbound, hinbound⟩ : ∃ out, w.stamp regular.inbound = .ok out := by
      refine stamp_total fun e he => ?_
      obtain ⟨tx, hat, -⟩ := hscanned.inbound e he
      exact ⟨.regular, tx, hat⟩
    unfold process
    rw [hregular, bind_ok_left]
    dsimp only
    rw [hstaking, bind_ok_left]
    dsimp only
    rw [hcheck, bind_ok_left, hsigned, bind_ok_left, hinbound]
    exact ⟨_, rfl⟩
  · obtain ⟨regular, staking, hscanned, hcheck, hsigned, -⟩ := hw.process_ok hr
    rw [hverified] at hcheck
    obtain ⟨ev, hev, hnonce⟩ := checkSigned_verified hcheck
    refine hscanned.lastSigned hsigned fun kind b i tx htx => ⟨ev, hev, ?_⟩
    have hlt := htrue.above kind b i tx htx
    have hint := int64_of_lt (hscanned.nonce_lt htrue hev) c.nonce_lt
    omega

end Process

/-! ### Two transactions in one block -/

/-- A transaction of the address 2 to the address 1. -/
def sentTx (hash : Hash) (nonce : ℕ) : RegularTx := ⟨hash, hash, hash, some 2, nonce, some 1, 7⟩

/-- Two such transactions in block 1, with a lookup table of the old format. -/
def twoSent (entries : List Entry) (maxEntries : ℕ) : Worker where
  blocks := [⟨[], [], 100⟩, ⟨[sentTx 1 0, sentTx 2 1], [], 102⟩]
  lookups hash := if hash = 1 ∨ hash = 2 then some (.bytes 8 1) else none
  explorer kind address := if kind = .regular ∧ address = 1 then entries else []
  shard := 0
  cutoff := 1
  maxEntries := maxEntries

/-- An entry of the address 1 with a received flag. -/
def receivedEntry (index : ℕ) (hash : Hash) : Entry := ⟨some ⟨1, index, hash⟩, [2]⟩

theorem twoSent_at {entries : List Entry} {n : ℕ} {kind : Kind} {b i : ℕ} {tx : TxBody}
    (h : At (twoSent entries n) kind b i tx) :
    kind = .regular ∧ b = 1 ∧ (i = 0 ∧ tx = (sentTx 1 0).body ∨ i = 1 ∧ tx = (sentTx 2 1).body) := by
  obtain ⟨block, hblock, htx⟩ := h
  match b with
  | 0 =>
    obtain rfl := Option.some.inj hblock
    cases kind <;> cases htx
  | 1 =>
    obtain rfl := Option.some.inj hblock
    cases kind with
    | staking => cases htx
    | regular =>
      match i with
      | 0 => exact ⟨rfl, rfl, .inl ⟨rfl, (Option.some.inj htx).symm⟩⟩
      | 1 => exact ⟨rfl, rfl, .inr ⟨rfl, (Option.some.inj htx).symm⟩⟩
      | i + 2 => cases htx
  | b + 2 => cases hblock

theorem mem_names {hash hash' : Hash} {nonce : ℕ} : hash ∈ (sentTx hash' nonce).body.names ↔ hash = hash' := by
  simp [sentTx, RegularTx.body]

theorem twoSent_world {entries : List Entry} (n : ℕ)
    (hall : ∀ e ∈ entries, e = receivedEntry (e.key.elim 0 Key.index) 1 ∨ e = receivedEntry (e.key.elim 0 Key.index) 2)
    (hfirst : ∃ i, receivedEntry i 1 ∈ entries) (hsecond : ∃ i, receivedEntry i 2 ∈ entries) :
    World (twoSent entries n) 1 := by
  have hentries : ∀ kind, ∀ e ∈ (twoSent entries n).explorer kind 1, e ∈ entries := by
    intro kind e he
    cases kind with
    | regular => exact he
    | staking => cases he
  constructor
  · exact (by decide : 1 < 2)
  · intro kind b i tx b' i' tx' hash hat hat' hname hname'
    obtain ⟨-, rfl, hcase⟩ := twoSent_at hat
    obtain ⟨-, rfl, hcase'⟩ := twoSent_at hat'
    rcases hcase with ⟨rfl, rfl⟩ | ⟨rfl, rfl⟩ <;> rcases hcase' with ⟨rfl, rfl⟩ | ⟨rfl, rfl⟩
    · exact ⟨rfl, rfl⟩
    · exact absurd ((mem_names.mp hname).symm.trans (mem_names.mp hname')) (by decide)
    · exact absurd ((mem_names.mp hname).symm.trans (mem_names.mp hname')) (by decide)
    · exact ⟨rfl, rfl⟩
  · intro kind b i tx hat
    obtain ⟨-, -, ⟨-, rfl⟩ | ⟨-, rfl⟩⟩ := twoSent_at hat
    · exact nofun
    · exact nofun
  · intro kind b i tx b' i' tx' hat _ hsigns
    obtain ⟨-, -, ⟨-, rfl⟩ | ⟨-, rfl⟩⟩ := twoSent_at hat
    · exact absurd hsigns (by decide)
    · exact absurd hsigns (by decide)
  · exact fun _ _ _ _ => rfl
  · intro kind e he
    rcases hall e (hentries kind e he) with heq | heq
    · rw [heq]
      exact nofun
    · rw [heq]
      exact nofun
  · intro kind e he key hkey b i tx hat hhash
    obtain ⟨-, rfl, hcase⟩ := twoSent_at hat
    refine ⟨none, ?_, nofun⟩
    have hhash' : key.hash = 1 ∨ key.hash = 2 := by
      rcases hcase with ⟨-, rfl⟩ | ⟨-, rfl⟩
      · exact .inl (mem_names.mp hhash)
      · exact .inr (mem_names.mp hhash)
    have hvalue : (twoSent entries n).lookups key.hash = some (.bytes 8 1) := if_pos hhash'
    unfold Worker.lookup
    rw [hvalue]
    rfl
  · intro kind b i tx hat _
    obtain ⟨rfl, -, ⟨-, rfl⟩ | ⟨-, rfl⟩⟩ := twoSent_at hat
    · obtain ⟨j, hj⟩ := hfirst
      exact ⟨_, hj, _, rfl, mem_names.mpr rfl⟩
    · obtain ⟨j, hj⟩ := hsecond
      exact ⟨_, hj, _, rfl, mem_names.mpr rfl⟩
  · intro kind e he b i tx _ _ hflag
    rcases hall e (hentries kind e he) with heq | heq
    · rw [heq] at hflag
      exact absurd hflag (show (2 : BitVec 8) ≠ 1 by decide)
    · rw [heq] at hflag
      exact absurd hflag (show (2 : BitVec 8) ≠ 1 by decide)

/-- The address 1, which has signed nothing. -/
def receiver : Candidate := ⟨1, 0, 0, by decide, by decide⟩

theorem receiver_signs {entries : List Entry} {n : ℕ} (kind : Kind) (b i : ℕ) (tx : TxBody) :
    ¬SignedTx (twoSent entries n) 1 kind b i tx := by
  intro h
  obtain ⟨hat, hsigns, -⟩ := h
  obtain ⟨-, -, ⟨-, rfl⟩ | ⟨-, rfl⟩⟩ := twoSent_at hat
  · exact absurd hsigns (by decide)
  · exact absurd hsigns (by decide)

theorem receiver_nonce (entries : List Entry) (n : ℕ) : TrueNonce (twoSent entries n) receiver :=
  ⟨fun kind b i tx h => absurd h (receiver_signs kind b i tx), .inl rfl⟩

/-- Recorded out of order. -/
def swappedEntries : List Entry := [receivedEntry 5 1, receivedEntry 1 2]

/-- In order, at wrong positions. -/
def shiftedEntries : List Entry := [receivedEntry 5 2, receivedEntry 3 1]

/-- An earlier transaction is not the last one. -/
theorem earlier_not_last {entries : List Entry} {n : ℕ} {ev : Option Event}
    (h : ev.map (fun e => (e.block, e.index)) = some (1, 0)) : ¬LastInbound (twoSent entries n) 1 ev := by
  intro hlast
  cases ev with
  | none => cases h
  | some ev =>
    obtain ⟨b, i, tx, -, ⟨block, -, -, heq⟩, hmax⟩ := hlast
    have hsecond : InboundTx (twoSent entries n) 1 1 1 (sentTx 2 1).body :=
      ⟨⟨_, rfl, rfl⟩, by decide, le_refl 1⟩
    have hle := hmax 1 1 _ hsecond
    obtain ⟨hblock, hindex⟩ := Prod.mk.inj (Option.some.inj h)
    have hb : ev.block = b := congrArg Event.block heq
    have hi : ev.index = i := congrArg Event.index heq
    omega

/-- The limit on the entries ends a scan before the newest transaction; and a recorded position lets an earlier transaction
of the block take the place of a later one. -/
theorem earlier_inbound_reported :
    (World (twoSent swappedEntries 1) 1 ∧ TrueNonce (twoSent swappedEntries 1) receiver ∧
      ∃ r, (twoSent swappedEntries 1).process receiver = .ok r ∧ ¬LastInbound (twoSent swappedEntries 1) 1 r.inbound) ∧
    (World (twoSent shiftedEntries 10) 1 ∧ TrueNonce (twoSent shiftedEntries 10) receiver ∧
      ∃ r, (twoSent shiftedEntries 10).process receiver = .ok r ∧
        ¬LastInbound (twoSent shiftedEntries 10) 1 r.inbound) := by
  have hrun : ∀ w ∈ [twoSent swappedEntries 1, twoSent shiftedEntries 10],
      (w.process receiver).toOption.map (fun r => r.inbound.map fun e => (e.block, e.index)) = some (some (1, 0)) := by
    decide +kernel
  have hearlier : ∀ w ∈ [twoSent swappedEntries 1, twoSent shiftedEntries 10],
      ∃ r, w.process receiver = .ok r ∧ r.inbound.map (fun e => (e.block, e.index)) = some (1, 0) :=
    fun w hw => Except.exists_ok_of_map (hrun w hw)
  refine ⟨⟨twoSent_world 1 (by decide) ⟨5, by decide⟩ ⟨1, by decide⟩, receiver_nonce _ _, ?_⟩,
    twoSent_world 10 (by decide) ⟨3, by decide⟩ ⟨5, by decide⟩, receiver_nonce _ _, ?_⟩
  · obtain ⟨r, hr, hinbound⟩ := hearlier _ (List.mem_cons_self ..)
    exact ⟨r, hr, earlier_not_last hinbound⟩
  · obtain ⟨r, hr, hinbound⟩ := hearlier _ (List.mem_cons_of_mem _ (List.mem_cons_self ..))
    exact ⟨r, hr, earlier_not_last hinbound⟩

def orderedEntries : List Entry := [receivedEntry 1 2, receivedEntry 0 1]

theorem exact_ordered_entries : ∃ r, (twoSent orderedEntries 10).process receiver = .ok r ∧
    LastSigned (twoSent orderedEntries 10) 1 r.signed ∧ LastInbound (twoSent orderedEntries 10) 1 r.inbound := by
  have hworld : World (twoSent orderedEntries 10) receiver.address :=
    twoSent_world 10 (by decide) ⟨0, by decide⟩ ⟨1, by decide⟩
  obtain ⟨hexact, htrue⟩ := process_exact (twoSent orderedEntries 10) receiver hworld
  obtain ⟨⟨r, hr⟩, -⟩ := htrue (receiver_nonce _ _)
  refine ⟨r, hr, hexact ⟨by decide, by decide, fun kind e he key hkey b i tx hat hhash _ _ _ _ _ _ _ => ?_,
    fun _ => receiver_signs⟩ r hr⟩
  obtain ⟨rfl, -, hcase⟩ := twoSent_at hat
  have hmem : e ∈ orderedEntries := he
  rcases List.mem_pair.mp hmem with rfl | rfl
  · obtain rfl := Option.some.inj hkey
    rcases hcase with ⟨-, rfl⟩ | ⟨rfl, -⟩
    · exact absurd (mem_names.mp hhash) (by decide)
    · decide
  · obtain rfl := Option.some.inj hkey
    rcases hcase with ⟨rfl, -⟩ | ⟨-, rfl⟩
    · decide
    · exact absurd (mem_names.mp hhash) (by decide)

end HarmonyMigration.DirectionalActivity
