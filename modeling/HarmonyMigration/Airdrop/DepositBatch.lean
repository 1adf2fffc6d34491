import HarmonyMigration.Airdrop.MultiSend

/-! `deposit_batch_data` and `decode_deposit_batch` of `vault_batch.py`: two dynamic arrays of one
length, accepted in one encoding only. -/

namespace HarmonyMigration.Airdrop

open Erc20 Slices

/-- The first bytes of `depositBatch(uint256[],address[])`. -/
def depositBatchSelector : Bytes := [0xc2, 0xff, 0xf7, 0x81]

def depositBatchData (amounts : List ℕ) (delegators : List Address) : Except String Bytes :=
  let n := amounts.length
  (toWord (0x40 + 32 + 32 * n)).bind fun offset =>
  (toWord n).bind fun count =>
  (amounts.mapM toWord).map fun words =>
    depositBatchSelector ++ word 0x40 ++ offset ++ count ++ words.flatten ++ count ++
      (delegators.map addressWord).flatten

/-- Only the canonical encoding is read. -/
def decodeDepositBatch (body : Bytes) : Option (List ℕ × List Address) :=
  if slice body 0 4 ≠ depositBatchSelector then none
  else
    let a := body.drop 4
    let w := fun i => beNat (slice a i (i + 32))
    if a.length < 128 ∨ a.length % 32 ≠ 0 ∨ w 0 ≠ 64 then none
    else
      let n := w 64
      if w 32 ≠ 96 + 32 * n ∨ a.length ≠ 96 + 32 * n + 32 + 32 * n ∨ w (96 + 32 * n) ≠ n then none
      else
        let amounts := (List.range n).map fun i => w (96 + 32 * i)
        let words := (List.range n).map fun i => slice a (128 + 32 * n + 32 * i) (160 + 32 * n + 32 * i)
        if words.any fun x => (slice x 0 12).any (· ≠ 0) then none
        else some (amounts, words.map fun x => BitVec.ofNat 160 (beNat (x.drop 12)))

/-- The words of the canonical encoding, behind the selector. -/
def batchWords (amounts : List ℕ) (delegators : List Address) : List Bytes :=
  word 64 :: word (96 + 32 * amounts.length) :: word amounts.length ::
    (amounts.map word ++ word amounts.length :: delegators.map addressWord)

theorem length_of_mem_batchWords {amounts : List ℕ} {delegators : List Address} :
    ∀ x ∈ batchWords amounts delegators, x.length = 32 := by
  intro x hx
  simp only [batchWords, List.mem_cons, List.mem_append, List.mem_map] at hx
  rcases hx with rfl | rfl | rfl | ⟨n, -, rfl⟩ | rfl | ⟨a, -, rfl⟩
  all_goals exact length_word _

theorem mapM_toWord_ok {amounts : List ℕ} {words : List Bytes} (h : amounts.mapM toWord = .ok words) :
    words = amounts.map word ∧ ∀ n ∈ amounts, n < 2 ^ 256 := by
  have hall := Except.forall₂_of_mapM_ok h
  constructor
  · have := Except.map_eq_of_forall₂ hall (f := word) (g := id) fun n w hw => (toWord_ok hw).2.symm
    simpa using this.symm
  · intro n hn
    obtain ⟨w, -, hw⟩ := Except.ok_of_mem_left hall hn
    exact (toWord_ok hw).1

/-- What `deposit_batch_data` writes, and when it does. -/
theorem depositBatchData_iff {amounts : List ℕ} {delegators : List Address} {b : Bytes} :
    depositBatchData amounts delegators = .ok b ↔
      b = depositBatchSelector ++ (batchWords amounts delegators).flatten ∧
        96 + 32 * amounts.length < 2 ^ 256 ∧ ∀ n ∈ amounts, n < 2 ^ 256 := by
  have hshape : depositBatchSelector ++ word 0x40 ++ word (0x40 + 32 + 32 * amounts.length) ++ word amounts.length ++
      (amounts.map word).flatten ++ word amounts.length ++ (delegators.map addressWord).flatten =
      depositBatchSelector ++ (batchWords amounts delegators).flatten := by
    simp only [batchWords, List.flatten_cons, List.flatten_append, List.append_assoc]
  constructor
  · intro h
    obtain ⟨offset, hoffset, h⟩ := Except.of_bind_ok h
    obtain ⟨count, hcount, h⟩ := Except.of_bind_ok h
    obtain ⟨words, hwords, rfl⟩ := Except.of_map_ok h
    obtain ⟨hlt, rfl⟩ := toWord_ok hoffset
    obtain ⟨-, rfl⟩ := toWord_ok hcount
    obtain ⟨rfl, hamounts⟩ := mapM_toWord_ok hwords
    exact ⟨hshape, hlt, hamounts⟩
  · rintro ⟨rfl, hlt, hamounts⟩
    have hwords : amounts.mapM toWord = .ok (amounts.map word) :=
      Except.mapM_ok_of_forall fun n hn => toWord_eq (hamounts n hn)
    have hoffset : toWord (0x40 + 32 + 32 * amounts.length) = .ok (word (0x40 + 32 + 32 * amounts.length)) :=
      toWord_eq hlt
    have hcount : toWord amounts.length = .ok (word amounts.length) := toWord_eq (by omega)
    rw [← hshape]
    simp only [depositBatchData, hoffset, hcount, hwords]
    rfl

/-! ### Decoding, word by word -/

section
variable {ws : List Bytes} (hws : ∀ x ∈ ws, x.length = 32)
include hws

theorem slice_words {k : ℕ} (hk : k < ws.length) : slice ws.flatten (32 * k) (32 * k + 32) = ws[k] :=
  slice_flatten hws hk

/-- The decoder on whole words: the head leads to two arrays that fill the data. -/
theorem decodeDepositBatch_words {n : ℕ} (hlen : ws.length = 4 + 2 * n) :
    decodeDepositBatch (depositBatchSelector ++ ws.flatten) =
      if beNat ws[0] ≠ 64 ∨ beNat ws[2] ≠ n ∨ beNat ws[1] ≠ 96 + 32 * n ∨ beNat ws[3 + n] ≠ n ∨
        ((ws.drop (4 + n)).any fun x => (slice x 0 12).any (· ≠ 0)) then none
      else some (((ws.drop 3).take n).map beNat, (ws.drop (4 + n)).map fun x => BitVec.ofNat 160 (beNat (x.drop 12))) := by
  have hsel : depositBatchSelector.length = 4 := rfl
  have hflat := length_flatten hws
  have h0 : slice ws.flatten 0 (0 + 32) = ws[0] := slice_words hws (k := 0) (by omega)
  have h1 : slice ws.flatten 32 (32 + 32) = ws[1] := slice_words hws (k := 1) (by omega)
  have h2 : slice ws.flatten 64 (64 + 32) = ws[2] := slice_words hws (k := 2) (by omega)
  unfold decodeDepositBatch
  rw [if_neg (by simpa using slice_append_left hsel), List.drop_left' hsel]
  simp only [h0, h1, h2]
  by_cases hhead : beNat ws[0] = 64
  · rw [if_neg (by simp only [hhead, hflat, hlen]; omega)]
    by_cases hcount : beNat ws[2] = n
    · have h3 : slice ws.flatten (96 + 32 * n) (96 + 32 * n + 32) = ws[3 + n] := by
        rw [← slice_words hws (k := 3 + n) (by omega)]
        congr 1
        all_goals omega
      have hamounts : ((List.range n).map fun i => beNat (slice ws.flatten (96 + 32 * i) (96 + 32 * i + 32))) =
          ((ws.drop 3).take n).map beNat := by
        rw [← slices_flatten hws (show 3 + n ≤ ws.length by omega), List.map_map]
        refine List.map_congr_left fun i _ => ?_
        rw [Function.comp_apply, show 32 * (3 + i) = 96 + 32 * i by omega]
      have hwords : ((List.range n).map fun i =>
          slice ws.flatten (128 + 32 * n + 32 * i) (160 + 32 * n + 32 * i)) = ws.drop (4 + n) := by
        have := slices_flatten hws (show 4 + n + n ≤ ws.length by omega)
        rw [List.take_of_length_le (by rw [List.length_drop]; omega)] at this
        rw [← this]
        refine List.map_congr_left fun i _ => ?_
        rw [show 32 * (4 + n + i) = 128 + 32 * n + 32 * i by omega,
          show 128 + 32 * n + 32 * i + 32 = 160 + 32 * n + 32 * i by omega]
      simp only [hcount, h3, hamounts, hwords, hhead, hflat, hlen]
      by_cases hoffset : beNat ws[1] = 96 + 32 * n
      · by_cases hlast : beNat ws[3 + n] = n
        · rw [if_neg (by simp only [hoffset, hlast]; omega)]
          simp [hoffset, hlast]
        · simp [hlast]
      · simp [hoffset]
    · have hmore : beNat ws[1] ≠ 96 + 32 * beNat ws[2] ∨
          ws.flatten.length ≠ 96 + 32 * beNat ws[2] + 32 + 32 * beNat ws[2] ∨
            beNat (slice ws.flatten (96 + 32 * beNat ws[2]) (96 + 32 * beNat ws[2] + 32)) ≠ beNat ws[2] := by
        refine Or.inr (Or.inl ?_)
        omega
      rw [if_pos hmore, if_pos (Or.inr (Or.inl hcount))]
  · rw [if_pos (Or.inr (Or.inr hhead)), if_pos (Or.inl hhead)]

end

theorem addressWord_of_zeros {x : Bytes} (hlen : x.length = 32) (hzero : ¬((slice x 0 12).any (· ≠ 0)) = true) :
    addressWord (BitVec.ofNat 160 (beNat (x.drop 12))) = x := by
  have hzeros : slice x 0 12 = List.replicate 12 0 := eq_replicate_of_not_any (by simp [length_slice, hlen]) hzero
  have hto : (x.drop 12).length = 20 := by simp [hlen]
  rw [addressWord_eq, addressBytes_ofNat hto, ← hzeros, slice_zero, List.take_append_drop]

theorem drop_addressWord (a : Address) :
    ((slice (addressWord a) 0 12).any (· ≠ 0)) = false ∧ BitVec.ofNat 160 (beNat ((addressWord a).drop 12)) = a := by
  have hzeros : (List.replicate 12 (0 : UInt8)).length = 12 := List.length_replicate
  rw [addressWord_eq, slice_append_left hzeros, List.drop_left' hzeros, ofNat_addressBytes]
  exact ⟨by simp, rfl⟩

/-- The words of a batch that is read are those of the canonical encoding. -/
theorem eq_batchWords {ws : List Bytes} (hws : ∀ x ∈ ws, x.length = 32) {n : ℕ} (hlen : ws.length = 4 + 2 * n)
    (h0 : beNat ws[0] = 64) (h2 : beNat ws[2] = n) (h1 : beNat ws[1] = 96 + 32 * n) (h3 : beNat ws[3 + n] = n)
    (hzero : ¬((ws.drop (4 + n)).any fun x => (slice x 0 12).any (· ≠ 0)) = true) :
    ws = batchWords (((ws.drop 3).take n).map beNat)
      ((ws.drop (4 + n)).map fun x => BitVec.ofNat 160 (beNat (x.drop 12))) := by
  have hcount : (((ws.drop 3).take n).map beNat).length = n := by
    rw [List.length_map, List.length_take, List.length_drop]
    omega
  have hword : ∀ {k : ℕ} (hk : k < ws.length), word (beNat ws[k]) = ws[k] :=
    fun hk => word_beNat (hws _ (List.getElem_mem hk))
  have hamounts : (((ws.drop 3).take n).map beNat).map word = (ws.drop 3).take n := by
    rw [List.map_map]
    conv_rhs => rw [← List.map_id ((ws.drop 3).take n)]
    refine List.map_congr_left fun x hx => ?_
    exact word_beNat (hws x (List.mem_of_mem_drop (List.mem_of_mem_take hx)))
  have hdelegators : ((ws.drop (4 + n)).map fun x => BitVec.ofNat 160 (beNat (x.drop 12))).map addressWord =
      ws.drop (4 + n) := by
    rw [List.map_map]
    conv_rhs => rw [← List.map_id (ws.drop (4 + n))]
    refine List.map_congr_left fun x hx => ?_
    apply addressWord_of_zeros (hws x (List.mem_of_mem_drop hx))
    intro hany
    exact hzero (List.any_eq_true.mpr ⟨x, hx, hany⟩)
  have hrest : ws.drop 3 = (ws.drop 3).take n ++ ws[3 + n] :: ws.drop (4 + n) := by
    conv_lhs => rw [← List.take_append_drop n (ws.drop 3), List.drop_drop]
    rw [List.drop_eq_getElem_cons (show 3 + n < ws.length by omega), show 3 + n + 1 = 4 + n by omega]
  rw [batchWords, hcount, hamounts, hdelegators, ← h0, ← h1, hword, hword]
  have hlast : word n = ws[3 + n] := by rw [← hword (show 3 + n < ws.length by omega), h3]
  have hmid : word n = ws[2] := by rw [← hword (show 2 < ws.length by omega), h2]
  conv_lhs => rw [← List.drop_zero (l := ws), List.drop_eq_getElem_cons (show 0 < ws.length by omega),
    List.drop_eq_getElem_cons (show 0 + 1 < ws.length by omega),
    List.drop_eq_getElem_cons (show 0 + 1 + 1 < ws.length by omega), show 0 + 1 + 1 + 1 = 3 by rfl, hrest]
  rw [hlast, ← hmid, hlast]

theorem depositBatchData_of_decode {b : Bytes} {amounts : List ℕ} {delegators : List Address}
    (h : decodeDepositBatch b = some (amounts, delegators)) :
    amounts.length = delegators.length ∧ depositBatchData amounts delegators = .ok b := by
  rw [depositBatchData_iff]
  have hsel : slice b 0 4 = depositBatchSelector := by
    by_contra hn
    rw [decodeDepositBatch, if_pos hn] at h
    cases h
  have hb : b = depositBatchSelector ++ b.drop 4 := by
    rw [← hsel, slice_zero, List.take_append_drop]
  -- a batch that is read is a number of whole words
  obtain ⟨n, hlen⟩ : ∃ n, (b.drop 4).length = 32 * (4 + 2 * n) := by
    unfold decodeDepositBatch at h
    rw [if_neg (by simpa using hsel)] at h
    simp only at h
    split_ifs at h with h1 h2 h3
    exact ⟨beNat (slice (b.drop 4) 64 (64 + 32)), by omega⟩
  obtain ⟨ws, hflat, hn, hws⟩ := exists_pieces hlen
  rw [hb, ← hflat, decodeDepositBatch_words hws hn] at h
  split_ifs at h with hbad
  simp only [not_or, not_not] at hbad
  obtain ⟨h0, h2, h1, h3, hzero⟩ := hbad
  have hwords := eq_batchWords hws hn h0 h2 h1 h3 hzero
  obtain ⟨rfl, rfl⟩ := Prod.mk.inj (Option.some.inj h)
  have hcount : (((ws.drop 3).take n).map beNat).length = n := by
    rw [List.length_map, List.length_take, List.length_drop]
    omega
  have hlt : ∀ {k : ℕ} (hk : k < ws.length), beNat ws[k] < 2 ^ 256 :=
    fun hk => beNat_lt_of_length (hws _ (List.getElem_mem hk))
  refine ⟨?_, ?_, ?_, ?_⟩
  · rw [hcount, List.length_map, List.length_drop]
    omega
  · rw [← hwords, hflat]
    exact hb
  · rw [hcount, ← h1]
    exact hlt _
  · intro x hx
    obtain ⟨y, hy, rfl⟩ := List.mem_map.mp hx
    exact beNat_lt_of_length (hws y (List.mem_of_mem_drop (List.mem_of_mem_take hy)))

theorem decode_depositBatchData {b : Bytes} {amounts : List ℕ} {delegators : List Address}
    (heq : amounts.length = delegators.length) (h : depositBatchData amounts delegators = .ok b) :
    decodeDepositBatch b = some (amounts, delegators) := by
  obtain ⟨rfl, hlt, hamounts⟩ := depositBatchData_iff.mp h
  have hws : ∀ x ∈ batchWords amounts delegators, x.length = 32 := length_of_mem_batchWords
  have hlen : (batchWords amounts delegators).length = 4 + 2 * amounts.length := by
    simp only [batchWords, List.length_cons, List.length_append, List.length_map]
    omega
  have hdrop : (batchWords amounts delegators).drop 3 =
      amounts.map word ++ word amounts.length :: delegators.map addressWord := rfl
  have htail : (batchWords amounts delegators).drop (4 + amounts.length) = delegators.map addressWord := by
    rw [show 4 + amounts.length = 3 + (amounts.length + 1) by omega, ← List.drop_drop, hdrop,
      ← List.drop_drop, List.drop_left' (by simp)]
    rfl
  have hlast : (batchWords amounts delegators)[3 + amounts.length] = word amounts.length := by
    have : ((batchWords amounts delegators).drop 3)[amounts.length]? = some (word amounts.length) := by
      rw [hdrop, List.getElem?_append_right (by simp)]
      simp
    rw [List.getElem?_drop] at this
    exact (List.getElem?_eq_some_iff.mp this).2
  rw [decodeDepositBatch_words hws hlen, if_neg]
  · rw [hdrop, htail, List.take_left' (by simp), List.map_map, List.map_map]
    have h1 : amounts.map (beNat ∘ word) = amounts.map id := by
      apply List.map_congr_left
      intro n hn
      rw [Function.comp_apply, beNat_word (hamounts n hn), id]
    have h2 : delegators.map ((fun x => BitVec.ofNat 160 (beNat (x.drop 12))) ∘ addressWord) = delegators := by
      conv_rhs => rw [← List.map_id delegators]
      exact List.map_congr_left fun a _ => (drop_addressWord a).2
    rw [h1, List.map_id, h2]
  · rw [htail, hlast]
    have h64 : beNat (word 64) = 64 := beNat_word (by norm_num)
    have hn : beNat (word amounts.length) = amounts.length := beNat_word (lt_of_le_of_lt (by omega) hlt)
    have hoff : beNat (word (96 + 32 * amounts.length)) = 96 + 32 * amounts.length := beNat_word hlt
    have hz : ¬((delegators.map addressWord).any fun x => (slice x 0 12).any (· ≠ 0)) = true := by
      intro hany
      obtain ⟨x, hx, hne⟩ := List.any_eq_true.mp hany
      obtain ⟨a, -, rfl⟩ := List.mem_map.mp hx
      rw [(drop_addressWord a).1] at hne
      cases hne
    simp only [batchWords, List.getElem_cons_zero, List.getElem_cons_succ, not_or, not_not]
    exact ⟨h64, hn, hoff, hn, hz⟩

/-- `decode_deposit_batch` reads what `deposit_batch_data` writes for two lists of one length, and
nothing else. -/
theorem decodeDepositBatch_iff {b : Bytes} {amounts : List ℕ} {delegators : List Address} :
    decodeDepositBatch b = some (amounts, delegators) ↔
      amounts.length = delegators.length ∧ depositBatchData amounts delegators = .ok b :=
  ⟨depositBatchData_of_decode, fun h => decode_depositBatchData h.1 h.2⟩

/-- Two lists of different lengths are written, but not read back. -/
theorem depositBatch_unequal : ¬∀ (b : Bytes) (amounts : List ℕ) (delegators : List Address),
    decodeDepositBatch b = some (amounts, delegators) ↔ depositBatchData amounts delegators = .ok b := by
  intro h
  have hdata : depositBatchData [1] [] = .ok (depositBatchSelector ++ (batchWords [1] []).flatten) :=
    depositBatchData_iff.mpr ⟨rfl, by norm_num, by simp⟩
  obtain ⟨hlen, -⟩ := decodeDepositBatch_iff.mp ((h _ _ _).mpr hdata)
  cases hlen

/-! ### The codec in both directions -/

/-- What is built is decoded as it was meant, and what is listed without a problem is what the
transaction does. -/
theorem batch_codec (exec : Address → Bytes → Option (List BatchCall))
    (hexec : ∀ m ∈ officialMultisendCallOnly, MultiSends (exec m)) :
    (∀ token rows data, multisendData token rows = .ok data →
      decodeMultisend data = .ok (some (rows.map fun r => (transferCall token r.transfer).packed))) ∧
    (∀ calls data, multisendCalls calls = .ok data →
      decodeMultisend data = .ok (some (calls.map fun c => ⟨0, c.1, 0, c.2⟩))) ∧
    (∀ calls data, pack calls = .ok data →
      decodeMultisend data = .ok (some (calls.map fun c => ⟨0, c.dest, c.value, c.data⟩))) ∧
    (∀ token multisend rows nonce tx, multisend ∈ officialMultisendCallOnly →
      transfersTx token multisend rows nonce = .ok tx →
        tokenTransfers tx token = (rows.map fun r => (r.address, r.amount), [])) ∧
    (∀ token multisend rows nonce, (∀ r ∈ rows, r.amount < 2 ^ 256) → 153 * rows.length < 2 ^ 256 →
      ∃ tx, transfersTx token multisend rows nonce = .ok tx) ∧
    (∀ token tx transfers calls, tokenTransfers tx token = (transfers, []) → Performs exec tx calls →
      calls = transfers.map (fun t => ⟨token, 0, transferBody t.1 t.2⟩) ∧ tx.gasPrice = 0) ∧
    ∀ b amounts delegators, decodeDepositBatch b = some (amounts, delegators) ↔
      amounts.length = delegators.length ∧ depositBatchData amounts delegators = .ok b := by
  refine ⟨?_, ?_, ?_, ?_, ?_, ?_, ?_⟩
  · intro token rows data h
    rw [decodeMultisend_pack (multisendData_ok h).1, List.map_map]
    rfl
  · intro calls data h
    rw [multisendCalls_eq] at h
    rw [decodeMultisend_pack h, List.map_map]
    rfl
  · intro calls data h
    exact decodeMultisend_pack h
  · intro token multisend rows nonce tx hm h
    exact tokenTransfers_transfersTx hm h
  · intro token multisend rows nonce hamounts hlen
    exact exists_transfersTx token multisend nonce hamounts hlen
  · intro token tx transfers calls h hrun
    exact performs_of_no_problem hexec h hrun
  · intro b amounts delegators
    exact decodeDepositBatch_iff

/-- The packed list an argument leads to, where it lies within the data. -/
def abiPacked (data : Bytes) : Option Bytes :=
  let start := 4 + beNat (slice data 4 36)
  let length := beNat (slice data start (start + 32))
  if slice data 0 4 = multisendSelector ∧ start + 32 + length ≤ data.length then
    some (slice data (start + 32) (start + 32 + length))
  else none

/-- A contract that makes the calls of whole entries, and reverts otherwise. -/
def runEntries (data : Bytes) : Option (List BatchCall) :=
  (abiPacked data).bind fun packed => (decodeCalls packed).toOption.bind fun cs =>
    if ∀ c ∈ cs, c.operation = 0 then some (cs.map fun c => ⟨c.target, c.value, c.body⟩) else none

theorem abiPacked_some_iff {data packed : Bytes} : abiPacked data = some packed ↔ AbiBytes data packed := by
  unfold abiPacked
  simp only
  constructor
  · intro h
    split_ifs at h with hif
    obtain rfl := Option.some.inj h
    have hlen : (slice data (4 + beNat (slice data 4 36) + 32) (4 + beNat (slice data 4 36) + 32 +
        beNat (slice data (4 + beNat (slice data 4 36)) (4 + beNat (slice data 4 36) + 32)))).length =
        beNat (slice data (4 + beNat (slice data 4 36)) (4 + beNat (slice data 4 36) + 32)) := by
      rw [length_slice]
      omega
    exact ⟨hif.1, by rw [hlen]; exact hif.2, hlen.symm, by rw [hlen]⟩
  · intro h
    rw [h.length_eq, if_pos ⟨h.selector, h.fits⟩, h.packed_eq]

theorem runEntries_multiSends : MultiSends runEntries where
  argument h := by
    obtain ⟨packed, hpacked, -⟩ := Option.bind_eq_some_iff.mp h
    exact ⟨packed, abiPacked_some_iff.mp hpacked⟩
  entries habi hcs h := by
    rw [runEntries, abiPacked_some_iff.mpr habi, Option.bind_some,
      decodeCalls_iff.mpr ⟨rfl, fun c hc => (hcs c hc).1⟩] at h
    simp only [Except.toOption, Option.bind_some] at h
    rw [if_pos fun c hc => (hcs c hc).2] at h
    exact (Option.some.inj h).symm

def sampleRows : List ListRow := [⟨5, 7⟩, ⟨6, 9⟩]

theorem batch_codec_sample :
    ∃ tx, transfersTx 3 0x40A2aCCbd92BCA938b02010E17A5b8929b49130D#160 sampleRows 0 = .ok tx ∧
      tokenTransfers tx 3 = ([(5, 7), (6, 9)], []) ∧
      (∀ calls, Performs (fun _ => runEntries) tx calls →
        calls = [⟨3, 0, transferBody 5 7⟩, ⟨3, 0, transferBody 6 9⟩] ∧ tx.gasPrice = 0) ∧
      ∃ b, depositBatchData [7] [5] = .ok b ∧ decodeDepositBatch b = some ([7], [5]) := by
  obtain ⟨-, -, -, hlisted, hbuilt, hperforms, hbatch⟩ :=
    batch_codec (fun _ => runEntries) fun _ _ => runEntries_multiSends
  obtain ⟨tx, htx⟩ := hbuilt 3 0x40A2aCCbd92BCA938b02010E17A5b8929b49130D#160 sampleRows 0
    (by simp [sampleRows]) (by norm_num [sampleRows])
  have hlist := hlisted _ _ _ _ _ (by decide) htx
  refine ⟨tx, htx, hlist, fun calls hrun => hperforms _ _ _ _ hlist hrun, ?_⟩
  have hdata : depositBatchData [7] [5] = .ok (depositBatchSelector ++ (batchWords [7] [5]).flatten) :=
    depositBatchData_iff.mpr ⟨rfl, by norm_num, by simp⟩
  exact ⟨_, hdata, (hbatch _ _ _).mpr ⟨rfl, hdata⟩⟩

end HarmonyMigration.Airdrop
