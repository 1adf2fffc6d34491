import HarmonyMigration.ContractReview.SecureKey

/-! `bech32_to_hex` of `contract_review_lib.py` beside `from_one1` of the airdrop tools: two readers of a Harmony
address. -/

namespace HarmonyMigration.ContractReview

open Airdrop Airdrop.One1 Decimal Except Regroup Slices

section Readers

variable (u : Lower)

/-- The loop over the bytes is the one of `to_one1`. -/
def hexToBech32 (hrp address : Text) : Option Text :=
  (normalizeAddress u address).bind fun normalized => (fromhex (normalized.drop 2)).map (toOne1 hrp)

/-- `from_one1(value, checksum=False)`. -/
def fromOne1Hex (value : Text) : Except One1Error Text :=
  (fromOne1 u one value).map fun address => hexPrefix ++ hexText address

/-! ### What `bech32_to_hex` takes -/

theorem rsplitOne_append (hrp : Text) {data : Text} (h : '1' ∉ data) : rsplitOne (hrp ++ '1' :: data) = (hrp, data) := by
  have hall : ∀ c ∈ data.reverse, decide (c ≠ '1') = true := fun c hc => by
    have hmem := List.mem_reverse.mp hc
    simpa using fun he : c = '1' => h (he ▸ hmem)
  have hdata : ((hrp ++ '1' :: data).reverse.takeWhile (· ≠ '1')).reverse = data := by
    rw [List.reverse_append, List.reverse_cons, List.append_assoc, List.takeWhile_append_of_pos hall,
      List.singleton_append, List.takeWhile_cons_of_neg (by simp), List.append_nil, List.reverse_reverse]
  rw [rsplitOne, hdata, List.length_append, List.length_cons]
  have hlen : hrp.length + (data.length + 1) - data.length - 1 = hrp.length := by omega
  rw [hlen, List.take_left]

theorem exists_rsplit {text : Text} (h : '1' ∈ text) : ∃ hrp data, text = hrp ++ '1' :: data ∧ '1' ∉ data := by
  induction text with
  | nil => simp at h
  | cons c text ih =>
    by_cases hrest : '1' ∈ text
    · obtain ⟨hrp, data, rfl, hdata⟩ := ih hrest
      exact ⟨c :: hrp, data, rfl, hdata⟩
    · obtain rfl : '1' = c := (List.mem_cons.mp h).resolve_right hrest
      exact ⟨[], text, rfl, hrest⟩

theorem one_notMem_charset : '1' ∉ charset := by decide

def indices (data : Text) : List ℕ := data.map fun c => charset.idxOf c

/-- The symbols of a text are valid and its checksum closes. -/
structure Closes (hrp data : Text) : Prop where
  charset : ∀ c ∈ data, c ∈ charset
  checksum : polymod (expanded hrp ++ indices data) = 1

/-- The bytes of the symbols before the last six. -/
def payload (data : Text) : Bytes :=
  (regroup 5 8 ((indices data).take ((indices data).length - 6))).out.map UInt8.ofNat

variable {u}

theorem Closes.one_notMem {hrp data : Text} (h : Closes hrp data) : '1' ∉ data := fun hmem =>
  one_notMem_charset (h.charset _ hmem)

theorem bech32ToHex_append {s hrp data : Text} (hs : u.lower (strip s) = hrp ++ '1' :: data) (hone : '1' ∉ data)
    (hhex : ¬hexPrefix <+: u.lower (strip s)) {t : Text} :
    bech32ToHex u s = some t ↔ Closes hrp data ∧ (payload data).length = 20 ∧ t = hexPrefix ++ hexText (payload data) := by
  have hmem : '1' ∈ hrp ++ '1' :: data := by simp
  rw [hs] at hhex
  simp only [bech32ToHex, hs, if_neg hhex, not_not.mpr hmem, if_false, rsplitOne_append hrp hone]
  constructor
  · intro h
    split_ifs at h with hcharset hpoly hlen
    refine ⟨⟨fun c hc => ?_, not_not.mp hpoly⟩, hlen, (Option.some.inj h).symm⟩
    by_contra hnot
    exact hcharset ⟨c, hc, hnot⟩
  · rintro ⟨hcloses, hlen, rfl⟩
    have hpoly : ¬polymod (expanded hrp ++ data.map fun c => charset.idxOf c) ≠ 1 := not_not.mpr hcloses.checksum
    rw [if_neg (fun ⟨c, hc, hnot⟩ => hnot (hcloses.charset c hc)), if_neg hpoly]
    exact if_pos hlen

theorem indices_lt {data : Text} (h : ∀ c ∈ data, c ∈ charset) : ∀ d ∈ indices data, d < 2 ^ 5 := by
  intro d hd
  obtain ⟨c, hc, rfl⟩ := List.mem_map.mp hd
  exact idxOf_lt (h c hc)

/-- Twenty bytes come out of 32 symbols, and out of 33. -/
theorem length_payload_eq {data : Text} (h : ∀ c ∈ data, c ∈ charset) :
    (payload data).length = 20 ↔ data.length = 38 ∨ data.length = 39 := by
  have hlt : ∀ d ∈ (indices data).take ((indices data).length - 6), d < 2 ^ 5 := fun d hd =>
    indices_lt h d (List.mem_of_mem_take hd)
  have hholds := regroup_holds (w := 8) (by decide) hlt
  have hcount := hholds.count
  have hleft := hholds.left
  have hlen : (indices data).length = data.length := List.length_map _
  have htake : ((indices data).take ((indices data).length - 6)).length = data.length - 6 := by
    rw [List.length_take, hlen]
    omega
  rw [htake] at hcount
  rw [payload, List.length_map]
  omega

theorem map_charAt_indices {data : Text} (h : ∀ c ∈ data, c ∈ charset) : (indices data).map charAt = data := by
  rw [indices, List.map_map]
  exact (List.map_congr_left fun c hc => charAt_idxOf (h c hc)).trans (List.map_id _)

/-! ### What `from_one1` takes -/

theorem fromOne1Hex_iff {s t : Text} : fromOne1Hex u s = .ok t ↔ ∃ data, u.lower (strip s) = one ++ '1' :: data ∧
    Closes one data ∧ data.length = 38 ∧ t = hexPrefix ++ hexText (payload data) := by
  constructor
  · intro h
    obtain ⟨address, hread, rfl⟩ := of_map_ok h
    obtain ⟨ds, htext, hlt, hlen, hpoly, rfl⟩ := fromOne1_ok hread
    have hindices : indices (ds.map charAt) = ds := map_idxOf_charAt hlt
    refine ⟨ds.map charAt, htext, ⟨fun c hc => ?_, by rw [hindices]; exact hpoly⟩, by rw [List.length_map, hlen], ?_⟩
    · obtain ⟨d, hd, rfl⟩ := List.mem_map.mp hc
      exact charAt_mem (hlt d hd)
    · rw [payload, hindices, hlen]
  · rintro ⟨data, htext, hcloses, hlen, rfl⟩
    have hindices : (indices data).length = 38 := (List.length_map _).trans hlen
    rw [← map_charAt_indices hcloses.charset] at htext
    rw [fromOne1Hex, fromOne1_text u htext (indices_lt hcloses.charset), if_pos ⟨hindices, hcloses.checksum⟩]
    rfl

/-- What the two readers share, and what every text they take is. -/
structure ReadAlike (u : Lower) (s : Text) : Prop where
  agree : ∀ t, bech32ToHex u s = some t ↔ fromOne1Hex u s = .ok t
  closed : ∀ t, bech32ToHex u s = some t →
    ∃ data, u.lower (strip s) = one ++ '1' :: data ∧ data.length = 38 ∧ Closes one data

/-- No hexadecimal address behind blanks or a capital `X`, and a checksum that closes 32 or 33 symbols closes 32 under
the prefix `one`. -/
def Confined (text : Text) : Prop :=
  if hexPrefix <+: text then text.length ≠ 42
  else ∀ hrp data, text = hrp ++ '1' :: data → Closes hrp data → data.length = 38 ∨ data.length = 39 →
    hrp = one ∧ data.length = 38

theorem append_one_injective {hrp hrp' data data' : Text} (h : '1' ∉ data) (h' : '1' ∉ data')
    (heq : hrp ++ '1' :: data = hrp' ++ '1' :: data') : hrp = hrp' ∧ data = data' := by
  have hsplit := congrArg rsplitOne heq
  rw [rsplitOne_append hrp h, rsplitOne_append hrp' h'] at hsplit
  exact Prod.mk.inj hsplit

theorem not_hexPrefix_one (data : Text) : ¬hexPrefix <+: one ++ '1' :: data := by
  rintro ⟨rest, h⟩
  exact absurd (List.cons.inj h).1 (by decide)

/-- A text behind `0x` is read as hexadecimal, by one reader. -/
theorem readAlike_hex {s : Text} (h : hexPrefix <+: u.lower (strip s)) :
    ReadAlike u s ↔ (u.lower (strip s)).length ≠ 42 := by
  have hread : bech32ToHex u s = if (u.lower (strip s)).length = 42 then some (u.lower (strip s)) else none := by
    simp only [bech32ToHex, normalizeAddress, h, if_true]
  have hnone : ∀ t, fromOne1Hex u s ≠ .ok t := fun t ht => by
    obtain ⟨data, hdata, -⟩ := fromOne1Hex_iff.mp ht
    exact not_hexPrefix_one data (hdata ▸ h)
  constructor
  · rintro ⟨hagree, -⟩ hlen
    rw [if_pos hlen] at hread
    exact hnone _ ((hagree _).mp hread)
  · intro hlen
    rw [if_neg hlen] at hread
    exact ⟨fun t => by simp [hread, hnone t], fun t ht => by simp [hread] at ht⟩

theorem readAlike_iff (s : Text) : ReadAlike u s ↔ Confined (u.lower (strip s)) := by
  by_cases hhex : hexPrefix <+: u.lower (strip s)
  · rw [Confined, if_pos hhex, readAlike_hex hhex]
  rw [Confined, if_neg hhex]
  constructor
  · rintro ⟨-, hclosed⟩ hrp data hs hcloses hlen
    have hpayload := (length_payload_eq hcloses.charset).mpr hlen
    obtain ⟨data', hs', hlen', hcloses'⟩ := hclosed _ ((bech32ToHex_append hs hcloses.one_notMem hhex).mpr
      ⟨hcloses, hpayload, rfl⟩)
    obtain ⟨rfl, rfl⟩ := append_one_injective hcloses.one_notMem hcloses'.one_notMem (hs.symm.trans hs')
    exact ⟨rfl, hlen'⟩
  · intro hconfined
    have hsound : ∀ t, bech32ToHex u s = some t → ∃ data, u.lower (strip s) = one ++ '1' :: data ∧ data.length = 38 ∧
        Closes one data ∧ t = hexPrefix ++ hexText (payload data) := by
      intro t ht
      have hmem : '1' ∈ u.lower (strip s) := by
        by_contra hnot
        simp [bech32ToHex, hhex, hnot] at ht
      obtain ⟨hrp, data, hs, hone⟩ := exists_rsplit hmem
      obtain ⟨hcloses, hlen, rfl⟩ := (bech32ToHex_append hs hone hhex).mp ht
      obtain ⟨rfl, hlen⟩ := hconfined hrp data hs hcloses ((length_payload_eq hcloses.charset).mp hlen)
      exact ⟨data, hs, hlen, hcloses, rfl⟩
    refine ⟨fun t => ⟨fun ht => ?_, fun ht => ?_⟩, fun t ht => ?_⟩
    · obtain ⟨data, hs, hlen, hcloses, rfl⟩ := hsound t ht
      exact fromOne1Hex_iff.mpr ⟨data, hs, hcloses, hlen, rfl⟩
    · obtain ⟨data, hs, hcloses, hlen, rfl⟩ := fromOne1Hex_iff.mp ht
      exact (bech32ToHex_append hs hcloses.one_notMem hhex).mpr
        ⟨hcloses, (length_payload_eq hcloses.charset).mpr (.inl hlen), rfl⟩
    · obtain ⟨data, hs, hlen, hcloses, -⟩ := hsound t ht
      exact ⟨data, hs, hlen, hcloses⟩

/-! ### There and back -/

section Address
variable {address : Bytes}

theorem normalizeAddress_hex (h : address.length = 20) :
    normalizeAddress u (hexPrefix ++ hexText address) = some (hexPrefix ++ hexText address) := by
  have hstarts : hexPrefix <+: hexPrefix ++ hexText address := ⟨hexText address, rfl⟩
  have hlen : (hexPrefix ++ hexText address).length = 42 := by
    rw [List.length_append, length_hexText, h]
    rfl
  simp only [normalizeAddress, lower_hexAddress, if_pos hstarts, if_pos hlen]

theorem hexToBech32_hex (h : address.length = 20) :
    hexToBech32 u one (hexPrefix ++ hexText address) = some (toOne1 one address) := by
  rw [hexToBech32, normalizeAddress_hex h, Option.bind_some]
  have hbody : (hexPrefix ++ hexText address).drop 2 = hexText address := rfl
  rw [hbody, fromhex_hexText, Option.map_some]

theorem anyToHex_toOne1 (h : address.length = 20) : anyToHex u (toOne1 one address) = some (hexPrefix ++ hexText address) := by
  have hread : fromOne1Hex u (toOne1 one address) = .ok (hexPrefix ++ hexText address) := by
    rw [fromOne1Hex, fromOne1_toOne1 u h]
    rfl
  obtain ⟨data, hdata, hcloses, hlen, ht⟩ := fromOne1Hex_iff.mp hread
  have htext : toOne1 one address = u.lower (strip (toOne1 one address)) := (toOne1_fromOne1 (fromOne1_toOne1 u h)).2
  have hhex : ¬hexPrefix <+: u.lower (strip (toOne1 one address)) := hdata ▸ not_hexPrefix_one data
  have hlower : ¬hexPrefix <+: u.lower (toOne1 one address) := by
    rw [toOne1_eq h, lower_form u (symbols_lt h)]
    exact not_hexPrefix_one _
  have hne : toOne1 one address ≠ [] := by
    rw [htext, hdata]
    simp
  rw [anyToHex, if_neg hne, if_neg hlower]
  exact (bech32ToHex_append hdata hcloses.one_notMem hhex).mpr
    ⟨hcloses, (length_payload_eq hcloses.charset).mpr (.inl hlen), ht⟩

end Address

/-- The two readers agree on a text, and take only what closes under `one` with 32 symbols, exactly where the text is
confined; and every address comes back from its form. -/
theorem parsers_agree_iff (u : Lower) :
    (∀ s, ReadAlike u s ↔ Confined (u.lower (strip s))) ∧
      ∀ address : Bytes, address.length = 20 →
        (hexToBech32 u one (hexPrefix ++ hexText address)).bind (anyToHex u) = some (hexPrefix ++ hexText address) := by
  refine ⟨readAlike_iff, fun address h => ?_⟩
  rw [hexToBech32_hex h, Option.bind_some, anyToHex_toOne1 h]

theorem parsers_agree_zero : (hexToBech32 asciiLower one (hexPrefix ++ hexText (List.replicate 20 0))).bind
    (anyToHex asciiLower) = some (hexPrefix ++ hexText (List.replicate 20 0)) :=
  (parsers_agree_iff asciiLower).2 _ rfl

end Readers

/-- An address of another chain, with a version symbol before its 32. -/
def segwitAddress : Text := "bc1qw508d6qejxtdg4y5r3zarvary0c5xw7kv8f3t4".toList

theorem segwit_read_once : (∃ t, bech32ToHex asciiLower segwitAddress = some t) ∧
    ¬hexPrefix <+: segwitAddress ∧ ∀ t, fromOne1Hex asciiLower segwitAddress ≠ .ok t := by
  have hs : asciiLower.lower (strip segwitAddress) = ['b', 'c'] ++ '1' :: segwitAddress.drop 3 := by decide
  have hcloses : Closes ['b', 'c'] (segwitAddress.drop 3) := ⟨by decide, by decide +kernel⟩
  have hhex : ¬hexPrefix <+: asciiLower.lower (strip segwitAddress) := by decide
  refine ⟨⟨_, (bech32ToHex_append hs hcloses.one_notMem hhex).mpr
    ⟨hcloses, (length_payload_eq hcloses.charset).mpr (.inr (by decide)), rfl⟩⟩, by decide, fun t ht => ?_⟩
  obtain ⟨data, hdata, -⟩ := fromOne1Hex_iff.mp ht
  rw [hs] at hdata
  exact absurd (List.cons.inj hdata).1 (by decide)

end HarmonyMigration.ContractReview
