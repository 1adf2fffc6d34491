import HarmonyMigration.Airdrop.ParseAmount
import HarmonyMigration.Lib.Except
import HarmonyMigration.Lib.Regroup
import HarmonyMigration.Lib.Slices

/-! `to_one1` and `from_one1` of `airdrop/tools/common.py`: Harmony's bech32 form of an address. -/

namespace HarmonyMigration.Airdrop.One1

open Decimal Except Regroup Slices

def charset : Text := "qpzry9x8gf2tvdw0s3jn54khce6mua7l".toList

def generator : List ℕ := [0x3B6A57B2, 0x26508E6D, 0x1EA119FA, 0x3D4233DD, 0x2A1462B3]

/-- The body of the loop of `_bech32_polymod`. -/
def polymodStep (chk value : ℕ) : ℕ :=
  let top := chk >>> 25
  (List.range 5).foldl (fun chk i => if (top >>> i) &&& 1 ≠ 0 then chk ^^^ generator.getD i 0 else chk)
    (((chk &&& 0x1FFFFFF) <<< 5) ^^^ value)

def polymod (values : List ℕ) : ℕ := values.foldl polymodStep 1

def one : Text := "one".toList

def expanded (hrp : Text) : List ℕ := hrp.map (fun c => c.toNat >>> 5) ++ [0] ++ hrp.map fun c => c.toNat &&& 31

def charAt (d : ℕ) : Char := charset.getD d 'q'

/-- The last six symbols. -/
def checksum (hrp : Text) (data : List ℕ) : List ℕ :=
  let polymod := polymod (expanded hrp ++ data ++ List.replicate 6 0) ^^^ 1
  (List.range 6).map fun i => (polymod >>> (5 * (5 - i))) &&& 31

def toOne1 (hrp : Text) (address : Bytes) : Text :=
  let s := regroup 8 5 (address.map UInt8.toNat)
  let data := if s.bits ≠ 0 then s.out ++ [(s.acc <<< (5 - s.bits)) &&& 31] else s.out
  hrp ++ '1' :: (data ++ checksum hrp data).map charAt

/-- `str.lower`, which changes no character of an ASCII text but its capitals. -/
structure Lower where
  lower : Text → Text
  ascii : ∀ t : Text, (∀ c ∈ t, c.toNat < 128) → lower t = t.map Char.toLower

inductive One1Error where
  | notOne1
  | badChecksum
  deriving DecidableEq

def fromOne1 (u : Lower) (hrp value : Text) : Except One1Error Bytes :=
  let text := u.lower (strip value)
  let body := text.drop (hrp.length + 1)
  (require (hrp ++ ['1'] <+: text ∧ ∀ c ∈ body, c ∈ charset) .notOne1).bind fun _ =>
  let data := body.map fun c => charset.idxOf c
  (require (data.length = 38 ∧ polymod (expanded hrp ++ data) = 1) .badChecksum).map fun _ =>
  (regroup 5 8 (data.take (data.length - 6))).out.map UInt8.ofNat

/-! ### The charset -/

theorem idxOf_charAt {d : ℕ} (h : d < 32) : charset.idxOf (charAt d) = d := by
  have hall : ∀ d < 32, charset.idxOf (charAt d) = d := by decide
  exact hall d h

theorem charAt_mem {d : ℕ} (h : d < 32) : charAt d ∈ charset := by
  have hall : ∀ d < 32, charAt d ∈ charset := by decide
  exact hall d h

theorem charAt_idxOf {c : Char} (h : c ∈ charset) : charAt (charset.idxOf c) = c := by
  have hall : ∀ c ∈ charset, charAt (charset.idxOf c) = c := by decide
  exact hall c h

theorem idxOf_lt {c : Char} (h : c ∈ charset) : charset.idxOf c < 32 := List.idxOf_lt_length_of_mem h

/-! ### The checksum -/

/-- What the generators add for the five bits that are shifted out. -/
def feedback (top : ℕ) : ℕ :=
  (List.range 5).foldl (fun chk i => if (top >>> i) &&& 1 ≠ 0 then chk ^^^ generator.getD i 0 else chk) 0

theorem polymodStep_eq (chk value : ℕ) :
    polymodStep chk value = (((chk &&& 0x1FFFFFF) <<< 5) ^^^ value) ^^^ feedback (chk >>> 25) := by
  have hfold : ∀ (l : List ℕ) (x y : ℕ) (p : ℕ → Prop) [DecidablePred p],
      l.foldl (fun chk i => if p i then chk ^^^ generator.getD i 0 else chk) (x ^^^ y) =
        x ^^^ l.foldl (fun chk i => if p i then chk ^^^ generator.getD i 0 else chk) y := by
    intro l
    induction l with
    | nil => intros; rfl
    | cons i l ih =>
      intro x y p _
      rw [List.foldl_cons, List.foldl_cons]
      by_cases hp : p i
      · rw [if_pos hp, if_pos hp, Nat.xor_assoc, ih]
      · rw [if_neg hp, if_neg hp, ih]
  have h := hfold (List.range 5) (((chk &&& 0x1FFFFFF) <<< 5) ^^^ value) 0 fun i => (chk >>> 25 >>> i) &&& 1 ≠ 0
  rw [Nat.xor_zero] at h
  exact h

theorem feedback_lt {top : ℕ} (h : top < 32) : feedback top < 2 ^ 30 := by
  have hall : ∀ top < 32, feedback top < 2 ^ 30 := by decide
  exact hall top h

/-- The lowest five bits of the feedback tell what was shifted out. -/
theorem feedback_injective {top top' : ℕ} (h : top < 32) (h' : top' < 32)
    (heq : feedback top % 32 = feedback top' % 32) : top = top' := by
  have hall : ∀ top < 32, ∀ top' < 32, feedback top % 32 = feedback top' % 32 → top = top' := by decide
  exact hall top h top' h' heq

theorem top_lt {chk : ℕ} (h : chk < 2 ^ 30) : chk >>> 25 < 32 := by
  rw [Nat.shiftRight_eq_div_pow]
  omega

theorem mask_eq (chk : ℕ) : chk &&& 0x1FFFFFF = chk % 2 ^ 25 := Nat.and_two_pow_sub_one_eq_mod chk 25

theorem polymodStep_lt {chk value : ℕ} (h : chk < 2 ^ 30) (hv : value < 32) : polymodStep chk value < 2 ^ 30 := by
  rw [polymodStep_eq]
  have hshift : (chk &&& 0x1FFFFFF) <<< 5 < 2 ^ 30 := by
    rw [mask_eq, Nat.shiftLeft_eq]
    omega
  exact Nat.xor_lt_two_pow (Nat.xor_lt_two_pow hshift (by omega)) (feedback_lt (top_lt h))

theorem xor_right_cancel {a b c : ℕ} (h : a ^^^ c = b ^^^ c) : a = b := by
  have hboth := congrArg (· ^^^ c) h
  simpa [Nat.xor_assoc] using hboth

theorem xor_left_cancel {a b c : ℕ} (h : c ^^^ a = c ^^^ b) : a = b := by
  rw [Nat.xor_comm c, Nat.xor_comm c] at h
  exact xor_right_cancel h

/-- The step loses nothing of its state. -/
theorem polymodStep_injective {chk chk' value : ℕ} (h : chk < 2 ^ 30) (h' : chk' < 2 ^ 30)
    (heq : polymodStep chk value = polymodStep chk' value) : chk = chk' := by
  rw [polymodStep_eq, polymodStep_eq, Nat.xor_assoc, Nat.xor_assoc, Nat.xor_comm value, Nat.xor_comm value,
    ← Nat.xor_assoc, ← Nat.xor_assoc] at heq
  have hsame := xor_right_cancel heq
  have hlow : ∀ x, (x &&& 0x1FFFFFF) <<< 5 % 2 ^ 5 = 0 := fun x => by
    rw [Nat.shiftLeft_eq]
    exact Nat.mul_mod_left _ _
  have hmod := congrArg (· % 2 ^ 5) hsame
  simp only [Nat.xor_mod_two_pow, hlow, Nat.zero_xor] at hmod
  have htop := feedback_injective (top_lt h) (top_lt h') hmod
  rw [htop] at hsame
  have hrest := xor_right_cancel hsame
  rw [mask_eq, mask_eq, Nat.shiftLeft_eq, Nat.shiftLeft_eq] at hrest
  rw [Nat.shiftRight_eq_div_pow, Nat.shiftRight_eq_div_pow] at htop
  omega

theorem polymodStep_value {chk value value' : ℕ} (heq : polymodStep chk value = polymodStep chk value') :
    value = value' := by
  rw [polymodStep_eq, polymodStep_eq] at heq
  exact xor_left_cancel (xor_right_cancel heq)

theorem foldl_lt {l : List ℕ} (hl : ∀ v ∈ l, v < 32) {chk : ℕ} (h : chk < 2 ^ 30) :
    l.foldl polymodStep chk < 2 ^ 30 := by
  induction l generalizing chk with
  | nil => exact h
  | cons v l ih => exact ih (fun x hx => hl x (List.mem_cons_of_mem _ hx)) (polymodStep_lt h (hl v (by simp)))

theorem foldl_injective {l : List ℕ} (hl : ∀ v ∈ l, v < 32) {chk chk' : ℕ} (h : chk < 2 ^ 30) (h' : chk' < 2 ^ 30)
    (heq : l.foldl polymodStep chk = l.foldl polymodStep chk') : chk = chk' := by
  induction l generalizing chk chk' with
  | nil => exact heq
  | cons v l ih =>
    have hv := hl v (by simp)
    have hstep := ih (fun x hx => hl x (List.mem_cons_of_mem _ hx)) (polymodStep_lt h hv) (polymodStep_lt h' hv) heq
    exact polymodStep_injective h h' hstep

/-- One changed symbol changes the checksum. -/
theorem polymod_changed {pre suf : List ℕ} {v v' : ℕ} (hpre : ∀ x ∈ pre, x < 32) (hsuf : ∀ x ∈ suf, x < 32)
    (hv : v < 32) (hv' : v' < 32) (heq : polymod (pre ++ v :: suf) = polymod (pre ++ v' :: suf)) : v = v' := by
  simp only [polymod, List.foldl_append, List.foldl_cons] at heq
  have hstart : pre.foldl polymodStep 1 < 2 ^ 30 := foldl_lt hpre (by norm_num)
  exact polymodStep_value (foldl_injective hsuf (polymodStep_lt hstart hv) (polymodStep_lt hstart hv') heq)

/-! ### The last six symbols -/

/-- A difference below the bits that are shifted out is only shifted. -/
theorem polymodStep_xor {chk d : ℕ} (hd : d < 2 ^ 25) (v : ℕ) :
    polymodStep (chk ^^^ d) v = polymodStep chk 0 ^^^ ((d <<< 5) ^^^ v) := by
  have htop : (chk ^^^ d) >>> 25 = chk >>> 25 := by
    rw [Nat.shiftRight_xor_distrib, Nat.shiftRight_eq_div_pow d, Nat.div_eq_of_lt hd, Nat.xor_zero]
  have hmask : (chk ^^^ d) &&& 0x1FFFFFF = (chk &&& 0x1FFFFFF) ^^^ d := by
    rw [mask_eq, mask_eq, Nat.xor_mod_two_pow, Nat.mod_eq_of_lt hd]
  rw [polymodStep_eq, polymodStep_eq, htop, hmask, Nat.shiftLeft_xor_distrib, Nat.xor_zero]
  simp only [Nat.xor_assoc, Nat.xor_comm]

theorem shiftLeft_xor_eq {a d : ℕ} (hd : d < 32) : (a <<< 5) ^^^ d = 2 ^ 5 * a + d := by
  refine Nat.eq_of_testBit_eq fun j => ?_
  rw [Nat.testBit_xor, Nat.testBit_two_pow_mul_add a (show d < 2 ^ 5 from hd), Nat.testBit_shiftLeft]
  by_cases hj : j < 5
  · simp [hj, not_le.mpr hj]
  · have hhigh : d.testBit j = false :=
      Nat.testBit_lt_two_pow (lt_of_lt_of_le hd (Nat.pow_le_pow_right (by decide : 0 < 2) (not_lt.mp hj)))
    simp [hj, not_lt.mp hj, hhigh]

/-- Up to six symbols stand in the state as they would in a number. -/
theorem foldl_tail {cs : List ℕ} (hcs : ∀ c ∈ cs, c < 32) (hlen : cs.length ≤ 6) (chk : ℕ) :
    cs.foldl polymodStep chk = (List.replicate cs.length 0).foldl polymodStep chk ^^^ value 5 cs := by
  induction cs using List.reverseRecOn with
  | nil => simp [value]
  | append_singleton cs c ih =>
    have hrest : ∀ x ∈ cs, x < 32 := fun x hx => hcs x (List.mem_append_left _ hx)
    rw [List.length_append, List.length_singleton] at hlen
    have hvalue : value 5 cs < 2 ^ 25 :=
      lt_of_lt_of_le (value_lt hrest) (Nat.pow_le_pow_right (by decide) (by omega))
    rw [List.foldl_append, ih hrest (by omega), List.foldl_cons, List.foldl_nil, polymodStep_xor hvalue,
      shiftLeft_xor_eq (hcs c (by simp)), ← value_snoc, List.length_append, List.length_singleton,
      List.replicate_succ', List.foldl_append, List.foldl_cons, List.foldl_nil]

theorem polymod_append {xs cs : List ℕ} (hcs : ∀ c ∈ cs, c < 32) (hlen : cs.length = 6) :
    polymod (xs ++ cs) = polymod (xs ++ List.replicate 6 0) ^^^ value 5 cs := by
  rw [polymod, List.foldl_append, foldl_tail hcs hlen.le, hlen, polymod, List.foldl_append]

theorem value_symbols {p : ℕ} (hp : p < 2 ^ 30) :
    value 5 ((List.range 6).map fun i => (p >>> (5 * (5 - i))) &&& 31) = p := by
  have hmask : ∀ x, x &&& 31 = x % 32 := fun x => Nat.and_two_pow_sub_one_eq_mod x 5
  simp only [hmask, Nat.shiftRight_eq_div_pow, value, List.foldl_map, List.range, List.range.loop, List.foldl_cons,
    List.foldl_nil]
  omega

theorem checksum_lt (hrp : Text) (data : List ℕ) : ∀ c ∈ checksum hrp data, c < 32 := by
  intro c hc
  obtain ⟨i, -, rfl⟩ := List.mem_map.mp hc
  exact lt_of_le_of_lt Nat.and_le_right (by decide)

theorem length_checksum (hrp : Text) (data : List ℕ) : (checksum hrp data).length = 6 := by simp [checksum]

theorem expanded_lt : ∀ v ∈ expanded one, v < 32 := by decide

/-- The one checksum that closes the data. -/
theorem polymod_eq_one_iff {data cs : List ℕ} (hdata : ∀ d ∈ data, d < 32) (hcs : ∀ c ∈ cs, c < 32)
    (hlen : cs.length = 6) : polymod (expanded one ++ (data ++ cs)) = 1 ↔ cs = checksum one data := by
  have hbound : polymod (expanded one ++ data ++ List.replicate 6 0) < 2 ^ 30 := by
    refine foldl_lt (fun v hv => ?_) (by norm_num)
    rcases List.mem_append.mp hv with hv | hv
    · rcases List.mem_append.mp hv with hv | hv
      · exact expanded_lt v hv
      · exact hdata v hv
    · rw [List.eq_of_mem_replicate hv]
      decide
  have hvalue : value 5 (checksum one data) = polymod (expanded one ++ data ++ List.replicate 6 0) ^^^ 1 :=
    value_symbols (Nat.xor_lt_two_pow hbound (by norm_num))
  rw [← List.append_assoc, polymod_append hcs hlen]
  constructor
  · intro h
    have hxor : value 5 cs = polymod (expanded one ++ data ++ List.replicate 6 0) ^^^ 1 := by
      rw [← h, ← Nat.xor_assoc, Nat.xor_self, Nat.zero_xor]
    exact value_injective (by decide) (hlen.trans (length_checksum one data).symm) hcs (checksum_lt one data)
      (hxor.trans hvalue.symm)
  · rintro rfl
    rw [hvalue, ← Nat.xor_assoc, Nat.xor_self, Nat.zero_xor]

/-! ### The codec -/

/-- The symbols of an address: 32 of its bits and six of the checksum. -/
def symbols (address : Bytes) : List ℕ :=
  let data := (regroup 8 5 (address.map UInt8.toNat)).out
  data ++ checksum one data

section Codec
variable {address : Bytes}

theorem bytes_lt (bs : Bytes) : ∀ d ∈ bs.map UInt8.toNat, d < 2 ^ 8 := by
  intro d hd
  obtain ⟨b, -, rfl⟩ := List.mem_map.mp hd
  exact b.toNat_lt

theorem toOne1_eq (h : address.length = 20) : toOne1 one address = one ++ '1' :: (symbols address).map charAt := by
  obtain ⟨hbits, -, -, -⟩ := regroup_exact (v := 8) (w := 5) (by decide) (bytes_lt address) (k := 32)
    (by rw [List.length_map, h])
  simp [toOne1, symbols, hbits]

theorem data_spec (h : address.length = 20) :
    (regroup 8 5 (address.map UInt8.toNat)).out.length = 32 ∧
      ∀ d ∈ (regroup 8 5 (address.map UInt8.toNat)).out, d < 32 := by
  obtain ⟨-, hlen, -, hlt⟩ := regroup_exact (v := 8) (w := 5) (by decide) (bytes_lt address) (k := 32)
    (by rw [List.length_map, h])
  exact ⟨hlen, hlt⟩

theorem length_symbols (h : address.length = 20) : (symbols address).length = 38 := by
  rw [symbols, List.length_append, (data_spec h).1, length_checksum]

theorem symbols_lt (h : address.length = 20) : ∀ d ∈ symbols address, d < 32 := by
  intro d hd
  rcases List.mem_append.mp hd with hd | hd
  · exact (data_spec h).2 d hd
  · exact checksum_lt _ _ d hd

theorem polymod_symbols (h : address.length = 20) : polymod (expanded one ++ symbols address) = 1 :=
  (polymod_eq_one_iff (data_spec h).2 (checksum_lt _ _) (length_checksum _ _)).mpr rfl

theorem map_idxOf_charAt {ds : List ℕ} (hd : ∀ d ∈ ds, d < 32) : (ds.map charAt).map (fun c => charset.idxOf c) = ds := by
  rw [List.map_map]
  exact (List.map_congr_left fun d hmem => idxOf_charAt (hd d hmem)).trans (List.map_id _)

/-- A text of symbols is read when there are 38 and they close. -/
theorem fromOne1_text (u : Lower) {s : Text} {ds : List ℕ} (hs : u.lower (strip s) = one ++ '1' :: ds.map charAt)
    (hd : ∀ d ∈ ds, d < 32) : fromOne1 u one s =
      if ds.length = 38 ∧ polymod (expanded one ++ ds) = 1 then
        .ok ((regroup 5 8 (ds.take (ds.length - 6))).out.map UInt8.ofNat)
      else .error .badChecksum := by
  have hbody : (one ++ '1' :: ds.map charAt).drop (one.length + 1) = ds.map charAt := by
    rw [List.drop_append]
    simp
  have hstarts : one ++ ['1'] <+: one ++ '1' :: ds.map charAt := ⟨ds.map charAt, by simp⟩
  have hcharset : ∀ c ∈ ds.map charAt, c ∈ charset := by
    intro c hc
    obtain ⟨d, hmem, rfl⟩ := List.mem_map.mp hc
    exact charAt_mem (hd d hmem)
  simp only [fromOne1, hs, hbody, map_idxOf_charAt hd]
  rw [require, if_pos ⟨hstarts, hcharset⟩, bind_ok_left, require]
  split_ifs <;> rfl

theorem plain_of_mem {ds : List ℕ} (hd : ∀ d ∈ ds, d < 32) {c : Char} (hc : c ∈ one ++ '1' :: ds.map charAt) :
    isSpace c = false ∧ c.toNat < 128 ∧ c.toLower = c := by
  have hone : ∀ c ∈ one ++ ['1'], isSpace c = false ∧ c.toNat < 128 ∧ c.toLower = c := by decide
  have hcharset : ∀ c ∈ charset, isSpace c = false ∧ c.toNat < 128 ∧ c.toLower = c := by decide
  rw [List.append_cons, List.mem_append] at hc
  rcases hc with hc | hc
  · exact hone c hc
  · obtain ⟨d, hmem, rfl⟩ := List.mem_map.mp hc
    exact hcharset _ (charAt_mem (hd d hmem))

theorem lower_form (u : Lower) {ds : List ℕ} (hd : ∀ d ∈ ds, d < 32) :
    u.lower (one ++ '1' :: ds.map charAt) = one ++ '1' :: ds.map charAt := by
  rw [u.ascii _ fun c hc => (plain_of_mem hd hc).2.1]
  exact (List.map_congr_left fun c hc => (plain_of_mem hd hc).2.2).trans (List.map_id _)

/-- Letters and digits of the form are neither changed nor stripped. -/
theorem lower_strip (u : Lower) {ds : List ℕ} (hd : ∀ d ∈ ds, d < 32) :
    u.lower (strip (one ++ '1' :: ds.map charAt)) = one ++ '1' :: ds.map charAt := by
  rw [strip_of_forall fun c hc => (plain_of_mem hd hc).1, lower_form u hd]

theorem fromOne1_toOne1 (u : Lower) (h : address.length = 20) : fromOne1 u one (toOne1 one address) = .ok address := by
  have hlt := symbols_lt h
  rw [toOne1_eq h, fromOne1_text u (lower_strip u hlt) hlt, if_pos ⟨length_symbols h, polymod_symbols h⟩,
    length_symbols h]
  have htake : (symbols address).take (38 - 6) = (regroup 8 5 (address.map UInt8.toNat)).out := by
    rw [symbols, List.take_left' (data_spec h).1]
  rw [htake, regroup_regroup (by decide) (by decide) (bytes_lt address) (k := 32) (by rw [List.length_map, h]),
    List.map_map]
  exact congrArg Except.ok ((List.map_congr_left fun b _ => UInt8.ofNat_toNat).trans (List.map_id _))

/-- What an accepted text is. -/
theorem fromOne1_ok {u : Lower} {s : Text} (h : fromOne1 u one s = .ok address) :
    ∃ ds, u.lower (strip s) = one ++ '1' :: ds.map charAt ∧ (∀ d ∈ ds, d < 32) ∧ ds.length = 38 ∧
      polymod (expanded one ++ ds) = 1 ∧ address = (regroup 5 8 (ds.take 32)).out.map UInt8.ofNat := by
  unfold fromOne1 at h
  rw [require_bind_ok] at h
  obtain ⟨⟨⟨body, hbody⟩, hcharset⟩, h⟩ := h
  obtain ⟨_, hcheck, rfl⟩ := of_map_ok h
  obtain ⟨hlen, hpoly⟩ := of_require_ok hcheck
  have hdrop : (u.lower (strip s)).drop (one.length + 1) = body := by
    rw [← hbody, List.drop_left' (by simp)]
  rw [hdrop] at hcharset hlen hpoly ⊢
  have hback : (body.map fun c => charset.idxOf c).map charAt = body := by
    rw [List.map_map]
    exact (List.map_congr_left fun c hc => charAt_idxOf (hcharset c hc)).trans (List.map_id _)
  refine ⟨body.map fun c => charset.idxOf c, ?_, ?_, hlen, hpoly, by rw [hlen]⟩
  · rw [hback, ← hbody]
    simp
  · intro d hd
    obtain ⟨c, hc, rfl⟩ := List.mem_map.mp hd
    exact idxOf_lt (hcharset c hc)

theorem toOne1_fromOne1 {u : Lower} {s : Text} (h : fromOne1 u one s = .ok address) :
    address.length = 20 ∧ toOne1 one address = u.lower (strip s) := by
  obtain ⟨ds, htext, hlt, hlen, hpoly, rfl⟩ := fromOne1_ok h
  have htake : ∀ d ∈ ds.take 32, d < 2 ^ 5 := fun d hd => hlt d (List.mem_of_mem_take hd)
  have hlen32 : (ds.take 32).length = 32 := by rw [List.length_take, hlen]; rfl
  obtain ⟨-, hbytes, -, hbyte⟩ := regroup_exact (v := 5) (w := 8) (by decide) htake (k := 20) (by rw [hlen32])
  have hnat : ((regroup 5 8 (ds.take 32)).out.map UInt8.ofNat).map UInt8.toNat = (regroup 5 8 (ds.take 32)).out := by
    rw [List.map_map]
    exact (List.map_congr_left fun d hd => UInt8.toNat_ofNat_of_lt' (hbyte d hd)).trans (List.map_id _)
  have haddress : ((regroup 5 8 (ds.take 32)).out.map UInt8.ofNat).length = 20 := by rw [List.length_map, hbytes]
  refine ⟨haddress, ?_⟩
  have hdata : (regroup 8 5 (regroup 5 8 (ds.take 32)).out).out = ds.take 32 :=
    regroup_regroup (by decide) (by decide) htake (k := 20) (by rw [hlen32])
  -- the last six symbols are the checksum of the others
  have hsplit : ds = ds.take 32 ++ ds.drop 32 := (List.take_append_drop 32 ds).symm
  have hclose : ds.drop 32 = checksum one (ds.take 32) := by
    rw [hsplit] at hpoly
    exact (polymod_eq_one_iff htake (fun c hc => hlt c (List.mem_of_mem_drop hc)) (by rw [List.length_drop, hlen])).mp
      hpoly
  rw [toOne1_eq haddress, symbols, hnat, hdata, ← hclose, List.take_append_drop, htext]

/-- One changed character is rejected. -/
theorem fromOne1_changed (u : Lower) (h : address.length = 20) {i : ℕ} (hi : i < 38) {c : Char} (hc : c ∈ charset)
    (hne : (toOne1 one address)[4 + i]? ≠ some c) :
    fromOne1 u one ((toOne1 one address).set (4 + i) c) = .error .badChecksum := by
  have hlt := symbols_lt h
  have hlen := length_symbols h
  have hfour : (one ++ ['1']).length = 4 := rfl
  rw [toOne1_eq h, List.append_cons] at hne ⊢
  rw [List.getElem?_append_right (by rw [hfour]; omega), hfour, Nat.add_sub_cancel_left, List.getElem?_map] at hne
  have hset : ((one ++ ['1']) ++ (symbols address).map charAt).set (4 + i) c =
      one ++ '1' :: ((symbols address).set i (charset.idxOf c)).map charAt := by
    rw [List.set_append_right _ _ (by rw [hfour]; omega), hfour, Nat.add_sub_cancel_left, List.map_set, charAt_idxOf hc,
      ← List.append_cons]
  have hlt' : ∀ d ∈ (symbols address).set i (charset.idxOf c), d < 32 := by
    intro d hd
    rcases List.mem_or_eq_of_mem_set hd with hd | rfl
    · exact hlt d hd
    · exact idxOf_lt hc
  rw [hset, fromOne1_text u (lower_strip u hlt') hlt', if_neg]
  intro hok
  -- the symbols before and behind the place are the same in both texts
  have hi' : i < (symbols address).length := by rw [hlen]; exact hi
  have horiginal : symbols address = (symbols address).take i ++ (symbols address)[i] :: (symbols address).drop (i + 1) := by
    rw [List.cons_getElem_drop_succ, List.take_append_drop]
  have hpoly := polymod_symbols h
  rw [List.set_eq_take_append_cons_drop, if_pos hi', ← List.append_assoc] at hok
  rw [horiginal, ← List.append_assoc] at hpoly
  have hpre : ∀ x ∈ expanded one ++ (symbols address).take i, x < 32 := by
    intro x hx
    rcases List.mem_append.mp hx with hx | hx
    · exact expanded_lt x hx
    · exact hlt x (List.mem_of_mem_take hx)
  have hsame := polymod_changed hpre (fun x hx => hlt x (List.mem_of_mem_drop hx)) (idxOf_lt hc)
    (hlt _ (List.getElem_mem hi')) (hok.2.trans hpoly.symm)
  refine hne ?_
  rw [List.getElem?_eq_getElem hi', Option.map_some, ← hsame, charAt_idxOf hc]

/-- The form of an address reads back as the address, an accepted text is the form of what it reads as, and one changed
character of a form is rejected. -/
theorem one1_codec (u : Lower) :
    (∀ address : Bytes, address.length = 20 → fromOne1 u one (toOne1 one address) = .ok address) ∧
    (∀ s address, fromOne1 u one s = .ok address → address.length = 20 ∧ toOne1 one address = u.lower (strip s)) ∧
    ∀ address : Bytes, address.length = 20 → ∀ i < 38, ∀ c ∈ charset, (toOne1 one address)[4 + i]? ≠ some c →
      fromOne1 u one ((toOne1 one address).set (4 + i) c) = .error .badChecksum :=
  ⟨fun _ h => fromOne1_toOne1 u h, fun _ _ h => toOne1_fromOne1 h, fun _ h _ hi _ hc hne => fromOne1_changed u h hi hc hne⟩

/-- `str.lower` on ASCII texts. -/
def asciiLower : Lower := ⟨List.map Char.toLower, fun _ _ => rfl⟩

theorem one1_codec_zero :
    fromOne1 asciiLower one (toOne1 one (List.replicate 20 0)) = .ok (List.replicate 20 0) :=
  (one1_codec asciiLower).1 _ rfl

end Codec

end HarmonyMigration.Airdrop.One1
