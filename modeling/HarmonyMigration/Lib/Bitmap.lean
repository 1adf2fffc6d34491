import Mathlib.Tactic

/-! A set of 256-bit indexes kept as a map from words to words: bit `i % 256` of
word `i / 256` says whether `i` is in the set. The entries of a list are marked in it by
position. -/

namespace Bitmap

abbrev Bits := BitVec 256 → BitVec 256

def empty : Bits := fun _ => 0

/-- The word that holds the bit of `i`. -/
def word (i : BitVec 256) : BitVec 256 := i >>> 8

/-- The bit of `i` inside its word. -/
def bit (i : BitVec 256) : BitVec 256 := (1 : BitVec 256) <<< (i &&& 0xff)

def get (m : Bits) (i : BitVec 256) : Bool := m (word i) &&& bit i != 0

def set (m : Bits) (i : BitVec 256) : Bits := Function.update m (word i) (m (word i) ||| bit i)

theorem word_toNat (i : BitVec 256) : (word i).toNat = i.toNat / 256 := by
  simp [word, BitVec.toNat_ushiftRight, Nat.shiftRight_eq_div_pow]

theorem low_toNat (i : BitVec 256) : (i &&& 0xff).toNat = i.toNat % 256 := by
  rw [BitVec.toNat_and]
  exact Nat.and_two_pow_sub_one_eq_mod i.toNat 8

theorem bit_eq (i : BitVec 256) : bit i = BitVec.twoPow 256 (i.toNat % 256) := by
  unfold bit
  rw [BitVec.shiftLeft_eq', low_toNat, BitVec.twoPow]
  rfl

theorem get_iff (m : Bits) (i : BitVec 256) :
    get m i = (m (word i)).getLsbD (i.toNat % 256) := by
  have hlt : i.toNat % 256 < 256 := Nat.mod_lt _ (by decide)
  have hne : BitVec.twoPow 256 (i.toNat % 256) ≠ 0 := by
    intro h
    have := congrArg (fun x => BitVec.getLsbD x (i.toNat % 256)) h
    simp [hlt] at this
  unfold get
  rw [bit_eq, BitVec.and_twoPow]
  cases h : (m (word i)).getLsbD (i.toNat % 256)
  · simp
  · simpa using hne

theorem get_empty (i : BitVec 256) : get empty i = false := by
  simp [get_iff, empty]

/-- Setting one index sets its bit and no other index's. -/
theorem get_set (m : Bits) (i j : BitVec 256) :
    get (set m i) j = (decide (j = i) || get m j) := by
  have hi : i.toNat % 256 < 256 := Nat.mod_lt _ (by decide)
  have hj : j.toNat % 256 < 256 := Nat.mod_lt _ (by decide)
  rw [get_iff, get_iff]
  by_cases hw : word j = word i
  · have hdiv : j.toNat / 256 = i.toNat / 256 := by rw [← word_toNat, ← word_toNat, hw]
    have hji : j = i ↔ i.toNat % 256 = j.toNat % 256 := by
      rw [← BitVec.toNat_inj]
      omega
    simp only [set, hw, Function.update_self, BitVec.getLsbD_or, bit_eq, BitVec.getLsbD_twoPow,
      hi, decide_true, Bool.true_and, hji]
    exact Bool.or_comm _ _
  · have hne : j ≠ i := fun h => hw (by rw [h])
    simp [set, Function.update_of_ne hw, hne]

section Enumerate
variable {α : Type*}

/-- The entries of a list with their positions as indexes. -/
def enumerate (L : List α) : List (BitVec 256 × α) :=
  L.zipIdx.map fun p => (BitVec.ofNat 256 p.2, p.1)

theorem mem_enumerate {L : List α} (hL : L.length < 2 ^ 256) {p : BitVec 256 × α} :
    p ∈ enumerate L ↔ L[p.1.toNat]? = some p.2 := by
  simp only [enumerate, List.mem_map, List.mem_zipIdx_iff_getElem?]
  constructor
  · rintro ⟨⟨row, i⟩, hrow, rfl⟩
    have hlt : i < L.length := (List.getElem?_eq_some_iff.mp hrow).1
    simpa only [BitVec.toNat_ofNat, Nat.mod_eq_of_lt (hlt.trans hL)] using hrow
  · intro h
    exact ⟨(p.2, p.1.toNat), h, by simp⟩

theorem enumerate_map_snd (L : List α) : (enumerate L).map Prod.snd = L := by
  rw [enumerate, List.map_map]
  exact List.zipIdx_map_fst 0 L

theorem enumerate_nodup {L : List α} (hL : L.length < 2 ^ 256) : (enumerate L).Nodup := by
  refine (List.nodup_map_iff_inj_on (List.Nodup.of_map Prod.snd ?_)).mpr ?_
  · rw [List.zipIdx_map_snd]
    exact List.nodup_range'
  · rintro ⟨r, i⟩ hx ⟨r', j⟩ hy h
    have hi := (List.getElem?_eq_some_iff.mp (List.mem_zipIdx_iff_getElem?.mp hx)).1
    have hj := (List.getElem?_eq_some_iff.mp (List.mem_zipIdx_iff_getElem?.mp hy)).1
    obtain ⟨h1, rfl⟩ := Prod.mk.inj h
    have h2 := congrArg BitVec.toNat h1
    simp only [BitVec.toNat_ofNat] at h2
    rw [Nat.mod_eq_of_lt (hi.trans hL), Nat.mod_eq_of_lt (hj.trans hL)] at h2
    exact Prod.ext rfl h2

/-- Entries recorded under distinct indexes, whose bits are the ones set, are the
entries of the list whose bit is set. -/
theorem perm_enumerate_filter {L : List α} (hL : L.length < 2 ^ 256) {m : Bits}
    {ps : List (BitVec 256 × α)} (hrows : ∀ p ∈ ps, L[p.1.toNat]? = some p.2)
    (hnodup : (ps.map Prod.fst).Nodup) (hbits : ∀ i, get m i = true ↔ i ∈ ps.map Prod.fst) :
    ps.Perm ((enumerate L).filter fun p => get m p.1) := by
  refine (List.perm_ext_iff_of_nodup (List.Nodup.of_map _ hnodup)
    ((enumerate_nodup hL).filter _)).mpr (fun p => ?_)
  rw [List.mem_filter, mem_enumerate hL, hbits, List.mem_map]
  refine ⟨fun h => ⟨hrows p h, p, h, rfl⟩, ?_⟩
  rintro ⟨hp, q, hq, hqp⟩
  have hrow := hrows q hq
  rw [hqp, hp] at hrow
  rwa [Prod.ext hqp (Option.some.inj hrow).symm] at hq

end Enumerate

end Bitmap
