import Mathlib.Data.Nat.Bitwise
import Mathlib.Data.Nat.Digits.Lemmas
import Mathlib.Tactic.Ring

/-! Digits of one width of bits, taken out of digits of another through an accumulator. -/

namespace HarmonyMigration.Regroup

/-- The number that digits of `w` bits spell, the highest first. -/
def value (w : ℕ) (ds : List ℕ) : ℕ := ds.foldl (fun n d => 2 ^ w * n + d) 0

/-- The digits of `w` bits at the top of the lowest `bits` bits, and how many bits are left below them. -/
def drain (w acc bits : ℕ) : List ℕ × ℕ :=
  if h : 0 < w ∧ w ≤ bits then
    let rest := drain w acc (bits - w)
    (((acc >>> (bits - w)) &&& (2 ^ w - 1)) :: rest.1, rest.2)
  else ([], bits)
termination_by bits
decreasing_by omega

structure State where
  acc : ℕ := 0
  bits : ℕ := 0
  out : List ℕ := []

/-- One digit is put in, and what is complete is taken out. -/
def feed (win wout : ℕ) (s : State) (d : ℕ) : State :=
  let acc := s.acc <<< win ||| d
  let drained := drain wout acc (s.bits + win)
  ⟨acc, drained.2, s.out ++ drained.1⟩

def regroup (win wout : ℕ) (ds : List ℕ) : State := ds.foldl (feed win wout) {}

/-! ### Digits -/

section Value
variable {w : ℕ}

theorem value_snoc (ds : List ℕ) (d : ℕ) : value w (ds ++ [d]) = 2 ^ w * value w ds + d := by
  simp [value]

theorem value_eq_ofDigits (ds : List ℕ) : value w ds = Nat.ofDigits (2 ^ w) ds.reverse := by
  induction ds using List.reverseRecOn with
  | nil => rfl
  | append_singleton ds d ih =>
    rw [value_snoc, List.reverse_append, List.reverse_singleton, List.singleton_append, Nat.ofDigits_cons, ih, add_comm]

/-- Digits of one length are known by their number. -/
theorem value_injective (hw : 0 < w) {ds ds' : List ℕ} (hlen : ds.length = ds'.length) (hd : ∀ d ∈ ds, d < 2 ^ w)
    (hd' : ∀ d ∈ ds', d < 2 ^ w) (h : value w ds = value w ds') : ds = ds' := by
  rw [value_eq_ofDigits, value_eq_ofDigits] at h
  have hreverse := Nat.ofDigits_inj_of_len_eq (Nat.one_lt_two_pow hw.ne') (by simpa using hlen)
    (fun d hmem => hd d (List.mem_reverse.mp hmem)) (fun d hmem => hd' d (List.mem_reverse.mp hmem)) h
  exact List.reverse_injective hreverse

theorem value_lt {ds : List ℕ} (hd : ∀ d ∈ ds, d < 2 ^ w) : value w ds < 2 ^ (w * ds.length) := by
  induction ds using List.reverseRecOn with
  | nil => simp [value]
  | append_singleton ds d ih =>
    have hlast := hd d (by simp)
    have hrest := ih fun x hx => hd x (List.mem_append_left _ hx)
    rw [value_snoc, List.length_append, List.length_singleton, Nat.mul_succ, pow_add]
    calc 2 ^ w * value w ds + d < 2 ^ w * value w ds + 2 ^ w := Nat.add_lt_add_left hlast _
      _ = (value w ds + 1) * 2 ^ w := by ring
      _ ≤ 2 ^ (w * ds.length) * 2 ^ w := Nat.mul_le_mul_right _ hrest

end Value

/-! ### The accumulator -/

section Feed
variable {v w : ℕ}

/-- What has been taken out is what stands above the bits that are left. -/
structure Holds (v w : ℕ) (ds : List ℕ) (s : State) : Prop where
  acc : s.acc = value v ds
  count : s.out.length * w + s.bits = v * ds.length
  out : value w s.out = s.acc / 2 ^ s.bits
  digits : ∀ d ∈ s.out, d < 2 ^ w
  left : s.bits < w

theorem drain_spec (hw : 0 < w) (acc : ℕ) : ∀ (bits : ℕ) (out : List ℕ), value w out = acc / 2 ^ bits →
    value w (out ++ (drain w acc bits).1) = acc / 2 ^ (drain w acc bits).2 ∧
      (drain w acc bits).1.length * w + (drain w acc bits).2 = bits ∧
      (∀ d ∈ (drain w acc bits).1, d < 2 ^ w) ∧ (drain w acc bits).2 < w := by
  intro bits
  induction bits using Nat.strong_induction_on with
  | h bits ih =>
    intro out hout
    rw [drain]
    by_cases h : 0 < w ∧ w ≤ bits
    · rw [dif_pos h]
      have hdigit : (acc >>> (bits - w)) &&& (2 ^ w - 1) = acc / 2 ^ (bits - w) % 2 ^ w := by
        rw [Nat.and_two_pow_sub_one_eq_mod, Nat.shiftRight_eq_div_pow]
      have hnext : value w (out ++ [acc / 2 ^ (bits - w) % 2 ^ w]) = acc / 2 ^ (bits - w) := by
        have hsplit : acc / 2 ^ bits = acc / 2 ^ (bits - w) / 2 ^ w := by
          rw [Nat.div_div_eq_div_mul, ← pow_add, Nat.sub_add_cancel h.2]
        rw [value_snoc, hout, hsplit]
        exact Nat.div_add_mod _ _
      obtain ⟨hvalue, hcount, hdigits, hleft⟩ := ih (bits - w) (by omega) _ hnext
      rw [hdigit]
      refine ⟨by simpa using hvalue, ?_, ?_, hleft⟩
      · simp only [List.length_cons, Nat.succ_mul]
        omega
      · intro d hd
        rcases List.mem_cons.mp hd with rfl | hd
        · exact Nat.mod_lt _ (Nat.two_pow_pos w)
        · exact hdigits d hd
    · rw [dif_neg h]
      refine ⟨by simpa using hout, by simp, by simp, ?_⟩
      dsimp only
      omega

theorem feed_holds (hw : 0 < w) {ds : List ℕ} {s : State} (h : Holds v w ds s) {d : ℕ} (hd : d < 2 ^ v) :
    Holds v w (ds ++ [d]) (feed v w s d) := by
  have hacc : s.acc <<< v ||| d = 2 ^ v * s.acc + d := by
    rw [← Nat.shiftLeft_add_eq_or_of_lt hd, Nat.shiftLeft_eq, mul_comm]
  have habove : value w s.out = (2 ^ v * s.acc + d) / 2 ^ (s.bits + v) := by
    have hdiv : (2 ^ v * s.acc + d) / 2 ^ v = s.acc := by
      rw [Nat.mul_add_div (Nat.two_pow_pos v), Nat.div_eq_of_lt hd, add_zero]
    rw [h.out, add_comm s.bits, pow_add, ← Nat.div_div_eq_div_mul, hdiv]
  obtain ⟨hvalue, hcount, hdigits, hleft⟩ := drain_spec hw (2 ^ v * s.acc + d) (s.bits + v) s.out habove
  refine ⟨?_, ?_, ?_, ?_, ?_⟩
  · rw [value_snoc, ← h.acc]
    exact hacc
  · have hbefore := h.count
    simp only [feed, hacc, List.length_append, List.length_singleton, Nat.add_mul, Nat.mul_add]
    omega
  · simpa only [feed, hacc] using hvalue
  · intro x hx
    simp only [feed, hacc, List.mem_append] at hx
    rcases hx with hx | hx
    · exact h.digits x hx
    · exact hdigits x hx
  · simpa only [feed, hacc] using hleft

theorem regroup_holds (hw : 0 < w) {ds : List ℕ} (hd : ∀ d ∈ ds, d < 2 ^ v) :
    Holds v w ds (regroup v w ds) := by
  induction ds using List.reverseRecOn with
  | nil => exact ⟨rfl, by simp [regroup], by simp [regroup, value], by simp [regroup], hw⟩
  | append_singleton ds d ih =>
    rw [regroup, List.foldl_append]
    exact feed_holds hw (ih fun x hx => hd x (List.mem_append_left _ hx)) (hd d (by simp))

/-- Where the widths divide the bits alike, nothing is left and the number stays. -/
theorem regroup_exact (hw : 0 < w) {ds : List ℕ} (hd : ∀ d ∈ ds, d < 2 ^ v) {k : ℕ}
    (hk : v * ds.length = w * k) :
    (regroup v w ds).bits = 0 ∧ (regroup v w ds).out.length = k ∧
      value w (regroup v w ds).out = value v ds ∧ ∀ d ∈ (regroup v w ds).out, d < 2 ^ w := by
  have h := regroup_holds hw hd
  have hcount := h.count
  have hleft := h.left
  rw [hk, mul_comm w] at hcount
  have hbits : (regroup v w ds).bits = 0 := by
    have hmod := congrArg (· % w) hcount
    simp only [Nat.mul_mod_left, Nat.add_mod, Nat.zero_add, Nat.mod_eq_of_lt hleft] at hmod
    exact hmod
  rw [hbits, add_zero] at hcount
  refine ⟨hbits, Nat.eq_of_mul_eq_mul_right hw hcount, ?_, h.digits⟩
  rw [h.out, hbits, h.acc, pow_zero, Nat.div_one]

/-- Regrouped and regrouped back. -/
theorem regroup_regroup (hin : 0 < v) (hw : 0 < w) {ds : List ℕ} (hd : ∀ d ∈ ds, d < 2 ^ v) {k : ℕ}
    (hk : v * ds.length = w * k) : (regroup w v (regroup v w ds).out).out = ds := by
  obtain ⟨-, hlen, hvalue, hdigits⟩ := regroup_exact hw hd hk
  obtain ⟨-, hlen', hvalue', hdigits'⟩ := regroup_exact hin hdigits (k := ds.length) (by rw [hlen, hk])
  exact value_injective hin hlen' hdigits' hd (hvalue'.trans hvalue)

end Feed

end HarmonyMigration.Regroup
