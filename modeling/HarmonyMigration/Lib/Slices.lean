import Mathlib.Tactic

/-! Byte strings and Python's slices: cutting a list into pieces of one size,
joining pieces of one size, and comparing byte strings of one length. -/

namespace Slices

variable {α β : Type*}

/-- `range(0, n, step)`. -/
def starts (n step : ℕ) : List ℕ := (List.range ((n + step - 1) / step)).map (· * step)

/-- `xs[a:b]`. -/
def slice (xs : List α) (a b : ℕ) : List α := (xs.take b).drop a

/-- `[xs[i:i + step] for i in range(0, len(xs), step)]`. -/
def chunks (step : ℕ) (xs : List α) : List (List α) :=
  (starts xs.length step).map fun i => slice xs i (i + step)

theorem starts_zero {step : ℕ} (h : 0 < step) : starts 0 step = [] := by
  rw [starts, Nat.div_eq_of_lt (by omega), List.range_zero, List.map_nil]

theorem starts_succ {n step : ℕ} (hs : 0 < step) (hn : 0 < n) :
    starts n step = 0 :: (starts (n - step) step).map (step + ·) := by
  have hdiv : (n + step - 1) / step = (n - step + step - 1) / step + 1 := by
    by_cases hle : step ≤ n
    · rw [Nat.sub_add_cancel hle, show n + step - 1 = n - 1 + step by omega,
        Nat.add_div_right _ hs]
    · have h1 : (n + step - 1) / step = 1 := by
        rw [show n + step - 1 = n - 1 + step by omega, Nat.add_div_right _ hs,
          Nat.div_eq_of_lt (by omega)]
      rw [h1, show n - step = 0 by omega, Nat.div_eq_of_lt (by omega)]
  rw [starts, starts, hdiv, List.range_succ_eq_map, List.map_cons, List.map_map, List.map_map]
  refine congrArg₂ List.cons (by simp) (List.map_congr_left fun k _ => ?_)
  simp only [Function.comp_apply, Nat.succ_eq_add_one]
  ring

theorem slice_zero (xs : List α) (b : ℕ) : slice xs 0 b = xs.take b := rfl

theorem slice_add (xs : List α) (s a b : ℕ) : slice xs (s + a) (s + b) = slice (xs.drop s) a b := by
  simp only [slice, List.drop_take, List.drop_drop]
  congr 1
  omega

theorem chunks_nil {step : ℕ} (h : 0 < step) : chunks step ([] : List α) = [] := by
  simp [chunks, starts_zero h]

theorem chunks_cons {step : ℕ} (h : 0 < step) {xs : List α} (hne : xs ≠ []) :
    chunks step xs = xs.take step :: chunks step (xs.drop step) := by
  rw [chunks, starts_succ h (List.length_pos_of_ne_nil hne), List.map_cons, List.map_map, slice_zero,
    Nat.zero_add, chunks, List.length_drop]
  refine congrArg₂ List.cons rfl (List.map_congr_left fun i _ => ?_)
  simp only [Function.comp_apply, Nat.add_assoc]
  exact slice_add xs step i (i + step)

theorem getElem?_chunks (step : ℕ) (xs : List α) {i : ℕ} (h : i < (xs.length + step - 1) / step) :
    (chunks step xs)[i]? = some (slice xs (i * step) (i * step + step)) := by
  rw [chunks, starts, List.map_map, List.getElem?_map, List.getElem?_range h]
  rfl

theorem length_chunks (step : ℕ) (xs : List α) : (chunks step xs).length = (xs.length + step - 1) / step := by
  rw [chunks, starts, List.length_map, List.length_map, List.length_range]

/-- Induction along the pieces. -/
theorem drop_induction {step : ℕ} (h : 0 < step) {motive : List α → Prop} (nil : motive [])
    (cut : ∀ xs, xs ≠ [] → motive (xs.drop step) → motive xs) (xs : List α) : motive xs := by
  induction hn : xs.length using Nat.strong_induction_on generalizing xs with
  | _ n ih =>
    by_cases hne : xs = []
    · exact hne ▸ nil
    · have hpos := List.length_pos_of_ne_nil hne
      exact cut xs hne (ih _ (by rw [List.length_drop]; omega) (xs.drop step) rfl)

/-- Work that respects cuts after `step` elements may be done piece by piece, as long as
what it needs of its input (`P`) passes to both sides of a cut. -/
theorem flatMap_chunks {step : ℕ} (h : 0 < step) {P : List α → Prop} {f g : List α → List β}
    (hP : ∀ xs, P xs → P (xs.take step) ∧ P (xs.drop step)) (hg : ∀ xs, P xs → g xs = f xs)
    (hnil : f [] = []) (hadd : ∀ a b : List α, a.length = step → f (a ++ b) = f a ++ f b)
    (xs : List α) (hxs : P xs) : (chunks step xs).flatMap g = f xs := by
  induction xs using drop_induction h with
  | nil => simp [chunks_nil h, hnil]
  | cut xs hne ih =>
    rw [chunks_cons h hne, List.flatMap_cons, ih (hP xs hxs).2, hg _ (hP xs hxs).1]
    by_cases hle : step ≤ xs.length
    · rw [← hadd _ _ (by simp [hle]), List.take_append_drop]
    · rw [List.drop_eq_nil_of_le (by omega), List.take_of_length_le (by omega), hnil,
        List.append_nil]

/-- Joining pieces of one size and cutting again gives the pieces back. -/
theorem chunks_flatten {size : ℕ} (h : 0 < size) {pieces : List (List α)}
    (hp : ∀ p ∈ pieces, p.length = size) : chunks size pieces.flatten = pieces := by
  induction pieces with
  | nil => exact chunks_nil h
  | cons p ps ih =>
    have hlen : p.length = size := hp p (by simp)
    have hne : (p :: ps).flatten ≠ [] := by
      have hpos : 0 < p.length := by omega
      simp [List.ne_nil_of_length_pos hpos]
    rw [chunks_cons h hne, List.flatten_cons, List.take_left' hlen, List.drop_left' hlen,
      ih fun q hq => hp q (by simp [hq])]

/-- Fallible work done piece by piece fails and succeeds as it does on the whole list. -/
theorem mapM_chunks {α β ε : Type} {step : ℕ} (h : 0 < step) (g : α → Except ε β) (xs : List α) :
    ((chunks step xs).mapM fun ys : List α => ys.mapM g).map List.flatten = xs.mapM g := by
  induction xs using drop_induction h with
  | nil => rw [chunks_nil h]; rfl
  | cut xs hne ih =>
    rw [chunks_cons h hne, List.mapM_cons]
    conv_rhs => rw [← List.take_append_drop step xs, List.mapM_append, ← ih]
    cases (xs.take step).mapM g with
    | error e => rfl
    | ok ys => cases (chunks step (xs.drop step)).mapM fun ys : List α => ys.mapM g <;> rfl

abbrev Bytes := List UInt8

-- over the string, never over all bytes
instance (priority := 1100) decidableForallByte {p : UInt8 → Prop} [DecidablePred p] (b : Bytes) :
    Decidable (∀ x ∈ b, p x) :=
  List.decidableBAll p b

/-- The number a byte string spells, most significant byte first. -/
def beNat : Bytes → ℕ
  | [] => 0
  | b :: bs => b.toNat * 256 ^ bs.length + beNat bs

/-- `width` bytes of `v`, most significant byte first. -/
def toBytes : ℕ → ℕ → Bytes
  | 0, _ => []
  | n + 1, v => UInt8.ofNat (v / 256 ^ n) :: toBytes n (v % 256 ^ n)

theorem beNat_lt (bs : Bytes) : beNat bs < 256 ^ bs.length := by
  induction bs with
  | nil => simp [beNat]
  | cons b bs ih =>
    have hb : b.toNat < 256 := b.toNat_lt
    calc b.toNat * 256 ^ bs.length + beNat bs
        < b.toNat * 256 ^ bs.length + 256 ^ bs.length := by omega
      _ = (b.toNat + 1) * 256 ^ bs.length := by ring
      _ ≤ 256 * 256 ^ bs.length := Nat.mul_le_mul_right _ hb
      _ = 256 ^ (b :: bs).length := by rw [List.length_cons, pow_succ']

/-- Byte strings of one length compare as the numbers they spell. -/
theorem lt_iff_beNat_lt {a b : Bytes} (h : a.length = b.length) : a < b ↔ beNat a < beNat b := by
  induction a generalizing b with
  | nil => cases b with
    | nil => simp [beNat]
    | cons y ys => simp at h
  | cons x xs ih => cases b with
    | nil => simp at h
    | cons y ys =>
      have hl : xs.length = ys.length := by simpa using h
      have hx := beNat_lt xs
      have hy := beNat_lt ys
      rw [List.cons_lt_cons_iff, ih hl, UInt8.lt_iff_toNat_lt, beNat, beNat, hl]
      rw [hl] at hx
      rcases Nat.lt_trichotomy x.toNat y.toNat with hlt | heq | hgt
      · have hmul := Nat.mul_le_mul_right (256 ^ ys.length) (Nat.succ_le_of_lt hlt)
        rw [Nat.succ_mul] at hmul
        exact ⟨fun _ => by omega, fun _ => Or.inl hlt⟩
      · obtain rfl := UInt8.toNat_inj.mp heq
        simp
      · have hmul := Nat.mul_le_mul_right (256 ^ ys.length) (Nat.succ_le_of_lt hgt)
        rw [Nat.succ_mul] at hmul
        refine ⟨?_, fun _ => by omega⟩
        rintro (hlt | ⟨rfl, -⟩) <;> omega

/-- A number has one byte string of each length. -/
theorem beNat_inj {a b : Bytes} (h : a.length = b.length) (he : beNat a = beNat b) : a = b := by
  induction a generalizing b with
  | nil => exact (List.length_eq_zero_iff.mp h.symm).symm
  | cons x xs ih => cases b with
    | nil => simp at h
    | cons y ys =>
      have hl : xs.length = ys.length := by simpa using h
      have hx := beNat_lt xs
      have hy := beNat_lt ys
      rw [hl] at hx
      simp only [beNat, hl] at he
      have hpos : 0 < 256 ^ ys.length := by positivity
      have hhead := congrArg (· / 256 ^ ys.length) he
      simp only [Nat.mul_comm _ (256 ^ ys.length), Nat.mul_add_div hpos, Nat.div_eq_of_lt hx,
        Nat.div_eq_of_lt hy, Nat.add_zero] at hhead
      obtain rfl := UInt8.toNat_inj.mp hhead
      rw [ih hl (Nat.add_left_cancel he)]

@[simp] theorem length_toBytes (n v : ℕ) : (toBytes n v).length = n := by
  induction n generalizing v with
  | zero => rfl
  | succ n ih => simp [toBytes, ih]

theorem beNat_toBytes {n v : ℕ} (h : v < 256 ^ n) : beNat (toBytes n v) = v := by
  induction n generalizing v with
  | zero => simp at h; simp [toBytes, beNat, h]
  | succ n ih =>
    have hpos : 0 < 256 ^ n := by positivity
    have hdiv : v / 256 ^ n < 256 := Nat.div_lt_of_lt_mul (by rwa [pow_succ] at h)
    rw [toBytes, beNat, length_toBytes, ih (Nat.mod_lt _ hpos), UInt8.toNat_ofNat_of_lt' hdiv]
    exact Nat.div_add_mod' v (256 ^ n)

theorem toBytes_beNat (bs : Bytes) : toBytes bs.length (beNat bs) = bs := by
  apply beNat_inj (length_toBytes _ _)
  exact beNat_toBytes (beNat_lt bs)

/-- A small number is spelled behind zeros. -/
theorem toBytes_add {n v : ℕ} (k : ℕ) (h : v < 256 ^ n) : toBytes (k + n) v = List.replicate k 0 ++ toBytes n v := by
  have hzero : beNat (List.replicate k 0 ++ toBytes n v) = v := by
    induction k with
    | zero => exact beNat_toBytes h
    | succ k ih =>
      rw [List.replicate_succ, List.cons_append, beNat, ih, UInt8.toNat_zero, Nat.zero_mul, Nat.zero_add]
  have hlt : v < 256 ^ (k + n) := h.trans_le (Nat.pow_le_pow_right (by decide) (by omega))
  apply beNat_inj
  · simp
  · rw [beNat_toBytes hlt, hzero]

theorem beNat_append (a b : Bytes) : beNat (a ++ b) = beNat a * 256 ^ b.length + beNat b := by
  induction a with
  | nil => simp [beNat]
  | cons x a ih =>
    rw [List.cons_append, beNat, ih, beNat, List.length_append, pow_add]
    ring

theorem beNat_replicate_zero (n : ℕ) : beNat (List.replicate n 0) = 0 := by
  induction n with
  | zero => rfl
  | succ n ih => simp [List.replicate_succ, beNat, ih]

/-! ### Slices of joined lists -/

theorem length_slice (xs : List α) (a b : ℕ) : (slice xs a b).length = min b xs.length - a := by
  simp [slice]

theorem slice_append_left {a b : List α} {n : ℕ} (h : a.length = n) : slice (a ++ b) 0 n = a := by
  rw [slice_zero, List.take_left' h]

/-- Past the first part. -/
theorem slice_append_right {a b : List α} {n : ℕ} (h : a.length = n) (i j : ℕ) :
    slice (a ++ b) (n + i) (n + j) = slice b i j := by
  rw [slice_add, List.drop_left' h]

/-- The part between two others. -/
theorem slice_between (before mid after : List α) {xs : List α} {i j : ℕ} (h : xs = before ++ (mid ++ after))
    (hi : before.length = i) (hj : i + mid.length = j) : slice xs i j = mid := by
  have hright := slice_append_right hi (b := mid ++ after) 0 mid.length
  rw [Nat.add_zero, slice_append_left rfl] at hright
  rw [h, ← hj]
  exact hright

theorem slice_append_slice (xs : List α) {i j k : ℕ} (hij : i ≤ j) (hjk : j ≤ k) :
    slice xs i j ++ slice xs j k = slice xs i k := by
  have hleft : slice xs i j = (slice xs i k).take (j - i) := by
    rw [slice, slice, ← List.drop_take, List.take_take, min_eq_left hjk]
  have hright : slice xs j k = (slice xs i k).drop (j - i) := by
    rw [slice, slice, List.drop_drop, Nat.add_sub_cancel' hij]
  rw [hleft, hright, List.take_append_drop]

/-! ### Pieces of one size in a joined list -/

theorem slice_flatten {size : ℕ} {pieces : List (List α)} (hp : ∀ p ∈ pieces, p.length = size) {i : ℕ}
    (hi : i < pieces.length) : slice pieces.flatten (size * i) (size * i + size) = pieces[i] := by
  induction pieces generalizing i with
  | nil => simp at hi
  | cons p pieces ih =>
    have hlen := hp p (by simp)
    cases i with
    | zero =>
      rw [List.flatten_cons, Nat.mul_zero, Nat.zero_add]
      exact slice_append_left hlen
    | succ i =>
      rw [List.flatten_cons, show size * (i + 1) = size + size * i by ring, Nat.add_assoc,
        slice_append_right hlen]
      exact ih (fun q hq => hp q (by simp [hq])) (by simpa using hi)

theorem length_flatten {size : ℕ} {pieces : List (List α)} (hp : ∀ p ∈ pieces, p.length = size) :
    pieces.flatten.length = size * pieces.length := by
  induction pieces with
  | nil => simp
  | cons p pieces ih =>
    rw [List.flatten_cons, List.length_append, hp p (by simp), ih fun q hq => hp q (by simp [hq]), List.length_cons]
    ring

/-- A list whose length is a multiple of `size` is the joining of its pieces. -/
theorem exists_pieces {size n : ℕ} {xs : List α} (h : xs.length = size * n) :
    ∃ pieces : List (List α), pieces.flatten = xs ∧ pieces.length = n ∧ ∀ p ∈ pieces, p.length = size := by
  induction n generalizing xs with
  | zero =>
    obtain rfl : xs = [] := List.length_eq_zero_iff.mp (by simpa using h)
    exact ⟨[], rfl, rfl, by simp⟩
  | succ n ih =>
    have hle : size ≤ xs.length := by
      rw [h, Nat.mul_succ]
      omega
    obtain ⟨pieces, hflat, hlen, hp⟩ := ih (show (xs.drop size).length = size * n by rw [List.length_drop, h, Nat.mul_succ]; omega)
    refine ⟨xs.take size :: pieces, by rw [List.flatten_cons, hflat, List.take_append_drop], by simp [hlen], ?_⟩
    intro p hmem
    rcases List.mem_cons.mp hmem with rfl | hmem
    · rw [List.length_take, min_eq_left hle]
    · exact hp p hmem

/-- Neighbouring pieces, cut out one by one. -/
theorem slices_flatten {size : ℕ} {pieces : List (List α)} (hp : ∀ p ∈ pieces, p.length = size) {k n : ℕ}
    (h : k + n ≤ pieces.length) :
    ((List.range n).map fun i => slice pieces.flatten (size * (k + i)) (size * (k + i) + size)) =
      (pieces.drop k).take n := by
  apply List.ext_getElem
  · rw [List.length_map, List.length_range, List.length_take, List.length_drop]
    omega
  · intro i h1 h2
    rw [List.length_map, List.length_range] at h1
    rw [List.getElem_map, List.getElem_range, List.getElem_take, List.getElem_drop]
    exact slice_flatten hp (by omega)

end Slices
