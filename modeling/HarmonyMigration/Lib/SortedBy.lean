import Mathlib.Tactic

/-! Lists in the order of a key: counting gives positions, and a group is a stretch. -/

namespace SortedBy

variable {α : Type*} {f : α → ℕ} {l : List α}

/-- The `i`-th element has its key at or below `b` exactly when more than `i` have. -/
theorem le_iff_lt_countP (hs : l.Pairwise fun x y => f x ≤ f y) {i b : ℕ} {x : α} (hx : l[i]? = some x) :
    f x ≤ b ↔ i < l.countP fun y => f y ≤ b := by
  induction l generalizing i with
  | nil => simp at hx
  | cons y l ih =>
    obtain ⟨hy, hs⟩ := List.pairwise_cons.mp hs
    rw [List.countP_cons]
    cases i with
    | zero =>
      obtain rfl : y = x := by simpa using hx
      by_cases hb : f y ≤ b
      · simp [hb]
      · have hzero : l.countP (fun z => f z ≤ b) = 0 :=
          List.countP_eq_zero.mpr fun z hz => by simpa using (not_le.mp hb).trans_le (hy z hz)
        simp [hb, hzero]
    | succ i =>
      have hxl : l[i]? = some x := by simpa using hx
      have hyx := hy x (List.mem_of_getElem? hxl)
      have hi := ih hs hxl
      by_cases hb : f y ≤ b
      · simp [hb, hi]
      · have hxb : ¬f x ≤ b := fun h => hb (hyx.trans h)
        simp only [hxb, false_iff, not_lt] at hi ⊢
        simp only [hb, decide_false, Bool.false_eq_true, if_false]
        omega

/-- Within a stretch, the elements with key at or below `b` are the first ones. -/
theorem filter_le_drop_take (hs : l.Pairwise fun x y => f x ≤ f y) (b low high : ℕ) :
    (((l.take high).drop low).filter fun y => f y ≤ b) =
      (l.take (min high (l.countP fun y => f y ≤ b))).drop low := by
  induction l generalizing low high with
  | nil => simp
  | cons y l ih =>
    obtain ⟨hy, hs⟩ := List.pairwise_cons.mp hs
    cases high with
    | zero => simp
    | succ high =>
      by_cases hb : f y ≤ b
      · rw [List.countP_cons_of_pos (by simpa using hb), Nat.add_min_add_right, List.take_succ_cons,
          List.take_succ_cons]
        cases low with
        | zero =>
          have h0 := ih hs 0 high
          rw [List.drop_zero, List.drop_zero] at h0
          rw [List.drop_zero, List.drop_zero, List.filter_cons_of_pos (by simpa using hb), h0]
        | succ low => exact ih hs low high
      · have hnone : ∀ z ∈ y :: l, ¬f z ≤ b := by
          rintro z (_ | ⟨_, hz⟩) hz'
          · exact hb hz'
          · exact hb ((hy z hz).trans hz')
        have hzero : ((y :: l).countP fun z => f z ≤ b) = 0 :=
          List.countP_eq_zero.mpr fun z hz => by simpa using hnone z hz
        rw [hzero, Nat.min_zero, List.take_zero, List.drop_nil]
        refine List.filter_eq_nil_iff.mpr fun z hz => ?_
        simpa using hnone z (List.mem_of_mem_take (List.mem_of_mem_drop hz))

theorem filter_le_eq_take (hs : l.Pairwise fun x y => f x ≤ f y) (b : ℕ) :
    (l.filter fun y => f y ≤ b) = l.take (l.countP fun y => f y ≤ b) := by
  have h := filter_le_drop_take hs b 0 l.length
  rwa [List.drop_zero, List.drop_zero, List.take_length, min_eq_right List.countP_le_length] at h

theorem countP_le_eq (l : List α) (b : ℕ) :
    (l.countP fun y => f y ≤ b) = (l.countP fun y => f y < b) + l.countP fun y => f y = b := by
  induction l with
  | nil => rfl
  | cons y l ih =>
    simp only [List.countP_cons, ih, decide_eq_true_eq]
    split_ifs <;> omega

/-- Numbering a group from where it starts is what the whole numbering gives it. -/
theorem zipIdx_filter_eq (hs : l.Pairwise fun x y => f x ≤ f y) (b k : ℕ) :
    (l.filter fun y => f y = b).zipIdx (k + l.countP fun y => f y < b) =
      (l.zipIdx k).filter fun p => f p.1 = b := by
  induction l generalizing k with
  | nil => rfl
  | cons y l ih =>
    obtain ⟨hy, hs⟩ := List.pairwise_cons.mp hs
    rw [List.zipIdx_cons]
    rcases lt_trichotomy (f y) b with hb | hb | hb
    · rw [List.filter_cons_of_neg (by simpa using hb.ne), List.countP_cons_of_pos (by simpa using hb),
        List.filter_cons_of_neg (by simpa using hb.ne), ← ih hs, Nat.add_right_comm, Nat.add_assoc]
    · have hzero : (l.countP fun z => f z < b) = 0 :=
        List.countP_eq_zero.mpr fun z hz => by simpa [hb] using hy z hz
      have hih := ih hs (k + 1)
      rw [hzero, Nat.add_zero] at hih
      rw [List.filter_cons_of_pos (by simpa using hb), List.countP_cons_of_neg (by simp [hb]), hzero,
        List.filter_cons_of_pos (by simpa using hb), Nat.add_zero, List.zipIdx_cons, hih]
    · have hnil : (l.filter fun z => f z = b) = [] :=
        List.filter_eq_nil_iff.mpr fun z hz => by simpa using (hb.trans_le (hy z hz)).ne'
      rw [List.filter_cons_of_neg (by simpa using hb.ne'), List.filter_cons_of_neg (by simpa using hb.ne'),
        ← ih hs, hnil, List.zipIdx_nil, List.zipIdx_nil]

/-- Two selections, the first of them of smaller keys throughout. -/
theorem filter_or_eq_append (hs : l.Pairwise fun x y => f x ≤ f y) {p q : ℕ → Bool}
    (hpq : ∀ a b, p a → q b → a < b) :
    (l.filter fun x => p (f x) || q (f x)) = (l.filter fun x => p (f x)) ++ l.filter fun x => q (f x) := by
  induction l with
  | nil => rfl
  | cons y l ih =>
    obtain ⟨hy, hs⟩ := List.pairwise_cons.mp hs
    by_cases hp : p (f y) = true
    · have hq : q (f y) = false := by
        by_contra hq
        exact (hpq _ _ hp (by simpa using hq)).false
      rw [List.filter_cons_of_pos (by simp [hp]), List.filter_cons_of_pos (by simpa using hp),
        List.filter_cons_of_neg (by simp [hq]), ih hs, List.cons_append]
    · by_cases hq : q (f y) = true
      · have hnil : (l.filter fun x => p (f x)) = [] :=
          List.filter_eq_nil_iff.mpr fun z hz hp => ((hpq _ _ hp hq).trans_le (hy z hz)).false
        rw [List.filter_cons_of_pos (by simp [hq]), List.filter_cons_of_neg (by simpa using hp),
          List.filter_cons_of_pos (by simpa using hq), ih hs, hnil, List.nil_append, List.nil_append]
      · rw [List.filter_cons_of_neg (by simp [hp, hq]), List.filter_cons_of_neg (by simpa using hp),
          List.filter_cons_of_neg (by simpa using hq), ih hs]

/-- The groups of increasing keys, one after another. -/
theorem flatMap_filter_eq (hs : l.Pairwise fun x y => f x ≤ f y) {ks : List ℕ}
    (hks : ks.Pairwise (· < ·)) :
    (ks.flatMap fun k => l.filter fun x => f x = k) = l.filter fun x => f x ∈ ks := by
  induction ks with
  | nil => simp
  | cons k ks ih =>
    obtain ⟨hk, hks⟩ := List.pairwise_cons.mp hks
    have hsplit := filter_or_eq_append (p := fun a => a = k) (q := fun a => a ∈ ks) hs (by
      intro a b ha hb
      obtain rfl : a = k := by simpa using ha
      exact hk b (by simpa using hb))
    rw [List.flatMap_cons, ih hks, ← hsplit]
    refine List.filter_congr fun x _ => ?_
    rw [Bool.eq_iff_iff]
    simp

/-- A stretch of a numbered list. -/
theorem zipIdx_filter_range (l : List α) (k low high : ℕ) :
    ((l.zipIdx k).filter fun p => low + k ≤ p.2 ∧ p.2 < high + k) =
      ((l.take high).drop low).zipIdx (k + low) := by
  induction l generalizing k low high with
  | nil => simp
  | cons y l ih =>
    have htail : ∀ p ∈ l.zipIdx (k + 1), k + 1 ≤ p.2 := fun p hp => List.le_snd_of_mem_zipIdx hp
    rw [List.zipIdx_cons]
    cases high with
    | zero =>
      rw [List.take_zero, List.drop_nil, List.zipIdx_nil]
      refine List.filter_eq_nil_iff.mpr fun p hp => ?_
      have hk : k ≤ p.2 := by
        rcases List.mem_cons.mp hp with rfl | hp
        · exact le_rfl
        · exact (Nat.le_succ k).trans (htail p hp)
      simp only [decide_eq_true_eq]
      omega
    | succ high =>
      cases low with
      | zero =>
        have hih := ih (k + 1) 0 high
        rw [List.drop_zero] at hih ⊢
        rw [List.filter_cons_of_pos (by simp), List.take_succ_cons, List.zipIdx_cons, ← hih]
        refine congrArg _ (List.filter_congr fun p hp => ?_)
        have := htail p hp
        simp only [decide_eq_decide]
        omega
      | succ low =>
        have hk : k + (low + 1) = k + 1 + low := by omega
        rw [List.filter_cons_of_neg (by simp only [decide_eq_true_eq]; omega), List.take_succ_cons,
          List.drop_succ_cons, hk, ← ih]
        refine List.filter_congr fun p _ => ?_
        simp only [decide_eq_decide]
        omega

/-- What is left after the keys below `b`, if `b` itself is not next. -/
theorem lt_of_mem_dropWhile (hs : l.Pairwise fun x y => f x < f y) {b : ℕ}
    (hhead : (l.dropWhile fun x => f x < b).head?.map f ≠ some b) :
    ∀ x ∈ l.dropWhile fun x => f x < b, b < f x := by
  cases hd : l.dropWhile fun x => f x < b with
  | nil => simp
  | cons y t =>
    rw [hd] at hhead
    have hsub : (y :: t).Sublist l := hd ▸ List.dropWhile_sublist _
    have hy : ¬f y < b := by
      have := List.head?_dropWhile_not (fun x => decide (f x < b)) l
      rw [hd] at this
      simpa using this
    have hlt : b < f y := lt_of_le_of_ne (not_lt.mp hy) fun h => hhead (by simp [h])
    obtain ⟨hyt, -⟩ := List.pairwise_cons.mp (hs.sublist hsub)
    rintro x (_ | ⟨_, hx⟩)
    · exact hlt
    · exact hlt.trans (hyt x hx)

/-- Two keys that both increase along a list order its members alike. -/
theorem lt_of_lt {g : α → ℕ} (hf : l.Pairwise fun x y => f x < f y) (hg : l.Pairwise fun x y => g x < g y) {x y : α}
    (hx : x ∈ l) (hy : y ∈ l) (h : f x < f y) : g x < g y := by
  have hbefore : l.Pairwise fun x y => f x < f y → g x < g y := by
    refine hg.imp ?_
    intro a b hlt _
    exact hlt
  have hafter : l.Pairwise (flip fun x y => f x < f y → g x < g y) := by
    refine hf.imp ?_
    intro a b hlt hgt
    exact absurd hlt (not_lt.mpr hgt.le)
  exact hbefore.forall_of_forall_of_flip (fun x _ hlt => absurd hlt (lt_irrefl _)) hafter hx hy h

/-- No choice of so many elements weighs less than the first ones. -/
theorem sum_take_le (hs : l.Pairwise fun x y => f x ≤ f y) {t : List α} (ht : t.Subperm l) :
    ((l.take t.length).map f).sum ≤ (t.map f).sum := by
  obtain ⟨t', hperm, hsub⟩ := ht
  rw [← hperm.length_eq, ← (hperm.map f).sum_eq]
  clear hperm
  induction l generalizing t' with
  | nil => simp
  | cons x l ih =>
    obtain ⟨hx, hs⟩ := List.pairwise_cons.mp hs
    cases t' with
    | nil => simp
    | cons y t' =>
      have hxy : f x ≤ f y := by
        rcases List.mem_cons.mp (hsub.subset (List.mem_cons_self)) with rfl | hy
        · exact le_rfl
        · exact hx y hy
      have hrest := ih hs t' hsub.tail
      simp only [List.length_cons, List.take_succ_cons, List.map_cons, List.sum_cons]
      omega

section Keys
variable {κ : Type*} [LinearOrder κ] {g : α → κ} {l l' : List α}

/-- Sorting distinct keys. -/
theorem insertionSort_lt (hnd : (l.map g).Nodup) :
    (l.insertionSort fun a b => g a ≤ g b).Pairwise fun x y => g x < g y := by
  have : Std.Total fun a b => g a ≤ g b := ⟨fun a b => le_total (g a) (g b)⟩
  have : IsTrans α fun a b => g a ≤ g b := ⟨fun _ _ _ => le_trans⟩
  have hle := List.pairwise_insertionSort (fun a b => g a ≤ g b) l
  have hne : (l.insertionSort fun a b => g a ≤ g b).Pairwise fun x y => g x ≠ g y :=
    List.pairwise_map.mp (((List.perm_insertionSort _ l).map g).nodup_iff.mpr hnd)
  exact (hle.and hne).imp fun h => lt_of_le_of_ne h.1 h.2

theorem pairwise_insertionSort (g : α → κ) (l : List α) :
    (l.insertionSort fun a b => g a ≤ g b).Pairwise fun a b => g a ≤ g b := by
  have : Std.Total fun a b => g a ≤ g b := ⟨fun a b => le_total (g a) (g b)⟩
  have : IsTrans α fun a b => g a ≤ g b := ⟨fun _ _ _ => le_trans⟩
  exact List.pairwise_insertionSort _ l

/-- The order of the input is forgotten where the key tells the elements apart. -/
theorem insertionSort_eq_of_perm (h : l.Perm l') (hg : ∀ a ∈ l, ∀ b ∈ l, g a = g b → a = b) :
    l.insertionSort (fun a b => g a ≤ g b) = l'.insertionSort fun a b => g a ≤ g b := by
  have hl := List.perm_insertionSort (fun a b => g a ≤ g b) l
  have hl' := List.perm_insertionSort (fun a b => g a ≤ g b) l'
  refine List.Perm.eq_of_pairwise (fun a b ha hb hab hba => ?_) (pairwise_insertionSort g l)
    (pairwise_insertionSort g l') (hl.trans (h.trans hl'.symm))
  exact hg a (hl.mem_iff.mp ha) b (h.mem_iff.mpr (hl'.mem_iff.mp hb)) (le_antisymm hab hba)

theorem orderedInsert_append {a : α} {low high : List α} (h : ∀ b ∈ low, g b < g a) :
    (low ++ high).orderedInsert (fun a b => g a ≤ g b) a = low ++ high.orderedInsert (fun a b => g a ≤ g b) a := by
  induction low with
  | nil => rfl
  | cons b low ih =>
    have hb : ¬g a ≤ g b := not_le.mpr (h b (by simp))
    rw [List.cons_append, List.orderedInsert_cons, if_neg hb, ih fun c hc => h c (by simp [hc]), List.cons_append]

/-- What lies below comes first. -/
theorem insertionSort_append {high low : List α} (h : ∀ a ∈ high, ∀ b ∈ low, g b < g a) :
    (high ++ low).insertionSort (fun a b => g a ≤ g b) =
      low.insertionSort (fun a b => g a ≤ g b) ++ high.insertionSort fun a b => g a ≤ g b := by
  induction high with
  | nil => simp
  | cons a high ih =>
    rw [List.cons_append, List.insertionSort_cons, ih fun c hc => h c (by simp [hc]), List.insertionSort_cons]
    exact orderedInsert_append fun b hb => h a (by simp) b ((List.mem_insertionSort _).mp hb)

end Keys

end SortedBy
