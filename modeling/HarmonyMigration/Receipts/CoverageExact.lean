import HarmonyMigration.Receipts.HistoryGuard
import HarmonyMigration.Lib.ExceptRun
import HarmonyMigration.Lib.MaximalRuns

/-! The tracker's counts and ranges, after any groups it accepts. -/

namespace HarmonyMigration.Receipts

open Except MaximalRuns

/-- `Observe` of each group of a scan, as pairs of a destination and a number. -/
def CoverageTracker.observeAll (t : CoverageTracker) (groups : List (ℕ × ℕ)) : Except Error CoverageTracker :=
  groups.foldlM (fun t g => t.observe g.1 g.2) t

/-- The numbers in the range among the groups toward `d`, in the order they came. -/
def inRange (d start stop : ℕ) (groups : List (ℕ × ℕ)) : List ℕ :=
  (groups.filter fun g => g.1 = d ∧ start ≤ g.2 ∧ g.2 ≤ stop).map Prod.snd

section InRange
variable {d start stop : ℕ} {groups : List (ℕ × ℕ)} {g : ℕ × ℕ} {n : ℕ}

theorem mem_inRange : n ∈ inRange d start stop groups ↔ (d, n) ∈ groups ∧ start ≤ n ∧ n ≤ stop := by
  simp only [inRange, List.mem_map, List.mem_filter, decide_eq_true_eq]
  refine ⟨?_, fun ⟨hn, hle⟩ => ⟨(d, n), ⟨hn, rfl, hle⟩, rfl⟩⟩
  rintro ⟨⟨d', m⟩, ⟨hg, rfl, hle⟩, rfl⟩
  exact ⟨hg, hle⟩

theorem inRange_append_mem (hg : g.1 = d ∧ start ≤ g.2 ∧ g.2 ≤ stop) :
    inRange d start stop (groups ++ [g]) = inRange d start stop groups ++ [g.2] := by
  simp [inRange, List.filter_append, hg]

theorem inRange_append_other (hg : ¬(g.1 = d ∧ start ≤ g.2 ∧ g.2 ≤ stop)) :
    inRange d start stop (groups ++ [g]) = inRange d start stop groups := by
  simp [inRange, List.filter_append, hg]

end InRange

/-- The tracker after the numbers in its range: everything below `next` is counted, as present or in a gap. -/
structure Exact (d start stop : ℕ) (numbers : List ℕ) (t : CoverageTracker) : Prop where
  destination : t.destination = d
  start_eq : t.start = start
  stop_eq : t.stop = stop
  last_eq : numbers.getLast? = if t.seen then some t.last else none
  next_eq : t.next = if t.seen then t.last + 1 else start
  mem_lt : ∀ n ∈ numbers, (start ≤ n ∧ n ≤ stop) ∧ n < t.next
  present : t.present = numbers.toFinset.card
  total : start + t.present + t.missing = t.next
  ranges : ∃ rs, Lists (· ∉ numbers) start t.next rs ∧ t.ranges = rs.take maxListed

theorem exact_new (d start stop : ℕ) : Exact d start stop [] (newCoverageTracker d start stop) where
  destination := rfl
  start_eq := rfl
  stop_eq := rfl
  last_eq := rfl
  next_eq := rfl
  mem_lt _ hn := absurd hn List.not_mem_nil
  present := rfl
  total := rfl
  ranges := ⟨[], Lists.nil _ _, rfl⟩

/-- A list of which only the first are kept. -/
theorem take_append_one {α : Type*} (l : List α) (a : α) (k : ℕ) :
    (if (l.take k).length < k then l.take k ++ [a] else l.take k) = (l ++ [a]).take k := by
  rw [List.length_take]
  rcases Nat.lt_or_ge l.length k with hlt | hge
  · rw [if_pos (by omega), List.take_of_length_le hlt.le, List.take_of_length_le (by simp; omega)]
  · rw [if_neg (by omega), List.take_append_of_le_length hge]

section Exact
variable {d start stop : ℕ} {numbers : List ℕ} {t : CoverageTracker}

theorem Exact.extent (h : Exact d start stop numbers t) (n : ℕ) : Exact d start stop numbers (t.extent n) :=
  ⟨h.destination, h.start_eq, h.stop_eq, h.last_eq, h.next_eq, h.mem_lt, h.present, h.total, h.ranges⟩

theorem Exact.seen_cases (h : Exact d start stop numbers t) : (t.seen = false ∧ numbers = [] ∧ t.next = start) ∨
    (t.seen = true ∧ numbers.getLast? = some t.last ∧ t.last ∈ numbers ∧ t.next = t.last + 1) := by
  have hlast := h.last_eq
  have hnext := h.next_eq
  cases hseen : t.seen with
  | false =>
    rw [hseen] at hlast hnext
    exact Or.inl ⟨rfl, List.getLast?_eq_none_iff.mp hlast, hnext⟩
  | true =>
    rw [hseen] at hlast hnext
    exact Or.inr ⟨rfl, hlast, List.mem_of_getLast? hlast, hnext⟩

theorem Exact.next_le (h : Exact d start stop numbers t) (hrange : start ≤ stop) : t.next ≤ stop + 1 := by
  rcases h.seen_cases with ⟨-, -, hnext⟩ | ⟨-, -, hlast, hnext⟩
  · omega
  · have := (h.mem_lt _ hlast).1
    omega

/-- Between `start` and `next`, the last number is there. -/
theorem Exact.edge (h : Exact d start stop numbers t) (hlt : start < t.next) : t.next - 1 ∈ numbers := by
  rcases h.seen_cases with ⟨-, -, hnext⟩ | ⟨-, -, hlast, hnext⟩
  · omega
  · rw [hnext]
    exact hlast

/-- After a gap up to `upto`, everything below it is counted. -/
theorem Exact.fill (h : Exact d start stop numbers t) (hstop : stop < 2 ^ 64 - 1) {upto : ℕ} (hnext : t.next ≤ upto)
    (hupto : upto ≤ stop + 1) : start + (t.fill upto).present + (t.fill upto).missing = upto ∧
      ∃ rs, Lists (· ∉ numbers) start upto rs ∧ (t.fill upto).ranges = rs.take maxListed := by
  obtain ⟨rs, hrs, hranges⟩ := h.ranges
  have htotal := h.total
  have hmissing := CoverageTracker.fill_missing (t := t) hnext (by omega)
  rw [hmissing, t.fill_present]
  refine ⟨by omega, ?_⟩
  unfold CoverageTracker.fill
  by_cases hgap : t.next < upto
  · rw [if_pos hgap]
    have habsent : ∀ n, t.next ≤ n → n < upto → n ∉ numbers := fun n h1 _ hn => by
      have := (h.mem_lt n hn).2
      omega
    refine ⟨rs ++ [(t.next, upto - 1)], ?_, ?_⟩
    · exact hrs.stretch (by omega) hgap (fun hlt => not_not.mpr (h.edge hlt)) habsent
    · simp only [CoverageTracker.gap, hranges, take_append_one]
  · rw [if_neg hgap]
    obtain rfl : t.next = upto := by omega
    exact ⟨rs, hrs, hranges⟩

/-! ### One group -/

theorem Exact.observe_inRange (h : Exact d start stop numbers t) {n : ℕ} (hn : start ≤ n ∧ n ≤ stop) :
    t.observe d n = if t.seen ∧ n < t.last then .error .keyOrder
      else if t.seen ∧ n = t.last then .ok (t.extent n) else .ok (((t.extent n).fill n).record n) := by
  have hobserve := CoverageTracker.observe_inRange (t := t) (n := n) (by rw [h.start_eq, h.stop_eq]; exact hn)
  rw [h.destination] at hobserve
  exact hobserve

theorem Exact.observe_other (h : Exact d start stop numbers t) {d' n : ℕ} (hn : ¬(d' = d ∧ start ≤ n ∧ n ≤ stop)) :
    ∃ t', t.observe d' n = .ok t' ∧ Exact d start stop numbers t' := by
  rw [CoverageTracker.observe_other (by rw [h.destination, h.start_eq, h.stop_eq]; exact hn)]
  refine ⟨_, rfl, ?_⟩
  split_ifs
  · exact h.extent n
  · exact h

/-- The last number again: nothing changes. -/
theorem Exact.again (h : Exact d start stop numbers t) (hseen : t.seen = true) :
    Exact d start stop (numbers ++ [t.last]) t := by
  have hlast : t.last ∈ numbers := List.mem_of_getLast? (by rw [h.last_eq, if_pos hseen])
  have hmem := mem_append_of_mem hlast
  refine ⟨h.destination, h.start_eq, h.stop_eq, ?_, h.next_eq, fun n hn => h.mem_lt n ((hmem n).mp hn), ?_, h.total, ?_⟩
  · rw [List.getLast?_concat, if_pos hseen]
  · rw [h.present]
    congr 1
    ext n
    rw [List.mem_toFinset, List.mem_toFinset, hmem]
  · obtain ⟨rs, hrs, hranges⟩ := h.ranges
    exact ⟨rs, hrs.congr fun n _ _ => not_congr (hmem n).symm, hranges⟩

/-- A number from `next` on: a gap before it, where there is one, and the number. -/
theorem Exact.record (h : Exact d start stop numbers t) (hstop : stop < 2 ^ 64 - 1) {n : ℕ} (hn : start ≤ n ∧ n ≤ stop)
    (hnext : t.next ≤ n) : Exact d start stop (numbers ++ [n]) ((t.fill n).record n) := by
  obtain ⟨htotal, rs, hrs, hranges⟩ := h.fill hstop hnext (by omega)
  have hsucc : (n + 1) % 2 ^ 64 = n + 1 := Nat.mod_eq_of_lt (by omega)
  have hnew : n ∉ numbers := fun hmem => by
    have := (h.mem_lt n hmem).2
    omega
  refine ⟨by simp [CoverageTracker.record, h.destination], by simp [CoverageTracker.record, h.start_eq],
    by simp [CoverageTracker.record, h.stop_eq], ?_, ?_, ?_, ?_, ?_, ?_⟩
  · rw [List.getLast?_concat]
    rfl
  · exact hsucc
  · intro m hm
    simp only [CoverageTracker.record, hsucc]
    rcases List.mem_append.mp hm with hm | hm
    · have := h.mem_lt m hm
      exact ⟨this.1, by omega⟩
    · rw [List.mem_singleton.mp hm]
      exact ⟨hn, by omega⟩
  · have hset : (numbers ++ [n]).toFinset = insert n numbers.toFinset := by
      ext m
      simp
    rw [hset, Finset.card_insert_of_notMem (by rw [List.mem_toFinset]; exact hnew), ← h.present, ← t.fill_present n]
    rfl
  · simp only [CoverageTracker.record, hsucc]
    omega
  · refine ⟨rs, ?_, hranges⟩
    simp only [CoverageTracker.record, hsucc]
    refine Lists.skip (hrs.congr fun m _ hm => ?_) (by simp)
    rw [List.mem_append, List.mem_singleton, not_or]
    exact ⟨fun hmem => ⟨hmem, hm.ne⟩, And.left⟩

theorem Exact.observe_mem (h : Exact d start stop numbers t) (hstop : stop < 2 ^ 64 - 1) {n : ℕ}
    (hn : start ≤ n ∧ n ≤ stop) {t' : CoverageTracker} (hok : t.observe d n = .ok t') :
    Exact d start stop (numbers ++ [n]) t' := by
  rw [h.observe_inRange hn] at hok
  split_ifs at hok with horder hagain
  · obtain ⟨hseen, rfl⟩ := hagain
    obtain rfl := Except.ok.inj hok
    exact (h.extent _).again hseen
  · obtain rfl := Except.ok.inj hok
    refine (h.extent n).record hstop hn ?_
    have hsame : (t.extent n).next = t.next := rfl
    rw [hsame]
    rcases h.seen_cases with ⟨-, -, hnext⟩ | ⟨hseen, -, -, hnext⟩
    · exact hnext.le.trans hn.1
    · simp only [hseen, true_and, not_lt] at horder hagain
      omega

/-- `Observe` fails on a number in the range below the last one in it, and on nothing else. -/
theorem Exact.observe_error_iff (h : Exact d start stop numbers t) {d' n : ℕ} : (∃ e, t.observe d' n = .error e) ↔
    (d' = d ∧ start ≤ n ∧ n ≤ stop) ∧ ∃ m, numbers.getLast? = some m ∧ n < m := by
  by_cases hn : d' = d ∧ start ≤ n ∧ n ≤ stop
  · obtain ⟨rfl, hn⟩ := hn
    rw [h.observe_inRange hn, h.last_eq]
    cases hseen : t.seen with
    | false => simp
    | true =>
      rcases Nat.lt_or_ge n t.last with hlt | hge
      · simp [hlt, hn]
      · have hnot := Nat.not_lt.mpr hge
        by_cases heq : n = t.last <;> simp [heq, hnot]
  · obtain ⟨t', ht', -⟩ := h.observe_other hn
    rw [ht']
    refine ⟨fun ⟨e, he⟩ => ?_, fun ⟨hin, _⟩ => absurd hin hn⟩
    cases he

/-! ### The report -/

theorem Exact.finish_eq (h : Exact d start stop numbers t) (hrange : start ≤ stop) :
    t.finish.blocksMissing = (t.fill (stop + 1)).missing ∧ t.finish.missingRanges = (t.fill (stop + 1)).ranges ∧
      t.finish.blocksPresent = t.present := by
  have hfill : (if t.start ≤ t.stop ∧ t.next ≤ t.stop then t.gap t.next t.stop else t) = t.fill (stop + 1) := by
    unfold CoverageTracker.fill
    rw [h.start_eq, h.stop_eq, Nat.add_sub_cancel]
    exact if_congr ⟨fun hgap => Nat.lt_succ_of_le hgap.2, fun hgap => ⟨hrange, Nat.le_of_lt_succ hgap⟩⟩ rfl rfl
  rw [← hfill]
  exact ⟨rfl, rfl, rfl⟩

theorem Exact.finish_total (h : Exact d start stop numbers t) (hrange : start ≤ stop) (hstop : stop < 2 ^ 64 - 1) :
    t.finish.blocksPresent + t.finish.blocksMissing = stop - start + 1 := by
  obtain ⟨hmissing, -, hpresent⟩ := h.finish_eq hrange
  have htotal := (h.fill hstop (h.next_le hrange) le_rfl).1
  rw [t.fill_present] at htotal
  omega

/-- Nothing is missing exactly when there are as many different numbers as blocks. -/
theorem Exact.finish_complete_iff (h : Exact d start stop numbers t) (hrange : start ≤ stop) (hstop : stop < 2 ^ 64 - 1) :
    t.finish.complete = true ↔ ∀ n, start ≤ n → n ≤ stop → n ∈ numbers := by
  have hcomplete : t.finish.complete = true ↔ t.finish.blocksMissing = 0 := beq_iff_eq
  have hpresent : t.finish.blocksPresent = numbers.toFinset.card := h.present
  have htotal := h.finish_total hrange hstop
  have hsub : numbers.toFinset ⊆ Finset.Icc start stop := fun n hn =>
    Finset.mem_Icc.mpr (h.mem_lt n (List.mem_toFinset.mp hn)).1
  have hcard : (Finset.Icc start stop).card = stop + 1 - start := Nat.card_Icc start stop
  rw [hcomplete]
  refine ⟨fun hzero n h1 h2 => ?_, fun hall => ?_⟩
  · have hset := Finset.eq_of_subset_of_card_le hsub (by omega)
    exact List.mem_toFinset.mp (hset ▸ Finset.mem_Icc.mpr ⟨h1, h2⟩)
  · have hset : Finset.Icc start stop ⊆ numbers.toFinset := fun n hn =>
      List.mem_toFinset.mpr (hall n (Finset.mem_Icc.mp hn).1 (Finset.mem_Icc.mp hn).2)
    have hle := Finset.card_le_card hset
    omega

theorem Exact.finish_ranges (h : Exact d start stop numbers t) (hrange : start ≤ stop) (hstop : stop < 2 ^ 64 - 1) :
    ∃ rs, Lists (· ∉ numbers) start (stop + 1) rs ∧ t.finish.missingRanges = rs.take maxListed := by
  obtain ⟨-, hranges, -⟩ := h.finish_eq hrange
  rw [hranges]
  exact (h.fill hstop (h.next_le hrange) le_rfl).2

end Exact

/-! ### All groups -/

section Run
variable {d start stop : ℕ} {groups : List (ℕ × ℕ)} {t : CoverageTracker}

theorem Exact.observe_group {g : ℕ × ℕ} {t' : CoverageTracker} (h : Exact d start stop (inRange d start stop groups) t)
    (hstop : stop < 2 ^ 64 - 1) (hok : t.observe g.1 g.2 = .ok t') :
    Exact d start stop (inRange d start stop (groups ++ [g])) t' := by
  by_cases hg : g.1 = d ∧ start ≤ g.2 ∧ g.2 ≤ stop
  · rw [inRange_append_mem hg]
    rw [hg.1] at hok
    exact h.observe_mem hstop hg.2 hok
  · rw [inRange_append_other hg]
    obtain ⟨u, hu, hexact⟩ := h.observe_other hg
    obtain rfl : u = t' := Except.ok.inj (hu.symm.trans hok)
    exact hexact

theorem exact_of_observeAll (hstop : stop < 2 ^ 64 - 1)
    (hok : (newCoverageTracker d start stop).observeAll groups = .ok t) :
    Exact d start stop (inRange d start stop groups) t := by
  have hinvariant := foldlM_invariant (f := fun (t : CoverageTracker) (g : ℕ × ℕ) => t.observe g.1 g.2)
    (I := fun groups t => Exact d start stop (inRange d start stop groups) t)
    (fun _ _ _ _ h hstep => h.observe_group hstop hstep) (exact_new d start stop) hok
  exact hinvariant

/-- A number in the range is accepted exactly when none of those before it is larger. -/
theorem Exact.accepts_iff (h : Exact d start stop numbers t) {d' n : ℕ} (hn : d' = d ∧ start ≤ n ∧ n ≤ stop) :
    (∃ t', t.observe d' n = .ok t') ↔ ∀ m ∈ numbers, m ≤ n := by
  have herror : (∃ e, t.observe d' n = .error e) ↔ _ := h.observe_error_iff
  have hok : (∃ t', t.observe d' n = .ok t') ↔ ¬∃ e, t.observe d' n = .error e := by
    cases t.observe d' n <;> simp
  rw [hok, herror]
  rcases h.seen_cases with ⟨-, hnil, -⟩ | ⟨-, heq, hlast, hnext⟩
  · simp [hnil]
  · rw [heq]
    refine ⟨fun hnot m hm => ?_, fun hall hbad => ?_⟩
    · by_contra hlt
      have := (h.mem_lt m hm).2
      exact hnot ⟨hn, t.last, rfl, by omega⟩
    · obtain ⟨-, m, hm, hlt⟩ := hbad
      obtain rfl : t.last = m := Option.some.inj hm
      exact absurd (hall t.last hlast) (by omega)

/-- The groups are accepted exactly when their numbers in the range never go down. -/
theorem exists_observeAll_iff (hstop : stop < 2 ^ 64 - 1) :
    (∃ t, (newCoverageTracker d start stop).observeAll groups = .ok t) ↔
      (inRange d start stop groups).Pairwise (· ≤ ·) := by
  induction groups using List.reverseRecOn with
  | nil => exact ⟨fun _ => List.Pairwise.nil, fun _ => ⟨_, rfl⟩⟩
  | append_singleton groups g ih =>
    have hsplit : ∀ t : CoverageTracker, t.observeAll (groups ++ [g]) =
        (t.observeAll groups).bind fun u => u.observe g.1 g.2 := fun t => by
      unfold CoverageTracker.observeAll
      rw [List.foldlM_append]
      simp only [List.foldlM_cons, List.foldlM_nil, bind_pure]
      rfl
    rw [hsplit, exists_bind_ok_iff]
    by_cases hg : g.1 = d ∧ start ≤ g.2 ∧ g.2 ≤ stop
    · rw [inRange_append_mem hg, List.pairwise_append, ← ih]
      simp only [List.pairwise_singleton, List.mem_singleton, forall_eq, true_and]
      refine ⟨fun ⟨u, hu, hnext⟩ => ⟨⟨u, hu⟩, ?_⟩, fun ⟨⟨u, hu⟩, hle⟩ => ⟨u, hu, ?_⟩⟩
      · exact ((exact_of_observeAll hstop hu).accepts_iff hg).mp hnext
      · exact ((exact_of_observeAll hstop hu).accepts_iff hg).mpr hle
    · rw [inRange_append_other hg, ← ih]
      refine ⟨fun ⟨u, hu, _⟩ => ⟨u, hu⟩, fun ⟨u, hu⟩ => ⟨u, hu, ?_⟩⟩
      obtain ⟨t', ht', -⟩ := (exact_of_observeAll hstop hu).observe_other hg
      exact ⟨t', ht'⟩

end Run

/-- Groups are accepted exactly when those in the range come in order; what is then reported is exact, and
the next group is refused exactly when it is below the last one in the range. -/
theorem coverage_exact (d start stop : ℕ) (hrange : start ≤ stop) (hstop : stop < 2 ^ 64 - 1) (groups : List (ℕ × ℕ)) :
    ((∃ t, (newCoverageTracker d start stop).observeAll groups = .ok t) ↔
      (inRange d start stop groups).Pairwise (· ≤ ·)) ∧
    ∀ t, (newCoverageTracker d start stop).observeAll groups = .ok t →
      (t.finish.blocksPresent = (inRange d start stop groups).toFinset.card ∧
        t.finish.blocksPresent + t.finish.blocksMissing = stop - start + 1 ∧
        (t.finish.complete = true ↔ ∀ n, start ≤ n → n ≤ stop → (d, n) ∈ groups) ∧
        ∃ rs, Lists (fun n => (d, n) ∉ groups) start (stop + 1) rs ∧ t.finish.missingRanges = rs.take maxListed) ∧
      ∀ d' n, (∃ e, t.observe d' n = .error e) ↔
        (d' = d ∧ start ≤ n ∧ n ≤ stop) ∧ ∃ m, (inRange d start stop groups).getLast? = some m ∧ n < m := by
  refine ⟨exists_observeAll_iff hstop, fun t hok => ?_⟩
  have h := exact_of_observeAll hstop hok
  have hmem : ∀ n, start ≤ n → n ≤ stop → (n ∈ inRange d start stop groups ↔ (d, n) ∈ groups) := fun n h1 h2 =>
    mem_inRange.trans ⟨And.left, fun hn => ⟨hn, h1, h2⟩⟩
  refine ⟨⟨h.present, h.finish_total hrange hstop, ?_, ?_⟩, fun d' n => h.observe_error_iff⟩
  · rw [h.finish_complete_iff hrange hstop]
    exact forall₃_congr hmem
  · obtain ⟨rs, hrs, hranges⟩ := h.finish_ranges hrange hstop
    exact ⟨rs, hrs.congr fun n h1 h2 => not_congr (hmem n h1 (Nat.le_of_lt_succ h2)), hranges⟩

/-- A gap before, between and after: the groups at 30 to 32, 50 and 51 in 1 to 100. -/
theorem coverage_exact_gaps : ∃ t, (newCoverageTracker 1 1 100).observeAll
      [(1, 30), (1, 31), (0, 7), (1, 32), (1, 32), (1, 50), (1, 51), (1, 120)] = .ok t ∧
    t.finish.blocksPresent = 5 ∧ t.finish.blocksMissing = 95 ∧ t.finish.complete = false ∧
    ∃ e, t.observe 1 50 = .error e := by
  have hexact := coverage_exact 1 1 100 (by decide) (by decide)
    [(1, 30), (1, 31), (0, 7), (1, 32), (1, 32), (1, 50), (1, 51), (1, 120)]
  obtain ⟨t, ht⟩ := hexact.1.mpr (by decide)
  obtain ⟨⟨hpresent, htotal, hcomplete, -⟩, herror⟩ := hexact.2 t ht
  have hfive : t.finish.blocksPresent = 5 := hpresent.trans (by decide)
  refine ⟨t, ht, hfive, by omega, ?_, (herror 1 50).mpr ⟨by decide, 51, by decide, by decide⟩⟩
  rw [← Bool.not_eq_true, hcomplete]
  exact fun hall => absurd (hall 1 le_rfl (by decide)) (by decide)

end HarmonyMigration.Receipts
