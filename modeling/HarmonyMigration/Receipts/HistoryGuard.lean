import HarmonyMigration.Receipts.Database

/-! `historyguard.go`: the probe of a database's history, and which blocks have a receipt group. -/

namespace HarmonyMigration.Receipts

open Except

/-- `MainnetCrossTxFirstBlock`. -/
def mainnetCrossTxFirstBlock : ℕ := 786432

def maxListed : ℕ := 20

/-! ### The probe -/

def blockPresent (db : Database) (number : ℕ) : Bool :=
  match db.canonicalHashes number with
  | none => false
  | some hash => db.hasHeader number hash && db.hasBody number hash

def probeBlocks (start stop : ℕ) (probes : ℤ) : List ℕ :=
  if stop < start then []
  else
    let probes := (max probes 2).toNat
    let span := stop - start
    let probes := if span < probes then span + 1 else probes
    if probes = 1 then [start]
    else (List.range probes).map fun i => (start + span * i % 2 ^ 64 / (probes - 1)) % 2 ^ 64

def probe (db : Database) (start stop : ℕ) (probes : ℤ) : Report :=
  let blocks := probeBlocks start stop probes
  let missing := blocks.filter fun n => !blockPresent db n
  { snapDbMarker := db.snapDbMarker
    start
    stop
    probes := blocks.length
    missingProbes := missing.length
    missingBlocks := missing.take maxListed
    complete := !db.snapDbMarker && missing.length == 0 }

theorem probe_complete_iff {db : Database} {start stop : ℕ} {probes : ℤ} :
    (probe db start stop probes).complete = true ↔
      db.snapDbMarker = false ∧ ∀ n ∈ probeBlocks start stop probes, blockPresent db n = true := by
  simp only [probe, Bool.and_eq_true, Bool.not_eq_true', beq_iff_eq, List.length_eq_zero_iff, List.filter_eq_nil_iff]
  simp

/-! ### The tracker -/

structure Coverage where
  destination : ℕ
  start : ℕ
  stop : ℕ
  firstBlock : ℕ
  lastBlock : ℕ
  blocksExpected : ℕ
  blocksPresent : ℕ
  blocksMissing : ℕ
  missingRanges : List (ℕ × ℕ)
  complete : Bool
  deriving DecidableEq

structure CoverageTracker where
  destination : ℕ
  start : ℕ
  stop : ℕ
  next : ℕ
  last : ℕ
  seen : Bool
  present : ℕ
  missing : ℕ
  first : ℕ
  lastAny : ℕ
  ranges : List (ℕ × ℕ)
  deriving DecidableEq

def newCoverageTracker (destination start stop : ℕ) : CoverageTracker :=
  ⟨destination, start, stop, start, 0, false, 0, 0, 0, 0, []⟩

def CoverageTracker.gap (t : CoverageTracker) (start stop : ℕ) : CoverageTracker :=
  { t with
    missing := (t.missing + (stop - start + 1)) % 2 ^ 64
    ranges := if t.ranges.length < maxListed then t.ranges ++ [(start, stop)] else t.ranges }

/-- What `Observe` records of every group toward its shard. -/
def CoverageTracker.extent (t : CoverageTracker) (number : ℕ) : CoverageTracker :=
  { t with
    first := if t.first = 0 ∨ number < t.first then number else t.first
    lastAny := max t.lastAny number }

def CoverageTracker.observe (t : CoverageTracker) (destination number : ℕ) : Except Error CoverageTracker :=
  if destination ≠ t.destination then .ok t
  else
    let t := t.extent number
    if number < t.start ∨ t.stop < number then .ok t
    else if t.seen ∧ number < t.last then .error .keyOrder
    else if t.seen ∧ number = t.last then .ok t
    else
      let t := if t.next < number then t.gap t.next (number - 1) else t
      .ok { t with present := t.present + 1, next := (number + 1) % 2 ^ 64, last := number, seen := true }

def CoverageTracker.finish (t : CoverageTracker) : Coverage :=
  let t' := if t.start ≤ t.stop ∧ t.next ≤ t.stop then t.gap t.next t.stop else t
  { destination := t.destination
    start := t.start
    stop := t.stop
    firstBlock := t.first
    lastBlock := t.lastAny
    blocksExpected := if t.start ≤ t.stop then (t.stop - t.start + 1) % 2 ^ 64 else 0
    blocksPresent := t.present
    blocksMissing := t'.missing
    missingRanges := t'.ranges
    complete := t'.missing == 0 }

/-! ### One group -/

/-- The gap from `next` up to a number, where there is one. -/
def CoverageTracker.fill (t : CoverageTracker) (upto : ℕ) : CoverageTracker :=
  if t.next < upto then t.gap t.next (upto - 1) else t

/-- A number that was not there yet is present. -/
def CoverageTracker.record (t : CoverageTracker) (number : ℕ) : CoverageTracker :=
  { t with present := t.present + 1, next := (number + 1) % 2 ^ 64, last := number, seen := true }

namespace CoverageTracker
variable (t : CoverageTracker) (upto : ℕ)

theorem fill_fields : (t.fill upto).destination = t.destination ∧ (t.fill upto).start = t.start ∧
    (t.fill upto).stop = t.stop ∧ (t.fill upto).present = t.present := by
  unfold fill
  split_ifs <;> exact ⟨rfl, rfl, rfl, rfl⟩

@[simp] theorem fill_destination : (t.fill upto).destination = t.destination := (t.fill_fields upto).1

@[simp] theorem fill_start : (t.fill upto).start = t.start := (t.fill_fields upto).2.1

@[simp] theorem fill_stop : (t.fill upto).stop = t.stop := (t.fill_fields upto).2.2.1

@[simp] theorem fill_present : (t.fill upto).present = t.present := (t.fill_fields upto).2.2.2

variable {t upto}

theorem fill_missing (hnext : t.next ≤ upto) (hlt : t.missing + (upto - t.next) < 2 ^ 64) :
    (t.fill upto).missing = t.missing + (upto - t.next) := by
  unfold fill
  split_ifs with hgap
  · simp only [gap]
    rw [Nat.mod_eq_of_lt] <;> omega
  · omega

/-- What `Observe` does with a number in the range. -/
theorem observe_inRange {n : ℕ} (hn : t.start ≤ n ∧ n ≤ t.stop) :
    t.observe t.destination n = if t.seen ∧ n < t.last then .error .keyOrder
      else if t.seen ∧ n = t.last then .ok (t.extent n) else .ok (((t.extent n).fill n).record n) := by
  unfold observe
  rw [if_neg (not_not.mpr rfl)]
  dsimp only
  rw [if_neg (by simp only [extent]; omega)]
  rfl

/-- What it does with a group toward another shard, or out of the range. -/
theorem observe_other {d n : ℕ} (hn : ¬(d = t.destination ∧ t.start ≤ n ∧ n ≤ t.stop)) :
    t.observe d n = .ok (if d = t.destination then t.extent n else t) := by
  unfold observe
  by_cases hd : d = t.destination
  · rw [if_neg (not_not.mpr hd), if_pos hd]
    dsimp only
    rw [if_pos (by simp only [extent]; omega)]
  · rw [if_pos hd, if_neg hd]

end CoverageTracker

/-! ### What the tracker knows -/

/-- The tracker after the groups at `numbers`, all of them in its range. -/
structure Tracked (d start stop : ℕ) (numbers : List ℕ) (t : CoverageTracker) : Prop where
  destination : t.destination = d
  start_eq : t.start = start
  stop_eq : t.stop = stop
  unseen : t.seen = false → numbers = [] ∧ t.next = start ∧ t.missing = 0
  last_mem : t.seen = true → t.last ∈ numbers ∧ t.last ≤ stop ∧ ∀ n ∈ numbers, start ≤ n ∧ n ≤ t.last
  next_eq : t.seen = true → t.next = (t.last + 1) % 2 ^ 64
  missing_le : t.seen = true → t.missing ≤ t.last - start
  missing_iff : t.seen = true → (t.missing = 0 ↔ ∀ n, start ≤ n → n ≤ t.last → n ∈ numbers)

theorem tracked_new (d start stop : ℕ) : Tracked d start stop [] (newCoverageTracker d start stop) where
  destination := rfl
  start_eq := rfl
  stop_eq := rfl
  unseen _ := ⟨rfl, rfl, rfl⟩
  last_mem h := by simp [newCoverageTracker] at h
  next_eq h := by simp [newCoverageTracker] at h
  missing_le h := by simp [newCoverageTracker] at h
  missing_iff h := by simp [newCoverageTracker] at h

section Tracked
variable {d start stop : ℕ} {numbers : List ℕ} {t t' : CoverageTracker}

theorem Tracked.extent (h : Tracked d start stop numbers t) (n : ℕ) : Tracked d start stop numbers (t.extent n) :=
  ⟨h.destination, h.start_eq, h.stop_eq, h.unseen, h.last_mem, h.next_eq, h.missing_le, h.missing_iff⟩

theorem Tracked.next_le (h : Tracked d start stop numbers t) (hstop : stop < 2 ^ 64) {n : ℕ} (hn : start ≤ n ∧ n ≤ stop)
    (hnew : t.seen = true → t.last < n) : t.next ≤ n ∧ t.missing + (n - t.next) ≤ n - start := by
  cases hseen : t.seen with
  | false =>
    obtain ⟨-, hnext, hmissing⟩ := h.unseen hseen
    omega
  | true =>
    have hlt := hnew hseen
    have hnext : t.next = t.last + 1 := by rw [h.next_eq hseen, Nat.mod_eq_of_lt]; omega
    obtain ⟨hlast, -, hall⟩ := h.last_mem hseen
    have hstart := (hall _ hlast).1
    have hmissing := h.missing_le hseen
    omega

theorem mem_append_of_mem {l : List ℕ} {a : ℕ} (ha : a ∈ l) (n : ℕ) : n ∈ l ++ [a] ↔ n ∈ l := by
  rw [List.mem_append, List.mem_singleton]
  exact ⟨fun hn => hn.elim id fun heq => heq ▸ ha, Or.inl⟩

/-- The last number again: nothing changes. -/
theorem Tracked.again (h : Tracked d start stop numbers t) (hseen : t.seen = true) :
    Tracked d start stop (numbers ++ [t.last]) t := by
  obtain ⟨hlast, hle, hall⟩ := h.last_mem hseen
  have hmem := mem_append_of_mem hlast
  refine ⟨h.destination, h.start_eq, h.stop_eq, fun hs => ?_, fun _ => ?_, h.next_eq, h.missing_le, fun hs => ?_⟩
  · rw [hseen] at hs
    cases hs
  · exact ⟨(hmem _).mpr hlast, hle, fun n hn => hall n ((hmem n).mp hn)⟩
  · rw [h.missing_iff hs]
    exact forall₃_congr fun n _ _ => (hmem n).symm

/-- A number above the last one: the numbers between them are missing. -/
theorem Tracked.record (h : Tracked d start stop numbers t) (hstop : stop < 2 ^ 64) {n : ℕ} (hn : start ≤ n ∧ n ≤ stop)
    (hnew : t.seen = true → t.last < n) : Tracked d start stop (numbers ++ [n]) ((t.fill n).record n) := by
  obtain ⟨hnext, hle⟩ := h.next_le hstop hn hnew
  have hmissing : ((t.fill n).record n).missing = t.missing + (n - t.next) :=
    CoverageTracker.fill_missing hnext (by omega)
  have hbelow : ∀ m ∈ numbers, start ≤ m ∧ m < n := fun m hm => by
    cases hseen : t.seen with
    | false =>
      rw [(h.unseen hseen).1] at hm
      exact absurd hm List.not_mem_nil
    | true =>
      have := (h.last_mem hseen).2.2 m hm
      exact ⟨this.1, this.2.trans_lt (hnew hseen)⟩
  refine ⟨by simp [CoverageTracker.record, h.destination], by simp [CoverageTracker.record, h.start_eq],
    by simp [CoverageTracker.record, h.stop_eq], fun hs => ?_, fun _ => ⟨?_, hn.2, fun m hm => ?_⟩, fun _ => rfl,
    fun _ => ?_, fun _ => ?_⟩
  · cases hs
  · exact List.mem_append_right _ (List.mem_singleton.mpr rfl)
  · rcases List.mem_append.mp hm with hm | hm
    · exact ⟨(hbelow m hm).1, (hbelow m hm).2.le⟩
    · rw [List.mem_singleton.mp hm]
      exact ⟨hn.1, le_rfl⟩
  · rw [hmissing]
    exact hle
  · rw [hmissing]
    cases hseen : t.seen with
    | false =>
      obtain ⟨rfl, hfirst, hzero⟩ := h.unseen hseen
      refine ⟨fun hz m h1 h2 => ?_, fun hall => ?_⟩
      · obtain rfl : m = n := le_antisymm h2 (by omega)
        exact List.mem_singleton.mpr rfl
      · have := List.mem_singleton.mp (hall start le_rfl hn.1)
        omega
    | true =>
      have hlt := hnew hseen
      have hsucc : t.next = t.last + 1 := by rw [h.next_eq hseen, Nat.mod_eq_of_lt]; omega
      obtain ⟨hlast, -, hall⟩ := h.last_mem hseen
      have hstart := (hall _ hlast).1
      have hiff := h.missing_iff hseen
      refine ⟨fun hz m h1 h2 => ?_, fun hm => ?_⟩
      · -- nothing was missing, and `n` comes right after the last number
        rcases Nat.lt_or_ge t.last m with hgt | hge
        · obtain rfl : m = n := le_antisymm h2 (by omega)
          exact List.mem_append_right _ (List.mem_singleton.mpr rfl)
        · exact List.mem_append_left _ (hiff.mp (by omega) m h1 hge)
      · have hold : ∀ m, start ≤ m → m < n → m ∈ numbers := fun m h1 h2 =>
          (List.mem_append.mp (hm m h1 h2.le)).resolve_right fun heq => h2.ne (List.mem_singleton.mp heq)
        have hzero := hiff.mpr fun m h1 h2 => hold m h1 (by omega)
        rcases Nat.lt_or_ge (t.last + 1) n with hskip | hge
        · have := (hall _ (hold (t.last + 1) (by omega) hskip)).2
          omega
        · omega

/-- A group in the range, not below the last one. -/
theorem Tracked.observe_mem (h : Tracked d start stop numbers t) (hstop : stop < 2 ^ 64) {n : ℕ}
    (hn : start ≤ n ∧ n ≤ stop) (horder : ∀ m ∈ numbers, m ≤ n) :
    ∃ t', t.observe d n = .ok t' ∧ Tracked d start stop (numbers ++ [n]) t' := by
  have hle : t.seen = true → t.last ≤ n := fun hseen => horder _ (h.last_mem hseen).1
  have hobserve := CoverageTracker.observe_inRange (t := t) (n := n) (by rw [h.start_eq, h.stop_eq]; exact hn)
  rw [h.destination] at hobserve
  rw [hobserve, if_neg fun hlt => (hle hlt.1).not_gt hlt.2]
  by_cases hagain : t.seen = true ∧ n = t.last
  · rw [if_pos hagain]
    obtain ⟨hseen, rfl⟩ := hagain
    exact ⟨_, rfl, (h.extent _).again hseen⟩
  · rw [if_neg hagain]
    refine ⟨_, rfl, (h.extent n).record hstop hn fun hseen => ?_⟩
    exact lt_of_le_of_ne (hle hseen) fun heq => hagain ⟨hseen, heq.symm⟩

/-- A group toward another shard, or out of the range. -/
theorem Tracked.observe_other (h : Tracked d start stop numbers t) {d' n : ℕ} (hn : ¬(d' = d ∧ start ≤ n ∧ n ≤ stop)) :
    ∃ t', t.observe d' n = .ok t' ∧ Tracked d start stop numbers t' := by
  rw [CoverageTracker.observe_other (by rw [h.destination, h.start_eq, h.stop_eq]; exact hn)]
  refine ⟨_, rfl, ?_⟩
  split_ifs
  · exact h.extent n
  · exact h

theorem CoverageTracker.finish_complete (t : CoverageTracker) :
    t.finish.complete = true ↔ (if t.start ≤ t.stop ∧ t.next ≤ t.stop then
      (t.missing + (t.stop - t.next + 1)) % 2 ^ 64 else t.missing) = 0 := by
  unfold CoverageTracker.finish
  split_ifs <;> simp [CoverageTracker.gap]

/-- No block is missing exactly when each has a group; a count of all `2 ^ 64` blocks wraps to zero. -/
theorem Tracked.complete_iff (h : Tracked d start stop numbers t) (hstop : stop < 2 ^ 64) :
    t.finish.complete = true ↔
      (∀ n, start ≤ n → n ≤ stop → n ∈ numbers) ∨ (start = 0 ∧ stop = 2 ^ 64 - 1 ∧ numbers = []) := by
  rw [CoverageTracker.finish_complete, h.start_eq, h.stop_eq]
  cases hseen : t.seen with
  | false =>
    obtain ⟨rfl, hnext, hmissing⟩ := h.unseen hseen
    rw [hnext, hmissing]
    by_cases hrange : start ≤ stop
    · rw [if_pos ⟨hrange, hrange⟩, Nat.zero_add]
      refine ⟨fun hz => Or.inr ⟨by omega, by omega, rfl⟩, ?_⟩
      rintro (hall | ⟨rfl, rfl, -⟩)
      · exact absurd (hall start le_rfl hrange) (by simp)
      · rfl
    · rw [if_neg fun h => hrange h.1]
      exact ⟨fun _ => Or.inl fun n h1 h2 => by omega, fun _ => rfl⟩
  | true =>
    obtain ⟨hlast, hle, hall⟩ := h.last_mem hseen
    have hne : numbers ≠ [] := List.ne_nil_of_mem hlast
    have hstart := (hall _ hlast).1
    have hmissing := h.missing_le hseen
    have hiff := h.missing_iff hseen
    have hnext := h.next_eq hseen
    simp only [hne, and_false, or_false]
    rcases Nat.lt_or_ge t.last stop with hlt | hge
    · -- the range goes on after the last group
      have hnext' : t.next = t.last + 1 := by rw [hnext, Nat.mod_eq_of_lt]; omega
      have hlen : (t.missing + (stop - t.next + 1)) % 2 ^ 64 = t.missing + (stop - t.last) := by
        rw [hnext', Nat.mod_eq_of_lt] <;> omega
      rw [if_pos ⟨by omega, by omega⟩, hlen]
      refine ⟨fun hz => by omega, fun hm => ?_⟩
      have := (hall _ (hm stop (by omega) le_rfl)).2
      omega
    · obtain rfl : t.last = stop := by omega
      rw [← hiff]
      split_ifs with hgap
      · -- the successor of the last number is zero, and the gap has all `2 ^ 64` numbers
        have hwrap : t.next = 0 ∧ t.last = 2 ^ 64 - 1 := by
          rcases Nat.lt_or_ge (t.last + 1) (2 ^ 64) with hsmall | hbig
          · rw [Nat.mod_eq_of_lt hsmall] at hnext
            omega
          · have hlast : t.last + 1 = 2 ^ 64 := by omega
            rw [hlast] at hnext
            omega
        have hlen : (t.missing + (t.last - t.next + 1)) % 2 ^ 64 = t.missing := by
          have : t.last - t.next + 1 = 2 ^ 64 := by omega
          rw [this, Nat.add_mod_right, Nat.mod_eq_of_lt]
          omega
        rw [hlen]
      · rfl

end Tracked

end HarmonyMigration.Receipts
