import HarmonyMigration.Lib.Runs
import HarmonyMigration.Packages.Quarantine

/-! A quarantine cut off anywhere: every planned path stays in exactly one place with its
contents, and once the record marks it pending, a recovery ends where the quarantine
would have. -/

namespace HarmonyMigration.Packages

open FileTree

/-- The names a quarantine writes in its own directory. -/
def ownNames : List String := [journalName, journalName ++ ".partial", noteName]

/-- What a quarantine that goes ahead has fixed before its first write. -/
structure Setting where
  files : Files File
  record : Record
  stamp : String
  journal : Journal
  runName : String
  /-- Whether operations may also raise, or the runs only be cut off. -/
  mayFail : Bool
  /-- Whether the record's first write is behind. -/
  recorded : Bool
  apart : journal.moves.Pairwise Apart
  takeable : ∀ rel ∈ journal.moves, Takeable files rel
  notOwn : ∀ rel ∈ journal.moves, ∀ name ∈ rel.head?, name ∉ ownNames
  fresh : ¬lexists files [quarantineName, stamp]
  notPending : ∀ j, record.pending ≠ some (.quarantine j)
  noError : journal.error = none

namespace Setting

variable (S : Setting)

def dest : Path := [quarantineName, S.stamp]

def paths : List Path := S.journal.moves

/-- The record `quarantine` writes before the moves, and what it and `recover` leave. -/
def recordPlanned : Record :=
  { unlist S.record S.paths with pending := some (.quarantine (journalPath S.dest)) }

def recordPending : Record := S.recordPlanned.bump

def recordEnd : Record := S.recordPending.clear.bump

/-- The run's files with the first `k` paths moved. -/
def moved (k : ℕ) : Files File := relocate S.dest (S.paths.take k) S.files

def journalFile (j : Journal) : Path × File := (journalPath S.dest, .journal j)

def noteFile : Path × File :=
  (notePath S.dest, .note S.runName S.dest S.journal.reason S.journal.files)

/-- The quarantine's own files. -/
def own (j : Journal) (noted : Bool) : Files File :=
  S.journalFile j :: if noted then [S.noteFile] else []

/-- A journal of this quarantine, whatever its status. -/
def Journals (j : Journal) : Prop :=
  j.moves = S.journal.moves ∧ j.reason = S.journal.reason ∧ j.files = S.journal.files ∧
    (S.mayFail = false → j.error = none)

/-- Where a whole quarantine ends; `error` is what an earlier roll-back noted in the journal. -/
def finished (error : Option String) : Run :=
  ⟨S.moved S.paths.length ++ S.own { S.journal with status := .done, error } true, S.recordEnd⟩

/-- Every content of the disk at which the quarantine or a recovery can be cut off. -/
inductive Disk : Run → Prop
  | untouched : S.recorded = false → Disk ⟨S.files, S.record⟩
  | journaled : S.recorded = false → Disk ⟨S.files ++ S.own S.journal false, S.record⟩
  | pending {k : ℕ} {j : Journal} {noted : Bool} : k ≤ S.paths.length → S.Journals j →
      Disk ⟨S.moved k ++ S.own j noted, S.recordPending⟩
  | finished {error : Option String} : (S.mayFail = false → error = none) → Disk (S.finished error)
  | rolledBack {j : Journal} : S.Journals j → Disk ⟨S.files ++ S.own j false, S.recordEnd⟩

/-! ### Paths -/

theorem apart_dest {rel : Path} (h : rel ∈ S.paths) : Apart rel S.dest := by
  obtain ⟨name, rest, rfl, hq⟩ := (S.takeable rel h).head
  refine ⟨fun hp => ?_, fun hp => ?_⟩
  · exact hq (List.cons_prefix_cons.mp hp).1
  · exact hq (List.cons_prefix_cons.mp hp).1.symm

theorem free {e : Path × File} (h : e ∈ S.files) : ¬S.dest <+: e.1 := fun hp => S.fresh ⟨e, h, hp⟩

/-- The quarantine's own files are below no planned path, in the run or in `dest`. -/
theorem not_prefix_own {rel name : Path} (h : rel ∈ S.paths)
    (hn : name = [journalName] ∨ name = [noteName]) : ¬S.dest ++ rel <+: S.dest ++ name := by
  obtain ⟨x, rest, rfl, -⟩ := (S.takeable rel h).head
  have hx : x ∉ ownNames := S.notOwn _ h x rfl
  rw [List.prefix_append_right_inj]
  intro hp
  refine hx ?_
  rcases hn with rfl | rfl <;> simp [ownNames, (List.cons_prefix_cons.mp hp).1]

theorem mem_own {j : Journal} {noted : Bool} {e : Path × File} (h : e ∈ S.own j noted) :
    e.1 = journalPath S.dest ∨ e.1 = notePath S.dest := by
  unfold own at h
  cases noted with
  | false => simp only [List.mem_cons, Bool.false_eq_true, if_false, List.not_mem_nil, or_false] at h
             exact Or.inl (by rw [h]; rfl)
  | true =>
    simp only [List.mem_cons, if_true, List.not_mem_nil, or_false] at h
    rcases h with rfl | rfl
    · exact Or.inl rfl
    · exact Or.inr rfl

theorem not_lexists_own {rel : Path} (h : rel ∈ S.paths) {own : Files File}
    (ho : ∀ e ∈ own, e.1 = journalPath S.dest ∨ e.1 = notePath S.dest) :
    ¬lexists own rel ∧ ¬lexists own (S.dest ++ rel) := by
  refine ⟨?_, ?_⟩ <;> rintro ⟨e, he, hp⟩
  · have hap := (S.apart_dest h).not_prefix_append
    rcases ho e he with hpath | hpath <;> rw [hpath] at hp <;> exact hap _ hp
  · rcases ho e he with hpath | hpath <;> rw [hpath] at hp
    · exact S.not_prefix_own h (Or.inl rfl) hp
    · exact S.not_prefix_own h (Or.inr rfl) hp

theorem own_notMem_moved {name : Path} (hn : name = [journalName] ∨ name = [noteName]) (k : ℕ) :
    S.dest ++ name ∉ (S.moved k).map Prod.fst := by
  intro hm
  obtain ⟨e', he', hp⟩ := List.mem_map.mp hm
  obtain ⟨e, he, rfl⟩ := List.mem_map.mp he'
  by_cases hmv : ∃ m ∈ S.paths.take k, m <+: e.1
  · rw [if_pos hmv] at hp
    obtain ⟨m, hmem, hmp⟩ := hmv
    refine S.not_prefix_own (List.mem_of_mem_take hmem) hn ?_
    rw [← hp]
    exact (List.prefix_append_right_inj _).mpr hmp
  · rw [if_neg hmv] at hp
    exact S.free he (hp ▸ List.prefix_append _ _)

theorem moved_zero : S.moved 0 = S.files := by simp [moved]

/-! ### Operations on the disk -/

theorem exists_path {k : ℕ} (hk : k < S.paths.length) : ∃ rel, S.paths[k]? = some rel :=
  ⟨_, List.getElem?_eq_getElem hk⟩

theorem take_succ_eq {k : ℕ} {rel : Path} (h : S.paths[k]? = some rel) :
    S.paths.take k ++ [rel] = S.paths.take (k + 1) := by
  rw [List.take_add_one, h]
  rfl

theorem rename_moved {k : ℕ} {rel : Path} (h : S.paths[k]? = some rel) (j : Journal) (noted : Bool) :
    rename rel (S.dest ++ rel) (S.moved k ++ S.own j noted) = S.moved (k + 1) ++ S.own j noted := by
  have hmem := List.mem_of_getElem? h
  rw [rename_append, rename_eq_self (S.not_lexists_own hmem fun _ => S.mem_own).1, moved,
    rename_relocate (S.apart_dest hmem), S.take_succ_eq h]
  rfl

/-- The paths before the `k`-th are apart from it. -/
theorem apart_take {k : ℕ} {rel : Path} (h : S.paths[k]? = some rel) :
    ∀ m ∈ S.paths.take k, Apart m rel := by
  intro m hm
  have hp := S.apart.sublist (List.take_sublist (k + 1) S.paths)
  rw [← S.take_succ_eq h] at hp
  exact (List.pairwise_append.mp hp).2.2 m hm rel (by simp)

theorem rename_back_moved {k : ℕ} {rel : Path} (h : S.paths[k]? = some rel) (j : Journal) (noted : Bool) :
    rename (S.dest ++ rel) rel (S.moved (k + 1) ++ S.own j noted) = S.moved k ++ S.own j noted := by
  have hmem := List.mem_of_getElem? h
  rw [rename_append, rename_eq_self (S.not_lexists_own hmem fun _ => S.mem_own).2, moved, ← S.take_succ_eq h,
    rename_back (S.apart_take h) fun e he => S.free he]
  rfl

theorem lexists_moved_iff {i k : ℕ} {rel : Path} (h : S.paths[i]? = some rel) {own : Files File}
    (ho : ∀ e ∈ own, e.1 = journalPath S.dest ∨ e.1 = notePath S.dest) :
    (lexists (S.moved k ++ own) rel ↔ k ≤ i) ∧ (lexists (S.moved k ++ own) (S.dest ++ rel) ↔ i < k) := by
  have hmem := List.mem_of_getElem? h
  obtain ⟨ho1, ho2⟩ := S.not_lexists_own hmem ho
  simp only [lexists_append, ho1, ho2, or_false]
  by_cases hik : i < k
  · have hin : rel ∈ S.paths.take k := List.mem_of_getElem? ((List.getElem?_take_of_lt hik).trans h)
    have h1 : ¬lexists (S.moved k) rel := not_lexists_of_moved _ (S.apart_dest hmem) hin
    have h2 : lexists (S.moved k) (S.dest ++ rel) :=
      lexists_dest_of_moved (S.takeable rel hmem).lexists hin
    exact ⟨iff_of_false h1 (by omega), iff_of_true h2 hik⟩
  · have hap : ∀ m ∈ S.paths.take k, Apart m rel := fun m hm =>
      S.apart_take h m (List.take_subset_take_left S.paths (by omega) hm)
    have h1 : lexists (S.moved k) rel := lexists_of_not_moved (S.takeable rel hmem).lexists hap
    have h2 : ¬lexists (S.moved k) (S.dest ++ rel) := not_lexists_dest hap fun e he => S.free he
    exact ⟨iff_of_true h1 (by omega), iff_of_false h2 hik⟩

theorem write_journal_moved (k : ℕ) (j j' : Journal) (noted : Bool) :
    write (journalPath S.dest) (.journal j') (S.moved k ++ S.own j noted) = S.moved k ++ S.own j' noted := by
  have hne : notePath S.dest ≠ journalPath S.dest := by
    simp [notePath, journalPath, noteName, journalName]
  have hn : journalPath S.dest ∉ (S.moved k).map Prod.fst := S.own_notMem_moved (Or.inl rfl) k
  rw [write_append hn]
  cases noted <;> simp [own, write, journalFile, noteFile, hne]

theorem write_first_journal (j : Journal) :
    write (journalPath S.dest) (.journal j) S.files = S.files ++ S.own j false := by
  have hn : journalPath S.dest ∉ (S.moved 0).map Prod.fst := S.own_notMem_moved (Or.inl rfl) 0
  rw [S.moved_zero] at hn
  exact write_of_notMem hn

theorem write_note_moved (k : ℕ) (j : Journal) (noted : Bool) :
    write (notePath S.dest) (.note S.runName S.dest S.journal.reason S.journal.files)
      (S.moved k ++ S.own j noted) = S.moved k ++ S.own j true := by
  have hne : journalPath S.dest ≠ notePath S.dest := by
    simp [notePath, journalPath, noteName, journalName]
  have hn : notePath S.dest ∉ (S.moved k).map Prod.fst := S.own_notMem_moved (Or.inr rfl) k
  rw [write_append hn]
  cases noted <;> simp [own, write, journalFile, noteFile, hne, hne.symm]

/-- The journal is found again. -/
theorem find_journal (k : ℕ) (j : Journal) (noted : Bool) :
    ((S.moved k ++ S.own j noted).find? fun e => e.1 = journalPath S.dest).map Prod.snd =
      some (.journal j) := by
  have hn : journalPath S.dest ∉ (S.moved k).map Prod.fst := S.own_notMem_moved (Or.inl rfl) k
  have hnone : (S.moved k).find? (fun e => e.1 = journalPath S.dest) = none := by
    rw [List.find?_eq_none]
    intro e he hp
    exact hn (List.mem_map.mpr ⟨e, he, by simpa using hp⟩)
  rw [List.find?_append, hnone]
  simp [own, journalFile]

theorem filter_own (j : Journal) (noted : Bool) :
    (S.files ++ S.own j noted).filter (fun e => ¬S.dest <+: e.1) = S.files := by
  have h1 : S.files.filter (fun e => ¬S.dest <+: e.1) = S.files :=
    List.filter_eq_self.mpr fun e he => by simpa using S.free he
  have h2 : (S.own j noted).filter (fun e => ¬S.dest <+: e.1) = [] := by
    refine List.filter_eq_nil_iff.mpr fun e he => ?_
    rcases S.mem_own he with hp | hp <;> simp [hp, journalPath, notePath]
  rw [List.filter_append, h1, h2, List.append_nil]

theorem unlist_pending : unlist S.recordPending S.paths = S.recordPending := by
  simp [recordPending, recordPlanned, Record.bump, unlist, Dict.filterKeys, List.filter_filter]

/-! ### What each operation does -/

section Operations
variable {p : Proc} (hd : p.dest = S.dest)
include hd

theorem stepOk_move {k : ℕ} {rel : Path} (hj : p.journal = S.journal) (hrel : S.paths[k]? = some rel) :
    stepOk S.runName { p with phase := .move k } ⟨S.moved k ++ S.own S.journal false, S.recordPending⟩ =
      some (p.goto ⟨S.moved (k + 1) ++ S.own S.journal false, S.recordPending⟩ (afterMove p (k + 1))) := by
  have hrel' : p.journal.moves[k]? = some rel := by rw [hj]; exact hrel
  simp only [stepOk, hrel', Option.map_some, hd, S.rename_moved hrel]
  rw [← hd]
  rfl

theorem stepOk_putBack {k : ℕ} {rel : Path} (error : String) (hj : p.journal = S.journal)
    (hrel : S.paths[k]? = some rel) :
    stepOk S.runName { p with phase := .putBack (k + 1) error }
        ⟨S.moved (k + 1) ++ S.own S.journal false, S.recordPending⟩ =
      some (p.goto ⟨S.moved k ++ S.own S.journal false, S.recordPending⟩ (afterPutBack k error)) := by
  have hrel' : p.journal.moves[k]? = some rel := by rw [hj]; exact hrel
  simp only [stepOk, Nat.add_sub_cancel, hrel', Option.map_some, hd, S.rename_back_moved hrel]
  rw [← hd]
  rfl

/-- One turn of a recovery's loop: a path moved before the cut is found in its new place, the
next one in its old one. -/
theorem stepOk_check (noted : Bool) {k m : ℕ} {rel : Path}
    (hj : S.Journals p.journal) (hrel : S.paths[k]? = some rel) (hkm : k ≤ m) (hm : m ≤ S.paths.length) :
    ∃ m', k + 1 ≤ m' ∧ m' ≤ S.paths.length ∧
      stepOk S.runName { p with phase := .check k false }
        ⟨S.moved m ++ S.own p.journal noted, S.recordPending⟩ =
          some (afterCheck { p with phase := .check k false }
            ⟨S.moved m' ++ S.own p.journal noted, S.recordPending⟩ (k + 1) false) := by
  have hk : k < S.paths.length := (List.getElem?_eq_some_iff.mp hrel).1
  have hrel' : p.journal.moves[k]? = some rel := by rw [hj.1]; exact hrel
  have hown : ∀ e ∈ S.own p.journal noted, e.1 = journalPath S.dest ∨ e.1 = notePath S.dest :=
    fun _ => S.mem_own
  obtain ⟨hsrc, hdst⟩ := S.lexists_moved_iff (k := m) hrel hown
  rcases Nat.lt_or_ge k m with hlt | hge
  · refine ⟨m, hlt, hm, ?_⟩
    simp only [stepOk, hrel', Option.map_some, hd, hsrc, hdst]
    rw [if_pos ⟨hlt, by omega⟩]
  · obtain rfl : m = k := le_antisymm hge hkm
    refine ⟨m + 1, le_rfl, hk, ?_⟩
    simp only [stepOk, hrel', Option.map_some, hd, hsrc, hdst]
    rw [if_neg (by omega), if_pos ⟨le_rfl, by omega⟩, S.rename_moved hrel]

theorem stepOk_note {noted : Bool} (hj : S.Journals p.journal) :
    stepOk S.runName { p with phase := .note }
        ⟨S.moved S.paths.length ++ S.own p.journal noted, S.recordPending⟩ =
      some (p.goto ⟨S.moved S.paths.length ++ S.own p.journal true, S.recordPending⟩ .doneJournal) := by
  obtain ⟨-, hreason, hfiles, -⟩ := hj
  simp only [stepOk, writeNote, hd, hreason, hfiles, S.write_note_moved]
  rw [← hd]
  rfl

theorem stepOk_doneJournal :
    stepOk S.runName { p with phase := .doneJournal }
        ⟨S.moved S.paths.length ++ S.own p.journal true, S.recordPending⟩ =
      some (p.goto ⟨S.moved S.paths.length ++ S.own { p.journal with status := .done } true,
        S.recordPending⟩ .clear) := by
  simp only [stepOk, writeJournal, hd, S.write_journal_moved]
  rw [← hd]
  rfl

end Operations

theorem finished_of_journals {j : Journal} (hj : S.Journals j) :
    (⟨S.moved S.paths.length ++ S.own { j with status := .done } true, S.recordEnd⟩ : Run) =
      S.finished j.error := by
  obtain ⟨h1, h2, h3, -⟩ := hj
  rw [Setting.finished, h1, h2, h3]

/-! ### Every step -/

/-- What a running quarantine or recovery has in memory and on disk, by phase. -/
def Running (p : Proc) (run : Run) : Phase → Prop
  | .journal =>
    S.recorded = false ∧ p.journal = S.journal ∧ p.record = S.recordPlanned ∧ run = ⟨S.files, S.record⟩
  | .record =>
    S.recorded = false ∧ p.journal = S.journal ∧ p.record = S.recordPlanned ∧
      run = ⟨S.files ++ S.own S.journal false, S.record⟩
  | .move k =>
    p.journal = S.journal ∧ p.record = S.recordPending ∧ k < S.paths.length ∧
      run = ⟨S.moved k ++ S.own S.journal false, S.recordPending⟩
  | .putBack k _ =>
    S.mayFail = true ∧ p.journal = S.journal ∧ p.record = S.recordPending ∧ 0 < k ∧ k ≤ S.paths.length ∧
      run = ⟨S.moved k ++ S.own S.journal false, S.recordPending⟩
  | .rollJournal _ =>
    S.mayFail = true ∧ p.journal = S.journal ∧ p.record = S.recordPending ∧
      run = ⟨S.moved 0 ++ S.own S.journal false, S.recordPending⟩
  | .rollRecord =>
    p.record = S.recordPending ∧
      ∃ j, S.Journals j ∧ run = ⟨S.moved 0 ++ S.own j false, S.recordPending⟩
  | .check k missing =>
    S.Journals p.journal ∧ p.record = S.recordPending ∧ missing = false ∧ k < S.paths.length ∧
      ∃ m noted, k ≤ m ∧ m ≤ S.paths.length ∧
        run = ⟨S.moved m ++ S.own p.journal noted, S.recordPending⟩
  | .note =>
    S.Journals p.journal ∧ p.record = S.recordPending ∧
      ∃ noted, run = ⟨S.moved S.paths.length ++ S.own p.journal noted, S.recordPending⟩
  | .doneJournal =>
    S.Journals p.journal ∧ p.record = S.recordPending ∧
      run = ⟨S.moved S.paths.length ++ S.own p.journal true, S.recordPending⟩
  | .clear =>
    S.Journals p.journal ∧ p.record = S.recordPending ∧
      run = ⟨S.moved S.paths.length ++ S.own { p.journal with status := .done } true, S.recordPending⟩

/-- The invariant of a quarantine and its recoveries. -/
def Inv (s : State) : Prop :=
  S.Disk s.run ∧ ∀ p, s.proc = some p → p.dest = S.dest ∧ S.Running p s.run p.phase

theorem inv_stop {run : Run} (h : S.Disk run) : S.Inv (.stop run) := ⟨h, by simp [State.stop]⟩

theorem inv_goto {p : Proc} {run : Run} {phase : Phase} (hd : p.dest = S.dest)
    (h : S.Disk run) (hr : S.Running { p with phase } run phase) : S.Inv (p.goto run phase) := by
  refine ⟨h, ?_⟩
  rintro q ⟨⟩
  exact ⟨hd, hr⟩

theorem journals_self : S.Journals S.journal := ⟨rfl, rfl, rfl, fun _ => S.noError⟩

theorem journals_rolledBack (h : S.mayFail = true) (error : String) :
    S.Journals { S.journal with status := .rolledBack, error := some error } := by
  refine ⟨rfl, rfl, rfl, fun hf => ?_⟩
  rw [h] at hf
  cases hf

theorem journals_done {j : Journal} (h : S.Journals j) : S.Journals { j with status := .done } := h

/-- A finished quarantine, from the journal it was finished with. -/
theorem disk_finished {j : Journal} (hj : S.Journals j) :
    S.Disk ⟨S.moved S.paths.length ++ S.own { j with status := .done } true, S.recordEnd⟩ := by
  rw [S.finished_of_journals hj]
  exact .finished hj.2.2.2

theorem inv_afterMove {p : Proc} {k : ℕ} (hd : p.dest = S.dest) (hj : p.journal = S.journal)
    (hrec : p.record = S.recordPending) (hk : k ≤ S.paths.length) :
    S.Inv (p.goto ⟨S.moved k ++ S.own S.journal false, S.recordPending⟩ (afterMove p k)) := by
  refine S.inv_goto hd (.pending hk S.journals_self) ?_
  have hlen : p.journal.moves.length = S.paths.length := by rw [hj]; rfl
  unfold afterMove
  rw [hlen]
  split_ifs with hlt
  · exact ⟨hj, hrec, hlt, rfl⟩
  · have hn : k = S.paths.length := le_antisymm hk (not_lt.mp hlt)
    exact ⟨hj ▸ S.journals_self, hrec, false, by rw [← hn, ← hj]⟩

theorem inv_afterPutBack {p : Proc} {k : ℕ} (error : String) (hf : S.mayFail = true) (hd : p.dest = S.dest)
    (hj : p.journal = S.journal) (hrec : p.record = S.recordPending) (hk : k ≤ S.paths.length) :
    S.Inv (p.goto ⟨S.moved k ++ S.own S.journal false, S.recordPending⟩ (afterPutBack k error)) := by
  refine S.inv_goto hd (.pending hk S.journals_self) ?_
  unfold afterPutBack
  split_ifs with h0
  · exact ⟨hf, hj, hrec, h0, hk, rfl⟩
  · obtain rfl : k = 0 := by omega
    exact ⟨hf, hj, hrec, rfl⟩

theorem inv_afterCheck {p : Proc} {k m : ℕ} {noted : Bool} (hd : p.dest = S.dest)
    (hj : S.Journals p.journal) (hrec : p.record = S.recordPending) (hkm : k ≤ m)
    (hm : m ≤ S.paths.length) :
    S.Inv (afterCheck p ⟨S.moved m ++ S.own p.journal noted, S.recordPending⟩ k false) := by
  unfold afterCheck
  have hlen : p.journal.moves.length = S.paths.length := by rw [hj.1]; rfl
  rw [hlen]
  by_cases hlt : k < S.paths.length
  · rw [if_pos hlt]
    exact S.inv_goto hd (.pending hm hj) ⟨hj, hrec, rfl, hlt, m, noted, hkm, hm, rfl⟩
  · obtain rfl : m = S.paths.length := by omega
    have hrec' : unlist p.record p.journal.moves = S.recordPending := by
      rw [hrec, hj.1]
      exact S.unlist_pending
    rw [if_neg hlt, if_neg Bool.false_ne_true, hrec']
    exact S.inv_goto hd (.pending hm hj) ⟨hj, rfl, noted, rfl⟩

theorem inv_stepOk {p : Proc} {run : Run} {s' : State} (hd : p.dest = S.dest)
    (hr : S.Running p run p.phase) (hs : stepOk S.runName p run = some s') : S.Inv s' := by
  obtain ⟨dest, record, journal, phase⟩ := p
  subst hd
  cases phase with
  | journal =>
    obtain ⟨hb, rfl, rfl, rfl⟩ := hr
    obtain rfl := Option.some.inj hs
    simp only [writeJournal, S.write_first_journal]
    exact S.inv_goto rfl (.journaled hb) ⟨hb, rfl, rfl, rfl⟩
  | record =>
    obtain ⟨hb, rfl, rfl, rfl⟩ := hr
    obtain rfl := Option.some.inj hs
    simp only [writeRecord, ← S.moved_zero]
    exact S.inv_afterMove (p := ⟨S.dest, S.recordPending, S.journal, .record⟩) rfl rfl rfl (Nat.zero_le _)
  | move k =>
    obtain ⟨rfl, rfl, hk, rfl⟩ := hr
    obtain ⟨rel, hrel⟩ := S.exists_path hk
    have hstep := S.stepOk_move (p := ⟨S.dest, S.recordPending, S.journal, .move k⟩) rfl rfl hrel
    obtain rfl := Option.some.inj (hstep.symm.trans hs)
    exact S.inv_afterMove rfl rfl rfl hk
  | putBack k error =>
    obtain ⟨hf, rfl, rfl, h0, hk, rfl⟩ := hr
    obtain ⟨n, rfl⟩ : ∃ n, k = n + 1 := ⟨k - 1, by omega⟩
    obtain ⟨rel, hrel⟩ := S.exists_path hk
    have hstep := S.stepOk_putBack (p := ⟨S.dest, S.recordPending, S.journal, .putBack (n + 1) error⟩)
      rfl error rfl hrel
    obtain rfl := Option.some.inj (hstep.symm.trans hs)
    exact S.inv_afterPutBack error hf rfl rfl rfl (by omega)
  | rollJournal error =>
    obtain ⟨hf, rfl, rfl, rfl⟩ := hr
    obtain rfl := Option.some.inj hs
    have hj := S.journals_rolledBack hf error
    simp only [writeJournal, S.write_journal_moved]
    exact S.inv_goto rfl (.pending (Nat.zero_le _) hj) ⟨rfl, _, hj, rfl⟩
  | rollRecord =>
    obtain ⟨rfl, j, hj, rfl⟩ := hr
    obtain rfl := Option.some.inj hs
    rw [S.moved_zero]
    exact S.inv_stop (.rolledBack hj)
  | check k missing =>
    obtain ⟨hj, rfl, rfl, hk, m, noted, hkm, hm, rfl⟩ := hr
    obtain ⟨rel, hrel⟩ := S.exists_path hk
    obtain ⟨m', hkm', hm', hstep⟩ := S.stepOk_check rfl noted hj hrel hkm hm
    obtain rfl := Option.some.inj (hstep.symm.trans hs)
    exact S.inv_afterCheck rfl hj rfl hkm' hm'
  | note =>
    obtain ⟨hj, rfl, noted, rfl⟩ := hr
    obtain rfl := Option.some.inj ((S.stepOk_note rfl hj).symm.trans hs)
    exact S.inv_goto rfl (.pending le_rfl hj) ⟨hj, rfl, rfl⟩
  | doneJournal =>
    obtain ⟨hj, rfl, rfl⟩ := hr
    obtain rfl := Option.some.inj ((S.stepOk_doneJournal rfl).symm.trans hs)
    exact S.inv_goto rfl (.pending le_rfl (S.journals_done hj)) ⟨hj, rfl, rfl⟩
  | clear =>
    obtain ⟨hj, rfl, rfl⟩ := hr
    obtain rfl := Option.some.inj hs
    exact S.inv_stop (S.disk_finished hj)

theorem inv_stepFail {p : Proc} {run : Run} (error : String) {fault : Fault} (hf : S.mayFail = true)
    (hd : p.dest = S.dest) (hdisk : S.Disk run) (hr : S.Running p run p.phase)
    (hrec : p.phase = .record → fault = .before) : S.Inv (stepFail p run error fault) := by
  obtain ⟨dest, record, journal, phase⟩ := p
  subst hd
  cases phase with
  | journal =>
    obtain ⟨hb, rfl, rfl, rfl⟩ := hr
    refine S.inv_stop ?_
    have hfree : S.files.filter (fun e => ¬S.dest <+: e.1) = S.files :=
      List.filter_eq_self.mpr fun e he => by simpa using S.free he
    simp only [hfree]
    exact .untouched hb
  | record =>
    obtain ⟨hb, rfl, rfl, rfl⟩ := hr
    obtain rfl := hrec rfl
    refine S.inv_stop ?_
    simp only [writeRecord, S.filter_own]
    exact .untouched hb
  | move k =>
    obtain ⟨rfl, rfl, hk, rfl⟩ := hr
    exact S.inv_afterPutBack error hf rfl rfl rfl hk.le
  | rollJournal e =>
    obtain ⟨-, rfl, rfl, rfl⟩ := hr
    refine S.inv_stop ?_
    simp only [writeJournal, S.write_journal_moved]
    split_ifs
    · exact .pending (Nat.zero_le _) (S.journals_rolledBack hf e)
    · exact hdisk
  | rollRecord =>
    obtain ⟨rfl, j, hj, rfl⟩ := hr
    refine S.inv_stop ?_
    cases fault with
    | before => exact hdisk
    | none | after => rw [S.moved_zero]; exact .rolledBack hj
  | doneJournal =>
    obtain ⟨hj, rfl, rfl⟩ := hr
    refine S.inv_stop ?_
    simp only [writeJournal, S.write_journal_moved]
    split_ifs
    · exact .pending le_rfl (S.journals_done hj)
    · exact hdisk
  | clear =>
    obtain ⟨hj, rfl, rfl⟩ := hr
    refine S.inv_stop ?_
    cases fault with
    | before => exact hdisk
    | none | after => exact S.disk_finished hj
  | putBack | check | note => exact S.inv_stop hdisk

theorem startRecover_pending {k : ℕ} {j : Journal} {noted : Bool} :
    startRecover ⟨S.moved k ++ S.own j noted, S.recordPending⟩ =
      afterCheck ⟨S.dest, S.recordPending, j, .check 0 false⟩
        ⟨S.moved k ++ S.own j noted, S.recordPending⟩ 0 false := by
  have hpend : S.recordPending.pending = some (.quarantine (journalPath S.dest)) := rfl
  unfold startRecover
  simp only [hpend, S.find_journal]
  rfl

theorem startRecover_of_not_pending {run : Run} (h : ∀ j, run.record.pending ≠ some (.quarantine j)) :
    startRecover run = .stop run := by
  unfold startRecover
  split
  · next jpath hp => exact absurd hp (h jpath)
  · rfl

theorem recordEnd_not_pending (j : Path) : S.recordEnd.pending ≠ some (.quarantine j) := nofun

theorem inv_recover {run : Run} (h : S.Disk run) : S.Inv (startRecover run) := by
  cases h with
  | untouched hb =>
    rw [startRecover_of_not_pending S.notPending]
    exact S.inv_stop (.untouched hb)
  | journaled hb =>
    rw [startRecover_of_not_pending S.notPending]
    exact S.inv_stop (.journaled hb)
  | pending hk hj =>
    rw [S.startRecover_pending]
    exact S.inv_afterCheck rfl hj rfl (Nat.zero_le _) hk
  | finished he =>
    rw [startRecover_of_not_pending S.recordEnd_not_pending]
    exact S.inv_stop (.finished he)
  | rolledBack hj =>
    rw [startRecover_of_not_pending S.recordEnd_not_pending]
    exact S.inv_stop (.rolledBack hj)

end Setting

/-- The steps taken after a quarantine has started: no other quarantine, failures only if
`mayFail`, and none of the record's write once the new record is in place. -/
def InScope (mayFail : Bool) (s : State) : Action → Prop
  | .quarantine _ _ _ => False
  | .fail _ fault => mayFail = true ∧ ((s.proc.map Proc.phase) = some .record → fault ≠ .after)
  | .recover | .step | .kill => True

instance (mayFail : Bool) (s : State) (a : Action) : Decidable (InScope mayFail s a) := by
  unfold InScope
  cases a <;> infer_instance

namespace Setting

variable (S : Setting) (sha256 : File → String)

theorem inv_step {s s' : State} {a : Action} (h : S.Inv s) (hg : InScope S.mayFail s a)
    (hs : step sha256 S.runName s a = some s') : S.Inv s' := by
  obtain ⟨hdisk, hproc⟩ := h
  cases a with
  | quarantine => exact hg.elim
  | recover =>
    simp only [step] at hs
    split_ifs at hs
    obtain rfl := Option.some.inj hs
    exact S.inv_recover hdisk
  | step =>
    obtain ⟨p, hp, hs⟩ := Option.bind_eq_some_iff.mp hs
    obtain ⟨hd, hr⟩ := hproc p hp
    exact S.inv_stepOk hd hr hs
  | fail error fault =>
    obtain ⟨p, hp, rfl⟩ := Option.map_eq_some_iff.mp hs
    obtain ⟨hd, hr⟩ := hproc p hp
    refine S.inv_stepFail error hg.1 hd hdisk hr fun hrec => ?_
    have hne : fault ≠ .after := hg.2 (by rw [hp, Option.map_some, hrec])
    cases fault with
    | after => exact absurd rfl hne
    | none | before => rfl
  | kill =>
    obtain ⟨p, -, rfl⟩ := Option.map_eq_some_iff.mp hs
    exact S.inv_stop hdisk

/-! ### Runs to the end -/

variable {sha256}

theorem run_note {p : Proc} {noted : Bool} (hd : p.dest = S.dest) (hj : S.Journals p.journal)
    (hrec : p.record = S.recordPending) :
    Runs.run (step sha256 S.runName)
      (p.goto ⟨S.moved S.paths.length ++ S.own p.journal noted, S.recordPending⟩ .note)
      (List.replicate 3 .step) = some (.stop (S.finished p.journal.error)) := by
  rw [List.replicate_succ, Runs.run_cons (S.stepOk_note hd hj), List.replicate_succ,
    Runs.run_cons (S.stepOk_doneJournal hd), List.replicate_succ, Runs.run_cons rfl,
    ← S.finished_of_journals hj, recordEnd, ← hrec]
  rfl

theorem run_check (d : ℕ) {p : Proc} {noted : Bool} {k m : ℕ} (hd : p.dest = S.dest)
    (hj : S.Journals p.journal) (hrec : p.record = S.recordPending) (hk : k + d = S.paths.length)
    (hkm : k ≤ m) (hm : m ≤ S.paths.length) :
    Runs.run (step sha256 S.runName)
      (afterCheck p ⟨S.moved m ++ S.own p.journal noted, S.recordPending⟩ k false)
      (List.replicate (d + 3) .step) = some (.stop (S.finished p.journal.error)) := by
  have hlen : p.journal.moves.length = S.paths.length := by rw [hj.1]; rfl
  induction d generalizing k m p with
  | zero =>
    obtain rfl : m = S.paths.length := by omega
    have hrec' : unlist p.record p.journal.moves = S.recordPending := by
      rw [hrec, hj.1]
      exact S.unlist_pending
    rw [afterCheck, if_neg (by omega), if_neg Bool.false_ne_true, hrec']
    exact S.run_note (p := ⟨p.dest, S.recordPending, p.journal, p.phase⟩) hd hj rfl
  | succ d ih =>
    obtain ⟨rel, hrel⟩ := S.exists_path (k := k) (by omega)
    obtain ⟨m', hkm', hm', hstep⟩ := S.stepOk_check hd noted hj hrel hkm hm
    rw [afterCheck, if_pos (by omega), Nat.add_right_comm, List.replicate_succ, Runs.run_cons hstep]
    exact ih (p := { p with phase := .check k false }) hd hj hrec (by omega) hkm' hm' hlen

/-- The moves of a quarantine and what follows them. -/
theorem run_moves (d : ℕ) {p : Proc} {k : ℕ} (hd : p.dest = S.dest) (hj : p.journal = S.journal)
    (hrec : p.record = S.recordPending) (hk : k + d = S.paths.length) :
    Runs.run (step sha256 S.runName)
      (p.goto ⟨S.moved k ++ S.own S.journal false, S.recordPending⟩ (afterMove p k))
      (List.replicate (d + 3) .step) = some (.stop (S.finished none)) := by
  have hlen : p.journal.moves.length = S.paths.length := by rw [hj]; rfl
  induction d generalizing k p with
  | zero =>
    obtain rfl : k = S.paths.length := by omega
    rw [afterMove, if_neg (by omega), ← S.noError, ← hj]
    exact S.run_note hd (hj ▸ S.journals_self) hrec
  | succ d ih =>
    obtain ⟨rel, hrel⟩ := S.exists_path (k := k) (by omega)
    rw [afterMove, if_pos (by omega), Nat.add_right_comm, List.replicate_succ,
      Runs.run_cons (S.stepOk_move hd hj hrel)]
    exact ih hd hj hrec (by omega) hlen

/-- The state in which the quarantine has planned everything and written nothing. -/
def start : State := ⟨⟨S.files, S.record⟩, some ⟨S.dest, S.recordPlanned, S.journal, .journal⟩⟩

theorem inv_start (hb : S.recorded = false) : S.Inv S.start :=
  ⟨.untouched hb, by rintro p ⟨⟩; exact ⟨rfl, hb, rfl, rfl, rfl⟩⟩

theorem run_uninterrupted :
    Runs.run (step sha256 S.runName) S.start (List.replicate (S.paths.length + 5) .step) =
      some (.stop (S.finished none)) := by
  have hjournal : step sha256 S.runName S.start .step =
      some ⟨⟨S.files ++ S.own S.journal false, S.record⟩,
        some ⟨S.dest, S.recordPlanned, S.journal, .record⟩⟩ := by
    rw [← S.write_first_journal]
    rfl
  rw [List.replicate_succ, Runs.run_cons hjournal, List.replicate_succ, Runs.run_cons rfl, ← S.moved_zero]
  exact S.run_moves S.paths.length (p := ⟨S.dest, S.recordPending, S.journal, .record⟩) rfl rfl rfl
    (Nat.zero_add _)

theorem run_recover {k : ℕ} {j : Journal} {noted : Bool} (hk : k ≤ S.paths.length) (hj : S.Journals j) :
    Runs.run (step sha256 S.runName) (.stop ⟨S.moved k ++ S.own j noted, S.recordPending⟩)
      (.recover :: List.replicate (S.paths.length + 3) .step) = some (.stop (S.finished j.error)) := by
  rw [Runs.run_cons rfl, State.stop, S.startRecover_pending]
  exact S.run_check S.paths.length (p := ⟨S.dest, S.recordPending, j, .check 0 false⟩) rfl hj rfl
    (Nat.zero_add _) (Nat.zero_le _) hk

/-! ### What the contents of the disk say -/

variable {S} {run : Run}

/-- The run's files with some of the planned paths moved, beside the quarantine's own files. -/
theorem Disk.files_eq (h : S.Disk run) :
    ∃ k own, k ≤ S.paths.length ∧ run.files = S.moved k ++ own ∧
      ∀ e ∈ own, e.1 = journalPath S.dest ∨ e.1 = notePath S.dest := by
  have h0 : S.files = S.moved 0 := S.moved_zero.symm
  cases h with
  | untouched => exact ⟨0, [], Nat.zero_le _, by rw [h0, List.append_nil], by simp⟩
  | journaled => exact ⟨0, _, Nat.zero_le _, by rw [h0], fun _ => S.mem_own⟩
  | pending hk _ => exact ⟨_, _, hk, rfl, fun _ => S.mem_own⟩
  | finished => exact ⟨_, _, le_rfl, rfl, fun _ => S.mem_own⟩
  | rolledBack => exact ⟨0, _, Nat.zero_le _, by rw [h0], fun _ => S.mem_own⟩

theorem Disk.one_place (h : S.Disk run) {rel : Path} (hrel : rel ∈ S.paths) :
    Xor (lexists run.files rel) (lexists run.files (S.dest ++ rel)) := by
  obtain ⟨k, own, -, hfiles, hown⟩ := h.files_eq
  obtain ⟨i, hi⟩ := List.mem_iff_getElem?.mp hrel
  obtain ⟨hsrc, hdst⟩ := S.lexists_moved_iff (k := k) hi hown
  rw [hfiles, hsrc, hdst]
  rcases Nat.lt_or_ge i k with hlt | hge
  · exact Or.inr ⟨hlt, by omega⟩
  · exact Or.inl ⟨hge, by omega⟩

/-- Nothing has moved before the record's first write. -/
theorem not_lexists_dest_start {own : Files File}
    (hown : ∀ e ∈ own, e.1 = journalPath S.dest ∨ e.1 = notePath S.dest) {rel : Path}
    (hrel : rel ∈ S.paths) : ¬lexists (S.files ++ own) (S.dest ++ rel) := by
  obtain ⟨i, hi⟩ := List.mem_iff_getElem?.mp hrel
  rw [← S.moved_zero, (S.lexists_moved_iff (k := 0) hi hown).2]
  exact Nat.not_lt_zero i

/-- From the record's first write on, nothing at or below a planned path is listed. -/
theorem Disk.unlisted (h : S.Disk run) (hb : S.recorded = true) {p : Path}
    (hp : p ∈ run.record.packages.keys) : ¬∃ rel ∈ S.paths, rel <+: p := by
  have hun : ∀ p ∈ (unlist S.record S.paths).packages.keys, ¬∃ rel ∈ S.paths, rel <+: p :=
    fun p hp => (mem_unlist.mp hp).2
  cases h with
  | untouched hf | journaled hf =>
    rw [hb] at hf
    cases hf
  | pending | finished | rolledBack => exact hun p hp

theorem Disk.recovers (h : S.Disk run) {j : Path} (hp : run.record.pending = some (.quarantine j)) :
    ∃ error, (S.mayFail = false → error = none) ∧
      Runs.run (step sha256 S.runName) (.stop run)
        (.recover :: List.replicate (S.paths.length + 3) .step) = some (.stop (S.finished error)) := by
  cases h with
  | untouched | journaled => exact absurd hp (S.notPending j)
  | pending hk hj => exact ⟨_, hj.2.2.2, S.run_recover hk hj⟩
  | finished | rolledBack => cases hp

theorem Disk.at_rest (h : S.Disk run) (hp : ∀ j, run.record.pending ≠ some (.quarantine j)) :
    (∃ error, (S.mayFail = false → error = none) ∧ run = S.finished error) ∨
      ∀ rel ∈ S.paths, lexists run.files rel := by
  have hstill : ∀ own, ∀ rel ∈ S.paths, lexists (S.files ++ own) rel := fun own rel hrel =>
    (lexists_append _ _ _).mpr (Or.inl (S.takeable rel hrel).lexists)
  cases h with
  | untouched => exact Or.inr fun rel hrel => (S.takeable rel hrel).lexists
  | journaled | rolledBack => exact Or.inr (hstill _)
  | pending => exact absurd rfl (hp _)
  | finished he => exact Or.inl ⟨_, he, rfl⟩

/-- A state in which something has moved is one behind the record's first write. -/
theorem Inv.recorded {s : State} (h : S.Inv s) {rel : Path} (hrel : rel ∈ S.paths)
    (hmoved : lexists s.run.files (S.dest ++ rel)) : ({ S with recorded := true } : Setting).Inv s := by
  obtain ⟨run, proc⟩ := s
  obtain ⟨hdisk, hproc⟩ := h
  have h0 : run.files ≠ S.files := by
    rintro h0
    rw [show run.files = S.files ++ [] by rw [h0, List.append_nil]] at hmoved
    exact not_lexists_dest_start (by simp) hrel hmoved
  have h1 : run.files ≠ S.files ++ S.own S.journal false := by
    intro h1
    rw [show run.files = S.files ++ S.own S.journal false from h1] at hmoved
    exact not_lexists_dest_start (fun _ => S.mem_own) hrel hmoved
  refine ⟨?_, fun p hp => ⟨(hproc p hp).1, ?_⟩⟩
  · cases hdisk with
    | untouched => exact absurd rfl h0
    | journaled => exact absurd rfl h1
    | pending hk hj => exact .pending hk hj
    | finished he => exact .finished he
    | rolledBack hj => exact .rolledBack hj
  · have hr := (hproc p hp).2
    generalize p.phase = phase at hr ⊢
    cases phase with
    | journal => exact absurd (congrArg Run.files hr.2.2.2) h0
    | record => exact absurd (congrArg Run.files hr.2.2.2) h1
    | _ => exact hr

end Setting

/-- A quarantine that starts has planned some paths and a directory nothing has. -/
theorem startQuarantine_some {sha256 : File → String} {run run' : Run} {reason stamp : String}
    {included : List Path} {p : Proc}
    (h : startQuarantine sha256 run reason included stamp = some ⟨run', some p⟩) :
    run' = run ∧ plannedPaths run.files included = .ok p.journal.moves ∧
      ¬lexists run.files [quarantineName, stamp] ∧
      (∀ j, run.record.pending ≠ some (.quarantine j)) ∧ p.journal.error = none ∧
      p = ⟨[quarantineName, stamp],
        { unlist run.record p.journal.moves with
          pending := some (.quarantine (journalPath [quarantineName, stamp])) }, p.journal, .journal⟩ := by
  unfold startQuarantine at h
  split at h
  · cases h
  · next hpend =>
    split at h
    · cases h
    · cases h
    · next paths _ hplan =>
      dsimp only at h
      split_ifs at h with hfresh
      cases h
      exact ⟨rfl, hplan, hfresh, fun j hj => hpend j hj, rfl, rfl⟩

section Main
variable (sha256 : File → String) (runName : String)

/-- What a quarantine started in `r₀` with `p₀` in memory keeps in a state `s`; `fin none` is
where it ends undisturbed, `fin error` the same with the error of a roll-back in the journal. -/
structure CrashSafe (mayFail : Bool) (r₀ : Run) (p₀ : Proc) (fin : Option String → Run) (s : State) :
    Prop where
  onePlace : ∀ rel ∈ p₀.journal.moves,
    Xor (lexists s.run.files rel) (lexists s.run.files (p₀.dest ++ rel))
  contents : ∃ moved own, moved <+: p₀.journal.moves ∧
    s.run.files = relocate p₀.dest moved r₀.files ++ own ∧
    ∀ e ∈ own, e.1 = journalPath p₀.dest ∨ e.1 = notePath p₀.dest
  unlisted : (∃ rel ∈ p₀.journal.moves, lexists s.run.files (p₀.dest ++ rel)) →
    ∀ t, Runs.Reach (step sha256 runName) (InScope mayFail) s t →
      ∀ p ∈ t.run.record.packages.keys, ¬∃ rel ∈ p₀.journal.moves, rel <+: p
  notCurrent : s.run.record.pending ≠ none → ∀ rel, ¬Current sha256 s.run rel
  recovers : ∀ j, s.run.record.pending = some (.quarantine j) →
    ∃ error, (mayFail = false → error = none) ∧
      Runs.run (step sha256 runName) (.stop s.run)
        (.recover :: List.replicate (p₀.journal.moves.length + 3) .step) = some (.stop (fin error))
  refuses : (∀ j, s.run.record.pending ≠ some (.quarantine j)) →
    step sha256 runName (.stop s.run) .recover = some (.stop s.run) ∧
      ((∃ error, (mayFail = false → error = none) ∧ s.run = fin error) ∨
        ∀ rel ∈ p₀.journal.moves, lexists s.run.files rel)

theorem crashSafe_of_inv {S : Setting} {s : State} (h : S.Inv s) :
    CrashSafe sha256 S.runName S.mayFail ⟨S.files, S.record⟩
      ⟨S.dest, S.recordPlanned, S.journal, .journal⟩ S.finished s where
  onePlace _ hrel := h.1.one_place hrel
  contents := by
    obtain ⟨k, own, -, hfiles, hown⟩ := h.1.files_eq
    exact ⟨S.paths.take k, own, List.take_prefix k S.paths, hfiles, hown⟩
  unlisted := by
    rintro ⟨rel, hrel, hmoved⟩ t hreach
    have ht := hreach.invariant (h.recorded hrel hmoved) fun t a u ht hg hu =>
      ({ S with recorded := true } : Setting).inv_step sha256 ht hg hu
    exact fun p hp => ht.1.unlisted rfl hp
  notCurrent hp := by
    obtain ⟨p, hp⟩ := Option.ne_none_iff_exists'.mp hp
    exact not_current_of_pending hp
  recovers _ hp := h.1.recovers hp
  refuses hp := ⟨congrArg some (Setting.startRecover_of_not_pending hp), h.1.at_rest hp⟩

/-- A quarantine, cut off anywhere, recovered any number of times and cut off again. -/
theorem quarantine_crash_safe (mayFail : Bool) {r₀ r₁ : Run} {reason stamp : String}
    {included : List Path} {p₀ : Proc}
    (hstart : startQuarantine sha256 r₀ reason included stamp = some ⟨r₁, some p₀⟩)
    (hown : ∀ rel ∈ p₀.journal.moves, ∀ name ∈ rel.head?, name ∉ ownNames) :
    plannedPaths r₀.files included = .ok p₀.journal.moves ∧
    ∃ fin : Option String → Run,
      Runs.run (step sha256 runName) ⟨r₁, some p₀⟩
        (List.replicate (p₀.journal.moves.length + 5) .step) = some (.stop (fin none)) ∧
      (∀ error, fin error =
        writeJournal (fin none) p₀.dest { p₀.journal with status := .done, error }) ∧
      ∀ s, Runs.Reach (step sha256 runName) (InScope mayFail) ⟨r₁, some p₀⟩ s →
        CrashSafe sha256 runName mayFail r₀ p₀ fin s := by
  obtain ⟨rfl, hplan, hfresh, hpend, herr, hp₀⟩ := startQuarantine_some hstart
  obtain ⟨hapart, htake⟩ := plannedPaths_ok hplan
  let S : Setting := ⟨r₁.files, r₁.record, stamp, p₀.journal, runName, mayFail, false, hapart, htake,
    hown, hfresh, hpend, herr⟩
  have hstart : (⟨r₁, some p₀⟩ : State) = S.start := by rw [hp₀]; rfl
  refine ⟨hplan, S.finished, ?_, fun error => ?_, fun s hs => ?_⟩
  · rw [hstart]
    exact S.run_uninterrupted
  · rw [hp₀]
    simp only [writeJournal, Setting.finished]
    exact congrArg (Run.mk · S.recordEnd) (S.write_journal_moved _ _ _ _).symm
  · rw [hstart] at hs
    have hinv : S.Inv s := hs.invariant (S.inv_start rfl) fun t a u ht hg hu => S.inv_step sha256 ht hg hu
    rw [hp₀]
    exact crashSafe_of_inv sha256 hinv

end Main

/-! ### One release directory, quarantined -/

/-- SHA-256 of the one file below. -/
def releaseDigest : File → String
  | .data "{}" => "44136fa355b3678a1146ad16f7e8649e94fb4fc21fe77e8310c060f61caaff8a"
  | _ => ""

def releaseRun : Run :=
  ⟨[(["release", "release.json"], .data "{}")],
    ⟨1, none, .ofList [(["release"], ⟨"20250101T000000Z", "44136fa3"⟩)]⟩⟩

def releaseDest : Path := [quarantineName, "20250102T000000Z"]

def releaseProc : Proc where
  dest := releaseDest
  record := ⟨1, some (.quarantine (journalPath releaseDest)), .empty⟩
  journal := ⟨.moving, "rejected", [["release"]], [(["release", "release.json"],
    "44136fa355b3678a1146ad16f7e8649e94fb4fc21fe77e8310c060f61caaff8a")], none⟩
  phase := .journal

theorem quarantine_crash_safe_release :
    startQuarantine releaseDigest releaseRun "rejected" [] "20250102T000000Z" =
      some ⟨releaseRun, some releaseProc⟩ ∧
    ∃ (fin : Option String → Run) (s : State),
      Runs.guardedRun (step releaseDigest "run") (InScope true) ⟨releaseRun, some releaseProc⟩
        [.step, .step, .step, .kill] = some s ∧
      CrashSafe releaseDigest "run" true releaseRun releaseProc fin s := by
  have hstart : startQuarantine releaseDigest releaseRun "rejected" [] "20250102T000000Z" =
      some ⟨releaseRun, some releaseProc⟩ := by decide +kernel
  obtain ⟨-, fin, -, -, hsafe⟩ :=
    quarantine_crash_safe releaseDigest "run" true hstart (by decide +kernel)
  obtain ⟨s, hs⟩ : ∃ s, Runs.guardedRun (step releaseDigest "run") (InScope true)
      ⟨releaseRun, some releaseProc⟩ [.step, .step, .step, .kill] = some s :=
    Option.isSome_iff_exists.mp (by decide +kernel)
  exact ⟨hstart, fin, s, hs, hsafe s (Runs.reach_of_guardedRun .refl hs)⟩

/-- Cut off between the journal and the record, a quarantine is not there for `recover`: the
directory stays in the run, while the quarantine alone moves it. -/
theorem recover_refuses_before_record :
    (Runs.run (step releaseDigest "run") (.stop releaseRun)
      [.quarantine "rejected" [] "20250102T000000Z", .step, .kill, .recover]).map
        (fun s => (s.proc.isSome, decide (lexists s.run.files ["release"]))) = some (false, true) ∧
    (Runs.run (step releaseDigest "run") (.stop releaseRun)
      (.quarantine "rejected" [] "20250102T000000Z" :: List.replicate 6 .step)).map
        (fun s => (s.proc.isSome, decide (lexists s.run.files ["release"]))) = some (false, false) := by
  decide +kernel

end HarmonyMigration.Packages
