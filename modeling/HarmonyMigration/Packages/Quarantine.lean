import HarmonyMigration.Lib.Except
import HarmonyMigration.Packages.Record

/-! `quarantine.py`: what a quarantine takes, and the quarantine, its roll-back and its
recovery as sequences of file operations, each of which may fail or be the last one. -/

namespace HarmonyMigration.Packages

open FileTree

/-! ### The plan -/

def journalName : String := "QUARANTINE.json"
def noteName : String := "QUARANTINE.md"
def reserved : List String := [quarantineName, superseded, "PACKAGES.json", ".packages.lock", "."]

/-- Approval files beside a manifest, and their drafts. -/
def approvalFiles : List String :=
  ["safe-approve.json", "safe-approve.draft.json", "safe-revoke.json", "safe-revoke.draft.json",
    "approvals.json", "approvals.draft.json", "APPROVALS.md", "APPROVALS.draft.md"]

def approvalDirs : List String := ["approval", "approval-draft"]

def signablePaths (files : Files File) : List Path :=
  let names := (files.filterMap fun e => e.1.head?).dedup.insertionSort fun a b => a.toList ≤ b.toList
  names.flatMap fun name =>
    if ¬isDir files [name] ∨ name = quarantineName ∨ name = superseded then []
    else if name = "release" ∨ "release-".toList <+: name.toList then [[name]]
    else if lexists files [name, "manifest.json"] then
      (approvalFiles.filterMap fun f => if lexists files [name, f] then some [name, f] else none) ++
        approvalDirs.filterMap fun d => if isDir files [name, d] then some [name, d] else none
    else []

/-- An `--include` path that is inside the run, outside the tool's own places, and there. -/
def includable (files : Files File) (rel : Path) : Prop :=
  match rel with
  | [] => False
  | head :: _ => ¬"..".toList <+: head.toList ∧ head ∉ reserved ∧ lexists files rel

instance (files : Files File) (rel : Path) : Decidable (includable files rel) := by
  unfold includable
  cases rel <;> infer_instance

/-- Keep a path unless one kept before contains it. -/
def dropNested (sorted : List Path) : List Path :=
  sorted.foldl (fun unique rel =>
    if ∃ kept ∈ unique, kept <+: rel ∧ kept ≠ rel then unique else unique ++ [rel]) []

def checkIncluded (files : Files File) (rel : Path) : Except Path Path :=
  if includable files rel then .ok rel else .error rel

def plannedPaths (files : Files File) (included : List Path) : Except Path (List Path) :=
  (included.mapM (checkIncluded files)).map fun added =>
    dropNested (sortPaths (signablePaths files ++ added).dedup)

/-- What the plan promises of a path: it is there and outside the quarantine directory. -/
structure Takeable (files : Files File) (rel : Path) : Prop where
  lexists : lexists files rel
  head : ∃ name rest, rel = name :: rest ∧ name ≠ quarantineName

theorem takeable_signable {files : Files File} {rel : Path} (h : rel ∈ signablePaths files) :
    Takeable files rel := by
  unfold signablePaths at h
  obtain ⟨name, -, h⟩ := List.mem_flatMap.mp h
  split_ifs at h with h1 h2 h3
  · simp at h
  · obtain rfl := List.mem_singleton.mp h
    obtain ⟨hdir, hq, -⟩ := not_or.mp h1 |>.imp_right not_or.mp
    obtain ⟨e, he, hp, -⟩ := not_not.mp hdir
    exact ⟨⟨e, he, hp⟩, name, [], rfl, hq⟩
  · have hq : name ≠ quarantineName := (not_or.mp (not_or.mp h1).2).1
    rcases List.mem_append.mp h with h | h
    · obtain ⟨f, -, hf⟩ := List.mem_filterMap.mp h
      split_ifs at hf with hl
      obtain rfl := Option.some.inj hf
      exact ⟨hl, name, [f], rfl, hq⟩
    · obtain ⟨d, -, hd⟩ := List.mem_filterMap.mp h
      split_ifs at hd with hl
      obtain rfl := Option.some.inj hd
      obtain ⟨e, he, hp, -⟩ := hl
      exact ⟨⟨e, he, hp⟩, name, [d], rfl, hq⟩
  · simp at h

theorem takeable_included {files : Files File} {rel : Path} (h : includable files rel) :
    Takeable files rel := by
  cases rel with
  | nil => exact h.elim
  | cons name rest =>
    obtain ⟨-, hres, hl⟩ := h
    refine ⟨hl, name, rest, rfl, ?_⟩
    rintro rfl
    exact hres (by simp [reserved])

theorem dropNested_spec {sorted : List Path} (hnd : sorted.Nodup)
    (hs : sorted.Pairwise fun a b => ¬b <+: a) :
    (dropNested sorted).Pairwise Apart ∧ (dropNested sorted).Sublist sorted := by
  induction sorted using List.reverseRecOn with
  | nil => exact ⟨List.Pairwise.nil, List.Sublist.refl _⟩
  | append_singleton l rel ih =>
    obtain ⟨hnl, -, hdis⟩ := List.nodup_append.mp hnd
    obtain ⟨hsl, -, hcross⟩ := List.pairwise_append.mp hs
    obtain ⟨hap, hsub⟩ := ih hnl hsl
    have hfold : dropNested (l ++ [rel]) =
        if ∃ kept ∈ dropNested l, kept <+: rel ∧ kept ≠ rel then dropNested l
        else dropNested l ++ [rel] := by
      rw [dropNested, List.foldl_append]
      rfl
    rw [hfold]
    split_ifs with hkept
    · exact ⟨hap, hsub.trans (List.sublist_append_left l [rel])⟩
    · refine ⟨List.pairwise_append.mpr ⟨hap, List.pairwise_singleton _ _, ?_⟩,
        hsub.append (List.Sublist.refl _)⟩
      intro kept hk r hr
      obtain rfl := List.mem_singleton.mp hr
      have hkl := hsub.subset hk
      refine ⟨fun hp => hkept ⟨kept, hk, hp, ?_⟩, hcross kept hkl r hr⟩
      exact hdis kept hkl r hr

/-- The planned paths are there, outside the quarantine directory, and none contains another. -/
theorem plannedPaths_ok {files : Files File} {included paths : List Path}
    (h : plannedPaths files included = .ok paths) :
    paths.Pairwise Apart ∧ ∀ rel ∈ paths, Takeable files rel := by
  obtain ⟨added, hadd, rfl⟩ := Except.of_map_ok h
  set all := (signablePaths files ++ added).dedup with hall
  have htake : ∀ rel ∈ all, Takeable files rel := by
    intro rel hrel
    rw [hall, List.mem_dedup, List.mem_append] at hrel
    rcases hrel with hrel | hrel
    · exact takeable_signable hrel
    · obtain ⟨r, -, hr⟩ := Except.ok_of_mem_right (Except.forall₂_of_mapM_ok hadd) hrel
      unfold checkIncluded at hr
      split_ifs at hr with hi
      obtain rfl := Except.ok.inj hr
      exact takeable_included hi
  have hnd : (sortPaths all).Nodup := sortPaths_nodup.mpr (List.nodup_dedup _)
  have hs : (sortPaths all).Pairwise fun a b => ¬b <+: a := by
    refine ((sortPaths_sorted all).and hnd).imp_of_mem ?_
    rintro a b - hb ⟨hle, hne⟩ hp
    obtain ⟨name, rest, rfl, -⟩ := (htake b (mem_sortPaths.mp hb)).head
    exact not_text_le_of_prefix (by simp) hp hne.symm hle
  obtain ⟨hap, hsub⟩ := dropNested_spec hnd hs
  exact ⟨hap, fun rel hrel => htake rel (mem_sortPaths.mp (hsub.subset hrel))⟩

/-! ### File operations -/

inductive Phase where
  | journal | record
  | move (k : ℕ)
  | putBack (k : ℕ) (error : String)
  | rollJournal (error : String)
  | rollRecord
  | check (k : ℕ) (missing : Bool)
  | note | doneJournal | clear
  deriving DecidableEq

/-- A running quarantine or recovery, with what it holds in memory. -/
structure Proc where
  dest : Path
  record : Record
  journal : Journal
  phase : Phase
  deriving DecidableEq

structure State where
  run : Run
  proc : Option Proc
  deriving DecidableEq

inductive Action where
  | quarantine (reason : String) (included : List Path) (stamp : String)
  | recover
  | step
  | fail (error : String) (fault : Fault)
  | kill

def State.stop (run : Run) : State := ⟨run, none⟩

def Proc.goto (p : Proc) (run : Run) (phase : Phase) : State := ⟨run, some { p with phase }⟩

def journalPath (dest : Path) : Path := dest ++ [journalName]

def writeJournal (run : Run) (dest : Path) (j : Journal) : Run :=
  { run with files := write (journalPath dest) (.journal j) run.files }

def Record.clear (record : Record) : Record := { record with pending := none }

section Machine
variable (sha256 : File → String) (runName : String)

def filesUnder (files : Files File) (rel : Path) : List (Path × String) :=
  (sortPaths ((files.filter fun e => rel <+: e.1).map Prod.fst)).filterMap fun p =>
    (files.find? fun e => e.1 = p).map fun e => (p, sha256 e.2)

def notePath (dest : Path) : Path := dest ++ [noteName]

def writeNote (run : Run) (dest : Path) (j : Journal) : Run :=
  { run with files := write (notePath dest) (.note runName dest j.reason j.files) run.files }

/-- `quarantine` up to its first write; refusals change nothing. -/
def startQuarantine (run : Run) (reason : String) (included : List Path) (stamp : String) : Option State :=
  let dest := [quarantineName, stamp]
  match run.record.pending with
  | some (.quarantine _) => some (.stop run)
  | _ => match plannedPaths run.files included with
    | .error _ => some (.stop run)
    | .ok [] => some (.stop run)
    | .ok paths =>
      -- the name is counted up until nothing has it
      if lexists run.files dest then none
      else
        let journal : Journal := ⟨.moving, reason, paths, paths.flatMap (filesUnder sha256 run.files), none⟩
        let record := { unlist run.record paths with pending := some (.quarantine (journalPath dest)) }
        some ⟨run, some ⟨dest, record, journal, .journal⟩⟩

def afterMove (p : Proc) (k : ℕ) : Phase := if k < p.journal.moves.length then .move k else .note

/-- The end of a recovery's loop stops on paths that were not in exactly one place. -/
def afterCheck (p : Proc) (run : Run) (k : ℕ) (missing : Bool) : State :=
  if k < p.journal.moves.length then p.goto run (.check k missing)
  else if missing then .stop run
  else { p with record := unlist p.record p.journal.moves }.goto run .note

/-- `recover` up to its first change. -/
def startRecover (run : Run) : State :=
  match run.record.pending with
  | some (.quarantine jpath) => match (run.files.find? fun e => e.1 = jpath).map Prod.snd with
    | some (.journal j) => afterCheck ⟨jpath.dropLast, run.record, j, .check 0 false⟩ run 0 false
    | _ => .stop run
  | _ => .stop run

def afterPutBack (k : ℕ) (error : String) : Phase := if 0 < k then .putBack k error else .rollJournal error

/-- The next file operation, done. -/
def stepOk (p : Proc) (run : Run) : Option State :=
  match p.phase with
  | .journal => some (p.goto (writeJournal run p.dest p.journal) .record)
  | .record =>
    some ({ p with record := p.record.bump }.goto (writeRecord run p.record .none) (afterMove p 0))
  | .move k => (p.journal.moves[k]?).map fun rel =>
    p.goto { run with files := rename rel (p.dest ++ rel) run.files } (afterMove p (k + 1))
  | .putBack k error => (p.journal.moves[k - 1]?).map fun rel =>
    p.goto { run with files := rename (p.dest ++ rel) rel run.files } (afterPutBack (k - 1) error)
  | .rollJournal error =>
    some (p.goto (writeJournal run p.dest { p.journal with status := .rolledBack, error := some error })
      .rollRecord)
  | .rollRecord => some (.stop (writeRecord run p.record.clear .none))
  | .check k missing => (p.journal.moves[k]?).map fun rel =>
    let src := lexists run.files rel
    let dst := lexists run.files (p.dest ++ rel)
    if dst ∧ ¬src then afterCheck p run (k + 1) missing
    else if src ∧ ¬dst then
      afterCheck p { run with files := rename rel (p.dest ++ rel) run.files } (k + 1) missing
    else afterCheck p run (k + 1) true
  | .note =>
    some (p.goto (writeNote runName run p.dest p.journal) .doneJournal)
  | .doneJournal =>
    some (p.goto (writeJournal run p.dest { p.journal with status := .done }) .clear)
  | .clear => some (.stop (writeRecord run p.record.clear .none))

/-- The next file operation, raising: before the moves the new directory is removed, a failed
move is rolled back, anything else stops. -/
def stepFail (p : Proc) (run : Run) (error : String) (fault : Fault) : State :=
  let rmtree (run : Run) : Run := { run with files := run.files.filter fun e => ¬p.dest <+: e.1 }
  let written (j : Journal) : Run := if fault = .after then writeJournal run p.dest j else run
  match p.phase with
  | .journal => .stop (rmtree run)
  | .record => .stop (rmtree (writeRecord run p.record fault))
  | .move k => p.goto run (afterPutBack k error)
  | .rollJournal e => .stop (written { p.journal with status := .rolledBack, error := some e })
  | .doneJournal => .stop (written { p.journal with status := .done })
  | .rollRecord | .clear => .stop (writeRecord run p.record.clear fault)
  | .putBack _ _ | .check _ _ | .note => .stop run

def step (s : State) : Action → Option State
  | .quarantine reason included stamp =>
    if s.proc.isNone then startQuarantine sha256 s.run reason included stamp else none
  | .recover => if s.proc.isNone then some (startRecover s.run) else none
  | .step => s.proc.bind fun p => stepOk runName p s.run
  | .fail error fault => s.proc.map fun p => stepFail p s.run error (if fault = .none then .before else fault)
  | .kill => s.proc.map fun _ => .stop s.run

end Machine

end HarmonyMigration.Packages
