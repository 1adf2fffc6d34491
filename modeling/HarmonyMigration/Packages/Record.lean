import HarmonyMigration.Lib.Dict
import HarmonyMigration.Lib.FileTree

/-! `package.py`: the run record `PACKAGES.json`, sealed packages, and `verify`. -/

namespace HarmonyMigration.Packages

open FileTree

def manifestName : String := "PACKAGE.sha256"
def generationName : String := "GENERATION"
def superseded : String := "superseded"
def quarantineName : String := "quarantine"
def invalidated : String := "INVALIDATED.md"

inductive JournalStatus where
  | moving | rolledBack | done
  deriving DecidableEq, Repr

/-- `QUARANTINE.json`. -/
structure Journal where
  status : JournalStatus
  reason : String
  moves : List Path
  files : List (Path × String)
  error : Option String
  deriving DecidableEq

/-- File contents: plain text, and the texts the tools read back or write as data. -/
inductive File where
  | data (text : String)
  | manifest (lines : List (String × Path))
  | journal (j : Journal)
  | note (runName : String) (dest : Path) (reason : String) (files : List (Path × String))
  | invalidation (target : Path) (reason : String)
  deriving DecidableEq

/-- One listed package. -/
structure Entry where
  generation : String
  packageSha256 : String
  deriving DecidableEq

inductive Pending where
  | refresh (targets : List Path)
  | quarantine (journal : Path)
  deriving DecidableEq

structure Record where
  revision : ℕ
  pending : Option Pending
  packages : Dict Path Entry
  deriving DecidableEq

/-- The files of a run, and its record. -/
structure Run where
  files : Files File
  record : Record
  deriving DecidableEq

/-- How a file operation ends: done, or with an exception before or after its `os.replace`. -/
inductive Fault where
  | none | before | after
  deriving DecidableEq, Repr

/-- The record at its next revision, as `write_record` leaves it in memory. -/
def Record.bump (record : Record) : Record := { record with revision := record.revision + 1 }

/-- `write_record`: what is on disk afterwards. -/
def writeRecord (run : Run) (record : Record) : Fault → Run
  | .none | .after => { run with record := record.bump }
  | .before => run

/-- `unlist`: drop every package at or below one of `paths`. -/
def unlist (record : Record) (paths : List Path) : Record :=
  { record with packages := record.packages.filterKeys fun p => ¬∃ q ∈ paths, q <+: p }

theorem mem_unlist {record : Record} {paths : List Path} {p : Path} :
    p ∈ (unlist record paths).packages.keys ↔
      p ∈ record.packages.keys ∧ ¬∃ q ∈ paths, q <+: p := by
  simp only [unlist, Dict.mem_keys_filterKeys, decide_eq_true_eq]

section Seal
variable (sha256 : File → String)

/-- `seal`: the manifest over every other file, in the order of their names. -/
def manifestOf (pkg : Files File) : File :=
  let names := sortPaths ((pkg.map Prod.fst).filter fun p => p ≠ [manifestName])
  .manifest (names.filterMap fun p => (pkg.find? fun e => e.1 = p).map fun e => (sha256 e.2, p))

def sealed (pkg : Files File) : Files File := write [manifestName] (manifestOf sha256 pkg) pkg

inductive Problem where
  | missing | noManifest | manifestNotListed
  | notInManifest (name : Path) | fileMissing (name : Path) | differs (name : Path)
  | generationNotListed | noGeneration
  | operationPending (p : Pending)
  | notInRecord
  deriving DecidableEq

/-- The lines of a manifest; a file that is none has no lines. -/
def File.lines : File → List (String × Path)
  | .manifest lines => lines
  | _ => []

/-- `check_package`: why the package at `rel` is not the one `entry` lists. -/
def checkPackage (files : Files File) (rel : Path) (entry : Entry) : List Problem :=
  if ¬isDir files rel then [.missing]
  else
    let pkg := below files rel
    match pkg.find? fun e => e.1 = [manifestName] with
    | none => [.noManifest]
    | some manifest =>
      let listed := Dict.ofList (manifest.2.lines.map fun l => (l.2, l.1))
      let names := sortPaths (((pkg.map Prod.fst).filter fun p => p ≠ [manifestName]) ++ listed.keys).dedup
      (if sha256 manifest.2 ≠ entry.packageSha256 then [.manifestNotListed] else []) ++
      (names.filterMap fun name =>
        match listed.get? name, pkg.find? fun e => e.1 = name with
        | none, _ => some (.notInManifest name)
        | some _, none => some (.fileMissing name)
        | some digest, some f => if sha256 f.2 ≠ digest then some (.differs name) else none) ++
      match pkg.find? fun e => e.1 = [generationName] with
      | some f => if f.2 ≠ .data entry.generation then [.generationNotListed] else []
      | none => [.noGeneration]

/-- `verify` for one path. -/
def verifyOne (run : Run) (rel : Path) : Bool × List Problem :=
  match run.record.packages.get? rel with
  | none => (false, [.notInRecord])
  | some entry =>
    let problems := (run.record.pending.map .operationPending).toList ++ checkPackage sha256 run.files rel entry
    (problems = [], problems)

/-- Directories with a manifest that the record does not list. -/
def unlistedPackages (run : Run) : List Path :=
  (run.files.filterMap fun e =>
    if e.1.getLast? = some manifestName then some e.1.dropLast else none).filter fun rel =>
      rel ≠ [] ∧ rel ∉ run.record.packages.keys ∧
        ∀ d ∈ rel, d ≠ superseded ∧ d ≠ quarantineName ∧ d.toList.head? ≠ some '.'

/-- `verify` of a whole run: every listed package, then every unlisted one. -/
def verify (run : Run) : List (Path × Bool × List Problem) :=
  (sortPaths run.record.packages.keys).map (fun rel => (rel, verifyOne sha256 run rel)) ++
    (unlistedPackages run).map fun rel => (rel, false, [.notInRecord])

/-- The package at `rel` is reported current. -/
def Current (run : Run) (rel : Path) : Prop := ∃ ps, (rel, true, ps) ∈ verify sha256 run

variable {sha256}

theorem current_iff {run : Run} {rel : Path} :
    Current sha256 run rel ↔ (verifyOne sha256 run rel).1 = true := by
  unfold Current verify
  simp only [List.mem_append, List.mem_map, mem_sortPaths]
  refine ⟨?_, fun h => ?_⟩
  · rintro ⟨ps, ⟨r, -, hr⟩ | ⟨r, -, hr⟩⟩
    · obtain ⟨rfl, hv⟩ := Prod.mk.inj hr
      rw [hv]
    · cases hr
  · refine ⟨(verifyOne sha256 run rel).2, Or.inl ⟨rel, ?_, by rw [← h]⟩⟩
    by_contra hn
    rw [verifyOne, Dict.get?_eq_none_iff.mpr hn] at h
    cases h

/-- Only a listed package is ever current. -/
theorem listed_of_current {run : Run} {rel : Path} (h : Current sha256 run rel) :
    rel ∈ run.record.packages.keys := by
  by_contra hn
  rw [current_iff, verifyOne, Dict.get?_eq_none_iff.mpr hn] at h
  cases h

/-- Nothing is current while an operation is pending. -/
theorem not_current_of_pending {run : Run} {p : Pending} (h : run.record.pending = some p) (rel : Path) :
    ¬Current sha256 run rel := by
  rw [current_iff, verifyOne]
  split
  · simp
  · simp [h]

end Seal

end HarmonyMigration.Packages
