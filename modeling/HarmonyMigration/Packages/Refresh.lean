import HarmonyMigration.Lib.Runs
import HarmonyMigration.Packages.Quarantine

/-! `package.py`: a refresh (`staged`) with its error path (`fail_closed`), in which every
file operation may raise. -/

namespace HarmonyMigration.Packages

open FileTree

/-- One package of a refresh: its path, the directory `mkdtemp` makes for it, and what the
block writes there. -/
structure Target where
  rel : Path
  staging : Path
  files : Files File

/-- Which operations of a refresh raise: by its place in the order, one of those between the
two record writes; a move to `superseded/` in `fail_closed`, by its target. -/
structure Faults where
  firstWrite : Fault
  operation : Option ℕ
  commit : Fault
  invalidate : Path → Fault
  rewrite : Fault

structure Refresh where
  targets : List Target
  replace : Bool
  generation : String
  stamp : String
  reason : String
  faults : Faults

def Refresh.rels (r : Refresh) : List Path := r.targets.map Target.rel

/-! ### File operations -/

def stagingPrefix (rel : Path) : String := "." ++ rel.getLast?.getD "" ++ "-staging-"

/-- Staging directories of an interrupted refresh are removed. -/
def dropLeftovers (targets : List Path) (files : Files File) : Files File :=
  files.filter fun e => ¬∃ rel ∈ targets, rel.dropLast <+: e.1 ∧
    ∃ name ∈ e.1[rel.dropLast.length]?, (stagingPrefix rel).toList <+: name.toList

/-- Where `set_aside` moves a target: the stamped name, counted up until nothing has it. -/
def asidePath (files : Files File) (rel : Path) (stamp : String) : Path :=
  let name := rel.getLast?.getD "" ++ "-" ++ stamp
  let dir := rel.dropLast ++ [superseded]
  let names := name :: (List.range files.length).map fun n => name ++ "-" ++ toString (n + 2)
  ((names.map fun n => dir ++ [n]).find? fun dest => ¬lexists files dest).getD (dir ++ [name])

def setAside (files : Files File) (rel : Path) (stamp : String) (note : Option File) :
    Option (Files File) :=
  if ¬lexists files rel then some files
  else if ¬isDir files rel then none
  else
    let dest := asidePath files rel stamp
    let moved := rename rel dest files
    some (match note with
      | none => moved
      | some text => write (dest ++ [invalidated]) text moved)

/-- `os.replace` of the staged directory: it has to be there, and nothing at the target. -/
def place (t : Target) (files : Files File) : Option (Files File) :=
  if lexists files t.staging ∧ ¬lexists files t.rel then some (rename t.staging t.rel files) else none

section Staged
variable (sha256 : File → String)

/-- A target's files with the `GENERATION` they are sealed with. -/
def Target.generated (t : Target) (generation : String) : Files File :=
  write [generationName] (.data generation) t.files

def Target.entry (t : Target) (generation : String) : Entry :=
  ⟨generation, sha256 (manifestOf sha256 (t.generated generation))⟩

def stageFiles (t : Target) (pkg : Files File) (files : Files File) : Files File :=
  (files.filter fun e => ¬t.staging <+: e.1) ++ pkg.map fun e => (t.staging ++ e.1, e.2)

/-- What happens between the two record writes, in order. -/
def operations (r : Refresh) : List (Files File → Option (Files File)) :=
  r.targets.map (fun t files => some (stageFiles t t.files files)) ++
  r.targets.map (fun t files => some (stageFiles t (sealed sha256 (t.generated r.generation)) files)) ++
  r.targets.map (fun t files => setAside files t.rel r.stamp none) ++
  r.targets.map place

/-- The operations up to the first that raises; whether none did. -/
def runOperations : List (Files File → Option (Files File)) → Option ℕ → Files File → Files File × Bool
  | [], _, files => (files, true)
  | _ :: _, some 0, files => (files, false)
  | op :: ops, k, files => match op files with
    | none => (files, false)
    | some files => runOperations ops (k.map Nat.pred) files

/-- One target in `fail_closed`: an exception before the move leaves it, one behind it only
loses the note. -/
def invalidateTarget (r : Refresh) (files : Files File) (t : Target) : Files File :=
  match r.faults.invalidate t.rel with
  | .none => (setAside files t.rel r.stamp (some (.invalidation t.rel r.reason))).getD files
  | .after => (setAside files t.rel r.stamp none).getD files
  | .before => files

def failClosed (r : Refresh) (run : Run) (record : Record) : Run :=
  let unstaged := run.files.filter fun e => ¬∃ t ∈ r.targets, t.staging <+: e.1
  writeRecord { run with files := r.targets.foldl (invalidateTarget r) unstaged }
    record.clear r.faults.rewrite

/-- How a refresh ends: before its first record write, in its error path, or done. -/
inductive Outcome where
  | notStarted | failed | done
  deriving DecidableEq, Repr

/-- The record with every target listed, as the commit writes it. -/
def Record.publish (record : Record) (r : Refresh) : Record :=
  { record with
    pending := none
    packages := r.targets.foldl (fun d t => d.insert t.rel (t.entry sha256 r.generation)) record.packages }

/-- `staged` from the look at what exists to the commit: the run and the record about to be
written, or how it ended. -/
def startRefresh (run : Run) (r : Refresh) : Except (Run × Outcome) (Run × Record) :=
  if r.replace = false ∧ ∃ t ∈ r.targets, lexists run.files t.rel then .error (run, .notStarted)
  else
    let record := { unlist run.record r.rels with pending := some (.refresh (sortPaths r.rels)) }
    match r.faults.firstWrite with
    | .before => .error (run, .notStarted)
    | .after => .error (writeRecord run record .after, .failed)
    | .none =>
      let run := writeRecord run record .none
      let (files, ok) := runOperations (operations sha256 r) r.faults.operation run.files
      if ok then .ok ({ run with files }, record.bump.publish sha256 r)
      else .error (failClosed r { run with files } record.bump, .failed)

/-- `staged` up to the commit. -/
def prepared (run : Run) (r : Refresh) : Except (Run × Outcome) (Run × Record) :=
  if ¬r.rels.Nodup then .error (run, .notStarted)
  else match run.record.pending with
    | some (.quarantine _) => .error (run, .notStarted)
    | some (.refresh targets) =>
      startRefresh sha256 { run with files := dropLeftovers targets run.files } r
    | none => startRefresh sha256 run r

def staged (run : Run) (r : Refresh) : Run × Outcome :=
  match prepared sha256 run r with
  | .error ended => ended
  | .ok (run, record) => match r.faults.commit with
    | .none => (writeRecord run record .none, .done)
    -- the error path goes on with the record that already lists the targets
    | fault => (failClosed r (writeRecord run record fault) record.bump, .failed)

end Staged

end HarmonyMigration.Packages
