import HarmonyMigration.Airdrop.One1
import HarmonyMigration.Lib.Dict
import HarmonyMigration.Lib.ExceptRun
import HarmonyMigration.Lib.SortedBy
import Mathlib.Data.Char
import Mathlib.Data.List.Lex

/-! `extend-account-activity merge`: two scans of account activity over disjoint candidates become one, with a breakdown of its
rows by where they come from. -/

namespace HarmonyMigration.ExtendActivity

open Airdrop Airdrop.One1 Decimal Except

inductive Error
  | keysNotIncreasing (line : ℕ)
  | duplicateKey (line : ℕ)
  | overlap
  | duplicateCandidate (line : ℕ)
  | notCandidateSet
  | addressMismatch (key : Text)
  | summaryNotPassed
  | summariesDisagree
  | existingHash
  | incrementalHash
  | unknownProvenance
  | countsDoNotClose
  deriving DecidableEq

/-! ### Files -/

structure ActivityRow where
  secureKey : Text
  address : Text
  timeUtc : Text
  timestampUnix : Text
  block : Text
  shard : Text
  kind : Text
  txHash : Text
  index : Text
  detail : Text
  deriving DecidableEq

structure Candidate where
  secureKey : Text
  address : Text
  deriving DecidableEq

inductive Provenance
  | databaseDerived
  | rpcDerived
  deriving DecidableEq

def Provenance.text : Provenance → Text
  | .databaseDerived => "database-derived".toList
  | .rpcDerived => "RPC-derived".toList

def Provenance.other : Provenance → Provenance
  | .databaseDerived => .rpcDerived
  | .rpcDerived => .databaseDerived

inductive Classification
  | only (kind : Provenance)
  | hybrid
  deriving DecidableEq

structure Source where
  rows : ℕ
  activityFound : ℕ
  activityNotFound : ℕ
  sourceKind : Text
  summary : Text
  summarySha256 : Text
  deriving DecidableEq

structure Bucket where
  rows : ℕ
  activityFound : ℕ
  activityNotFound : ℕ
  sourceKind : Text
  sources : List Source
  /-- The path and the hash of the summary where there is one source. -/
  summary : Option (Text × Text)
  deriving DecidableEq

/-- The summary of a scan or of a merge; a path is empty where it is not given. -/
structure Summary where
  passed : Bool
  dbPath : Text
  explorerDbPath : Text
  rpc : Text
  sourceKind : Text
  classification : Option Classification
  provenanceBreakdown : Dict Provenance Bucket
  candidates : ℕ
  shard : ℕ
  cutoffBlock : ℕ
  cutoffHash : Text
  activityFound : ℕ
  activityNotFound : ℕ
  outputSha256 : Text
  deriving DecidableEq

/-! ### The source's functions -/

section Source

variable (u : Lower)

def loadActivityRow (st : Dict Text ActivityRow × Option Text) (row : ActivityRow × ℕ) :
    Except Error (Dict Text ActivityRow × Option Text) :=
  let key := u.lower row.1.secureKey
  (require (∀ previous ∈ st.2, previous < key) (.keysNotIncreasing row.2)).bind fun _ =>
  (require (key ∉ st.1.keys) (.duplicateKey row.2)).map fun _ => (st.1.insert key row.1, some key)

/-- The rows by their keys in lower case. -/
def loadActivity (rows : List ActivityRow) : Except Error (Dict Text ActivityRow) :=
  ((rows.zipIdx 2).foldlM (loadActivityRow u) (Dict.empty, none)).map Prod.fst

def loadCandidate (st : Dict Text Text) (row : Candidate × ℕ) : Except Error (Dict Text Text) :=
  let key := u.lower row.1.secureKey
  (require (key ∉ st.keys) (.duplicateCandidate row.2)).map fun _ => st.insert key (u.lower row.1.address)

def loadCandidates (rows : List Candidate) : Except Error (Dict Text Text) :=
  (rows.zipIdx 2).foldlM (loadCandidate u) Dict.empty

def provenanceClassification (summary : Summary) : Except Error Provenance :=
  if summary.dbPath ≠ [] ∧ summary.explorerDbPath ≠ [] then .ok .databaseDerived
  else if summary.rpc ≠ [] ∨ "RPC".toList <:+: summary.sourceKind then .ok .rpcDerived
  else .error .unknownProvenance

def provenanceRowText (value : ℕ) (kind : Provenance) : Text :=
  thousands (render value) ++ ' ' :: kind.text ++ ' ' :: (if value = 1 then "row".toList else "rows".toList)

/-- One text for each source kind, in the order in which they first occur. -/
def bucketSourceKind (sources : List Source) : Text :=
  match (sources.map Source.sourceKind).eraseDups with
  | [kind] => kind
  | kinds => "multiple: ".toList ++ List.intercalate "; ".toList kinds

def bucketSummary : List Source → Option (Text × Text)
  | [source] => some (source.summary, source.summarySha256)
  | _ => none

/-- A bucket with one more source. -/
def Bucket.addSource (bucket : Bucket) (source : Source) : Bucket :=
  { bucket with rows := bucket.rows + source.rows, activityFound := bucket.activityFound + source.activityFound,
                activityNotFound := bucket.activityNotFound + source.activityNotFound,
                sources := bucket.sources ++ [source] }

/-- The texts that are written once the sources are known. -/
def Bucket.describe (bucket : Bucket) : Bucket :=
  { bucket with sourceKind := bucketSourceKind bucket.sources, summary := bucketSummary bucket.sources }

def sourceOf (summary : Summary) (path sha256 : Text) : Source :=
  ⟨summary.candidates, summary.activityFound, summary.activityNotFound, summary.sourceKind, path, sha256⟩

def provenanceBreakdown (existing incremental : Provenance) (existingSource incrementalSource : Source) :
    Dict Provenance Bucket :=
  let first := Dict.empty.insert existing (Bucket.addSource ⟨0, 0, 0, existingSource.sourceKind, [], none⟩ existingSource)
  let both := first.setdefault incremental ⟨0, 0, 0, incrementalSource.sourceKind, [], none⟩
  (both.update incremental fun bucket =>
    (bucket.getD ⟨0, 0, 0, [], [], none⟩).addSource incrementalSource).mapValues Bucket.describe

/-- The text that the result is described by. -/
def resultSourceKind (breakdown : Dict Provenance Bucket) : Classification → Text
  | .hybrid => "hybrid: ".toList ++ List.intercalate " plus ".toList
      ([Provenance.databaseDerived, .rpcDerived].filterMap fun kind =>
        (breakdown.get? kind).map fun bucket => provenanceRowText bucket.rows kind)
  | .only kind => kind.text ++ " activity".toList

/-- The paths of the two summaries. -/
structure Paths where
  existingSummary : Text
  incrementalSummary : Text
  deriving DecidableEq

variable (fileSha256 : List ActivityRow → Text) (summarySha256 : Summary → Text)

/-- The union of two files over a candidate file. -/
def mergeRecords (candidates : List Candidate) (existingRows incrementalRows : List ActivityRow) :
    Except Error (Dict Text ActivityRow) :=
  (loadActivity u existingRows).bind fun existing =>
  (loadActivity u incrementalRows).bind fun incremental =>
  (require (∀ key ∈ incremental.keys, key ∉ existing.keys) .overlap).bind fun _ =>
  let records := Dict.ofList (existing.entries ++ incremental.entries)
  (loadCandidates u candidates).bind fun candidateAddresses =>
  (require (records.keys ⊆ candidateAddresses.keys ∧ candidateAddresses.keys ⊆ records.keys) .notCandidateSet).bind fun _ =>
  (records.entries.mapM fun entry =>
    require (candidateAddresses.get? entry.1 = some (u.lower entry.2.address)) (.addressMismatch entry.1)).map fun _ => records

/-- The rows of the output in the order of their keys. -/
def outputRows (records : Dict Text ActivityRow) : List ActivityRow :=
  (records.entries.insertionSort fun a b => a.1 ≤ b.1).map Prod.snd

def mergedBreakdown (existing incremental : Summary) (paths : Paths) (existingKind incrementalKind : Provenance) :
    Dict Provenance Bucket :=
  provenanceBreakdown existingKind incrementalKind
    (sourceOf existing paths.existingSummary (summarySha256 existing))
    (sourceOf incremental paths.incrementalSummary (summarySha256 incremental))

/-- The summary that is written for the records. -/
def mergedSummary (existing incremental : Summary) (paths : Paths) (existingKind incrementalKind : Provenance)
    (records output : List ActivityRow) : Summary :=
  let classification := if existingKind = incrementalKind then .only existingKind else .hybrid
  let breakdown := mergedBreakdown summarySha256 existing incremental paths existingKind incrementalKind
  let found := records.countP (·.timestampUnix ≠ [])
  ⟨true, [], [], [], resultSourceKind breakdown classification, some classification, breakdown, records.length,
    existing.shard, existing.cutoffBlock, existing.cutoffHash, found, records.length - found, fileSha256 output⟩

def merge (candidates : List Candidate) (existing incremental : List ActivityRow × Summary) (paths : Paths) :
    Except Error (List ActivityRow × Summary) :=
  (mergeRecords u candidates existing.1 incremental.1).bind fun records =>
  (require (existing.2.passed ∧ incremental.2.passed) .summaryNotPassed).bind fun _ =>
  (require (existing.2.shard = incremental.2.shard ∧ existing.2.cutoffBlock = incremental.2.cutoffBlock ∧
    existing.2.cutoffHash = incremental.2.cutoffHash) .summariesDisagree).bind fun _ =>
  (require (existing.2.outputSha256 = fileSha256 existing.1) .existingHash).bind fun _ =>
  (require (incremental.2.outputSha256 = fileSha256 incremental.1) .incrementalHash).bind fun _ =>
  -- The output file is in place from here on.
  (provenanceClassification existing.2).bind fun existingKind =>
  (provenanceClassification incremental.2).bind fun incrementalKind =>
  (require (((mergedBreakdown summarySha256 existing.2 incremental.2 paths existingKind incrementalKind).values.map
    Bucket.rows).sum = records.values.length) .countsDoNotClose).map fun _ =>
  (outputRows records, mergedSummary fileSha256 summarySha256 existing.2 incremental.2 paths existingKind incrementalKind
    records.values (outputRows records))

end Source

/-! ### Loading -/

section Load

variable {u : Lower}

abbrev ActivityRow.key (u : Lower) (row : ActivityRow) : Text := u.lower row.secureKey

/-- What the union and the candidate file are compared by. -/
def ActivityRow.identity (u : Lower) (row : ActivityRow) : Text × Text := (u.lower row.secureKey, u.lower row.address)

def Candidate.identity (u : Lower) (c : Candidate) : Text × Text := (u.lower c.secureKey, u.lower c.address)

/-- The rows stand in increasing order of their keys. -/
def Increasing (u : Lower) (rows : List ActivityRow) : Prop := rows.Pairwise fun a b => a.key u < b.key u

theorem foldlM_loadActivityRow {rows : List ActivityRow} (h : Increasing u rows) :
    ∀ (line : ℕ) (d : Dict Text ActivityRow) (previous : Option Text), (∀ p ∈ previous, ∀ r ∈ rows, p < r.key u) →
      (∀ k ∈ d.keys, ∀ r ∈ rows, k < r.key u) → ∃ d' last, (rows.zipIdx line).foldlM (loadActivityRow u) (d, previous) =
        .ok (d', last) ∧ d'.entries = d.entries ++ rows.map fun r => (r.key u, r) := by
  induction rows with
  | nil => exact fun line d previous _ _ => ⟨d, previous, rfl, (List.append_nil _).symm⟩
  | cons row rows ih =>
    intro line d previous hprevious hkeys
    obtain ⟨hhead, htail⟩ := List.pairwise_cons.mp h
    have hnew : row.key u ∉ d.keys := fun hmem => lt_irrefl _ (hkeys _ hmem row List.mem_cons_self)
    have hstep : loadActivityRow u (d, previous) (row, line) = .ok (d.insert (row.key u) row, some (row.key u)) := by
      rw [loadActivityRow, require_ok fun p hp => hprevious p hp row List.mem_cons_self, bind_ok_left, require_ok hnew]
      rfl
    have hprevious' : ∀ p ∈ some (row.key u), ∀ r ∈ rows, p < r.key u := by
      intro p hp r hr
      rw [← Option.mem_some_iff.mp hp]
      exact hhead r hr
    have hkeys' : ∀ k ∈ (d.insert (row.key u) row).keys, ∀ r ∈ rows, k < r.key u := by
      intro k hk r hr
      rcases Dict.mem_keys_insert.mp hk with rfl | hk
      · exact hhead r hr
      · exact hkeys k hk r (List.mem_cons_of_mem _ hr)
    obtain ⟨d', last, hd', hentries⟩ := ih htail (line + 1) _ _ hprevious' hkeys'
    refine ⟨d', last, ?_, ?_⟩
    · rw [List.zipIdx_cons, List.foldlM_cons, hstep]
      exact hd'
    · rw [hentries, Dict.entries_insert_of_notMem hnew, List.append_assoc, List.map_cons, List.singleton_append]

theorem loadActivity_ok {rows : List ActivityRow} (h : Increasing u rows) :
    ∃ d, loadActivity u rows = .ok d ∧ d.entries = rows.map fun r => (r.key u, r) := by
  obtain ⟨d, last, hd, hentries⟩ := foldlM_loadActivityRow h 2 Dict.empty none (by simp) (by simp [Dict.keys, Dict.empty])
  refine ⟨d, ?_, by rw [hentries]; rfl⟩
  rw [loadActivity, hd]
  rfl

theorem foldlM_loadCandidate {rows : List Candidate} (h : (rows.map fun c => u.lower c.secureKey).Nodup) :
    ∀ (line : ℕ) (d : Dict Text Text), (∀ c ∈ rows, u.lower c.secureKey ∉ d.keys) →
      ∃ d', (rows.zipIdx line).foldlM (loadCandidate u) d = .ok d' ∧
        d'.entries = d.entries ++ rows.map (Candidate.identity u) := by
  induction rows with
  | nil => exact fun line d _ => ⟨d, rfl, (List.append_nil _).symm⟩
  | cons row rows ih =>
    intro line d hkeys
    obtain ⟨hhead, htail⟩ := List.nodup_cons.mp h
    have hnew := hkeys row List.mem_cons_self
    have hstep : loadCandidate u d (row, line) = .ok (d.insert (u.lower row.secureKey) (u.lower row.address)) := by
      rw [loadCandidate, require_ok hnew]
      rfl
    have hkeys' : ∀ c ∈ rows, u.lower c.secureKey ∉ (d.insert (u.lower row.secureKey) (u.lower row.address)).keys := by
      intro c hc hmem
      rcases Dict.mem_keys_insert.mp hmem with heq | hmem
      · exact hhead (List.mem_map.mpr ⟨c, hc, heq⟩)
      · exact hkeys c (List.mem_cons_of_mem _ hc) hmem
    obtain ⟨d', hd', hentries⟩ := ih htail (line + 1) _ hkeys'
    refine ⟨d', ?_, ?_⟩
    · rw [List.zipIdx_cons, List.foldlM_cons, hstep]
      exact hd'
    · rw [hentries, Dict.entries_insert_of_notMem hnew, List.append_assoc, List.map_cons, List.singleton_append]
      rfl

theorem loadCandidates_ok {rows : List Candidate} (h : (rows.map fun c => u.lower c.secureKey).Nodup) :
    ∃ d, loadCandidates u rows = .ok d ∧ d.entries = rows.map (Candidate.identity u) :=
  foldlM_loadCandidate h 2 Dict.empty (by simp [Dict.keys, Dict.empty])

theorem Increasing.nodup {rows : List ActivityRow} (h : Increasing u rows) : (rows.map (ActivityRow.key u)).Nodup :=
  List.pairwise_map.mpr (h.imp ne_of_lt)

variable {existing incremental : List ActivityRow} {candidates : List Candidate}

/-- The candidate file lists the union of two disjoint files. -/
theorem mergeRecords_ok (hexisting : Increasing u existing) (hincremental : Increasing u incremental)
    (hdisjoint : ((existing ++ incremental).map (ActivityRow.key u)).Nodup)
    (hlisted : (candidates.map (Candidate.identity u)).Perm ((existing ++ incremental).map (ActivityRow.identity u))) :
    ∃ records, mergeRecords u candidates existing incremental = .ok records ∧
      records.entries = (existing ++ incremental).map fun r => (r.key u, r) := by
  obtain ⟨first, hfirst, hfirstEntries⟩ := loadActivity_ok hexisting
  obtain ⟨second, hsecond, hsecondEntries⟩ := loadActivity_ok hincremental
  have hentries : first.entries ++ second.entries = (existing ++ incremental).map fun r => (r.key u, r) := by
    rw [hfirstEntries, hsecondEntries, List.map_append]
  have hkeysOf : ∀ rows : List ActivityRow, ((rows.map fun r => (r.key u, r)).map Prod.fst) =
      rows.map (ActivityRow.key u) := fun rows => by rw [List.map_map]; rfl
  have hrecords : (Dict.ofList (first.entries ++ second.entries)).entries =
      (existing ++ incremental).map fun r => (r.key u, r) := by
    rw [hentries, Dict.entries_ofList (by rw [hkeysOf]; exact hdisjoint)]
  have hcandidateKeys : (candidates.map fun c => u.lower c.secureKey).Perm
      ((existing ++ incremental).map (ActivityRow.key u)) := by
    have := hlisted.map Prod.fst
    rwa [List.map_map, List.map_map] at this
  obtain ⟨addresses, haddresses, haddressEntries⟩ := loadCandidates_ok (hcandidateKeys.nodup_iff.mpr hdisjoint)
  have haddressKeys : addresses.keys = candidates.map fun c => u.lower c.secureKey := by
    rw [Dict.keys, haddressEntries, List.map_map]
    rfl
  have hrecordKeys : (Dict.ofList (first.entries ++ second.entries)).keys =
      (existing ++ incremental).map (ActivityRow.key u) := by rw [Dict.keys, hrecords, hkeysOf]
  have hoverlap : ∀ key ∈ second.keys, key ∉ first.keys := by
    rw [Dict.keys, Dict.keys, hfirstEntries, hsecondEntries, hkeysOf, hkeysOf]
    rw [List.map_append] at hdisjoint
    exact fun key hkey hmem => (List.nodup_append.mp hdisjoint).2.2 key hmem key hkey rfl
  have hsame : ∀ entry ∈ (Dict.ofList (first.entries ++ second.entries)).entries,
      addresses.get? entry.1 = some (u.lower entry.2.address) := by
    intro entry hentry
    rw [hrecords] at hentry
    obtain ⟨row, hrow, rfl⟩ := List.mem_map.mp hentry
    rw [Dict.get?_eq_some_iff, haddressEntries]
    exact hlisted.mem_iff.mpr (List.mem_map_of_mem hrow)
  refine ⟨_, ?_, hrecords⟩
  rw [mergeRecords, hfirst, bind_ok_left, hsecond, bind_ok_left, require_ok hoverlap, bind_ok_left, haddresses, bind_ok_left,
    require_ok ?_, bind_ok_left, mapM_ok_of_forall (g := fun _ => ()) fun entry hentry => require_ok (hsame entry hentry)]
  · rfl
  · rw [hrecordKeys, haddressKeys]
    exact ⟨hcandidateKeys.symm.subset, hcandidateKeys.subset⟩

theorem outputRows_perm {records : Dict Text ActivityRow} {rows : List ActivityRow}
    (h : records.entries = rows.map fun r => (r.key u, r)) : (outputRows records).Perm rows := by
  have hperm := (List.perm_insertionSort (fun a b : Text × ActivityRow => a.1 ≤ b.1) records.entries).map Prod.snd
  rw [h, List.map_map] at hperm
  rw [outputRows, h]
  exact hperm.trans (List.Perm.of_eq (List.map_id _))

theorem outputRows_increasing {records : Dict Text ActivityRow} {rows : List ActivityRow}
    (h : records.entries = rows.map fun r => (r.key u, r)) : Increasing u (outputRows records) := by
  have hsorted := SortedBy.insertionSort_lt (g := Prod.fst) records.nodup
  have hmem : ∀ entry ∈ records.entries.insertionSort fun a b => a.1 ≤ b.1, entry.1 = entry.2.key u := by
    intro entry hentry
    have hentry := (List.mem_insertionSort _).mp hentry
    rw [h] at hentry
    obtain ⟨row, -, rfl⟩ := List.mem_map.mp hentry
    rfl
  refine List.pairwise_map.mpr (hsorted.imp_of_mem ?_)
  intro a b ha hb hlt
  rwa [hmem a ha, hmem b hb] at hlt

end Load

/-! ### Histories of merges -/

/-- Rows, rows with an activity, rows without. -/
def counts (rows : List ActivityRow) : ℕ × ℕ × ℕ :=
  (rows.length, rows.countP (·.timestampUnix ≠ []), rows.length - rows.countP (·.timestampUnix ≠ []))

def Bucket.counts (bucket : Bucket) : ℕ × ℕ × ℕ := (bucket.rows, bucket.activityFound, bucket.activityNotFound)

def Source.counts (source : Source) : ℕ × ℕ × ℕ := (source.rows, source.activityFound, source.activityNotFound)

/-- A scan of a database or through an RPC node, with the fields of its summary that tell which. -/
structure Scan (u : Lower) where
  kind : Provenance
  rows : List ActivityRow
  dbPath : Text
  explorerDbPath : Text
  rpc : Text
  sourceKind : Text
  increasing : Increasing u rows
  marked : match kind with
    | .databaseDerived => dbPath ≠ [] ∧ explorerDbPath ≠ []
    | .rpcDerived => ¬(dbPath ≠ [] ∧ explorerDbPath ≠ []) ∧ rpc ≠ []

/-- The shard and its cutoff, on which all summaries agree. -/
structure Cutoff where
  shard : ℕ
  block : ℕ
  hash : Text

/-- A scan to merge, with the candidates of the union and the paths of the summaries. -/
structure Merge (u : Lower) where
  scan : Scan u
  candidates : List Candidate
  paths : Paths

section Histories

variable {u : Lower} (cutoff : Cutoff) (fileSha256 : List ActivityRow → Text) (summarySha256 : Summary → Text)

def Scan.summary (scan : Scan u) : Summary :=
  ⟨true, scan.dbPath, scan.explorerDbPath, scan.rpc, scan.sourceKind, none, Dict.empty, scan.rows.length, cutoff.shard,
    cutoff.block, cutoff.hash, (counts scan.rows).2.1, (counts scan.rows).2.2, fileSha256 scan.rows⟩

/-- The outputs of the merges in order, each of which is the existing input of the next. -/
def merges : List ActivityRow × Summary → List (Merge u) → Except Error (List (List ActivityRow × Summary))
  | _, [] => .ok []
  | existing, m :: ms =>
    (merge u fileSha256 summarySha256 m.candidates existing (m.scan.rows, m.scan.summary cutoff fileSha256) m.paths).bind
      fun output => (merges output ms).map (output :: ·)

def rowsOfKind (kind : Provenance) (scans : List (Scan u)) : List ActivityRow :=
  (scans.filter (·.kind = kind)).flatMap Scan.rows

/-- What an output says about the scans so far. -/
structure Exact (scans : List (Scan u)) (output : List ActivityRow × Summary) : Prop where
  increasing : Increasing u output.1
  union : output.1.Perm (scans.flatMap Scan.rows)
  breakdown : ∀ kind, (output.2.provenanceBreakdown.get? kind).map Bucket.counts =
    if ∃ s ∈ scans, s.kind = kind then some (counts (rowsOfKind kind scans)) else none
  hybrid : output.2.classification = some .hybrid ↔ ∀ kind, ∃ s ∈ scans, s.kind = kind

/-- Every output is exact for the scans up to it. -/
inductive ExactAlong : List (Scan u) → List (Merge u) → List (List ActivityRow × Summary) → Prop
  | nil (scans : List (Scan u)) : ExactAlong scans [] []
  | cons {scans : List (Scan u)} {m : Merge u} {ms : List (Merge u)} {output : List ActivityRow × Summary}
      {outputs : List (List ActivityRow × Summary)} (head : Exact (scans ++ [m.scan]) output)
      (tail : ExactAlong (scans ++ [m.scan]) ms outputs) : ExactAlong scans (m :: ms) (output :: outputs)

/-- What the next merge reads as its existing input is one scan, or a union of RPC scans; or the union has an RPC scan, its
database scans have no rows, and the next scan is a database scan. -/
def Recognised (scans : List (Scan u)) (next : Scan u) : Prop :=
  scans.length = 1 ∨ (∀ s ∈ scans, s.kind = .rpcDerived) ∨
    (∃ s ∈ scans, s.kind = .rpcDerived) ∧ rowsOfKind .databaseDerived scans = [] ∧ next.kind = .databaseDerived

/-- So it is before every merge. -/
def RecognisedAlong : List (Scan u) → List (Merge u) → Prop
  | _, [] => True
  | scans, m :: ms => Recognised scans m.scan ∧ RecognisedAlong (scans ++ [m.scan]) ms

/-- The candidate files list the unions. -/
def ListedAlong : List (Scan u) → List (Merge u) → Prop
  | _, [] => True
  | scans, m :: ms => (m.candidates.map (Candidate.identity u)).Perm
      (((scans ++ [m.scan]).flatMap Scan.rows).map (ActivityRow.identity u)) ∧ ListedAlong (scans ++ [m.scan]) ms

/-! ### The description of a union -/

/-- The kind that is read off a summary of the scans. -/
def readKind : List (Scan u) → Option Provenance
  | [scan] => some scan.kind
  | scans => if ∀ s ∈ scans, s.kind = .databaseDerived then none else some .rpcDerived

theorem kind_cases (kind other : Provenance) : other = kind ∨ other = kind.other := by
  cases kind <;> cases other <;> decide

theorem other_ne (kind : Provenance) : kind.other ≠ kind := by cases kind <;> decide

theorem provenanceClassification_scan (scan : Scan u) :
    provenanceClassification (scan.summary cutoff fileSha256) = .ok scan.kind := by
  have hmarked := scan.marked
  cases hkind : scan.kind with
  | databaseDerived =>
    rw [hkind] at hmarked
    exact if_pos hmarked
  | rpcDerived =>
    rw [hkind] at hmarked
    exact (if_neg hmarked.1).trans (if_pos (Or.inl hmarked.2))

theorem text_within (value : ℕ) (kind : Provenance) : kind.text <:+: provenanceRowText value kind := by
  refine ⟨thousands (render value) ++ [' '], ' ' :: (if value = 1 then "row".toList else "rows".toList), ?_⟩
  simp only [provenanceRowText, List.append_assoc, List.cons_append, List.nil_append]

theorem rpc_within : "RPC".toList <:+: Provenance.rpcDerived.text := by decide

theorem suffix_intercalate (sep text : Text) (texts : List Text) : text <:+ List.intercalate sep (texts ++ [text]) := by
  induction texts with
  | nil => simp
  | cons t texts ih =>
    rw [List.cons_append, List.intercalate_cons_of_ne_nil (by simp)]
    exact ih.trans (List.suffix_append _ _)

theorem resultSourceKind_hybrid (breakdown : Dict Provenance Bucket) : resultSourceKind breakdown .hybrid =
    "hybrid: ".toList ++ List.intercalate " plus ".toList ([Provenance.databaseDerived, .rpcDerived].filterMap fun kind =>
      (breakdown.get? kind).map fun bucket => provenanceRowText bucket.rows kind) := rfl

theorem rpc_within_hybrid {breakdown : Dict Provenance Bucket} {bucket : Bucket}
    (h : breakdown.get? .rpcDerived = some bucket) : "RPC".toList <:+: resultSourceKind breakdown .hybrid := by
  have hparts : [Provenance.databaseDerived, .rpcDerived].filterMap (fun kind =>
      (breakdown.get? kind).map fun bucket => provenanceRowText bucket.rows kind) =
      ([Provenance.databaseDerived].filterMap fun kind =>
        (breakdown.get? kind).map fun bucket => provenanceRowText bucket.rows kind) ++
        [provenanceRowText bucket.rows .rpcDerived] := by
    rw [← List.singleton_append, List.filterMap_append]
    exact congrArg _ (List.filterMap_cons_some (by rw [h]; rfl))
  have hrow : "RPC".toList <:+: provenanceRowText bucket.rows .rpcDerived := rpc_within.trans (text_within _ _)
  -- Not `rw`, which would try to close the goal by evaluating the texts.
  rewrite [resultSourceKind_hybrid, hparts]
  exact (hrow.trans (suffix_intercalate _ _ _).isInfix).trans (List.suffix_append _ _).isInfix

theorem addSource_counts (bucket : Bucket) (source : Source) :
    (bucket.addSource source).describe.counts = bucket.counts + source.counts := rfl

theorem breakdown_same (first second : Source) (kind : Provenance) : ∃ bucket,
    (provenanceBreakdown kind kind first second).entries = [(kind, bucket)] ∧
      bucket.counts = first.counts + second.counts := by
  have hsum : (((⟨0, 0, 0, first.sourceKind, [], none⟩ : Bucket).addSource first).addSource second).describe.counts =
      first.counts + second.counts := by
    rw [addSource_counts]
    change (0 + first.counts) + second.counts = _
    rw [zero_add]
  cases kind with
  | databaseDerived => exact ⟨_, rfl, hsum⟩
  | rpcDerived => exact ⟨_, rfl, hsum⟩

theorem breakdown_other (first second : Source) (kind : Provenance) : ∃ bucket bucket',
    (provenanceBreakdown kind kind.other first second).entries = [(kind, bucket), (kind.other, bucket')] ∧
      bucket.counts = first.counts ∧ bucket'.counts = second.counts := by
  have hone : ∀ source : Source, ((⟨0, 0, 0, source.sourceKind, [], none⟩ : Bucket).addSource source).describe.counts =
      source.counts := fun source => (addSource_counts _ _).trans (zero_add source.counts)
  cases kind with
  | databaseDerived => exact ⟨_, _, rfl, hone first, hone second⟩
  | rpcDerived => exact ⟨_, _, rfl, hone first, hone second⟩

def Summary.counts (summary : Summary) : ℕ × ℕ × ℕ :=
  (summary.candidates, summary.activityFound, summary.activityNotFound)

theorem mergedBreakdown_same (existing incremental : Summary) (paths : Paths) (kind : Provenance) : ∃ bucket,
    (mergedBreakdown summarySha256 existing incremental paths kind kind).entries = [(kind, bucket)] ∧
      bucket.counts = existing.counts + incremental.counts := breakdown_same _ _ kind

theorem mergedBreakdown_other (existing incremental : Summary) (paths : Paths) (kind : Provenance) : ∃ bucket bucket',
    (mergedBreakdown summarySha256 existing incremental paths kind kind.other).entries =
      [(kind, bucket), (kind.other, bucket')] ∧ bucket.counts = existing.counts ∧ bucket'.counts = incremental.counts :=
  breakdown_other _ _ kind

/-! ### One merge -/

variable {cutoff fileSha256} {scans : List (Scan u)} {m : Merge u} {st : List ActivityRow × Summary}

/-- A file and a summary of the scans, whose kind is read as `readKind` says. -/
structure Represents (cutoff : Cutoff) (fileSha256 : List ActivityRow → Text) (scans : List (Scan u))
    (st : List ActivityRow × Summary) : Prop where
  increasing : Increasing u st.1
  union : st.1.Perm (scans.flatMap Scan.rows)
  passed : st.2.passed
  cutoff : st.2.shard = cutoff.shard ∧ st.2.cutoffBlock = cutoff.block ∧ st.2.cutoffHash = cutoff.hash
  hash : st.2.outputSha256 = fileSha256 st.1
  counts : st.2.counts = ExtendActivity.counts (scans.flatMap Scan.rows)
  kind : provenanceClassification st.2 = ofOption (readKind scans) .unknownProvenance

theorem counts_perm {rows rows' : List ActivityRow} (h : rows.Perm rows') : counts rows = counts rows' := by
  rw [counts, counts, h.length_eq, h.countP_eq]

theorem counts_append (rows rows' : List ActivityRow) : counts (rows ++ rows') = counts rows + counts rows' := by
  have hle := List.countP_le_length (p := fun row : ActivityRow => decide (row.timestampUnix ≠ [])) (l := rows)
  have hle' := List.countP_le_length (p := fun row : ActivityRow => decide (row.timestampUnix ≠ [])) (l := rows')
  rw [counts, counts, counts, List.length_append, List.countP_append]
  have hsub : ∀ a b c d : ℕ, c ≤ a → d ≤ b → a + b - (c + d) = (a - c) + (b - d) := by omega
  exact Prod.ext rfl (Prod.ext rfl (hsub _ _ _ _ hle hle'))

theorem represents_scan (scan : Scan u) : Represents cutoff fileSha256 [scan] (scan.rows, scan.summary cutoff fileSha256) :=
  ⟨scan.increasing, by simp, rfl, ⟨rfl, rfl, rfl⟩, rfl, by simp [Scan.summary, Summary.counts, ExtendActivity.counts],
    provenanceClassification_scan cutoff fileSha256 scan⟩

/-- Everything but the kind of the existing summary is in order. -/
theorem merge_eq (hst : Represents cutoff fileSha256 scans st)
    (hdisjoint : (((scans ++ [m.scan]).flatMap Scan.rows).map (ActivityRow.key u)).Nodup)
    (hlisted : (m.candidates.map (Candidate.identity u)).Perm
      (((scans ++ [m.scan]).flatMap Scan.rows).map (ActivityRow.identity u))) :
    ∃ records output, records.Perm ((scans ++ [m.scan]).flatMap Scan.rows) ∧ Increasing u output ∧ output.Perm records ∧
      merge u fileSha256 summarySha256 m.candidates st (m.scan.rows, m.scan.summary cutoff fileSha256) m.paths =
        (ofOption (readKind scans) .unknownProvenance).map fun kind =>
          (output, mergedSummary fileSha256 summarySha256 st.2 (m.scan.summary cutoff fileSha256) m.paths kind m.scan.kind
            records output) := by
  have hunion : (st.1 ++ m.scan.rows).Perm ((scans ++ [m.scan]).flatMap Scan.rows) := by
    rw [List.flatMap_append, List.flatMap_singleton]
    exact hst.union.append_right _
  obtain ⟨records, hrecords, hentries⟩ := mergeRecords_ok hst.increasing m.scan.increasing
    ((hunion.map _).nodup_iff.mpr hdisjoint) (hlisted.trans (hunion.map _).symm)
  have hvalues : records.values = st.1 ++ m.scan.rows := by
    rw [Dict.values, hentries, List.map_map]
    exact List.map_id _
  have hpassed : st.2.passed ∧ (m.scan.summary cutoff fileSha256).passed := ⟨hst.passed, rfl⟩
  have hcutoff : st.2.shard = (m.scan.summary cutoff fileSha256).shard ∧
      st.2.cutoffBlock = (m.scan.summary cutoff fileSha256).cutoffBlock ∧
      st.2.cutoffHash = (m.scan.summary cutoff fileSha256).cutoffHash := hst.cutoff
  have hhash : (m.scan.summary cutoff fileSha256).outputSha256 = fileSha256 m.scan.rows := rfl
  have hcandidates : st.2.candidates = st.1.length := by
    rw [hst.union.length_eq]
    exact congrArg Prod.fst hst.counts
  have hclose : ∀ kind, ((mergedBreakdown summarySha256 st.2 (m.scan.summary cutoff fileSha256) m.paths kind
      m.scan.kind).values.map Bucket.rows).sum = records.values.length := by
    intro kind
    rw [hvalues, List.length_append, ← hcandidates]
    rcases kind_cases kind m.scan.kind with hkind | hkind
    · obtain ⟨bucket, hbucket, hcounts⟩ := mergedBreakdown_same summarySha256 st.2 (m.scan.summary cutoff fileSha256) m.paths kind
      rw [hkind, Dict.values, hbucket]
      exact (add_zero _).trans (congrArg Prod.fst hcounts)
    · obtain ⟨bucket, bucket', hbucket, hcounts, hcounts'⟩ := mergedBreakdown_other summarySha256 st.2 (m.scan.summary cutoff fileSha256) m.paths kind
      rw [hkind, Dict.values, hbucket]
      exact congrArg₂ (· + ·) (congrArg Prod.fst hcounts) ((add_zero _).trans (congrArg Prod.fst hcounts'))
  refine ⟨records.values, outputRows records, hvalues ▸ hunion, outputRows_increasing hentries,
    hvalues ▸ outputRows_perm hentries, ?_⟩
  rw [merge, hrecords, bind_ok_left, require_ok hpassed, bind_ok_left, require_ok hcutoff, bind_ok_left,
    require_ok hst.hash, bind_ok_left, require_ok hhash, bind_ok_left, hst.kind]
  cases readKind scans with
  | none => rfl
  | some kind =>
    change (provenanceClassification _).bind _ = _
    rw [provenanceClassification_scan, bind_ok_left, require_ok (hclose kind)]
    rfl

/-! ### When the breakdown is exact -/

variable {kind : Provenance}

theorem rowsOfKind_concat (scans : List (Scan u)) (scan : Scan u) :
    rowsOfKind kind (scans ++ [scan]) = rowsOfKind kind scans ++ if scan.kind = kind then scan.rows else [] := by
  rw [rowsOfKind, List.filter_append, List.flatMap_append]
  by_cases h : scan.kind = kind
  · simp [rowsOfKind, h]
  · simp [rowsOfKind, h]

theorem counts_rows (kind : Provenance) (scans : List (Scan u)) : counts (scans.flatMap Scan.rows) =
    counts (rowsOfKind kind scans) + counts (rowsOfKind kind.other scans) := by
  induction scans with
  | nil => rfl
  | cons scan scans ih =>
    have hcons : ∀ k, counts (rowsOfKind k (scan :: scans)) =
        (if scan.kind = k then counts scan.rows else 0) + counts (rowsOfKind k scans) := by
      intro k
      by_cases h : scan.kind = k
      · simp [rowsOfKind, h, counts_append]
      · simp [rowsOfKind, h]
    rw [List.flatMap_cons, counts_append, ih, hcons, hcons]
    rcases kind_cases kind scan.kind with h | h
    · rw [h, if_pos rfl, if_neg (other_ne kind).symm, zero_add, add_assoc]
    · rw [h, if_neg (other_ne kind), if_pos rfl, zero_add, add_left_comm]

theorem counts_eq_zero_iff {rows : List ActivityRow} : counts rows = 0 ↔ rows = [] := by
  refine ⟨fun h => List.length_eq_zero_iff.mp (congrArg Prod.fst h), fun h => ?_⟩
  rw [h]
  rfl

theorem occurs_concat {scan : Scan u} : (∃ s ∈ scans ++ [scan], s.kind = kind) ↔
    (∃ s ∈ scans, s.kind = kind) ∨ scan.kind = kind := by
  simp [or_and_right, exists_or]

theorem counts_get? {breakdown : Dict Provenance Bucket} {bucket : Bucket} (h : (kind, bucket) ∈ breakdown.entries) :
    (breakdown.get? kind).map Bucket.counts = some bucket.counts := by
  rw [Dict.get?_eq_some_iff.mpr h]
  rfl

variable {records output : List ActivityRow}

/-- The summary that a merge writes where the existing one is read as `kind`. -/
abbrev Merge.result (m : Merge u) (cutoff : Cutoff) (fileSha256 : List ActivityRow → Text) (summarySha256 : Summary → Text)
    (existing : Summary) (kind : Provenance) (records output : List ActivityRow) : Summary :=
  mergedSummary fileSha256 summarySha256 existing (m.scan.summary cutoff fileSha256) m.paths kind m.scan.kind records output

theorem rowsOfKind_other_eq_nil (h : ∀ s ∈ scans, s.kind = kind) : rowsOfKind kind.other scans = [] := by
  rw [rowsOfKind, List.filter_eq_nil_iff.mpr]
  · rfl
  · intro s hs
    rw [h s hs]
    simpa using (other_ne kind).symm

/-- A scan of the kind that the existing summary is read as: no other scan may have gone into that summary. -/
theorem exact_same (hst : Represents cutoff fileSha256 scans st)
    (hrecords : records.Perm ((scans ++ [m.scan]).flatMap Scan.rows)) (hincreasing : Increasing u output)
    (houtput : output.Perm records) (hkind : m.scan.kind = kind) :
    Exact (scans ++ [m.scan]) (output, m.result cutoff fileSha256 summarySha256 st.2 kind records output) ↔
      ∀ s ∈ scans, s.kind = kind := by
  subst hkind
  obtain ⟨bucket, hentries, hcounts⟩ := mergedBreakdown_same summarySha256 st.2 (m.scan.summary cutoff fileSha256) m.paths
    m.scan.kind
  have hother : ((m.result cutoff fileSha256 summarySha256 st.2 m.scan.kind records output).provenanceBreakdown.get?
      m.scan.kind.other).map Bucket.counts = none := by
    rw [Option.map_eq_none_iff, Dict.get?_eq_none_iff]
    change _ ∉ (mergedBreakdown _ _ _ _ _ _).entries.map Prod.fst
    rw [hentries]
    simpa using other_ne m.scan.kind
  have hself : ((m.result cutoff fileSha256 summarySha256 st.2 m.scan.kind records output).provenanceBreakdown.get?
      m.scan.kind).map Bucket.counts = some (counts (scans.flatMap Scan.rows) + counts m.scan.rows) := by
    have hscan : (m.scan.summary cutoff fileSha256).counts = counts m.scan.rows := rfl
    rw [← hscan, ← hst.counts, ← hcounts]
    apply counts_get?
    change _ ∈ (mergedBreakdown _ _ _ _ _ _).entries
    rw [hentries]
    exact List.mem_singleton_self _
  refine ⟨fun h s hs => ?_, fun h => ⟨hincreasing, houtput.trans hrecords, fun k => ?_, ?_⟩⟩
  · by_contra hne
    have hbreakdown := h.breakdown m.scan.kind.other
    rw [if_pos ⟨s, List.mem_append_left _ hs, (kind_cases _ _).resolve_left hne⟩, hother] at hbreakdown
    cases hbreakdown
  · rcases kind_cases m.scan.kind k with rfl | rfl
    · rw [hself, if_pos (occurs_concat.mpr (Or.inr rfl)), rowsOfKind_concat, if_pos rfl, counts_append,
        counts_rows m.scan.kind, rowsOfKind_other_eq_nil h]
      rfl
    · rw [hother, if_neg]
      rw [occurs_concat, not_or]
      exact ⟨fun ⟨s, hs, heq⟩ => other_ne _ (heq.symm.trans (h s hs)), (other_ne _).symm⟩
  · have honly : (m.result cutoff fileSha256 summarySha256 st.2 m.scan.kind records output).classification =
        some (.only m.scan.kind) := congrArg some (if_pos rfl)
    rw [honly]
    refine ⟨fun hhybrid => by simp at hhybrid, fun hoccurs => ?_⟩
    obtain ⟨s, hs, heq⟩ := hoccurs m.scan.kind.other
    rcases List.mem_append.mp hs with hs | hs
    · exact absurd (heq.symm.trans (h s hs)) (other_ne _)
    · rw [List.mem_singleton.mp hs] at heq
      exact absurd heq.symm (other_ne _)

/-- A scan of the other kind: the rows of that kind in the existing summary are counted with the kind it is read as. -/
theorem exact_other (hst : Represents cutoff fileSha256 scans st) (hoccurs : ∃ s ∈ scans, s.kind = kind)
    (hrecords : records.Perm ((scans ++ [m.scan]).flatMap Scan.rows)) (hincreasing : Increasing u output)
    (houtput : output.Perm records) (hkind : m.scan.kind = kind.other) :
    Exact (scans ++ [m.scan]) (output, m.result cutoff fileSha256 summarySha256 st.2 kind records output) ↔
      rowsOfKind kind.other scans = [] := by
  obtain ⟨bucket, bucket', hentries, hcounts, hcounts'⟩ :=
    mergedBreakdown_other summarySha256 st.2 (m.scan.summary cutoff fileSha256) m.paths kind
  have hself : ((m.result cutoff fileSha256 summarySha256 st.2 kind records output).provenanceBreakdown.get? kind).map
      Bucket.counts = some (counts (rowsOfKind kind scans) + counts (rowsOfKind kind.other scans)) := by
    rw [← counts_rows, ← hst.counts, ← hcounts]
    apply counts_get?
    change _ ∈ (mergedBreakdown _ _ _ _ _ m.scan.kind).entries
    rw [hkind, hentries]
    exact List.mem_cons_self
  have hother : ((m.result cutoff fileSha256 summarySha256 st.2 kind records output).provenanceBreakdown.get?
      kind.other).map Bucket.counts = some (counts m.scan.rows) := by
    have hscan : (m.scan.summary cutoff fileSha256).counts = counts m.scan.rows := rfl
    rw [← hscan, ← hcounts']
    apply counts_get?
    change _ ∈ (mergedBreakdown _ _ _ _ _ m.scan.kind).entries
    rw [hkind, hentries]
    exact List.mem_cons_of_mem _ (List.mem_singleton_self _)
  have hboth : ∀ k, ∃ s ∈ scans ++ [m.scan], s.kind = k := by
    intro k
    rw [occurs_concat]
    rcases kind_cases kind k with rfl | rfl
    · exact Or.inl hoccurs
    · exact Or.inr hkind
  refine ⟨fun h => ?_, fun h => ⟨hincreasing, houtput.trans hrecords, fun k => ?_, ?_⟩⟩
  · have hbreakdown := h.breakdown kind
    rw [hself, if_pos (hboth kind), rowsOfKind_concat, hkind, if_neg (other_ne kind), List.append_nil] at hbreakdown
    exact counts_eq_zero_iff.mp (add_eq_left.mp (Option.some.inj hbreakdown))
  · rw [if_pos (hboth k), rowsOfKind_concat, hkind]
    rcases kind_cases kind k with rfl | rfl
    · rw [if_neg (other_ne _), List.append_nil, hself, h]
      rfl
    · rw [if_pos rfl, h, List.nil_append, hother]
  · change some (if kind = m.scan.kind then Classification.only kind else .hybrid) = _ ↔ _
    rw [hkind, if_neg (other_ne kind).symm]
    exact ⟨fun _ => hboth, fun _ => rfl⟩

/-! ### Merge after merge -/

theorem readKind_many (s s' : Scan u) (scans : List (Scan u)) : readKind (s :: s' :: scans) =
    if ∀ t ∈ s :: s' :: scans, t.kind = .databaseDerived then none else some .rpcDerived := rfl

theorem readKind_concat (hne : scans ≠ []) (scan : Scan u) : readKind (scans ++ [scan]) =
    if ∀ s ∈ scans ++ [scan], s.kind = .databaseDerived then none else some .rpcDerived := by
  cases scans with
  | nil => exact absurd rfl hne
  | cons s scans =>
    cases scans with
    | nil => rfl
    | cons s' scans => rfl

theorem exists_rpc (h : ¬∀ s ∈ scans, s.kind = .databaseDerived) : ∃ s ∈ scans, s.kind = .rpcDerived := by
  push Not at h
  obtain ⟨s, hs, hkind⟩ := h
  exact ⟨s, hs, (kind_cases .databaseDerived s.kind).resolve_left hkind⟩

theorem readKind_occurs (h : readKind scans = some kind) : ∃ s ∈ scans, s.kind = kind := by
  cases scans with
  | nil => cases h
  | cons s scans =>
    cases scans with
    | nil => exact ⟨s, List.mem_cons_self, Option.some.inj h⟩
    | cons s' scans =>
      by_cases hall : ∀ t ∈ s :: s' :: scans, t.kind = .databaseDerived
      · rw [readKind_many, if_pos hall] at h
        cases h
      · rw [readKind_many, if_neg hall] at h
        exact Option.some.inj h ▸ exists_rpc hall

/-- The condition in terms of the kind that is read. -/
theorem recognised_iff (hne : scans ≠ []) (next : Scan u) : Recognised scans next ↔ ∃ kind, readKind scans = some kind ∧
    (next.kind = kind → ∀ s ∈ scans, s.kind = kind) ∧ (next.kind = kind.other → rowsOfKind kind.other scans = []) := by
  cases scans with
  | nil => exact absurd rfl hne
  | cons s scans =>
    cases scans with
    | nil =>
      have hall : ∀ t ∈ [s], t.kind = s.kind := fun t ht => by rw [List.mem_singleton.mp ht]
      exact ⟨fun _ => ⟨s.kind, rfl, fun _ => hall, fun _ => rowsOfKind_other_eq_nil hall⟩, fun _ => Or.inl rfl⟩
    | cons s' scans =>
      rw [readKind_many, Recognised]
      by_cases hall : ∀ t ∈ s :: s' :: scans, t.kind = .databaseDerived
      · rw [if_pos hall]
        have hnone : ¬∃ t ∈ s :: s' :: scans, t.kind = .rpcDerived := by
          rintro ⟨t, ht, hkind⟩
          exact absurd (hkind.symm.trans (hall t ht)) (by decide)
        refine ⟨fun h => ?_, fun ⟨_, h, _⟩ => by cases h⟩
        rcases h with h | h | h
        · simp at h
        · exact absurd ⟨s, List.mem_cons_self, h s List.mem_cons_self⟩ hnone
        · exact absurd h.1 hnone
      · rw [if_neg hall]
        refine ⟨fun h => ⟨.rpcDerived, rfl, ?_⟩, fun ⟨kind, hkind, hsame, hother⟩ => ?_⟩
        · rcases h with h | h | h
          · simp at h
          · exact ⟨fun _ => h, fun _ => rowsOfKind_other_eq_nil h⟩
          · exact ⟨fun hrpc => absurd (h.2.2.symm.trans hrpc) (by decide), fun _ => h.2.1⟩
        · obtain rfl := Option.some.inj hkind
          rcases kind_cases .rpcDerived next.kind with hnext | hnext
          · exact Or.inr (Or.inl (hsame hnext))
          · exact Or.inr (Or.inr ⟨exists_rpc hall, hother hnext, hnext⟩)

theorem databaseDerived_activity : ¬"RPC".toList <:+: Provenance.databaseDerived.text ++ " activity".toList := by decide

theorem resultSourceKind_only (breakdown : Dict Provenance Bucket) (kind : Provenance) :
    resultSourceKind breakdown (.only kind) = kind.text ++ " activity".toList := rfl

/-- Only the description of a result says where its rows come from. -/
theorem provenanceClassification_result (existing : Summary) (kind : Provenance) (records output : List ActivityRow) :
    provenanceClassification (m.result cutoff fileSha256 summarySha256 existing kind records output) =
      if kind = .databaseDerived ∧ m.scan.kind = .databaseDerived then .error .unknownProvenance else .ok .rpcDerived := by
  have hdescription : provenanceClassification (m.result cutoff fileSha256 summarySha256 existing kind records output) =
      if "RPC".toList <:+: (m.result cutoff fileSha256 summarySha256 existing kind records output).sourceKind then
        .ok .rpcDerived else .error .unknownProvenance := by
    refine (if_neg fun h => h.1 rfl).trans (if_congr ?_ rfl rfl)
    exact or_iff_right fun h => h rfl
  rw [hdescription]
  have hsource : (m.result cutoff fileSha256 summarySha256 existing kind records output).sourceKind =
      resultSourceKind (mergedBreakdown summarySha256 existing (m.scan.summary cutoff fileSha256) m.paths kind m.scan.kind)
        (if kind = m.scan.kind then .only kind else .hybrid) := rfl
  rcases kind_cases kind m.scan.kind with hkind | hkind
  · rw [if_pos hkind.symm, resultSourceKind_only] at hsource
    rw [hsource, hkind]
    cases kind with
    | databaseDerived => exact (if_neg databaseDerived_activity).trans (if_pos ⟨rfl, rfl⟩).symm
    | rpcDerived => exact (if_pos (rpc_within.trans (List.prefix_append _ _).isInfix)).trans (if_neg (by decide)).symm
  · rw [hkind, if_neg (other_ne kind).symm] at hsource
    obtain ⟨bucket, bucket', hentries, -, -⟩ :=
      mergedBreakdown_other summarySha256 existing (m.scan.summary cutoff fileSha256) m.paths kind
    have hrpc : ∃ b, (mergedBreakdown summarySha256 existing (m.scan.summary cutoff fileSha256) m.paths kind
        kind.other).get? .rpcDerived = some b := by
      rcases kind_cases kind .rpcDerived with h | h
      · exact ⟨bucket, Dict.get?_eq_some_iff.mpr (by rw [hentries, ← h]; exact List.mem_cons_self)⟩
      · refine ⟨bucket', Dict.get?_eq_some_iff.mpr ?_⟩
        rw [hentries, ← h]
        exact List.mem_cons_of_mem _ (List.mem_singleton_self _)
    obtain ⟨b, hb⟩ := hrpc
    have hboth : ¬(kind = .databaseDerived ∧ m.scan.kind = .databaseDerived) := by
      rintro ⟨rfl, h⟩
      exact absurd (hkind.symm.trans h) (by decide)
    rewrite [hsource]
    exact (if_pos (rpc_within_hybrid hb)).trans (if_neg hboth).symm

/-- The next existing input, where the output is exact. -/
theorem Represents.next (hst : Represents cutoff fileSha256 scans st) (hne : scans ≠ [])
    (hread : readKind scans = some kind) (hrecords : records.Perm ((scans ++ [m.scan]).flatMap Scan.rows))
    (hexact : Exact (scans ++ [m.scan]) (output, m.result cutoff fileSha256 summarySha256 st.2 kind records output))
    (hsame : m.scan.kind = kind → ∀ s ∈ scans, s.kind = kind) :
    Represents cutoff fileSha256 (scans ++ [m.scan])
      (output, m.result cutoff fileSha256 summarySha256 st.2 kind records output) := by
  refine ⟨hexact.increasing, hexact.union, rfl, hst.cutoff, rfl, counts_perm hrecords, ?_⟩
  rw [provenanceClassification_result, readKind_concat hne]
  by_cases hdb : kind = .databaseDerived ∧ m.scan.kind = .databaseDerived
  · have hall : ∀ s ∈ scans ++ [m.scan], s.kind = .databaseDerived := by
      intro s hs
      rcases List.mem_append.mp hs with hs | hs
      · exact (hsame (hdb.2.trans hdb.1.symm) s hs).trans hdb.1
      · rw [List.mem_singleton.mp hs]
        exact hdb.2
    rw [if_pos hdb, if_pos hall]
    rfl
  · have hall : ¬∀ s ∈ scans ++ [m.scan], s.kind = .databaseDerived := by
      intro hall
      obtain ⟨s, hs, hkind⟩ := readKind_occurs hread
      exact hdb ⟨hkind.symm.trans (hall s (List.mem_append_left _ hs)), hall m.scan (by simp)⟩
    rw [if_neg hdb, if_neg hall]
    rfl

/-- One merge after some scans. -/
theorem merge_step (hst : Represents cutoff fileSha256 scans st) (hne : scans ≠ [])
    (hdisjoint : (((scans ++ [m.scan]).flatMap Scan.rows).map (ActivityRow.key u)).Nodup)
    (hlisted : (m.candidates.map (Candidate.identity u)).Perm
      (((scans ++ [m.scan]).flatMap Scan.rows).map (ActivityRow.identity u))) :
    (Recognised scans m.scan → ∃ next,
      merge u fileSha256 summarySha256 m.candidates st (m.scan.rows, m.scan.summary cutoff fileSha256) m.paths = .ok next ∧
        Exact (scans ++ [m.scan]) next ∧ Represents cutoff fileSha256 (scans ++ [m.scan]) next) ∧
    ∀ next,
      merge u fileSha256 summarySha256 m.candidates st (m.scan.rows, m.scan.summary cutoff fileSha256) m.paths = .ok next →
        Exact (scans ++ [m.scan]) next → Recognised scans m.scan := by
  obtain ⟨records, output, hrecords, hincreasing, houtput, hmerge⟩ := merge_eq summarySha256 hst hdisjoint hlisted
  rw [recognised_iff hne, hmerge]
  refine ⟨fun ⟨kind, hread, hsame, hother⟩ => ?_, fun next hok hexact => ?_⟩
  · have hexact : Exact (scans ++ [m.scan]) (output, m.result cutoff fileSha256 summarySha256 st.2 kind records output) := by
      rcases kind_cases kind m.scan.kind with hkind | hkind
      · exact (exact_same summarySha256 hst hrecords hincreasing houtput hkind).mpr (hsame hkind)
      · exact (exact_other summarySha256 hst (readKind_occurs hread) hrecords hincreasing houtput hkind).mpr (hother hkind)
    refine ⟨_, ?_, hexact, hst.next summarySha256 hne hread hrecords hexact hsame⟩
    rw [hread]
    rfl
  · obtain ⟨kind, hread, rfl⟩ := of_map_ok hok
    have hread := ok_of_ofOption hread
    refine ⟨kind, hread, fun hkind => ?_, fun hkind => ?_⟩
    · exact (exact_same summarySha256 hst hrecords hincreasing houtput hkind).mp hexact
    · exact (exact_other summarySha256 hst (readKind_occurs hread) hrecords hincreasing houtput hkind).mp hexact

theorem merges_along (ms : List (Merge u)) (hst : Represents cutoff fileSha256 scans st) (hne : scans ≠ [])
    (hdisjoint : (((scans ++ ms.map Merge.scan).flatMap Scan.rows).map (ActivityRow.key u)).Nodup)
    (hlisted : ListedAlong scans ms) :
    (∃ outputs, merges cutoff fileSha256 summarySha256 st ms = .ok outputs ∧ ExactAlong scans ms outputs) ↔
      RecognisedAlong scans ms := by
  induction ms generalizing scans st with
  | nil => exact ⟨fun _ => trivial, fun _ => ⟨[], rfl, .nil scans⟩⟩
  | cons m ms ih =>
    have hcons : scans ++ (m :: ms).map Merge.scan = (scans ++ [m.scan]) ++ ms.map Merge.scan := by simp
    rw [hcons] at hdisjoint
    have hhead : (((scans ++ [m.scan]).flatMap Scan.rows).map (ActivityRow.key u)).Nodup := by
      rw [List.flatMap_append, List.map_append] at hdisjoint
      exact hdisjoint.of_append_left
    obtain ⟨hforward, hback⟩ := merge_step summarySha256 hst hne hhead hlisted.1
    have hne' : scans ++ [m.scan] ≠ [] := by simp
    refine ⟨fun ⟨outputs, hok, hexact⟩ => ?_, fun ⟨hrecognised, hrest⟩ => ?_⟩
    · rw [merges] at hok
      obtain ⟨next, hnext, hok⟩ := of_bind_ok hok
      obtain ⟨outputs', houtputs, rfl⟩ := of_map_ok hok
      cases hexact with
      | cons head tail =>
        have hrecognised := hback next hnext head
        obtain ⟨next', hnext', -, hrepresents⟩ := hforward hrecognised
        obtain rfl := Except.ok.inj (hnext.symm.trans hnext')
        exact ⟨hrecognised, (ih hrepresents hne' hdisjoint hlisted.2).mp ⟨outputs', houtputs, tail⟩⟩
    · obtain ⟨next, hnext, hexact, hrepresents⟩ := hforward hrecognised
      obtain ⟨outputs, houtputs, htail⟩ := (ih hrepresents hne' hdisjoint hlisted.2).mpr hrest
      refine ⟨next :: outputs, ?_, .cons hexact htail⟩
      rw [merges, hnext, bind_ok_left, houtputs]
      rfl

variable (cutoff fileSha256)

/-- Over disjoint scans, the merges all succeed with exact outputs exactly when every existing input is recognised. -/
theorem merges_exact_iff (first : Scan u) (ms : List (Merge u))
    (hdisjoint : (((first :: ms.map Merge.scan).flatMap Scan.rows).map (ActivityRow.key u)).Nodup)
    (hlisted : ListedAlong [first] ms) :
    (∃ outputs, merges cutoff fileSha256 summarySha256 (first.rows, first.summary cutoff fileSha256) ms = .ok outputs ∧
      ExactAlong [first] ms outputs) ↔ RecognisedAlong [first] ms :=
  merges_along summarySha256 ms (represents_scan first) (List.cons_ne_nil _ _) hdisjoint hlisted

end Histories

/-! ### Three scans -/

/-- A row with an activity. -/
def foundRow (key : Text) : ActivityRow :=
  ⟨key, "0x".toList ++ key, "2026-01-01T00:00:00Z".toList, "1767225600".toList, ['1'], ['0'], "regular".toList,
    "0x11".toList, ['0'], "sender".toList⟩

theorem increasing_single (u : Lower) (row : ActivityRow) : Increasing u [row] := List.pairwise_singleton _ _

def databaseScan (key : Text) : Scan asciiLower :=
  ⟨.databaseDerived, [foundRow key], "db".toList, "explorer".toList, [], "index".toList, increasing_single _ _,
    ⟨by decide, by decide⟩⟩

def rpcScan (key : Text) : Scan asciiLower :=
  ⟨.rpcDerived, [foundRow key], [], [], "http://archive".toList, "archival RPC".toList, increasing_single _ _,
    ⟨by decide, by decide⟩⟩

/-- The merge of one more scan, over the candidates of all rows. -/
def mergeOf (scan : Scan asciiLower) (rows : List ActivityRow) : Merge asciiLower :=
  ⟨scan, rows.map fun row => ⟨row.secureKey, row.address⟩, ⟨"existing.json".toList, "incremental.json".toList⟩⟩

def cutoffTen : Cutoff := ⟨0, 10, "0xabc".toList⟩

/-- Two RPC scans, then a database scan. -/
def rpcFirst : List (Merge asciiLower) :=
  [mergeOf (rpcScan ['2']) [foundRow ['1'], foundRow ['2']],
    mergeOf (databaseScan ['3']) [foundRow ['1'], foundRow ['2'], foundRow ['3']]]

theorem rpcFirst_exact : ∃ outputs,
    merges cutoffTen (fun _ => []) (fun _ => []) ((rpcScan ['1']).rows, (rpcScan ['1']).summary cutoffTen fun _ => [])
      rpcFirst = .ok outputs ∧ ExactAlong [rpcScan ['1']] rpcFirst outputs := by
  have hall : ∀ s ∈ [rpcScan ['1']] ++ [rpcScan ['2']], s.kind = .rpcDerived := by simp [rpcScan]
  exact (merges_exact_iff cutoffTen (fun _ => []) (fun _ => []) (rpcScan ['1']) rpcFirst (by decide)
    ⟨by decide, by decide, trivial⟩).mpr ⟨Or.inl rfl, Or.inr (Or.inl hall), trivial⟩

/-- A database scan, then two RPC scans. -/
def databaseFirst : List (Merge asciiLower) :=
  [mergeOf (rpcScan ['2']) [foundRow ['1'], foundRow ['2']],
    mergeOf (rpcScan ['3']) [foundRow ['1'], foundRow ['2'], foundRow ['3']]]

/-- The hybrid summary of the first merge is read as RPC-derived, and the second breakdown has no database rows. -/
theorem databaseFirst_forgotten :
    (((databaseScan ['1'] :: databaseFirst.map Merge.scan).flatMap Scan.rows).map (ActivityRow.key asciiLower)).Nodup ∧
    ListedAlong [databaseScan ['1']] databaseFirst ∧
    ¬∃ outputs, merges cutoffTen (fun _ => []) (fun _ => [])
        ((databaseScan ['1']).rows, (databaseScan ['1']).summary cutoffTen fun _ => []) databaseFirst = .ok outputs ∧
      ExactAlong [databaseScan ['1']] databaseFirst outputs := by
  refine ⟨by decide, ⟨by decide, by decide, trivial⟩, ?_⟩
  rintro ⟨outputs, hok, hexact⟩
  have hrun : (merges cutoffTen (fun _ => []) (fun _ => [])
      ((databaseScan ['1']).rows, (databaseScan ['1']).summary cutoffTen fun _ => []) databaseFirst).toOption.map
        (fun outputs => outputs.map fun output =>
          (output.2.provenanceBreakdown.get? .databaseDerived).map Bucket.counts) = some [some (1, 1, 0), none] := by
    decide +kernel
  rw [hok] at hrun
  cases hexact with
  | cons head tail =>
    cases tail with
    | cons head' tail' =>
      have hnone := head'.breakdown .databaseDerived
      rw [if_pos ⟨databaseScan ['1'], by simp, rfl⟩] at hnone
      have hsecond := congrArg (fun o => o.map (List.drop 1)) hrun
      simp [Except.toOption, hnone] at hsecond

end HarmonyMigration.ExtendActivity
