import HarmonyMigration.Lib.ExceptRun
import HarmonyMigration.Lib.Publish
import HarmonyMigration.Routing.Totals

/-! `main` of `apply-routes.py` and its five output files: the checks on the paths, the tables that it writes
before it checks its totals, and the summary that it writes after. -/

namespace HarmonyMigration.Routing

open Erc20 Except Claims Publish

variable {K : Keys} {i : Input}

/-! ### The files -/

inductive OutputFile where
  | exceptions | governorExceptions | vaultStages | unresolved | summary
  deriving DecidableEq, Repr

/-- `outputs`. -/
def OutputFile.all : List OutputFile := [.exceptions, .governorExceptions, .vaultStages, .unresolved, .summary]

structure Summary where
  stageReadiness : List (Stage × Readiness)
  status : Status

/-- What a run writes to the file. -/
abbrev OutputFile.Table : OutputFile → Type
  | .exceptions => List ExceptionRow
  | .governorExceptions => List GovernorException
  | .vaultStages => List VaultStageRow
  | .unresolved => List UnresolvedRow
  | .summary => Summary

/-- What is at a path: nothing, bytes from before, or what a run has written. -/
inductive Contents (α : Type) where
  | missing
  | earlier (bytes : List UInt8)
  | written (value : α)

/-- `os.path.exists`. -/
def Contents.isThere {α : Type} : Contents α → Bool
  | .missing => false
  | .earlier _ | .written _ => true

/-- The five files, and whether the partial file of each is there. -/
structure Disk where
  contents : (f : OutputFile) → Contents f.Table
  partials : OutputFile → Bool

inductive Failure where
  | fileExists (f : OutputFile)
  | refused (e : Error)

def checkOutput (replace : Bool) (f : OutputFile) : EStateM Failure Disk Unit := fun disk =>
  if disk.partials f then .error (.fileExists f) disk
  else if (disk.contents f).isThere ∧ ¬replace then .error (.fileExists f) disk
  else .ok () disk

def Disk.put (disk : Disk) (f : OutputFile) (value : f.Table) : Disk :=
  { disk with contents := Function.update disk.contents f (.written value) }

/-- A new partial file takes the place of the file. -/
def replaceFile (f : OutputFile) (value : f.Table) : EStateM Failure Disk Unit := fun disk =>
  if disk.partials f then .error (.fileExists f) disk
  else .ok () (disk.put f value)

def writeCsv (replace : Bool) (f : OutputFile) (value : f.Table) : EStateM Failure Disk Unit :=
  checkOutput replace f >>= fun _ => replaceFile f value

/-! ### `main` -/

/-- What `main` has before it writes. -/
structure Tables where
  loaded : Loaded
  compiled : Compiled
  exceptions : List ExceptionRow
  governorExceptions : List GovernorException
  vaultStages : List VaultStageRow
  unresolved : List UnresolvedRow

def tables (K : Keys) (i : Input) : Except Error Tables :=
  (load K i).bind fun l =>
  (compileAll i.validatorPath l).bind fun rows =>
  let c := sortRows rows
  let exceptions := routingExceptions c
  (require (∀ s ∈ l.sources.values, s.codeBearing →
    exceptions.any fun e => e.sourceCodeBearing && e.sourceAddress = s.address) .codeBearingNotRepresented).bind fun _ =>
  (loadGovernors l.destinations i.governors .empty).bind fun overrides =>
  (loadBaseVaults K i.baseVaultDeposits).bind fun _ =>
  (require (within overrides.keys (i.baseVaultDeposits.map VaultRow.validatorAddress)) .inactiveGovernor).bind fun _ =>
  (vaultStages c.shareRows i.baseVaultDeposits).map fun vaults =>
    { loaded := l
      compiled := c
      exceptions
      governorExceptions := governorExceptions overrides l.routes i.baseVaultDeposits
      vaultStages := vaults
      unresolved := unresolvedRows exceptions overrides l.routes i.baseVaultDeposits }

/-- What `main` returns once the totals are checked. -/
def Tables.output (t : Tables) : Output where
  loaded := t.loaded
  compiled := t.compiled
  exceptions := t.exceptions
  governorExceptions := t.governorExceptions
  vaultStages := t.vaultStages
  unresolved := t.unresolved
  stageReadiness := [Stage.initial, .exchangeManual, .nextStage, .deferred, .manualReview].map fun stage =>
    (stage, readiness t.loaded.pending t.compiled t.governorExceptions t.vaultStages stage)
  status :=
    if unresolvedAmount t.unresolved .walletAirdrop = 0 ∧ unresolvedAmount t.unresolved .vaultShares = 0 ∧
      (∀ u ∈ t.unresolved, u.component ≠ .validatorGovernor) ∧
      (∀ r ∈ t.loaded.routes, r.source ∈ t.loaded.sources.keys) ∧
      t.loaded.pending = [] ∧ pendingStageReviewClaims t.compiled t.loaded = 0 then .ready else .hold

def Output.summary (o : Output) : Summary := ⟨o.stageReadiness, o.status⟩

def writeTables (replace : Bool) (t : Tables) : EStateM Failure Disk Unit :=
  writeCsv replace .exceptions t.exceptions >>= fun _ =>
  writeCsv replace .governorExceptions t.governorExceptions >>= fun _ =>
  writeCsv replace .vaultStages t.vaultStages >>= fun _ =>
  writeCsv replace .unresolved t.unresolved

def mainFiles (replace : Bool) (K : Keys) (i : Input) : EStateM Failure Disk Output :=
  OutputFile.all.forM (checkOutput replace) >>= fun _ =>
  lift ((tables K i).mapError .refused) >>= fun t =>
  writeTables replace t >>= fun _ =>
  lift ((checkTotals t.loaded t.compiled t.exceptions t.vaultStages).mapError .refused) >>= fun _ =>
  replaceFile .summary t.output.summary >>= fun _ => pure t.output

/-- The tables and the checks behind them are the run without its files. -/
theorem main_eq_tables : main K i = (tables K i).bind fun t =>
    (checkTotals t.loaded t.compiled t.exceptions t.vaultStages).map fun _ => t.output := by
  unfold main tables
  simp only [bind_bind, map_bind]
  rfl

/-- What the run has established before it writes. -/
structure TablesRun (K : Keys) (i : Input) (t : Tables) where
  compile : CompileRun K i t.loaded t.compiled
  exceptions_eq : t.exceptions = routingExceptions t.compiled
  baseVaults_ok : loadBaseVaults K i.baseVaultDeposits = .ok ()
  vaults_ok : vaultStages t.compiled.shareRows i.baseVaultDeposits = .ok t.vaultStages

theorem tablesRun_of_tables {t : Tables} (h : tables K i = .ok t) : Nonempty (TablesRun K i t) := by
  unfold tables at h
  obtain ⟨l, hload, h⟩ := of_bind_ok h
  obtain ⟨run⟩ := loadRun_of_load hload
  obtain ⟨rows, hrows, h⟩ := of_bind_ok h
  rw [require_bind_ok] at h
  obtain ⟨-, h⟩ := h
  obtain ⟨overrides, -, h⟩ := of_bind_ok h
  obtain ⟨u, hbase, h⟩ := of_bind_ok h
  rw [require_bind_ok] at h
  obtain ⟨-, h⟩ := h
  obtain ⟨vaults, hvaults, rfl⟩ := of_map_ok h
  exact ⟨⟨run, rows, hrows, rfl⟩, rfl, hbase, hvaults⟩

theorem TablesRun.checkTotals_iff {t : Tables} (r : TablesRun K i t) :
    checkTotals t.loaded t.compiled t.exceptions t.vaultStages = .ok () ↔ Closes i.validatorPath t.loaded := by
  rw [r.exceptions_eq]
  exact r.compile.checkTotals_iff r.baseVaults_ok r.vaults_ok

/-! ### Where the files end -/

/-- The four tables of a run. -/
def Disk.putTables (disk : Disk) (t : Tables) : Disk :=
  (((disk.put .exceptions t.exceptions).put .governorExceptions t.governorExceptions).put
    .vaultStages t.vaultStages).put .unresolved t.unresolved

theorem keeps_checkOutput (replace : Bool) (f : OutputFile) : Keeps (checkOutput replace f) := by
  intro disk
  unfold EStateM.run checkOutput
  split_ifs <;> rfl

/-- With `--replace`, only a partial file is in the way. -/
theorem checkOutput_returns {disk : Disk} {f : OutputFile} (h : disk.partials f = false) :
    (checkOutput true f).run disk = .ok () disk := by
  simp [checkOutput, EStateM.run, h]

theorem checkOutput_raises {disk : Disk} {f : OutputFile} (h : disk.partials f = true) :
    (checkOutput true f).run disk = .error (.fileExists f) disk := by
  simp [checkOutput, EStateM.run, h]

theorem replaceFile_returns {disk : Disk} {f : OutputFile} {value : f.Table} (h : disk.partials f = false) :
    (replaceFile f value).run disk = .ok () (disk.put f value) := by
  simp [replaceFile, EStateM.run, h]

theorem writeCsv_returns {disk : Disk} {f : OutputFile} {value : f.Table} (h : disk.partials f = false) :
    (writeCsv true f value).run disk = .ok () (disk.put f value) := by
  unfold writeCsv
  rw [bind_returns (checkOutput_returns h)]
  exact replaceFile_returns h

theorem writeTables_returns {disk : Disk} (h : ∀ f, disk.partials f = false) (t : Tables) :
    (writeTables true t).run disk = .ok () (disk.putTables t) := by
  -- a file that is replaced leaves no partial file
  have h1 : ∀ f, (disk.put .exceptions t.exceptions).partials f = false := h
  have h2 : ∀ f, ((disk.put .exceptions t.exceptions).put .governorExceptions t.governorExceptions).partials f = false := h
  have h3 : ∀ f, (((disk.put .exceptions t.exceptions).put .governorExceptions t.governorExceptions).put
    .vaultStages t.vaultStages).partials f = false := h
  unfold writeTables
  rw [bind_returns (writeCsv_returns (h _)), bind_returns (writeCsv_returns (h1 _)), bind_returns (writeCsv_returns (h2 _))]
  exact writeCsv_returns (h3 _)

/-- The checks on the paths pass when no partial file is left. -/
theorem checkOutputs_returns {disk : Disk} :
    (OutputFile.all.forM (checkOutput true)).run disk = .ok () disk ↔ ∀ f, disk.partials f = false := by
  have hfiles : ∀ files : List OutputFile, (files.forM (checkOutput true)).run disk = .ok () disk ↔
      ∀ f ∈ files, disk.partials f = false := by
    intro files
    induction files with
    | nil => simp
    | cons f files ih =>
      rw [List.forall_mem_cons]
      change (checkOutput true f >>= fun _ => files.forM (checkOutput true)).run disk = _ ↔ _
      cases hf : disk.partials f with
      | false =>
        rw [bind_returns (checkOutput_returns hf), ih]
        simp
      | true =>
        rw [bind_raises (checkOutput_raises hf)]
        simp
  rw [hfiles]
  refine ⟨?_, ?_⟩
  · intro h f
    apply h
    cases f <;> decide
  · intro h f _
    exact h f

/-- All five files are of the run that returned this. -/
def Published (o : Output) (disk : Disk) : Prop :=
  disk.contents .exceptions = .written o.exceptions ∧
    disk.contents .governorExceptions = .written o.governorExceptions ∧
    disk.contents .vaultStages = .written o.vaultStages ∧ disk.contents .unresolved = .written o.unresolved ∧
    disk.contents .summary = .written o.summary

theorem published_output (disk : Disk) (t : Tables) :
    Published t.output ((disk.putTables t).put .summary t.output.summary) := by
  refine ⟨?_, ?_, ?_, ?_, ?_⟩ <;> rfl

/-- Where a run ends that finds no partial file: a check on the totals that fails leaves the tables. -/
theorem mainFiles_run {disk : Disk} (h : ∀ f, disk.partials f = false) :
    (mainFiles true K i).run disk = match tables K i with
      | .error e => .error (.refused e) disk
      | .ok t => match checkTotals t.loaded t.compiled t.exceptions t.vaultStages with
        | .error e => .error (.refused e) (disk.putTables t)
        | .ok _ => .ok t.output ((disk.putTables t).put .summary t.output.summary) := by
  unfold mainFiles
  rw [bind_returns (checkOutputs_returns.mpr h)]
  cases tables K i with
  | error e => rfl
  | ok t =>
    have hwritten : ∀ f, (disk.putTables t).partials f = false := h
    change (writeTables true t >>= _).run disk = _
    rw [bind_returns (writeTables_returns h t)]
    dsimp only
    cases checkTotals t.loaded t.compiled t.exceptions t.vaultStages with
    | error e => rfl
    | ok u =>
      change (replaceFile .summary t.output.summary >>= _).run (disk.putTables t) = _
      rw [bind_returns (replaceFile_returns (hwritten _))]
      rfl

/-- A run that finds no partial file returns what the run without its files returns. -/
theorem mainFiles_returns_iff {disk : Disk} (h : ∀ f, disk.partials f = false) {o : Output} :
    (∃ after, (mainFiles true K i).run disk = .ok o after) ↔ main K i = .ok o := by
  rw [mainFiles_run h, main_eq_tables]
  cases tables K i with
  | error e => simp [Except.bind]
  | ok t =>
    dsimp only [Except.bind]
    cases checkTotals t.loaded t.compiled t.exceptions t.vaultStages with
    | error e => simp [Except.map]
    | ok u => simp [Except.map]

/-- The tables are seen on an empty disk. -/
theorem putTables_ne (t : Tables) :
    ((⟨fun _ => .missing, fun _ => false⟩ : Disk).putTables t).contents ≠ fun _ => .missing := by
  intro heq
  have hrows := congrFun heq .exceptions
  cases hrows

/-- On a disk where nothing is in the way, a run that is all or nothing passes its checks on the totals. -/
theorem totals_of_allOrNothing {t : Tables} (ht : tables K i = .ok t)
    (h : ∀ disk, AllOrNothing Disk.contents Published (mainFiles true K i) disk) :
    checkTotals t.loaded t.compiled t.exceptions t.vaultStages = .ok () := by
  have hempty := h ⟨fun _ => .missing, fun _ => false⟩
  unfold mainFiles at hempty
  rw [allOrNothing_bind (keeps_forM (keeps_checkOutput true) _)] at hempty
  have htables := hempty () (checkOutputs_returns.mpr fun _ => rfl)
  rw [allOrNothing_lift_bind] at htables
  have hwrites := htables t (by rw [ht]; rfl)
  obtain ⟨u, hu⟩ := passes_of_allOrNothing (writeTables_returns (fun _ => rfl) t) (putTables_ne t) hwrites
  exact mapError_ok hu

/-- A run that replaces its files is all or nothing, whatever was in them, if and only if the checks before its tables
refuse its inputs or the claims and the draws on them close. -/
theorem main_all_or_nothing_iff (K : Keys) (i : Input) :
    (∀ disk, AllOrNothing Disk.contents Published (mainFiles true K i) disk) ↔
      ∀ t, tables K i = .ok t → Closes i.validatorPath t.loaded := by
  refine ⟨?_, ?_⟩
  · intro h t ht
    obtain ⟨run⟩ := tablesRun_of_tables ht
    exact run.checkTotals_iff.mp (totals_of_allOrNothing ht h)
  · intro h disk
    unfold mainFiles
    rw [allOrNothing_bind (keeps_forM (keeps_checkOutput true) _)]
    intro u hclean
    have hpartials := checkOutputs_returns.mp hclean
    rw [allOrNothing_lift_bind]
    intro t ht
    have htables := mapError_ok ht
    obtain ⟨run⟩ := tablesRun_of_tables htables
    have htotals := run.checkTotals_iff.mpr (h t htables)
    have hwritten : ∀ f, (disk.putTables t).partials f = false := hpartials
    unfold AllOrNothing
    rw [returns_of_passes (writeTables_returns hpartials t) (by rw [htotals]; rfl),
      bind_returns (replaceFile_returns (hwritten _))]
    exact published_output disk t

/-- A claim with 5 of WONE in its wallet, for which no route redistributes anything. -/
def unbackedWone : Input :=
  { partialNonIssuance with
    automaticClaims := [⟨0x10, 0x10#160, 100, 50, 150, 5, none, emptyCodeHash, ""⟩]
    migrationStages :=
      [{ key := 0x10, address := 0x10#160, classification := .wallet, contractCategory := none, group := .wallet,
         routingCategory := .automaticPolicy, stage := .initial, treatment := .issue, qualification := 150, gross := 150,
         existingNonIssuance := 0, historicalRetainedCap := 0, woneSourceOffset := 0, contractNonIssuance := 0,
         contractWalletNonIssuance := 0, contractStakedNonIssuance := 0, wallet := 100, staked := 50, allocation := 150,
         lastActivity := none, reason := "", meetsThreshold := true }]
    routes := [[⟨"rest", 200, 0x10#160, "elsewhere", none, none, .all, .walletFirstProRataVault, "", "", none⟩]] }

/-- The run raises because nothing is redistributed, and four of its files are new. -/
theorem new_tables_old_summary :
    ¬∀ disk, AllOrNothing Disk.contents Published (mainFiles true addressKeys unbackedWone) disk := by
  intro hall
  have hrun : (tables addressKeys unbackedWone).toOption.any (fun t =>
      !(checkTotals t.loaded t.compiled t.exceptions t.vaultStages).toBool) = true := by decide +kernel
  obtain ⟨t, ht, hraised⟩ := Except.exists_ok_of_any hrun
  rw [totals_of_allOrNothing ht hall] at hraised
  cases hraised

end HarmonyMigration.Routing
