import HarmonyMigration.Packages.Refresh

/-! The run record over every sequence of refreshes, quarantines and recoveries: a target of
a refresh that did not complete stays unlisted until a refresh of it does. -/

namespace HarmonyMigration.Packages

open FileTree

/-- None of `paths` is listed. -/
def Record.Avoids (record : Record) (paths : List Path) : Prop :=
  ∀ p ∈ paths, p ∉ record.packages.keys

section Avoids
variable {record : Record} {paths : List Path}

@[simp] theorem avoids_bump : record.bump.Avoids paths ↔ record.Avoids paths := Iff.rfl

@[simp] theorem avoids_clear : record.clear.Avoids paths ↔ record.Avoids paths := Iff.rfl

@[simp] theorem avoids_with_pending {pending : Option Pending} :
    ({ record with pending } : Record).Avoids paths ↔ record.Avoids paths := Iff.rfl

theorem Record.Avoids.unlist (h : record.Avoids paths) (qs : List Path) : (unlist record qs).Avoids paths :=
  fun p hp hm => h p hp (mem_unlist.mp hm).1

theorem unlist_avoids (record : Record) (qs : List Path) : (Packages.unlist record qs).Avoids qs :=
  fun p hp hm => (mem_unlist.mp hm).2 ⟨p, hp, List.prefix_rfl⟩

theorem Record.Avoids.append {qs : List Path} (h : record.Avoids paths) (h' : record.Avoids qs) :
    record.Avoids (paths ++ qs) := by
  intro p hp
  rcases List.mem_append.mp hp with hp | hp
  · exact h p hp
  · exact h' p hp

theorem avoids_writeRecord {run : Run} (fault : Fault) (h : run.record.Avoids paths)
    (h' : record.Avoids paths) : (writeRecord run record fault).record.Avoids paths := by
  cases fault with
  | before => exact h
  | none | after => exact h'

end Avoids

/-! ### Quarantines and recoveries -/

/-- None of `paths` is listed on disk, nor in the record a running operation holds. -/
def State.Avoids (s : State) (paths : List Path) : Prop :=
  s.run.record.Avoids paths ∧ ∀ p, s.proc = some p → p.record.Avoids paths

section Machine
variable {paths : List Path} {p : Proc} {run : Run}

theorem avoids_stop (h : run.record.Avoids paths) : (State.stop run).Avoids paths :=
  ⟨h, by simp [State.stop]⟩

theorem avoids_goto (h : run.record.Avoids paths) (hp : p.record.Avoids paths) (phase : Phase) :
    (p.goto run phase).Avoids paths := by
  refine ⟨h, ?_⟩
  rintro q ⟨⟩
  exact hp

theorem avoids_afterCheck (h : run.record.Avoids paths) (hp : p.record.Avoids paths) (k : ℕ)
    (missing : Bool) : (afterCheck p run k missing).Avoids paths := by
  unfold afterCheck
  split_ifs
  · exact avoids_goto h hp _
  · exact avoids_stop h
  · exact avoids_goto h (hp.unlist _) _

theorem avoids_stepOk {runName : String} {s' : State} (h : run.record.Avoids paths)
    (hp : p.record.Avoids paths) (hs : stepOk runName p run = some s') : s'.Avoids paths := by
  obtain ⟨dest, record, journal, phase⟩ := p
  cases phase with
  | journal | rollJournal | note | doneJournal =>
    obtain rfl := Option.some.inj hs
    exact avoids_goto h hp _
  | record =>
    obtain rfl := Option.some.inj hs
    exact avoids_goto (p := ⟨dest, record.bump, journal, .record⟩) (avoids_writeRecord .none h hp) hp _
  | move | putBack =>
    obtain ⟨rel, -, rfl⟩ := Option.map_eq_some_iff.mp hs
    exact avoids_goto h hp _
  | rollRecord | clear =>
    obtain rfl := Option.some.inj hs
    exact avoids_stop (avoids_writeRecord .none h hp)
  | check k missing =>
    obtain ⟨rel, -, rfl⟩ := Option.map_eq_some_iff.mp hs
    have hmoved : ({ run with files := rename rel (dest ++ rel) run.files } : Run).record.Avoids paths := h
    dsimp only
    split_ifs
    · exact avoids_afterCheck h hp _ _
    · exact avoids_afterCheck hmoved hp _ _
    · exact avoids_afterCheck h hp _ _

theorem avoids_stepFail (error : String) (fault : Fault) (h : run.record.Avoids paths)
    (hp : p.record.Avoids paths) : (stepFail p run error fault).Avoids paths := by
  obtain ⟨dest, record, journal, phase⟩ := p
  cases phase with
  | record | rollRecord | clear => exact avoids_stop (avoids_writeRecord fault h hp)
  | move => exact avoids_goto h hp _
  | rollJournal | doneJournal =>
    refine avoids_stop ?_
    dsimp only
    split_ifs <;> exact h
  | journal | putBack | check | note => exact avoids_stop h

theorem avoids_step {sha256 : File → String} {runName : String} {s s' : State} {a : Action}
    (h : s.Avoids paths) (hs : step sha256 runName s a = some s') : s'.Avoids paths := by
  obtain ⟨hrun, hproc⟩ := h
  cases a with
  | quarantine reason included stamp =>
    simp only [step] at hs
    split_ifs at hs
    unfold startQuarantine at hs
    split at hs
    · obtain rfl := Option.some.inj hs
      exact avoids_stop hrun
    · split at hs
      · obtain rfl := Option.some.inj hs
        exact avoids_stop hrun
      · obtain rfl := Option.some.inj hs
        exact avoids_stop hrun
      · dsimp only at hs
        split_ifs at hs
        obtain rfl := Option.some.inj hs
        refine ⟨hrun, ?_⟩
        rintro q ⟨⟩
        exact hrun.unlist _
  | recover =>
    simp only [step] at hs
    split_ifs at hs
    obtain rfl := Option.some.inj hs
    unfold startRecover
    split
    · split
      · exact avoids_afterCheck hrun hrun _ _
      · exact avoids_stop hrun
    · exact avoids_stop hrun
  | step =>
    obtain ⟨p, hp, hs⟩ := Option.bind_eq_some_iff.mp hs
    exact avoids_stepOk hrun (hproc p hp) hs
  | fail error fault =>
    obtain ⟨p, hp, rfl⟩ := Option.map_eq_some_iff.mp hs
    exact avoids_stepFail error _ hrun (hproc p hp)
  | kill =>
    obtain ⟨p, -, rfl⟩ := Option.map_eq_some_iff.mp hs
    exact avoids_stop hrun

end Machine

/-! ### Refreshes -/

section Refresh
variable {sha256 : File → String} {run : Run} {r : Refresh} {paths : List Path}

theorem mem_keys_publish {record : Record} {p : Path} :
    p ∈ (record.publish sha256 r).packages.keys ↔ p ∈ record.packages.keys ∨ p ∈ r.rels := by
  obtain ⟨targets, replace, generation, stamp, reason, faults⟩ := r
  simp only [Record.publish, Refresh.rels]
  generalize record.packages = d
  induction targets generalizing d with
  | nil => simp
  | cons t targets ih =>
    rw [List.foldl_cons, ih, Dict.mem_keys_insert, List.map_cons, List.mem_cons]
    tauto

/-- A record without `rels`, and without whatever the earlier one did not list. -/
structure Unlisted (rels : List Path) (record record' : Record) : Prop where
  targets : record'.Avoids rels
  others : ∀ paths, record.Avoids paths → record'.Avoids paths

theorem unlisted_unlist (record : Record) (rels : List Path) (revision : ℕ) (pending : Option Pending) :
    Unlisted rels record { unlist record rels with revision, pending } :=
  ⟨unlist_avoids record rels, fun _ h => h.unlist rels⟩

theorem Unlisted.failClosed {rels : List Path} {record record' : Record}
    (h : Unlisted rels record run.record) (h' : Unlisted rels record record') :
    Unlisted rels record (failClosed r run record').record :=
  ⟨avoids_writeRecord _ h.targets h'.targets,
    fun paths hp => avoids_writeRecord _ (h.others paths hp) (h'.others paths hp)⟩

/-- What a refresh has done to the record when it is about to commit, or has ended before. -/
def UpToCommit (sha256 : File → String) (record : Record) (r : Refresh) :
    Except (Run × Outcome) (Run × Record) → Prop
  | .error (run', .notStarted) => run'.record = record
  | .error (run', .failed) => Unlisted r.rels record run'.record
  | .error (_, .done) => False
  | .ok (run', record') => Unlisted r.rels record run'.record ∧ record' = run'.record.publish sha256 r

theorem startRefresh_upToCommit : UpToCommit sha256 run.record r (startRefresh sha256 run r) := by
  have hun := unlisted_unlist run.record r.rels (run.record.revision + 1)
    (some (.refresh (sortPaths r.rels)))
  unfold startRefresh
  split_ifs
  · rfl
  · cases r.faults.firstWrite with
    | before => rfl
    | after => exact hun
    | none =>
      dsimp only
      split_ifs
      · exact ⟨hun, rfl⟩
      · exact Unlisted.failClosed hun hun

theorem prepared_upToCommit : UpToCommit sha256 run.record r (prepared sha256 run r) := by
  have hstart (files : Files File) : UpToCommit sha256 run.record r
      (startRefresh sha256 ⟨files, run.record⟩ r) := startRefresh_upToCommit
  unfold prepared
  split_ifs
  · cases run.record.pending with
    | none => exact hstart run.files
    | some pending =>
      cases pending with
      | quarantine => rfl
      | refresh targets => exact hstart _
  · rfl

end Refresh

/-! ### Whole runs -/

/-- A run with the targets of the refreshes that wrote the record, did not complete, and have
had no complete refresh since. -/
structure System where
  state : State
  stale : List Path

inductive SystemAction where
  | refresh (r : Refresh)
  | other (a : Action)

section System
variable (sha256 : File → String) (runName : String)

def refreshStep (s : System) (r : Refresh) : System :=
  let (run, outcome) := staged sha256 s.state.run r
  ⟨.stop run, match outcome with
    | .notStarted => s.stale
    | .failed => s.stale ++ r.rels
    | .done => s.stale.filter fun p => p ∉ r.rels⟩

/-- One operation under the run's lock. -/
def systemStep (s : System) : SystemAction → Option System
  | .refresh r => if s.state.proc.isNone then some (refreshStep sha256 s r) else none
  | .other a => (step sha256 runName s.state a).map fun t => ⟨t, s.stale⟩

/-- A commit that raises, raises before its `os.replace`, and the error path's own write does
not get to its `os.replace` either. -/
def CommitHarmless (s : System) : SystemAction → Prop
  | .refresh r => (prepared sha256 s.state.run r).isOk →
      r.faults.commit = .none ∨ (r.faults.commit = .before ∧ r.faults.rewrite = .before)
  | .other _ => True

instance (s : System) (a : SystemAction) : Decidable (CommitHarmless sha256 s a) := by
  unfold CommitHarmless
  cases a <;> infer_instance

variable {sha256 runName}

theorem avoids_refreshStep {s : System} {r : Refresh} (h : s.state.run.record.Avoids s.stale)
    (hg : CommitHarmless sha256 s (.refresh r)) :
    (refreshStep sha256 s r).state.run.record.Avoids (refreshStep sha256 s r).stale := by
  have hspec : UpToCommit sha256 s.state.run.record r (prepared sha256 s.state.run r) :=
    prepared_upToCommit
  unfold refreshStep staged
  cases hp : prepared sha256 s.state.run r with
  | error ended =>
    obtain ⟨run', outcome⟩ := ended
    rw [hp] at hspec
    cases outcome with
    | notStarted =>
      have hsame : run'.record = s.state.run.record := hspec
      simpa [State.stop, hsame] using h
    | failed => exact (hspec.others _ h).append hspec.targets
    | done => exact hspec.elim
  | ok done =>
    obtain ⟨run', record⟩ := done
    rw [hp] at hspec
    obtain ⟨hun, rfl⟩ := hspec
    rcases hg (by rw [hp]; rfl) with hc | ⟨hc, hw⟩
    · simp only [hc]
      intro p hpm hkey
      obtain ⟨hstale, hrel⟩ := List.mem_filter.mp hpm
      rcases mem_keys_publish.mp hkey with hk | hk
      · exact hun.others _ h p hstale hk
      · simp [hk] at hrel
    · simp only [hc, failClosed, hw]
      exact (hun.others _ h).append hun.targets

/-- Without the condition every target is listed right after the failed refresh. -/
theorem listed_of_not_commitHarmless {s : System} {r : Refresh}
    (hg : ¬CommitHarmless sha256 s (.refresh r)) :
    ∀ rel ∈ r.rels, rel ∈ (refreshStep sha256 s r).stale ∧
      rel ∈ (refreshStep sha256 s r).state.run.record.packages.keys := by
  obtain ⟨hok, hbad⟩ := Classical.not_imp.mp hg
  obtain ⟨hne, hfault⟩ := not_or.mp hbad
  have hspec : UpToCommit sha256 s.state.run.record r (prepared sha256 s.state.run r) :=
    prepared_upToCommit
  intro rel hrel
  unfold refreshStep staged
  cases hp : prepared sha256 s.state.run r with
  | error ended =>
    rw [hp] at hok
    cases hok
  | ok done =>
    obtain ⟨run', record⟩ := done
    rw [hp] at hspec
    obtain ⟨-, rfl⟩ := hspec
    have hlisted : rel ∈ (run'.record.publish sha256 r).packages.keys := mem_keys_publish.mpr (Or.inr hrel)
    have hstale : rel ∈ s.stale ++ r.rels := List.mem_append_right _ hrel
    cases hc : r.faults.commit with
    | none => exact absurd hc hne
    | before =>
      have hw : r.faults.rewrite ≠ .before := fun hw => hfault ⟨hc, hw⟩
      cases hr : r.faults.rewrite with
      | before => exact absurd hr hw
      | none | after => exact ⟨hstale, by simp only [failClosed, hr]; exact hlisted⟩
    | after =>
      cases hr : r.faults.rewrite with
      | none | before | after => exact ⟨hstale, by simp only [failClosed, hr]; exact hlisted⟩

/-- No target of a refresh that did not complete is listed, so none is reported current. -/
theorem incomplete_refresh_never_listed {run₀ : Run} {s : System}
    (h : Runs.Reach (systemStep sha256 runName) (CommitHarmless sha256) ⟨.stop run₀, []⟩ s) :
    ∀ rel ∈ s.stale, rel ∉ s.state.run.record.packages.keys ∧ ¬Current sha256 s.state.run rel := by
  have hinv : s.state.Avoids s.stale := by
    refine h.invariant (I := fun s => s.state.Avoids s.stale) (avoids_stop (by simp [Record.Avoids])) ?_
    intro t a u ht hg hu
    cases a with
    | refresh r =>
      simp only [systemStep] at hu
      split_ifs at hu
      obtain rfl := Option.some.inj hu
      exact avoids_stop (avoids_refreshStep ht.1 hg)
    | other a =>
      obtain ⟨t', ht', rfl⟩ := Option.map_eq_some_iff.mp hu
      exact avoids_step ht ht'
  exact fun rel hrel => ⟨hinv.1 rel hrel, fun hc => hinv.1 rel hrel (listed_of_current hc)⟩

end System

/-! ### An approval package -/

/-- SHA-256 of the files below. -/
def approvalDigest : File → String
  | .data "\x7b\x7d" => "44136fa355b3678a1146ad16f7e8649e94fb4fc21fe77e8310c060f61caaff8a"
  | .data "20250101T000000Z-0a0b0c0d" => "b7064110648efcedb9636413d9e1f192c527db47ae4a8872035ed675188305aa"
  | .manifest _ => "0513a718c09c7b762960698dfcc38ed6b6bd5dd57ba8c5a5f9f537a6b0dea559"
  | _ => ""

def approvalRefresh (faults : Faults) : Refresh where
  targets := [⟨["ethereum", "approval"], ["ethereum", ".approval-staging-x1y2z3"],
    [(["safe-approve.json"], .data "\x7b\x7d")]⟩]
  replace := true
  generation := "20250101T000000Z-0a0b0c0d"
  stamp := "20250101T000100Z"
  reason := "No space left on device"
  faults := faults

def emptyRun : System := ⟨.stop ⟨[], ⟨0, none, .empty⟩⟩, []⟩

/-- The commit's write fails, then nothing of the error path does. -/
theorem incomplete_refresh_never_listed_approval :
    ∃ s, Runs.guardedRun (systemStep approvalDigest "run") (CommitHarmless approvalDigest) emptyRun
        [.refresh (approvalRefresh ⟨.none, none, .before, fun _ => .none, .before⟩)] = some s ∧
      ["ethereum", "approval"] ∈ s.stale ∧
      ¬Current approvalDigest s.state.run ["ethereum", "approval"] := by
  obtain ⟨s, hs⟩ : ∃ s, Runs.guardedRun (systemStep approvalDigest "run") (CommitHarmless approvalDigest)
      emptyRun [.refresh (approvalRefresh ⟨.none, none, .before, fun _ => .none, .before⟩)] = some s :=
    Option.isSome_iff_exists.mp (by decide +kernel)
  have hstale : ["ethereum", "approval"] ∈ s.stale := by
    have hmap := congrArg (Option.map System.stale) hs
    have heval : (Runs.guardedRun (systemStep approvalDigest "run") (CommitHarmless approvalDigest)
      emptyRun [.refresh (approvalRefresh ⟨.none, none, .before, fun _ => .none, .before⟩)]).map
        System.stale = some [["ethereum", "approval"]] := by decide +kernel
    rw [heval] at hmap
    rw [← Option.some.inj hmap]
    exact List.mem_singleton_self _
  refine ⟨s, hs, hstale, ?_⟩
  exact (incomplete_refresh_never_listed (Runs.reach_of_guardedRun .refl hs) _ hstale).2

/-- The commit's write raises, the package cannot be moved, and the error path's write works:
the failed refresh's target is listed and reported current. -/
theorem failed_commit_reported_current :
    (Runs.run (systemStep approvalDigest "run") emptyRun
      [.refresh (approvalRefresh ⟨.none, none, .before, fun _ => .before, .none⟩)]).map (fun s =>
        (decide (["ethereum", "approval"] ∈ s.stale),
          decide (["ethereum", "approval"] ∈ s.state.run.record.packages.keys),
          (verifyOne approvalDigest s.state.run ["ethereum", "approval"]).1)) =
      some (true, true, true) := by
  decide +kernel

end HarmonyMigration.Packages
