import HarmonyMigration.Lib.Lines
import HarmonyMigration.Lib.Runs

/-! Work on many items whose rows go to several files, one file after another, before a mark in a done
file says that the item is finished. A run may be killed at any moment, with any part of what it was
writing on disk, and the next run starts from the done file. -/

namespace Resumable
open Lines

structure Stage (File Item Args Memory Outcome : Type) where
  files : List File
  header : File → List Char
  rows : Item → File → List (List Char)
  /-- What the done file gets once the rows of an item are stored. -/
  mark : Item → List Char
  /-- Items are finished in any order. -/
  unordered : Bool
  resume : Args → List Char → Option (List Item × Memory)
  count : Item → Memory → Memory
  finish : Args → Memory → (File → List Char) → Option Outcome
  mem_files : ∀ f, f ∈ files
  header_line : ∀ f, '\n' ∉ header f
  rows_line : ∀ item f, ∀ r ∈ rows item f, '\n' ∉ r

inductive Marker (Outcome : Type)
  | absent
  | started
  | complete (o : Outcome)

structure Disk (File Outcome : Type) where
  csv : File → List Char
  done : List Char
  marker : Marker Outcome

inductive Phase (File Item : Type)
  | idle
  | append (item : Item) (left : List File)
  | flush (item : Item) (file : File) (left : List File)
  | sync (item : Item)

/-- A run, with what it has handed to each file and not yet flushed. -/
structure Running (File Item Args Memory : Type) where
  args : Args
  pending : File → List Char
  pendingMark : List Char
  todo : List Item
  memory : Memory
  phase : Phase File Item

structure State (File Item Args Memory Outcome : Type) where
  disk : Disk File Outcome
  running : Option (Running File Item Args Memory)

inductive Event (File Args : Type)
  | start (resume : Bool) (args : Args)
  /-- The `k`-th item still to do is ready. -/
  | deliver (k : ℕ)
  | advance
  | finish
  /-- The run ends with so many characters of each write in flight on disk. -/
  | kill (kept : File → ℕ) (keptMark : ℕ)

variable {File Item Args Memory Outcome : Type}

def init : State File Item Args Memory Outcome := ⟨⟨fun _ => [], [], .absent⟩, none⟩

namespace Stage

variable (S : Stage File Item Args Memory Outcome)

/-! ### Steps -/

section steps
variable [DecidableEq File]

/-- A run starts: a file that is still empty gets its header first. -/
def begin (d : Disk File Outcome) (args : Args) : Option (State File Item Args Memory Outcome) :=
  (S.resume args d.done).map fun p =>
    ⟨{ d with marker := .started },
      some { args, pending := fun f => if d.csv f = [] then unlines [S.header f] else [], pendingMark := [],
             todo := p.1, memory := p.2, phase := .idle }⟩

def advance (d : Disk File Outcome) (r : Running File Item Args Memory) : Option (State File Item Args Memory Outcome) :=
  match r.phase with
  | .idle => none
  | .append item [] => some ⟨d, some { r with pendingMark := S.mark item, phase := .sync item }⟩
  | .append item (f :: left) =>
    some ⟨d, some { r with
      pending := Function.update r.pending f (r.pending f ++ unlines (S.rows item f)), phase := .flush item f left }⟩
  | .flush item f left =>
    some ⟨{ d with csv := Function.update d.csv f (d.csv f ++ r.pending f) },
      some { r with pending := Function.update r.pending f [], phase := .append item left }⟩
  | .sync item =>
    some ⟨{ d with done := d.done ++ r.pendingMark },
      some { r with pendingMark := [], memory := S.count item r.memory, phase := .idle }⟩

/-- The marker after a run has done all its items. -/
def conclude (d : Disk File Outcome) (r : Running File Item Args Memory) (csv : File → List Char) : Marker Outcome :=
  match S.finish r.args r.memory csv with
  | some o => .complete o
  | none => d.marker

def step (s : State File Item Args Memory Outcome) :
    Event File Args → Option (State File Item Args Memory Outcome)
  | .start resume args =>
    match s.running, s.disk.marker with
    | none, .absent => S.begin s.disk args
    | none, .started => if resume then S.begin s.disk args else none
    | _, _ => none
  | .deliver k =>
    match s.running with
    | some r =>
      match r.phase, r.todo[k]? with
      | .idle, some item =>
        if S.unordered ∨ k = 0 then
          some ⟨s.disk, some { r with todo := r.todo.eraseIdx k, phase := .append item S.files }⟩
        else none
      | _, _ => none
    | none => none
  | .advance => s.running.bind (S.advance s.disk)
  | .finish =>
    match s.running with
    | some r =>
      match r.phase, r.todo with
      | .idle, [] =>
        some ⟨{ s.disk with
          csv := fun f => s.disk.csv f ++ r.pending f,
          marker := S.conclude s.disk r fun f => s.disk.csv f ++ r.pending f }, none⟩
      | _, _ => none
    | none => none
  | .kill kept keptMark =>
    s.running.map fun r =>
      ⟨{ s.disk with
        csv := fun f => s.disk.csv f ++ (r.pending f).take (kept f),
        done := s.disk.done ++ r.pendingMark.take keptMark }, none⟩

/-- The rows on their way into a file. -/
def inflight : Phase File Item → File → List (List Char)
  | .flush item g _, f => if f = g then S.rows item f else []
  | _, _ => []

end steps

/-! ### Kills -/

/-- A kill leaves every file empty or at a line end. The done file may be torn anywhere. -/
def CleanKill (s : State File Item Args Memory Outcome) : Event File Args → Prop
  | .kill kept _ => ∀ r ∈ s.running, ∀ f, EndsLine (s.disk.csv f ++ (r.pending f).take (kept f))
  | .start _ _ | .deliver _ | .advance | .finish => True

instance [Fintype File] (s : State File Item Args Memory Outcome) (e : Event File Args) : Decidable (CleanKill s e) := by
  cases e <;> unfold CleanKill <;> infer_instance

def NoKill (_ : State File Item Args Memory Outcome) : Event File Args → Prop
  | .kill _ _ => False
  | .start _ _ | .deliver _ | .advance | .finish => True

instance (s : State File Item Args Memory Outcome) (e : Event File Args) : Decidable (NoKill s e) := by
  cases e <;> unfold NoKill <;> infer_instance

theorem cleanKill_of_noKill {s : State File Item Args Memory Outcome} {e : Event File Args} (h : NoKill s e) :
    CleanKill s e := by
  cases e with
  | kill kept keptMark => cases h
  | _ => trivial

/-! ### What the files hold -/

/-- A file holds these rows: nothing at all, or its header and the rows. -/
def Holds (f : File) (t : List Char) (ls : List (List Char)) : Prop :=
  (t = [] ∧ ls = []) ∨ t = unlines (S.header f :: ls)

def Stored (held : File → List (List Char)) (item : Item) : Prop := ∀ f, S.rows item f ⊆ held f

/-- The files before `f` have all rows of the item. -/
def StoredBefore (held : File → List (List Char)) (item : Item) (f : File) (left : List File) : Prop :=
  ∃ l, S.files = l ++ f :: left ∧ ∀ g ∈ l, S.rows item g ⊆ held g

/-- Every row of a file is a row of an item whose rows the files before it have. -/
structure Kept (ok : Item → Prop) (held : File → List (List Char)) (csv : File → List Char) : Prop where
  holds : ∀ f, S.Holds f (csv f) (held f)
  source : ∀ f, ∀ r ∈ held f, ∃ item left, ok item ∧ r ∈ S.rows item f ∧ S.StoredBefore held item f left

variable {S}

theorem newline_notMem_inflight [DecidableEq File] {phase : Phase File Item} {f : File} {r : List Char} (h : r ∈ S.inflight phase f) :
    '\n' ∉ r := by
  unfold inflight at h
  split at h
  · split_ifs at h
    · exact S.rows_line _ f r h
    · cases h
  · cases h

/-- All of a write arrives. -/
theorem Holds.flush {f : File} {t : List Char} {ls new : List (List Char)} (h : S.Holds f t ls) :
    t ++ ((if t = [] then unlines [S.header f] else []) ++ unlines new) = unlines (S.header f :: (ls ++ new)) := by
  rcases h with ⟨rfl, rfl⟩ | rfl
  · rw [if_pos rfl, List.nil_append, List.nil_append, ← unlines_append, List.singleton_append]
  · rw [if_neg (by simp), List.nil_append, ← unlines_append, List.cons_append]

/-- Part of a write arrives, up to a line end. -/
theorem Holds.flush_take {f : File} {t : List Char} {ls new : List (List Char)} (h : S.Holds f t ls) (hnew : ∀ r ∈ new, '\n' ∉ r)
    {n : ℕ} (hend : EndsLine (t ++ ((if t = [] then unlines [S.header f] else []) ++ unlines new).take n)) :
    ∃ m, S.Holds f (t ++ ((if t = [] then unlines [S.header f] else []) ++ unlines new).take n) (ls ++ new.take m) := by
  rcases h with ⟨rfl, rfl⟩ | rfl
  · rw [if_pos rfl, List.nil_append, ← unlines_append, List.singleton_append] at *
    have hlines : ∀ r ∈ S.header f :: new, '\n' ∉ r := by
      intro r hr
      rcases List.mem_cons.mp hr with rfl | hr
      · exact S.header_line f
      · exact hnew r hr
    obtain ⟨m, hm⟩ := eq_unlines_take hlines (List.take_prefix _ _) hend
    cases m with
    | zero => exact ⟨0, .inl ⟨hm, rfl⟩⟩
    | succ m => exact ⟨m, .inr hm⟩
  · have hne : unlines (S.header f :: ls) ≠ [] := by simp
    rw [if_neg hne, List.nil_append] at *
    have hrest : EndsLine ((unlines new).take n) := by
      rcases hend with hend | hend
      · exact .inl (List.append_eq_nil_iff.mp hend).2
      · cases hp : (unlines new).take n with
        | nil => exact .inl rfl
        | cons c p =>
          rw [hp, List.getLast?_append_cons] at hend
          exact .inr hend
    obtain ⟨m, hm⟩ := eq_unlines_take hnew (List.take_prefix _ _) hrest
    refine ⟨m, .inr ?_⟩
    rw [hm, ← unlines_append, List.cons_append]

theorem StoredBefore.mono {held held' : File → List (List Char)} {item : Item} {f : File} {left : List File}
    (h : S.StoredBefore held item f left) (hsub : ∀ g, held g ⊆ held' g) : S.StoredBefore held' item f left := by
  obtain ⟨l, hfiles, hl⟩ := h
  exact ⟨l, hfiles, fun g hg => List.Subset.trans (hl g hg) (hsub g)⟩

theorem Stored.mono {held held' : File → List (List Char)} {item : Item} (h : S.Stored held item)
    (hsub : ∀ g, held g ⊆ held' g) : S.Stored held' item :=
  fun f => List.Subset.trans (h f) (hsub f)

/-- Rows are added to files, each a row of an item whose rows the files before it have. -/
theorem Kept.grow {ok : Item → Prop} {held held' : File → List (List Char)} {csv csv' : File → List Char} (h : S.Kept ok held csv)
    (hsub : ∀ f, held f ⊆ held' f) (hholds : ∀ f, S.Holds f (csv' f) (held' f))
    (hsource : ∀ f, ∀ r ∈ held' f, r ∈ held f ∨
      ∃ item left, ok item ∧ r ∈ S.rows item f ∧ S.StoredBefore held item f left) :
    S.Kept ok held' csv' where
  holds := hholds
  source := by
    intro f r hr
    have hold : ∃ item left, ok item ∧ r ∈ S.rows item f ∧ S.StoredBefore held item f left := by
      rcases hsource f r hr with hr | hr
      · exact h.source f r hr
      · exact hr
    obtain ⟨item, left, hok, hmem, hbefore⟩ := hold
    exact ⟨item, left, hok, hmem, hbefore.mono hsub⟩

/-! ### Runs -/

/-- What a stage has to say about its done file and its memory. `Stopped` and `Live` are told which items
are stored; the list of `Live` is what is left to do, the item at work included. -/
structure Rules (S : Stage File Item Args Memory Outcome) (ok : Item → Prop) where
  Stopped : (Item → Prop) → List Char → Prop
  Live : (Item → Prop) → List Char → Memory → List Item → Prop
  initial : ∀ st, Stopped st []
  start : ∀ {st done args todo memory}, Stopped st done → S.resume args done = some (todo, memory) →
    Live st done memory todo ∧ ∀ i ∈ todo, ok i
  perm : ∀ {st done memory l l'}, Live st done memory l → l.Perm l' → Live st done memory l'
  count : ∀ {st done memory i l}, Live st done memory (i :: l) → ok i → st i →
    Live st (done ++ S.mark i) (S.count i memory) l
  stop : ∀ {st done memory l}, Live st done memory l → Stopped st done
  torn : ∀ {st done memory i l p}, Live st done memory (i :: l) → ok i → st i → p <+: S.mark i → Stopped st (done ++ p)
  stopped_mono : ∀ {st st' : Item → Prop} {done}, (∀ i, st i → st' i) → Stopped st done → Stopped st' done
  live_mono : ∀ {st st' : Item → Prop} {done memory l}, (∀ i, st i → st' i) → Live st done memory l →
    Live st' done memory l

/-- The items at work. -/
def items : Phase File Item → List Item
  | .idle => []
  | .append item _ => [item]
  | .flush item _ _ => [item]
  | .sync item => [item]

variable (S) in
/-- The mark on its way into the done file. -/
def markInflight : Phase File Item → List Char
  | .sync item => S.mark item
  | _ => []

variable (S) in
def PhaseOk (ok : Item → Prop) (held : File → List (List Char)) : Phase File Item → Prop
  | .idle => True
  | .append item left => ok item ∧ ∃ l, S.files = l ++ left ∧ ∀ g ∈ l, S.rows item g ⊆ held g
  | .flush item f left => ok item ∧ S.StoredBefore held item f left
  | .sync item => ok item ∧ S.Stored held item

variable [DecidableEq File] {ok : Item → Prop} (rules : Rules S ok)

structure Ready (held : File → List (List Char)) (d : Disk File Outcome) (r : Running File Item Args Memory) : Prop where
  pending : ∀ f, r.pending f =
    (if d.csv f = [] then unlines [S.header f] else []) ++ unlines (S.inflight r.phase f)
  pendingMark : r.pendingMark = S.markInflight r.phase
  todo : ∀ i ∈ r.todo, ok i
  phase : S.PhaseOk ok held r.phase
  live : rules.Live (S.Stored held) d.done r.memory (items r.phase ++ r.todo)

/-- A complete stage: what the last run concluded, with nothing left to do. -/
def Finished (held : File → List (List Char)) (d : Disk File Outcome) (o : Outcome) : Prop :=
  (∃ args memory, S.finish args memory d.csv = some o ∧ rules.Live (S.Stored held) d.done memory []) ∧
    ∀ f, d.csv f = unlines (S.header f :: held f)

def Inv (s : State File Item Args Memory Outcome) : Prop :=
  ∃ held, S.Kept ok held s.disk.csv ∧
    match s.running with
    | none => rules.Stopped (S.Stored held) s.disk.done ∧
        ∀ o, s.disk.marker = .complete o → Finished rules held s.disk o
    | some r => Ready rules held s.disk r ∧ ∀ o, s.disk.marker ≠ .complete o

variable {rules} {d : Disk File Outcome} {r : Running File Item Args Memory} {held : File → List (List Char)}
  {s' : State File Item Args Memory Outcome}

theorem inv_init : Inv rules init :=
  ⟨fun _ => [], ⟨fun _ => .inl ⟨rfl, rfl⟩, fun _ _ h => absurd h List.not_mem_nil⟩, rules.initial _, fun _ h => nomatch h⟩

theorem inv_begin {args : Args} (hkept : S.Kept ok held d.csv) (hstopped : rules.Stopped (S.Stored held) d.done)
    (h : S.begin d args = some s') : Inv rules s' := by
  obtain ⟨⟨todo, memory⟩, hresume, rfl⟩ := Option.map_eq_some_iff.mp h
  obtain ⟨hlive, htodo⟩ := rules.start hstopped hresume
  refine ⟨held, hkept, ⟨?_, rfl, htodo, trivial, hlive⟩, fun o ho => nomatch ho⟩
  intro f
  simp [inflight]

theorem inv_advance (hkept : S.Kept ok held d.csv) (hready : Ready rules held d r)
    (hmarker : ∀ o, d.marker ≠ .complete o) (h : S.advance d r = some s') : Inv rules s' := by
  obtain ⟨args, pending, pendingMark, todo, memory, phase⟩ := r
  have hpending := hready.pending
  have hphase := hready.phase
  have hlive := hready.live
  cases phase with
  | idle => cases h
  | append item left =>
    obtain ⟨hok, l, hfiles, hl⟩ := hphase
    cases left with
    | nil =>
      cases h
      -- every file is behind: the item is stored, and its mark may be written
      have hstored : S.Stored held item := by
        intro f
        have hmem := S.mem_files f
        rw [hfiles, List.append_nil] at hmem
        exact hl f hmem
      exact ⟨held, hkept, ⟨hpending, rfl, hready.todo, ⟨hok, hstored⟩, hlive⟩, hmarker⟩
    | cons f left =>
      cases h
      refine ⟨held, hkept, ⟨?_, hready.pendingMark, hready.todo, ⟨hok, l, hfiles, hl⟩, hlive⟩, hmarker⟩
      intro g
      have hg := hpending g
      simp only [inflight, unlines_nil, List.append_nil] at hg
      by_cases hgf : g = f
      · subst hgf
        simp [inflight, hg]
      · simp only [Function.update_of_ne hgf, hg]
        simp [inflight, hgf]
  | flush item f left =>
    cases h
    obtain ⟨hok, l, hfiles, hl⟩ := hphase
    have hf := hpending f
    simp only [inflight, if_true] at hf
    have hsub : ∀ g, held g ⊆ Function.update held f (held f ++ S.rows item f) g := by
      intro g
      by_cases hgf : g = f
      · subst hgf
        rw [Function.update_self]
        exact List.subset_append_left _ _
      · rw [Function.update_of_ne hgf]
        exact List.Subset.refl _
    have hcsv : d.csv f ++ pending f = unlines (S.header f :: (held f ++ S.rows item f)) := by
      rw [hf]
      exact (hkept.holds f).flush
    refine ⟨Function.update held f (held f ++ S.rows item f), hkept.grow hsub ?_ ?_,
      ⟨?_, hready.pendingMark, hready.todo, ⟨hok, l ++ [f], by rw [hfiles, List.append_assoc]; rfl, ?_⟩, ?_⟩, hmarker⟩
    · intro g
      by_cases hgf : g = f
      · subst hgf
        simp only [Function.update_self]
        exact .inr hcsv
      · simp only [Function.update_of_ne hgf]
        exact hkept.holds g
    · intro g row hrow
      by_cases hgf : g = f
      · subst hgf
        rw [Function.update_self] at hrow
        rcases List.mem_append.mp hrow with hrow | hrow
        · exact .inl hrow
        · exact .inr ⟨item, left, hok, hrow, l, hfiles, hl⟩
      · rw [Function.update_of_ne hgf] at hrow
        exact .inl hrow
    · intro g
      by_cases hgf : g = f
      · subst hgf
        simp only [Function.update_self, inflight, hcsv]
        simp
      · have hg := hpending g
        simp only [inflight, if_neg hgf] at hg
        simp only [Function.update_of_ne hgf, inflight]
        exact hg
    · intro g hg
      rcases List.mem_append.mp hg with hg | hg
      · exact List.Subset.trans (hl g hg) (hsub g)
      · obtain rfl := List.mem_singleton.mp hg
        rw [Function.update_self]
        exact List.subset_append_right _ _
    · exact rules.live_mono (fun i hi => Stored.mono hi hsub) hlive
  | sync item =>
    cases h
    obtain ⟨hok, hstored⟩ := hphase
    have hmark : pendingMark = S.mark item := hready.pendingMark
    refine ⟨held, hkept, ⟨hpending, rfl, hready.todo, trivial, ?_⟩, hmarker⟩
    rw [hmark]
    exact rules.count hlive hok hstored

/-- A kill at a line end leaves whole rows of the item at work, in at most the file it was writing. -/
theorem kept_of_kill (hkept : S.Kept ok held d.csv) (hready : Ready rules held d r) {kept : File → ℕ}
    (hclean : ∀ f, EndsLine (d.csv f ++ (r.pending f).take (kept f))) :
    ∃ held', (∀ f, held f ⊆ held' f) ∧ S.Kept ok held' fun f => d.csv f ++ (r.pending f).take (kept f) := by
  have hfile : ∀ f, ∃ m, S.Holds f (d.csv f ++ (r.pending f).take (kept f)) (held f ++ (S.inflight r.phase f).take m) := by
    intro f
    have hend := hclean f
    rw [hready.pending f] at hend ⊢
    exact (hkept.holds f).flush_take (fun row hrow => newline_notMem_inflight hrow) hend
  choose m hm using hfile
  have hsub : ∀ f, held f ⊆ held f ++ (S.inflight r.phase f).take (m f) := fun f => List.subset_append_left _ _
  refine ⟨fun f => held f ++ (S.inflight r.phase f).take (m f), hsub, hkept.grow hsub hm ?_⟩
  intro f row hrow
  rcases List.mem_append.mp hrow with hrow | hrow
  · exact .inl hrow
  · have hin := List.mem_of_mem_take hrow
    have hphase := hready.phase
    cases hp : r.phase with
    | idle => simp [hp, inflight] at hin
    | append item left => simp [hp, inflight] at hin
    | sync item => simp [hp, inflight] at hin
    | flush item g left =>
      rw [hp] at hin hphase
      obtain ⟨hok, hbefore⟩ := hphase
      simp only [inflight] at hin
      split_ifs at hin with hfg
      · subst hfg
        exact .inr ⟨item, left, hok, hin, hbefore⟩
      · cases hin

/-- What a kill leaves of the done file. -/
theorem stopped_of_kill (hready : Ready rules held d r) {held' : File → List (List Char)} (hsub : ∀ f, held f ⊆ held' f) (n : ℕ) :
    rules.Stopped (S.Stored held') (d.done ++ r.pendingMark.take n) := by
  refine rules.stopped_mono (fun i hi => Stored.mono hi hsub) ?_
  have hphase := hready.phase
  have hlive := hready.live
  rw [hready.pendingMark]
  cases hp : r.phase with
  | sync item =>
    rw [hp] at hphase hlive
    exact rules.torn hlive hphase.1 hphase.2 (List.take_prefix _ _)
  | _ =>
    rw [markInflight, List.take_nil, List.append_nil]
    · exact rules.stop hlive
    all_goals simp

theorem inv_step {s : State File Item Args Memory Outcome} {e : Event File Args} (hinv : Inv rules s)
    (hclean : CleanKill s e) (h : S.step s e = some s') : Inv rules s' := by
  obtain ⟨d, running⟩ := s
  obtain ⟨held, hkept, hrun⟩ := hinv
  cases e with
  | start resume args =>
    cases running with
    | some r => cases h
    | none =>
      obtain ⟨hstopped, -⟩ := hrun
      simp only [step] at h
      split at h
      · exact inv_begin hkept hstopped h
      · split_ifs at h
        exact inv_begin hkept hstopped h
      · cases h
  | deliver k =>
    cases running with
    | none => cases h
    | some r =>
      obtain ⟨args, pending, pendingMark, todo, memory, phase⟩ := r
      obtain ⟨hready, hmarker⟩ := hrun
      simp only [step] at h
      split at h
      · next item hitem =>
        split_ifs at h with horder
        cases h
        have hlt : k < todo.length := List.getElem?_eq_some_iff.mp hitem |>.1
        have hmem : item ∈ todo := List.mem_of_getElem? hitem
        have hperm : todo.Perm (item :: todo.eraseIdx k) := by
          obtain ⟨_, rfl⟩ := List.getElem?_eq_some_iff.mp hitem
          exact (List.getElem_cons_eraseIdx_perm hlt).symm
        refine ⟨held, hkept, ⟨hready.pending, hready.pendingMark, ?_, ⟨hready.todo _ hmem, [], rfl, ?_⟩, ?_⟩, hmarker⟩
        · intro i hi
          exact hready.todo i (List.mem_of_mem_eraseIdx hi)
        · intro g hg
          cases hg
        · exact rules.perm hready.live hperm
      · cases h
  | advance =>
    cases running with
    | none => cases h
    | some r => exact inv_advance hkept hrun.1 hrun.2 h
  | finish =>
    cases running with
    | none => cases h
    | some r =>
      obtain ⟨args, pending, pendingMark, todo, memory, phase⟩ := r
      obtain ⟨hready, hmarker⟩ := hrun
      simp only [step] at h
      split at h
      · cases h
        have hcsv : ∀ f, d.csv f ++ pending f = unlines (S.header f :: held f) := by
          intro f
          have hf := hready.pending f
          simp only [inflight] at hf
          rw [hf, (hkept.holds f).flush, List.append_nil]
        refine ⟨held, ⟨fun f => .inr (hcsv f), hkept.source⟩, rules.stop hready.live, ?_⟩
        intro o ho
        simp only [conclude] at ho
        split at ho
        · next o' hfinish =>
          cases ho
          exact ⟨⟨args, memory, hfinish, hready.live⟩, hcsv⟩
        · exact absurd ho (hmarker o)
      · cases h
  | kill kept keptMark =>
    cases running with
    | none => cases h
    | some r =>
      cases h
      obtain ⟨hready, hmarker⟩ := hrun
      obtain ⟨held', hsub, hkept'⟩ := kept_of_kill hkept hready (hclean r rfl)
      exact ⟨held', hkept', stopped_of_kill hready hsub keptMark, fun o ho => absurd ho (hmarker o)⟩

/-- Over every run whose kills leave the files at line ends. -/
theorem inv_of_reach {s : State File Item Args Memory Outcome} (h : Runs.Reach S.step CleanKill init s) : Inv rules s :=
  h.invariant inv_init fun _ _ _ hinv hclean hstep => inv_step hinv hclean hstep

/-- A complete stage holds, in every file, the header and rows of items whose rows the files before it have;
and it concluded from a memory with nothing left to do. -/
theorem complete_of_reach {s : State File Item Args Memory Outcome} {o : Outcome}
    (h : Runs.Reach S.step CleanKill init s) (ho : s.disk.marker = .complete o) :
    ∃ held, S.Kept ok held s.disk.csv ∧ Finished rules held s.disk o := by
  obtain ⟨held, hkept, hrun⟩ : Inv rules s := inv_of_reach h
  cases hr : s.running with
  | none =>
    rw [hr] at hrun
    exact ⟨held, hkept, hrun.2 o ho⟩
  | some r =>
    rw [hr] at hrun
    exact absurd ho (hrun.2 o)

end Stage
end Resumable
