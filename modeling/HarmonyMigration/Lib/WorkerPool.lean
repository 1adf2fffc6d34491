import HarmonyMigration.Lib.Runs

/-! A pool of workers between two bounded queues. The producer puts the jobs into the first queue and closes it; a worker
takes one job after another and puts its result into the second queue, which the collector empties until every worker has
left. The first failure is kept, and cancels the other workers. -/

namespace WorkerPool

variable {ι ρ ε : Type*}

/-- A worker that has not left waits for a job, works on one, holds a result, or has failed. -/
structure State (ι ρ ε : Type*) where
  unsent : List ι
  closed : Bool
  queue : List ι
  idle : ℕ
  busy : List ι
  sending : List (ι × ρ)
  failing : ℕ
  results : List (ι × ρ)
  collected : List (ι × ρ)
  failure : Option ε
  cancelled : Bool

/-- A number says which of the busy, or of the sending workers. -/
inductive Action (ρ ε : Type*)
  | send
  | close
  | abandon
  | take
  | finish (w : ℕ) (r : ρ)
  | fail (w : ℕ) (e : ε)
  | put (w : ℕ)
  | drop (w : ℕ)
  | cancel
  | leave
  | collect

def start (jobs : List ι) (workers : ℕ) : State ι ρ ε where
  unsent := jobs
  closed := false
  queue := []
  idle := workers
  busy := []
  sending := []
  failing := 0
  results := []
  collected := []
  failure := none
  cancelled := false

/-- Each queue has room for `cap`. -/
def step (cap : ℕ) (s : State ι ρ ε) : Action ρ ε → Option (State ι ρ ε)
  | .send =>
    match s.unsent with
    | [] => none
    | job :: rest =>
      if s.closed = false ∧ s.queue.length < cap then some { s with unsent := rest, queue := s.queue ++ [job] } else none
  | .close => if s.closed = false ∧ s.unsent = [] then some { s with closed := true } else none
  | .abandon => if s.closed = false ∧ s.cancelled = true then some { s with closed := true } else none
  | .take =>
    match s.queue with
    | [] => none
    | job :: rest => if 0 < s.idle then some { s with queue := rest, idle := s.idle - 1, busy := s.busy ++ [job] } else none
  | .finish w r =>
    match s.busy[w]? with
    | none => none
    | some job => some { s with busy := s.busy.eraseIdx w, sending := s.sending ++ [(job, r)] }
  | .fail w e =>
    match s.busy[w]? with
    | none => none
    | some _ => some { s with busy := s.busy.eraseIdx w, failing := s.failing + 1, failure := some (s.failure.getD e) }
  | .put w =>
    match s.sending[w]? with
    | none => none
    | some p =>
      if s.results.length < cap then
        some { s with sending := s.sending.eraseIdx w, idle := s.idle + 1, results := s.results ++ [p] } else none
  | .drop w =>
    match s.sending[w]? with
    | none => none
    | some _ => if s.cancelled = true then some { s with sending := s.sending.eraseIdx w } else none
  | .cancel => if 0 < s.failing then some { s with failing := s.failing - 1, cancelled := true } else none
  | .leave => if 0 < s.idle ∧ s.closed = true ∧ s.queue = [] then some { s with idle := s.idle - 1 } else none
  | .collect =>
    match s.results with
    | [] => none
    | r :: rest => some { s with results := rest, collected := s.collected ++ [r] }

/-- A job has a result that is `ok` for it, or an error that it `fails` with. Once cancelled it may fail with any. -/
def Allowed (ok : ι → ρ → Prop) (fails : ι → ε → Prop) (s : State ι ρ ε) : Action ρ ε → Prop
  | .finish w r => ∀ job, s.busy[w]? = some job → ok job r
  | .fail w e => ∀ job, s.busy[w]? = some job → s.cancelled = false → fails job e
  | _ => True

/-- Every worker has left, and every result is collected. -/
structure Done (s : State ι ρ ε) : Prop where
  idle : s.idle = 0
  busy : s.busy = []
  sending : s.sending = []
  failing : s.failing = 0
  results : s.results = []

variable {cap : ℕ} {s t : State ι ρ ε} {w : ℕ} {r : ρ} {e : ε}

/-! ### What a step can do -/

section Steps

theorem step_send (h : step cap s .send = some t) : ∃ job rest, s.unsent = job :: rest ∧ s.closed = false ∧
    t = { s with unsent := rest, queue := s.queue ++ [job] } := by
  simp only [step] at h
  split at h
  · cases h
  · split_ifs at h with hc
    exact ⟨_, _, ‹_›, hc.1, (Option.some.inj h).symm⟩

theorem step_close (h : step cap s .close = some t) : s.closed = false ∧ s.unsent = [] ∧ t = { s with closed := true } := by
  simp only [step] at h
  split_ifs at h with hc
  exact ⟨hc.1, hc.2, (Option.some.inj h).symm⟩

theorem step_abandon (h : step cap s .abandon = some t) :
    s.closed = false ∧ s.cancelled = true ∧ t = { s with closed := true } := by
  simp only [step] at h
  split_ifs at h with hc
  exact ⟨hc.1, hc.2, (Option.some.inj h).symm⟩

theorem step_take (h : step cap s .take = some t) : ∃ job rest, s.queue = job :: rest ∧ 0 < s.idle ∧
    t = { s with queue := rest, idle := s.idle - 1, busy := s.busy ++ [job] } := by
  simp only [step] at h
  split at h
  · cases h
  · split_ifs at h with hc
    exact ⟨_, _, ‹_›, hc, (Option.some.inj h).symm⟩

theorem step_finish (h : step cap s (.finish w r) = some t) : ∃ job, s.busy[w]? = some job ∧
    t = { s with busy := s.busy.eraseIdx w, sending := s.sending ++ [(job, r)] } := by
  simp only [step] at h
  split at h
  · cases h
  · exact ⟨_, ‹_›, (Option.some.inj h).symm⟩

theorem step_fail (h : step cap s (.fail w e) = some t) : ∃ job, s.busy[w]? = some job ∧
    t = { s with busy := s.busy.eraseIdx w, failing := s.failing + 1, failure := some (s.failure.getD e) } := by
  simp only [step] at h
  split at h
  · cases h
  · exact ⟨_, ‹_›, (Option.some.inj h).symm⟩

theorem step_put (h : step cap s (.put w) = some t) : ∃ p, s.sending[w]? = some p ∧
    t = { s with sending := s.sending.eraseIdx w, idle := s.idle + 1, results := s.results ++ [p] } := by
  simp only [step] at h
  split at h
  · cases h
  · split_ifs at h
    exact ⟨_, ‹_›, (Option.some.inj h).symm⟩

theorem step_drop (h : step cap s (.drop w) = some t) : ∃ p, s.sending[w]? = some p ∧ s.cancelled = true ∧
    t = { s with sending := s.sending.eraseIdx w } := by
  simp only [step] at h
  split at h
  · cases h
  · split_ifs at h with hc
    exact ⟨_, ‹_›, hc, (Option.some.inj h).symm⟩

theorem step_cancel (h : step cap s .cancel = some t) :
    0 < s.failing ∧ t = { s with failing := s.failing - 1, cancelled := true } := by
  simp only [step] at h
  split_ifs at h with hc
  exact ⟨hc, (Option.some.inj h).symm⟩

theorem step_leave (h : step cap s .leave = some t) :
    0 < s.idle ∧ s.closed = true ∧ s.queue = [] ∧ t = { s with idle := s.idle - 1 } := by
  simp only [step] at h
  split_ifs at h with hc
  exact ⟨hc.1, hc.2.1, hc.2.2, (Option.some.inj h).symm⟩

theorem step_collect (h : step cap s .collect = some t) : ∃ p rest, s.results = p :: rest ∧
    t = { s with results := rest, collected := s.collected ++ [p] } := by
  simp only [step] at h
  split at h
  · cases h
  · exact ⟨_, _, ‹_›, (Option.some.inj h).symm⟩

end Steps

/-! ### Where the jobs are -/

theorem perm_cons_eraseIdx {α : Type*} {l : List α} {a : α} (h : l[w]? = some a) : l.Perm (a :: l.eraseIdx w) := by
  induction l generalizing w with
  | nil => simp at h
  | cons b l ih =>
    cases w with
    | zero =>
      obtain rfl : b = a := by simpa using h
      exact List.Perm.refl _
    | succ w => exact ((ih (by simpa using h)).cons b).trans (List.Perm.swap a b _)

/-- The results that workers hold, that are queued, and that are collected. -/
def State.finished (s : State ι ρ ε) : List (ι × ρ) := s.sending ++ (s.results ++ s.collected)

/-- The jobs that are somewhere. -/
def State.places (s : State ι ρ ε) : List ι := s.unsent ++ s.queue ++ s.busy ++ s.finished.map Prod.fst

/-- The workers that have not left. -/
def State.present (s : State ι ρ ε) : ℕ := s.idle + s.busy.length + s.sending.length + s.failing

/-- A job is lost only to a failure, and a failure stays. -/
theorem places_step {a : Action ρ ε} (h : step cap s a = some t) : (s.failure ≠ none → t.failure ≠ none) ∧
    ∃ lost, s.places.Perm (t.places ++ lost) ∧ (lost ≠ [] → s.cancelled = true ∨ t.failure ≠ none) := by
  classical
  have same (hf : t.failure = s.failure) (hp : ∀ x, s.places.count x = t.places.count x) :
      (s.failure ≠ none → t.failure ≠ none) ∧
        ∃ lost, s.places.Perm (t.places ++ lost) ∧ (lost ≠ [] → s.cancelled = true ∨ t.failure ≠ none) :=
    ⟨fun hs => hf ▸ hs, [], by simpa using List.perm_iff_count.mpr hp, fun hne => absurd rfl hne⟩
  cases a with
  | send =>
    obtain ⟨job, rest, hu, -, rfl⟩ := step_send h
    refine same rfl fun x => ?_
    simp only [State.places, State.finished, hu, List.count_append, List.count_cons, List.count_nil]
    omega
  | close =>
    obtain ⟨-, -, rfl⟩ := step_close h
    exact same rfl fun _ => rfl
  | abandon =>
    obtain ⟨-, -, rfl⟩ := step_abandon h
    exact same rfl fun _ => rfl
  | take =>
    obtain ⟨job, rest, hq, -, rfl⟩ := step_take h
    refine same rfl fun x => ?_
    simp only [State.places, State.finished, hq, List.count_append, List.count_cons, List.count_nil]
    omega
  | finish w r =>
    obtain ⟨job, hw, rfl⟩ := step_finish h
    refine same rfl fun x => ?_
    have hcount := (perm_cons_eraseIdx hw).count_eq x
    simp only [State.places, State.finished, hcount, List.count_append, List.count_cons, List.count_nil, List.map_append,
      List.map_cons, List.map_nil]
    omega
  | fail w e =>
    obtain ⟨job, hw, rfl⟩ := step_fail h
    refine ⟨by simp, [job], List.perm_iff_count.mpr fun x => ?_, fun _ => .inr (by simp)⟩
    have hcount := (perm_cons_eraseIdx hw).count_eq x
    simp only [State.places, State.finished, hcount, List.count_append, List.count_cons, List.count_nil]
    omega
  | put w =>
    obtain ⟨p, hw, rfl⟩ := step_put h
    refine same rfl fun x => ?_
    have hcount := ((perm_cons_eraseIdx hw).map Prod.fst).count_eq x
    simp only [State.places, State.finished, hcount, List.count_append, List.count_cons, List.count_nil, List.map_append,
      List.map_cons, List.map_nil]
    omega
  | drop w =>
    obtain ⟨p, hw, hc, rfl⟩ := step_drop h
    refine ⟨id, [p.1], List.perm_iff_count.mpr fun x => ?_, fun _ => .inl hc⟩
    have hcount := ((perm_cons_eraseIdx hw).map Prod.fst).count_eq x
    simp only [State.places, State.finished, hcount, List.count_append, List.count_cons, List.count_nil, List.map_append,
      List.map_cons]
    omega
  | cancel =>
    obtain ⟨-, rfl⟩ := step_cancel h
    exact same rfl fun _ => rfl
  | leave =>
    obtain ⟨-, -, -, rfl⟩ := step_leave h
    exact same rfl fun _ => rfl
  | collect =>
    obtain ⟨p, rest, hr, rfl⟩ := step_collect h
    refine same rfl fun x => ?_
    simp only [State.places, State.finished, hr, List.count_append, List.count_cons, List.count_nil, List.map_append,
      List.map_cons, List.map_nil]
    omega

/-- The books of a run: a job is in its place, or lost once the run has failed. -/
structure Books (ok : ι → ρ → Prop) (fails : ι → ε → Prop) (jobs : List ι) (workers : ℕ) (s : State ι ρ ε) : Prop where
  perm : ∃ lost, jobs.Perm (s.places ++ lost) ∧ (lost ≠ [] → s.failure ≠ none)
  failed : s.cancelled = true ∨ 0 < s.failing → s.failure ≠ none
  finished_ok : ∀ p ∈ s.finished, ok p.1 p.2
  failure_of : ∀ e, s.failure = some e → ∃ job ∈ jobs, fails job e
  closed_sent : s.closed = true → s.unsent = [] ∨ s.cancelled = true
  left : s.present < workers → s.cancelled = true ∨ (s.closed = true ∧ s.queue = [])

variable {ok : ι → ρ → Prop} {fails : ι → ε → Prop} {jobs : List ι} {workers : ℕ}

theorem books_start : Books ok fails jobs workers (start jobs workers : State ι ρ ε) where
  perm := ⟨[], by simp [start, State.places, State.finished], fun h => absurd rfl h⟩
  failed h := by simp [start] at h
  finished_ok p hp := by simp [start, State.finished] at hp
  failure_of e he := by simp [start] at he
  closed_sent h := by simp [start] at h
  left h := by simp [start, State.present] at h

theorem Books.perm_step (hb : Books ok fails jobs workers s) {a : Action ρ ε} (h : step cap s a = some t) :
    ∃ lost, jobs.Perm (t.places ++ lost) ∧ (lost ≠ [] → t.failure ≠ none) := by
  obtain ⟨lost, hperm, hlost⟩ := hb.perm
  obtain ⟨hstays, lost', hperm', hlost'⟩ := places_step h
  refine ⟨lost' ++ lost, ?_, fun hne => ?_⟩
  · rw [← List.append_assoc]
    exact hperm.trans (hperm'.append_right lost)
  · by_cases hnew : lost' = []
    · subst hnew
      exact hstays (hlost hne)
    · exact (hlost' hnew).elim (fun hc => hstays (hb.failed (.inl hc))) id

theorem books_step {a : Action ρ ε} (hb : Books ok fails jobs workers s) (ha : Allowed ok fails s a)
    (h : step cap s a = some t) : Books ok fails jobs workers t := by
  have hperm := hb.perm_step h
  cases a with
  | send =>
    obtain ⟨job, rest, hu, hc, rfl⟩ := step_send h
    exact { hb with perm := hperm, closed_sent := by simp [hc], left := fun hl => (hb.left hl).imp_right (by simp [hc]) }
  | close =>
    obtain ⟨hc, hu, rfl⟩ := step_close h
    exact { hb with perm := hperm, closed_sent := fun _ => .inl hu, left := fun hl => (hb.left hl).imp_right (by simp [hc]) }
  | abandon =>
    obtain ⟨hc, hx, rfl⟩ := step_abandon h
    exact { hb with perm := hperm, closed_sent := fun _ => .inr hx, left := fun _ => .inl hx }
  | take =>
    obtain ⟨job, rest, hq, hi, rfl⟩ := step_take h
    refine { hb with perm := hperm, left := fun hl => ?_ }
    have hl' : s.present < workers := by
      simp only [State.present, List.length_append, List.length_singleton] at hl ⊢
      omega
    exact (hb.left hl').imp_right (by simp [hq])
  | finish w r =>
    obtain ⟨job, hw, rfl⟩ := step_finish h
    refine { hb with perm := hperm, finished_ok := fun p hp => ?_, left := fun hl => hb.left ?_ }
    · have hp' : p = (job, r) ∨ p ∈ s.finished := by
        simp only [State.finished, List.mem_append, List.mem_singleton] at hp ⊢
        tauto
      rcases hp' with rfl | hp'
      · exact ha job hw
      · exact hb.finished_ok p hp'
    · have hlen := (perm_cons_eraseIdx hw).length_eq
      simp only [State.present, List.length_append, List.length_cons, List.length_nil] at hl hlen ⊢
      omega
  | fail w e =>
    obtain ⟨job, hw, rfl⟩ := step_fail h
    refine { hb with perm := hperm, failed := by simp, failure_of := fun e' he => ?_, left := fun hl => hb.left ?_ }
    · cases hs : s.failure with
      | some e'' =>
        obtain rfl : e'' = e' := by simpa [hs] using he
        exact hb.failure_of _ hs
      | none =>
        obtain rfl : e = e' := by simpa [hs] using he
        have hc : s.cancelled = false := by
          rw [← Bool.not_eq_true]
          exact fun hc => hb.failed (.inl hc) hs
        obtain ⟨lost, hp, -⟩ := hb.perm
        refine ⟨job, hp.mem_iff.mpr ?_, ha job hw hc⟩
        simp [State.places, List.mem_of_getElem? hw]
    · have hlen := (perm_cons_eraseIdx hw).length_eq
      simp only [State.present, List.length_cons] at hl hlen ⊢
      omega
  | put w =>
    obtain ⟨p, hw, rfl⟩ := step_put h
    refine { hb with perm := hperm, finished_ok := fun q hq => hb.finished_ok q ?_, left := fun hl => hb.left ?_ }
    · have hmem := (perm_cons_eraseIdx hw).mem_iff (a := q)
      simp only [State.finished, List.mem_append, List.mem_cons, List.not_mem_nil, or_false, hmem] at hq ⊢
      tauto
    · have hlen := (perm_cons_eraseIdx hw).length_eq
      simp only [State.present, List.length_cons] at hl hlen ⊢
      omega
  | drop w =>
    obtain ⟨p, hw, hc, rfl⟩ := step_drop h
    refine { hb with perm := hperm, finished_ok := fun q hq => hb.finished_ok q ?_, left := fun _ => .inl hc }
    simp only [State.finished, List.mem_append] at hq ⊢
    exact hq.imp_left List.mem_of_mem_eraseIdx
  | cancel =>
    obtain ⟨hf, rfl⟩ := step_cancel h
    exact { hb with
      perm := hperm, failed := fun _ => hb.failed (.inr hf), closed_sent := fun _ => .inr rfl, left := fun _ => .inl rfl }
  | leave =>
    obtain ⟨-, hc, hq, rfl⟩ := step_leave h
    exact { hb with perm := hperm, left := fun _ => .inr ⟨hc, hq⟩ }
  | collect =>
    obtain ⟨p, rest, hr, rfl⟩ := step_collect h
    refine { hb with perm := hperm, finished_ok := fun q hq => hb.finished_ok q ?_ }
    simp only [State.finished, hr, List.mem_append, List.mem_cons, List.not_mem_nil, or_false] at hq ⊢
    tauto

theorem books_reach (h : Runs.Reach (step cap) (Allowed ok fails) (start jobs workers) s) :
    Books ok fails jobs workers s :=
  h.invariant books_start fun _ _ _ hb ha hs => books_step hb ha hs

/-! ### The end of a run -/

/-- Without a failure every job has been collected, with a result that is right for it. -/
theorem collected_of_done (h : Runs.Reach (step cap) (Allowed ok fails) (start jobs workers) s) (hd : Done s)
    (hw : 0 < workers) (hf : s.failure = none) :
    jobs.Perm (s.collected.map Prod.fst) ∧ ∀ p ∈ s.collected, ok p.1 p.2 := by
  have hb := books_reach h
  have hc : s.cancelled = false := by
    rw [← Bool.not_eq_true]
    exact fun hc => hb.failed (.inl hc) hf
  have hpresent : s.present < workers := by
    simpa [State.present, hd.idle, hd.busy, hd.sending, hd.failing] using hw
  obtain ⟨hclosed, hqueue⟩ := (hb.left hpresent).resolve_left (by simp [hc])
  have hunsent := (hb.closed_sent hclosed).resolve_right (by simp [hc])
  have hfinished : s.finished = s.collected := by simp [State.finished, hd.sending, hd.results]
  obtain ⟨lost, hperm, hlost⟩ := hb.perm
  obtain rfl : lost = [] := by
    by_contra hne
    exact hlost hne hf
  refine ⟨by simpa [State.places, hunsent, hqueue, hd.busy, hfinished] using hperm, fun p hp => ?_⟩
  exact hb.finished_ok p (hfinished ▸ hp)

/-- The failure is one of some job: what the others fail with once they are cancelled is not kept. -/
theorem failure_of_reach (h : Runs.Reach (step cap) (Allowed ok fails) (start jobs workers) s) (hf : s.failure = some e) :
    ∃ job ∈ jobs, fails job e :=
  (books_reach h).failure_of e hf

/-- Steps that are left, at most. -/
def State.weight (s : State ι ρ ε) : ℕ :=
  5 * s.unsent.length + (if s.closed then 0 else 1) + 4 * s.queue.length + s.idle + 4 * s.busy.length +
    3 * s.sending.length + s.failing + s.results.length

theorem weight_step {a : Action ρ ε} (h : step cap s a = some t) : t.weight < s.weight := by
  cases a with
  | send =>
    obtain ⟨job, rest, hu, -, rfl⟩ := step_send h
    simp only [State.weight, hu, List.length_append, List.length_cons, List.length_nil]
    omega
  | close =>
    obtain ⟨hc, -, rfl⟩ := step_close h
    simp only [State.weight, hc]
    simp
  | abandon =>
    obtain ⟨hc, -, rfl⟩ := step_abandon h
    simp only [State.weight, hc]
    simp
  | take =>
    obtain ⟨job, rest, hq, hi, rfl⟩ := step_take h
    simp only [State.weight, hq, List.length_append, List.length_cons, List.length_nil]
    omega
  | finish w r =>
    obtain ⟨job, hw, rfl⟩ := step_finish h
    have hlen := (perm_cons_eraseIdx hw).length_eq
    simp only [State.weight, List.length_append, List.length_cons, List.length_nil] at hlen ⊢
    omega
  | fail w e =>
    obtain ⟨job, hw, rfl⟩ := step_fail h
    have hlen := (perm_cons_eraseIdx hw).length_eq
    simp only [State.weight, List.length_cons] at hlen ⊢
    omega
  | put w =>
    obtain ⟨p, hw, rfl⟩ := step_put h
    have hlen := (perm_cons_eraseIdx hw).length_eq
    simp only [State.weight, List.length_append, List.length_cons, List.length_nil] at hlen ⊢
    omega
  | drop w =>
    obtain ⟨p, hw, -, rfl⟩ := step_drop h
    have hlen := (perm_cons_eraseIdx hw).length_eq
    simp only [State.weight, List.length_cons] at hlen ⊢
    omega
  | cancel =>
    obtain ⟨hf, rfl⟩ := step_cancel h
    simp only [State.weight]
    omega
  | leave =>
    obtain ⟨hi, -, -, rfl⟩ := step_leave h
    simp only [State.weight]
    omega
  | collect =>
    obtain ⟨p, rest, hr, rfl⟩ := step_collect h
    simp only [State.weight, hr, List.length_cons]
    omega

/-- A run has no more steps than its start has weight. -/
theorem length_le_weight {actions : List (Action ρ ε)} (h : Runs.run (step cap) s actions = some t) :
    actions.length + t.weight ≤ s.weight := by
  induction actions generalizing s with
  | nil =>
    obtain rfl : s = t := Option.some.inj h
    simp
  | cons a actions ih =>
    rw [Runs.run, List.foldlM_cons] at h
    obtain ⟨u, hu, h⟩ := Option.bind_eq_some_iff.mp h
    have hlt := weight_step hu
    have hle := ih h
    rw [List.length_cons]
    omega

/-- Where every job has a result or an error, the pool is never stuck: until it is done, a step can be taken. -/
theorem exists_step (hcap : 0 < cap) (hjobs : ∀ job, (∃ r, ok job r) ∨ ∃ e, fails job e) (hs : ¬Done s) :
    ∃ a, Allowed ok fails s a ∧ (step cap s a).isSome := by
  by_cases hfailing : 0 < s.failing
  · exact ⟨.cancel, trivial, by simp [step, hfailing]⟩
  cases hbusy : s.busy with
  | cons job busy =>
    have hw : s.busy[0]? = some job := by simp [hbusy]
    rcases hjobs job with ⟨r, hr⟩ | ⟨e, he⟩
    · exact ⟨.finish 0 r, fun job' h => Option.some.inj (hw.symm.trans h) ▸ hr, by simp [step, hw]⟩
    · exact ⟨.fail 0 e, fun job' h _ => Option.some.inj (hw.symm.trans h) ▸ he, by simp [step, hw]⟩
  | nil =>
    cases hresults : s.results with
    | cons p results => exact ⟨.collect, trivial, by simp [step, hresults]⟩
    | nil =>
      cases hsending : s.sending with
      | cons p sending => exact ⟨.put 0, trivial, by simp [step, hsending, hresults, hcap]⟩
      | nil =>
        have hidle : 0 < s.idle := by
          by_contra hidle
          exact hs ⟨by omega, hbusy, hsending, by omega, hresults⟩
        cases hqueue : s.queue with
        | cons job queue => exact ⟨.take, trivial, by simp [step, hqueue, hidle]⟩
        | nil =>
          cases hclosed : s.closed with
          | true => exact ⟨.leave, trivial, by simp [step, hidle, hclosed, hqueue]⟩
          | false =>
            cases hunsent : s.unsent with
            | cons job unsent => exact ⟨.send, trivial, by simp [step, hunsent, hclosed, hqueue, hcap]⟩
            | nil => exact ⟨.close, trivial, by simp [step, hclosed, hunsent]⟩

end WorkerPool
