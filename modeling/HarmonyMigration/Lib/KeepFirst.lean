import HarmonyMigration.Lib.Loader

/-! A table that keeps the first row of each key, and counts its rows by group. -/

namespace KeepFirst

variable {κ ρ γ : Type*} [DecidableEq κ] [DecidableEq γ]

/-- A row with its key and its group. -/
structure Entry (κ ρ γ : Type*) where
  key : κ
  row : ρ
  group : γ

structure Table (κ ρ γ : Type*) where
  seen : List κ
  rows : List ρ
  counts : Dict γ ℕ

def Table.empty : Table κ ρ γ := ⟨[], [], .empty⟩

def Table.add (t : Table κ ρ γ) (e : Entry κ ρ γ) : Table κ ρ γ :=
  if e.key ∈ t.seen then t
  else ⟨e.key :: t.seen, t.rows ++ [e.row], t.counts.insert e.group (t.counts.getD e.group 0 + 1)⟩

def Table.fill (t : Table κ ρ γ) (es : List (Entry κ ρ γ)) : Table κ ρ γ := es.foldl Table.add t

theorem Table.fill_append (t : Table κ ρ γ) (es es' : List (Entry κ ρ γ)) : t.fill (es ++ es') = (t.fill es).fill es' :=
  List.foldl_append

/-- Of the entries seen so far, those whose rows the table has. -/
structure Holds (es kept : List (Entry κ ρ γ)) (t : Table κ ρ γ) : Prop where
  rows : t.rows = kept.map Entry.row
  seen : ∀ k, k ∈ t.seen ↔ k ∈ es.map Entry.key
  keys : ∀ k, k ∈ kept.map Entry.key ↔ k ∈ es.map Entry.key
  nodup : (kept.map Entry.key).Nodup
  sub : ∀ e ∈ kept, e ∈ es
  counts : ∀ g, t.counts.getD g 0 = (kept.filter fun e => e.group = g).length
  counted : ∀ g ∈ t.counts.keys, ∃ e ∈ kept, e.group = g

theorem Holds.add {es kept : List (Entry κ ρ γ)} {t : Table κ ρ γ} (h : Holds es kept t) (e : Entry κ ρ γ) :
    ∃ kept', Holds (es ++ [e]) kept' (t.add e) := by
  unfold Table.add
  by_cases hseen : e.key ∈ t.seen
  · have hold : e.key ∈ es.map Entry.key := (h.seen e.key).mp hseen
    have hsame : ∀ k, k ∈ (es ++ [e]).map Entry.key ↔ k ∈ es.map Entry.key := by
      intro k
      rw [List.map_append, List.mem_append, List.map_singleton, List.mem_singleton]
      constructor
      · rintro (hk | rfl)
        · exact hk
        · exact hold
      · exact Or.inl
    rw [if_pos hseen]
    exact ⟨kept, h.rows, fun k => (h.seen k).trans (hsame k).symm, fun k => (h.keys k).trans (hsame k).symm, h.nodup,
      fun x hx => List.mem_append_left _ (h.sub x hx), h.counts, h.counted⟩
  · have hnew : e.key ∉ kept.map Entry.key := fun hk => hseen ((h.seen e.key).mpr ((h.keys e.key).mp hk))
    rw [if_neg hseen]
    refine ⟨kept ++ [e], by simp [h.rows], fun k => ?_, fun k => ?_, ?_, fun x hx => ?_, fun g => ?_, fun g hg => ?_⟩
    · rw [List.mem_cons, h.seen, List.map_append, List.mem_append, List.map_singleton, List.mem_singleton]
      exact or_comm
    · rw [List.map_append, List.map_append, List.mem_append, List.mem_append, h.keys]
    · rw [List.map_append, List.map_singleton]
      exact List.concat_eq_append ▸ h.nodup.concat hnew
    · rcases List.mem_append.mp hx with hx | hx
      · exact List.mem_append_left _ (h.sub x hx)
      · exact List.mem_append_right _ hx
    · rw [Dict.getD_insert, List.filter_append, List.length_append, ← h.counts]
      by_cases hg : g = e.group
      · simp [hg]
      · simp [hg, Ne.symm hg]
    · rcases Dict.mem_keys_insert.mp hg with rfl | hg
      · exact ⟨e, by simp, rfl⟩
      · obtain ⟨x, hx, rfl⟩ := h.counted g hg
        exact ⟨x, by simp [hx], rfl⟩

theorem exists_holds (es : List (Entry κ ρ γ)) : ∃ kept, Holds es kept (Table.empty.fill es) := by
  induction es using List.reverseRecOn with
  | nil => exact ⟨[], rfl, by simp [Table.fill, Table.empty], by simp, List.nodup_nil, by simp, by
      simp [Table.fill, Table.empty, Dict.getD, Dict.get?, Dict.empty], by
      simp [Table.fill, Table.empty, Dict.keys, Dict.empty]⟩
  | append_singleton es e ih =>
    obtain ⟨kept, h⟩ := ih
    rw [Table.fill_append]
    exact h.add e

omit [DecidableEq κ] in
/-- The rows of the groups, counted. -/
theorem Holds.mem_counts {es kept : List (Entry κ ρ γ)} {t : Table κ ρ γ} (h : Holds es kept t) (g : γ) (n : ℕ) :
    (g, n) ∈ t.counts.entries ↔ 0 < n ∧ n = (kept.filter fun e => e.group = g).length := by
  constructor
  · intro hmem
    have hn : t.counts.getD g 0 = n := Dict.getD_of_mem hmem 0
    obtain ⟨e, he, hg⟩ := h.counted g (Dict.mem_keys hmem)
    refine ⟨?_, by rw [← hn, h.counts]⟩
    rw [← hn, h.counts]
    exact List.length_pos_of_mem (List.mem_filter.mpr ⟨he, by simpa using hg⟩)
  · rintro ⟨hpos, hn⟩
    have hget : t.counts.getD g 0 = n := (h.counts g).trans hn.symm
    have hkey : g ∈ t.counts.keys := by
      by_contra hnot
      rw [Dict.getD_of_notMem hnot] at hget
      omega
    obtain ⟨m, hm⟩ := Dict.exists_of_mem_keys hkey
    rw [Dict.getD_of_mem hm] at hget
    exact hget ▸ hm

/-! ### The first of each key -/

section firstBy
variable (key : ρ → κ)

def firstBy (l : List ρ) : List ρ :=
  l.foldl (fun kept r => if key r ∈ kept.map key then kept else kept ++ [r]) []

theorem firstBy_concat (l : List ρ) (r : ρ) :
    firstBy key (l ++ [r]) = if key r ∈ (firstBy key l).map key then firstBy key l else firstBy key l ++ [r] := by
  rw [firstBy, List.foldl_append]
  rfl

theorem firstBy_nodup (l : List ρ) : ((firstBy key l).map key).Nodup := by
  induction l using List.reverseRecOn with
  | nil => exact List.nodup_nil
  | append_singleton l r ih =>
    rw [firstBy_concat]
    split_ifs with hr
    · exact ih
    · rw [List.map_append, List.map_singleton]
      exact ih.append (List.nodup_singleton _) (by simpa using hr)

theorem firstBy_subset (l : List ρ) : firstBy key l ⊆ l := by
  induction l using List.reverseRecOn with
  | nil => exact List.Subset.refl _
  | append_singleton l r ih =>
    rw [firstBy_concat]
    split_ifs with hr
    · exact List.Subset.trans ih (List.subset_append_left _ _)
    · exact List.append_subset.mpr ⟨List.Subset.trans ih (List.subset_append_left _ _), List.subset_append_right _ _⟩

theorem mem_map_firstBy {l : List ρ} {k : κ} : k ∈ (firstBy key l).map key ↔ k ∈ l.map key := by
  constructor
  · intro hk
    obtain ⟨r, hr, rfl⟩ := List.mem_map.mp hk
    exact List.mem_map_of_mem (firstBy_subset key l hr)
  · intro hk
    induction l using List.reverseRecOn with
    | nil => cases hk
    | append_singleton l r ih =>
      rw [List.map_append, List.mem_append, List.map_singleton, List.mem_singleton] at hk
      rw [firstBy_concat]
      split_ifs with hr
      · rcases hk with hk | rfl
        · exact ih hk
        · exact hr
      · rw [List.map_append, List.mem_append, List.map_singleton, List.mem_singleton]
        exact hk.imp_left ih

end firstBy

end KeepFirst
