import HarmonyMigration.Lib.Dict
import HarmonyMigration.Lib.Except

/-! Reading rows into a dictionary, one key at most once. -/

namespace Dict

open Except

variable {κ ν ρ ε : Type*} [DecidableEq κ]

omit [DecidableEq κ] in
theorem ext_entries {d d' : Dict κ ν} (h : d.entries = d'.entries) : d = d' := by
  obtain ⟨l, hl⟩ := d
  obtain ⟨l', hl'⟩ := d'
  obtain rfl : l = l' := h
  rfl

omit [DecidableEq κ] in
theorem mem_keys {d : Dict κ ν} {k : κ} {v : ν} (h : (k, v) ∈ d.entries) : k ∈ d.keys :=
  List.mem_map.mpr ⟨_, h, rfl⟩

omit [DecidableEq κ] in
theorem exists_of_mem_keys {d : Dict κ ν} {k : κ} (h : k ∈ d.keys) : ∃ v, (k, v) ∈ d.entries := by
  obtain ⟨e, he, rfl⟩ := List.mem_map.mp h
  exact ⟨e.2, he⟩

omit [DecidableEq κ] in
@[simp] theorem keys_mapValues {ν' : Type*} (d : Dict κ ν) (f : ν → ν') : (d.mapValues f).keys = d.keys := by
  rw [keys, mapValues, List.map_map]
  rfl

omit [DecidableEq κ] in
@[simp] theorem values_mapValues {ν' : Type*} (d : Dict κ ν) (f : ν → ν') :
    (d.mapValues f).values = d.values.map f := by
  rw [values, values, mapValues, List.map_map, List.map_map]
  rfl

theorem get?_mapValues {ν' : Type*} (d : Dict κ ν) (f : ν → ν') (k : κ) :
    (d.mapValues f).get? k = (d.get? k).map f := by
  refine Option.ext fun w => ?_
  rw [get?_eq_some_iff, Option.map_eq_some_iff, mapValues, List.mem_map]
  refine ⟨?_, ?_⟩
  · rintro ⟨e, he, heq⟩
    obtain ⟨rfl, rfl⟩ := Prod.mk.inj heq
    exact ⟨e.2, get?_eq_some_iff.mpr he, rfl⟩
  · rintro ⟨v, hv, rfl⟩
    exact ⟨(k, v), get?_eq_some_iff.mp hv, rfl⟩

/-- `dict` of a list has entries of the list. -/
theorem mem_of_mem_ofList {l : List (κ × ν)} {e : κ × ν} (h : e ∈ (ofList l).entries) : e ∈ l := by
  have hfold : ∀ {l : List (κ × ν)} {d : Dict κ ν}, e ∈ (l.foldl (fun d p => d.insert p.1 p.2) d).entries →
      e ∈ d.entries ∨ e ∈ l := fun {l} => by
    induction l with
    | nil => exact fun h => Or.inl h
    | cons p l ih =>
      intro d h
      rcases ih h with h | h
      · rcases mem_entries_insert.mp h with ⟨h1, h2⟩ | ⟨-, h⟩
        · exact Or.inr (List.mem_cons.mpr (Or.inl (Prod.ext h1 h2)))
        · exact Or.inl h
      · exact Or.inr (List.mem_cons_of_mem _ h)
  exact (hfold h).resolve_left (by simp [empty])

theorem get?_ofList_of_forall {l : List (κ × ν)} {f : κ → ν} (hl : ∀ e ∈ l, e.2 = f e.1) {k : κ}
    (hk : k ∈ l.map Prod.fst) : (ofList l).get? k = some (f k) := by
  obtain ⟨e, he, rfl⟩ := List.mem_map.mp hk
  have hkey : e.1 ∈ (ofList l).keys := mem_keys_foldl_insert.mpr (Or.inr ⟨e, he, rfl⟩)
  obtain ⟨v, hv⟩ := exists_of_mem_keys hkey
  exact (get?_eq_some_iff.mpr hv).trans (congrArg some (hl _ (mem_of_mem_ofList hv)))

/-- Of several entries with one key, `dict` keeps the last. -/
theorem get?_ofList (l : List (κ × ν)) (k : κ) :
    (ofList l).get? k = ((l.filter fun e => e.1 = k).getLast?).map Prod.snd := by
  induction l using List.reverseRecOn with
  | nil => rfl
  | append_singleton l e ih =>
    have hsnoc : ofList (l ++ [e]) = (ofList l).insert e.1 e.2 := by simp [ofList, List.foldl_append]
    rw [hsnoc, get?_insert, ih, List.filter_append]
    by_cases h : k = e.1
    · simp [h]
    · simp [h, Ne.symm h]

/-- The order of the entries does not matter to a lookup. -/
theorem get?_eq_of_perm {d d' : Dict κ ν} (h : d.entries.Perm d'.entries) (k : κ) : d.get? k = d'.get? k := by
  refine Option.ext fun v => ?_
  rw [get?_eq_some_iff, get?_eq_some_iff, h.mem_iff]

/-- Two dictionaries with the same keys and, up to `f`, the same values. -/
def SameUpTo {ν' : Type*} (f : ν → ν') (d d' : Dict κ ν) : Prop :=
  (d.mapValues f).entries.Perm (d'.mapValues f).entries

namespace SameUpTo
variable {ν' : Type*} {f : ν → ν'} {d d' : Dict κ ν}

omit [DecidableEq κ] in
theorem symm (h : SameUpTo f d d') : SameUpTo f d' d := List.Perm.symm h

omit [DecidableEq κ] in
theorem mem_keys_iff (h : SameUpTo f d d') (k : κ) : k ∈ d.keys ↔ k ∈ d'.keys := by
  rw [← keys_mapValues d f, ← keys_mapValues d' f]
  exact (List.Perm.map Prod.fst h).mem_iff

theorem get?_eq (h : SameUpTo f d d') (k : κ) : (d.get? k).map f = (d'.get? k).map f := by
  rw [← get?_mapValues, ← get?_mapValues]
  exact get?_eq_of_perm h k

theorem any_eq (h : SameUpTo f d d') (k : κ) {p : ν → Bool} {q : ν' → Bool} (hpq : ∀ v, p v = q (f v)) :
    (d.get? k).any p = (d'.get? k).any p := by
  have heq := congrArg (Option.any q) (h.get?_eq k)
  rw [Option.any_map, Option.any_map] at heq
  have hp : p = q ∘ f := funext hpq
  rw [hp]
  exact heq

omit [DecidableEq κ] in
theorem values_perm (h : SameUpTo f d d') : (d.values.map f).Perm (d'.values.map f) := by
  rw [← values_mapValues, ← values_mapValues]
  exact List.Perm.map Prod.snd h

omit [DecidableEq κ] in
theorem exists_value (h : SameUpTo f d d') {v' : ν} (hv : v' ∈ d'.values) : ∃ v ∈ d.values, f v = f v' := by
  obtain ⟨v, hm, heq⟩ := List.mem_map.mp (h.values_perm.mem_iff.mpr (List.mem_map_of_mem hv))
  exact ⟨v, hm, heq⟩

omit [DecidableEq κ] in
theorem sum_eq {μ : Type*} [AddCommMonoid μ] (h : SameUpTo f d d') {p : ν → μ} {q : ν' → μ} (hpq : ∀ v, p v = q (f v)) :
    (d.values.map p).sum = (d'.values.map p).sum := by
  have hp : p = q ∘ f := funext hpq
  rw [hp, ← List.map_map, ← List.map_map]
  exact (h.values_perm.map q).sum_eq

end SameUpTo

/-- A reader of rows: every row has a new key and a value. -/
structure Reader (key : ρ → κ) (read : ρ → Except ε ν) (f : List ρ → Dict κ ν → Except ε (Dict κ ν)) : Prop where
  nil : ∀ d, f [] d = .ok d
  cons : ∀ row rest d d', f (row :: rest) d = .ok d' ↔
    key row ∉ d.keys ∧ ∃ v, read row = .ok v ∧ f rest (d.insert (key row) v) = .ok d'

namespace Reader
variable {key : ρ → κ} {read : ρ → Except ε ν} {f : List ρ → Dict κ ν → Except ε (Dict κ ν)}

/-- What a reader accepts, and the dictionary it makes. -/
theorem ok_iff (hf : Reader key read f) {rows : List ρ} {d d' : Dict κ ν} :
    f rows d = .ok d' ↔ (∀ row ∈ rows, key row ∉ d.keys) ∧ (rows.map key).Nodup ∧
      ∃ es, List.Forall₂ (fun row e => key row = e.1 ∧ read row = .ok e.2) rows es ∧ d'.entries = d.entries ++ es := by
  induction rows generalizing d with
  | nil =>
    rw [hf.nil]
    simp only [List.not_mem_nil, false_implies, implies_true, List.map_nil, List.nodup_nil, true_and,
      List.forall₂_nil_left_iff, exists_eq_left, List.append_nil, Except.ok.injEq]
    exact ⟨fun h => h ▸ rfl, fun h => ext_entries h.symm⟩
  | cons row rest ih =>
    rw [hf.cons]
    simp only [ih, mem_keys_insert, List.forall_mem_cons, List.map_cons, List.nodup_cons, List.mem_map,
      not_exists, not_and, not_or]
    refine ⟨?_, ?_⟩
    · rintro ⟨hnew, v, hv, hrest, hnd, es, hes, heq⟩
      rw [entries_insert_of_notMem hnew, List.append_assoc] at heq
      exact ⟨⟨hnew, fun r hr => (hrest r hr).2⟩, ⟨fun r hr => (hrest r hr).1, hnd⟩,
        (key row, v) :: es, .cons ⟨rfl, hv⟩ hes, heq⟩
    · rintro ⟨⟨hnew, hrest⟩, ⟨hne, hnd⟩, es, hes, heq⟩
      obtain ⟨e, es', ⟨hk, hv⟩, htail, rfl⟩ := List.forall₂_cons_left_iff.mp hes
      refine ⟨hnew, e.2, hv, fun r hr => ⟨hne r hr, hrest r hr⟩, hnd, es', htail, ?_⟩
      rw [entries_insert_of_notMem hnew, List.append_assoc, heq, hk]
      rfl

/-- Rows in another order give the same dictionary up to order. -/
theorem perm (hf : Reader key read f) {rows rows' : List ρ} {d d' e : Dict κ ν} (h : rows.Perm rows')
    (hd : d.entries.Perm e.entries) (hok : f rows d = .ok d') :
    ∃ e', f rows' e = .ok e' ∧ d'.entries.Perm e'.entries := by
  obtain ⟨hnew, hnd, es, hes, heq⟩ := hf.ok_iff.mp hok
  obtain ⟨es', hes', hperm⟩ := List.perm_comp_forall₂ h.symm hes
  have hkeys : d.keys.Perm e.keys := hd.map _
  have hentries : d'.entries.Perm (e.entries ++ es') := heq ▸ hd.append hperm.symm
  refine ⟨⟨e.entries ++ es', (hentries.map Prod.fst).nodup_iff.mp d'.nodup⟩, hf.ok_iff.mpr ⟨?_, ?_, es', hes', rfl⟩,
    hentries⟩
  · exact fun row hrow hm => hnew row (h.mem_iff.mpr hrow) (hkeys.mem_iff.mpr hm)
  · exact (h.map key).nodup_iff.mp hnd

/-- From nothing: the entries are the rows', in their order. -/
theorem entry_iff (hf : Reader key read f) {rows : List ρ} {d : Dict κ ν} (h : f rows .empty = .ok d) {k : κ} {v : ν} :
    (k, v) ∈ d.entries ↔ ∃ row ∈ rows, key row = k ∧ read row = .ok v := by
  obtain ⟨-, hnd, es, hes, heq⟩ := hf.ok_iff.mp h
  obtain rfl : d.entries = es := heq
  refine ⟨fun hm => ?_, ?_⟩
  · obtain ⟨row, hrow, hk, hv⟩ := ok_of_mem_right hes hm
    exact ⟨row, hrow, hk, hv⟩
  · rintro ⟨row, hrow, rfl, hv⟩
    obtain ⟨e, he, hk, hread⟩ := ok_of_mem_left hes hrow
    obtain rfl : v = e.2 := Except.ok.inj (hv.symm.trans hread)
    rwa [hk]

end Reader
end Dict
