import HarmonyMigration.Lib.Dict
import HarmonyMigration.Lib.SortedBy
import HarmonyMigration.Lib.Loader

/-! Rows grouped by a key: `groups.setdefault(key, []).append(row)`. -/

namespace Dict

variable {ι κ : Type*} [DecidableEq κ] {key : ι → κ}

def push (d : Dict κ (List ι)) (k : κ) (x : ι) : Dict κ (List ι) := d.insert k (d.getD k [] ++ [x])

def groupBy (key : ι → κ) (l : List ι) : Dict κ (List ι) := l.foldl (fun d x => d.push (key x) x) empty

theorem getD_foldl_push (l : List ι) (d : Dict κ (List ι)) (k : κ) :
    (l.foldl (fun d x => d.push (key x) x) d).getD k [] = d.getD k [] ++ l.filter fun x => key x = k := by
  induction l generalizing d with
  | nil => simp
  | cons x l ih =>
    rw [List.foldl_cons, ih, push, getD_insert, List.filter_cons]
    by_cases h : k = key x
    · simp [h]
    · simp [h, Ne.symm h]

theorem getD_groupBy (l : List ι) (k : κ) : (groupBy key l).getD k [] = l.filter fun x => key x = k := by
  rw [groupBy, getD_foldl_push]
  simp [getD, get?, empty]

theorem mem_keys_groupBy {l : List ι} {k : κ} : k ∈ (groupBy key l).keys ↔ ∃ x ∈ l, key x = k := by
  have h := mem_keys_foldl_update (k := key) (g := fun x o => o.getD [] ++ [x]) (l := l) (d := .empty) (a := k)
  rw [show k ∈ (empty : Dict κ (List ι)).keys ↔ False by simp [keys, empty], false_or] at h
  exact h

theorem mem_entries_groupBy {l : List ι} {k : κ} {v : List ι} :
    (k, v) ∈ (groupBy key l).entries ↔ v = (l.filter fun x => key x = k) ∧ v ≠ [] := by
  have hne : (∃ x ∈ l, key x = k) ↔ (l.filter fun x => key x = k) ≠ [] := by
    simp [List.filter_eq_nil_iff]
  constructor
  · intro h
    have hv : (l.filter fun x => key x = k) = v := by rw [← getD_groupBy, getD_of_mem h]
    exact ⟨hv.symm, hv ▸ hne.mp (mem_keys_groupBy.mp (mem_keys h))⟩
  · rintro ⟨rfl, hv⟩
    obtain ⟨w, hw⟩ := exists_of_mem_keys (mem_keys_groupBy.mpr (hne.mpr hv))
    rw [← getD_groupBy, getD_of_mem hw]
    exact hw

/-- Rows that come from parts of distinct keys, in any order, are grouped into the parts. -/
theorem filter_perm_of_parts {α : Type*} {parts : List α} {rows : α → List ι} {name : α → κ} {l : List ι}
    (hl : l.Perm (parts.flatMap rows)) (hnd : (parts.map name).Nodup)
    (hkey : ∀ a ∈ parts, ∀ x ∈ rows a, key x = name a) {a : α} (ha : a ∈ parts) :
    (l.filter fun x => key x = name a).Perm (rows a) := by
  refine (hl.filter _).trans ?_
  clear hl
  induction parts with
  | nil => simp at ha
  | cons b parts ih =>
    obtain ⟨hb, hnd⟩ := List.nodup_cons.mp hnd
    have hother : ∀ c ∈ b :: parts, name c ≠ name a → (rows c).filter (fun x => key x = name a) = [] :=
      fun c hc hne => List.filter_eq_nil_iff.mpr fun x hx => by simpa [hkey c hc x hx] using hne
    rw [List.flatMap_cons, List.filter_append]
    rcases List.mem_cons.mp ha with rfl | ha
    · have hself : ((rows a).filter fun x => key x = name a) = rows a :=
        List.filter_eq_self.mpr fun x hx => by simpa using hkey a (by simp) x hx
      have hrest : ((parts.flatMap rows).filter fun x => key x = name a) = [] := by
        refine List.filter_eq_nil_iff.mpr fun x hx => ?_
        obtain ⟨c, hc, hx⟩ := List.mem_flatMap.mp hx
        have hne : name c ≠ name a := fun h => hb (h ▸ List.mem_map_of_mem hc)
        simpa [hkey c (by simp [hc]) x hx] using hne
      rw [hself, hrest, List.append_nil]
    · have hne : name b ≠ name a := fun h => hb (h ▸ List.mem_map_of_mem ha)
      rw [hother b (by simp) hne, List.nil_append]
      exact ih hnd (fun c hc => hkey c (by simp [hc])) ha

end Dict
