import Mathlib.Tactic

/-! Insertion-ordered dictionaries with unique keys. -/

/-- Entries in insertion order, no key twice. -/
structure Dict (κ ν : Type*) where
  entries : List (κ × ν)
  nodup : (entries.map Prod.fst).Nodup
  deriving DecidableEq

namespace Dict

variable {κ ν : Type*} [DecidableEq κ]

def empty : Dict κ ν := ⟨[], List.nodup_nil⟩

def keys (d : Dict κ ν) : List κ := d.entries.map Prod.fst

def values (d : Dict κ ν) : List ν := d.entries.map Prod.snd

def get? (d : Dict κ ν) (k : κ) : Option ν := (d.entries.find? fun p => p.1 = k).map Prod.snd

def getD (d : Dict κ ν) (k : κ) (default : ν) : ν := (d.get? k).getD default

/-- `d[k] = v`: an old key keeps its place. -/
def insert (d : Dict κ ν) (k : κ) (v : ν) : Dict κ ν :=
  if h : k ∈ d.keys then
    ⟨d.entries.map fun p => if p.1 = k then (k, v) else p, by
      have hkeys : (d.entries.map fun p => if p.1 = k then (k, v) else p).map Prod.fst = d.keys := by
        rw [keys, List.map_map]
        refine List.map_congr_left fun p _ => ?_
        by_cases hp : p.1 = k <;> simp [hp]
      exact hkeys ▸ d.nodup⟩
  else
    ⟨d.entries ++ [(k, v)], by
      rw [List.map_append]
      exact List.nodup_append.mpr ⟨d.nodup, List.nodup_singleton k, by
        rintro a ha b hb rfl
        obtain rfl : a = k := List.mem_singleton.mp hb
        exact h ha⟩⟩

/-- `d.setdefault(k, v)`: the first value stays. -/
def setdefault (d : Dict κ ν) (k : κ) (v : ν) : Dict κ ν := if k ∈ d.keys then d else d.insert k v

/-- `d[k] = d.get(k, 0) + v`. -/
def add [Zero ν] [Add ν] (d : Dict κ ν) (k : κ) (v : ν) : Dict κ ν := d.insert k (d.getD k 0 + v)

def ofList (l : List (κ × ν)) : Dict κ ν := l.foldl (fun d p => d.insert p.1 p.2) empty

/-- Replace what is at `k` by `g` of it. -/
def update (d : Dict κ ν) (k : κ) (g : Option ν → ν) : Dict κ ν := d.insert k (g (d.get? k))

/-- A measure of the value at `k`, zero without one. -/
def measure (m : ν → ℕ) (d : Dict κ ν) (k : κ) : ℕ := ((d.get? k).map m).getD 0

def mapValues {ν' : Type*} (d : Dict κ ν) (f : ν → ν') : Dict κ ν' :=
  ⟨d.entries.map fun e => (e.1, f e.2), by rw [List.map_map]; exact d.nodup⟩

/-- The entries whose keys satisfy `p`. -/
def filterKeys (d : Dict κ ν) (p : κ → Bool) : Dict κ ν :=
  ⟨d.entries.filter fun e => p e.1, d.nodup.sublist (List.filter_sublist.map Prod.fst)⟩

theorem get?_eq_some_iff {d : Dict κ ν} {k : κ} {v : ν} : d.get? k = some v ↔ (k, v) ∈ d.entries := by
  obtain ⟨l, hl⟩ := d
  simp only [get?]
  induction l with
  | nil => simp
  | cons p l ih =>
    obtain ⟨k', v'⟩ := p
    simp only [List.map_cons, List.nodup_cons] at hl
    by_cases h : k' = k
    · subst h
      have hn : (k', v) ∉ l := fun hm => hl.1 (List.mem_map.mpr ⟨_, hm, rfl⟩)
      simp [hn, eq_comm]
    · have h' : ¬k = k' := fun he => h he.symm
      rw [List.find?_cons_of_neg (by simpa using h), ih hl.2]
      simp [h']

theorem get?_eq_none_iff {d : Dict κ ν} {k : κ} : d.get? k = none ↔ k ∉ d.keys := by
  simp only [get?, Option.map_eq_none_iff, List.find?_eq_none, decide_eq_true_eq, keys, List.mem_map]
  exact ⟨fun h ⟨p, hp, he⟩ => h p hp he, fun h p hp he => h ⟨p, hp, he⟩⟩

theorem mem_keys_insert {d : Dict κ ν} {k k' : κ} {v : ν} :
    k' ∈ (d.insert k v).keys ↔ k' = k ∨ k' ∈ d.keys := by
  unfold insert keys
  split_ifs with h
  · have hkeys : (d.entries.map fun p => if p.1 = k then (k, v) else p).map Prod.fst =
        d.entries.map Prod.fst := by
      rw [List.map_map]
      refine List.map_congr_left fun p _ => ?_
      by_cases hp : p.1 = k <;> simp [hp]
    rw [hkeys]
    refine ⟨Or.inr, ?_⟩
    rintro (rfl | hk)
    · exact h
    · exact hk
  · simp [or_comm]

omit [DecidableEq κ] in
theorem mem_keys_filterKeys {d : Dict κ ν} {p : κ → Bool} {k : κ} :
    k ∈ (d.filterKeys p).keys ↔ k ∈ d.keys ∧ p k := by
  simp only [filterKeys, keys, List.mem_map, List.mem_filter]
  refine ⟨?_, ?_⟩
  · rintro ⟨e, ⟨he, hp⟩, rfl⟩
    exact ⟨⟨e, he, rfl⟩, hp⟩
  · rintro ⟨⟨e, he, rfl⟩, hp⟩
    exact ⟨e, ⟨he, hp⟩, rfl⟩

theorem entries_insert_of_notMem {d : Dict κ ν} {k : κ} {v : ν} (h : k ∉ d.keys) :
    (d.insert k v).entries = d.entries ++ [(k, v)] := by
  rw [insert, dif_neg h]

/-- A list without repeated keys is its dictionary's entries. -/
theorem entries_ofList {l : List (κ × ν)} (h : (l.map Prod.fst).Nodup) : (ofList l).entries = l := by
  induction l using List.reverseRecOn with
  | nil => rfl
  | append_singleton l p ih =>
    rw [List.map_append, List.nodup_append] at h
    obtain ⟨hl, -, hp⟩ := h
    have hnot : p.1 ∉ (ofList l).keys := by
      rw [keys, ih hl]
      exact fun hm => hp p.1 hm p.1 (by simp) rfl
    have hsnoc : ofList (l ++ [p]) = (ofList l).insert p.1 p.2 := by simp [ofList, List.foldl_append]
    rw [hsnoc, entries_insert_of_notMem hnot, ih hl]

theorem mem_entries_insert {d : Dict κ ν} {k k' : κ} {v w : ν} :
    (k', w) ∈ (d.insert k v).entries ↔ (k' = k ∧ w = v) ∨ (k' ≠ k ∧ (k', w) ∈ d.entries) := by
  unfold insert
  split_ifs with hmem
  · obtain ⟨e, he, hek⟩ := List.mem_map.mp hmem
    simp only [List.mem_map]
    refine ⟨?_, ?_⟩
    · rintro ⟨p, hp, heq⟩
      split_ifs at heq with hpk
      · exact Or.inl ⟨(congrArg Prod.fst heq).symm, (congrArg Prod.snd heq).symm⟩
      · subst heq
        exact Or.inr ⟨hpk, hp⟩
    · rintro (⟨rfl, rfl⟩ | ⟨hne, hp⟩)
      · exact ⟨e, he, if_pos hek⟩
      · exact ⟨(k', w), hp, if_neg hne⟩
  · have hne : (k', w) ∈ d.entries → k' ≠ k := by
      rintro hp rfl
      exact hmem (List.mem_map.mpr ⟨_, hp, rfl⟩)
    simp only [List.mem_append, List.mem_singleton, Prod.mk.injEq]
    tauto

theorem get?_insert (d : Dict κ ν) (k k' : κ) (v : ν) :
    (d.insert k v).get? k' = if k' = k then some v else d.get? k' := by
  refine Option.ext fun w => ?_
  rw [get?_eq_some_iff, mem_entries_insert]
  split_ifs with hk
  · simp [hk, eq_comm]
  · simp [hk, get?_eq_some_iff]

theorem getD_insert (d : Dict κ ν) (k k' : κ) (v default : ν) :
    (d.insert k v).getD k' default = if k' = k then v else d.getD k' default := by
  rw [getD, getD, get?_insert]
  split_ifs <;> rfl

theorem getD_of_notMem {d : Dict κ ν} {k : κ} (h : k ∉ d.keys) (default : ν) : d.getD k default = default := by
  rw [getD, get?_eq_none_iff.mpr h]
  rfl

theorem getD_of_mem {d : Dict κ ν} {k : κ} {v : ν} (h : (k, v) ∈ d.entries) (default : ν) :
    d.getD k default = v := by
  rw [getD, get?_eq_some_iff.mpr h]
  rfl

theorem get?_setdefault (d : Dict κ ν) (k k' : κ) (v : ν) :
    (d.setdefault k v).get? k' = (d.get? k').or (if k' = k then some v else none) := by
  unfold setdefault
  by_cases hk : k ∈ d.keys
  · rw [if_pos hk]
    split_ifs with he
    · subst he
      obtain ⟨w, hw⟩ := Option.ne_none_iff_exists'.mp (mt get?_eq_none_iff.mp (not_not.mpr hk))
      rw [hw]
      rfl
    · rw [Option.or_none]
  · rw [if_neg hk, get?_insert]
    split_ifs with he
    · subst he
      rw [get?_eq_none_iff.mpr hk]
      rfl
    · rw [Option.or_none]

theorem mem_keys_setdefault {d : Dict κ ν} {k k' : κ} {v : ν} :
    k' ∈ (d.setdefault k v).keys ↔ k' ∈ d.keys ∨ k' = k := by
  unfold setdefault
  split_ifs with hk
  · exact ⟨Or.inl, Or.rec id fun he => he ▸ hk⟩
  · rw [mem_keys_insert, or_comm]

section Sums
variable {ν : Type*} [AddCommMonoid ν]

/-- What a list of entries gives a key. -/
def sumAt (l : List (κ × ν)) (k : κ) : ν := ((l.filter fun p => p.1 = k).map Prod.snd).sum

theorem sumAt_cons (p : κ × ν) (l : List (κ × ν)) (k : κ) :
    sumAt (p :: l) k = (if p.1 = k then p.2 else 0) + sumAt l k := by
  unfold sumAt
  by_cases h : p.1 = k
  · rw [List.filter_cons_of_pos (by simpa using h), if_pos h, List.map_cons, List.sum_cons]
  · rw [List.filter_cons_of_neg (by simpa using h), if_neg h, zero_add]

theorem sumAt_append (l l' : List (κ × ν)) (k : κ) : sumAt (l ++ l') k = sumAt l k + sumAt l' k := by
  rw [sumAt, List.filter_append, List.map_append, List.sum_append]
  rfl

theorem getD_foldl_add (l : List (κ × ν)) (d : Dict κ ν) (k : κ) :
    (l.foldl (fun d p => d.add p.1 p.2) d).getD k 0 = d.getD k 0 + sumAt l k := by
  induction l generalizing d with
  | nil => simp [sumAt]
  | cons p l ih =>
    rw [List.foldl_cons, ih, sumAt_cons, add, getD_insert]
    by_cases h : k = p.1
    · simp [h, add_assoc]
    · simp [h, Ne.symm h]

/-- New keys only: inserting is adding. -/
theorem getD_foldl_insert (l : List (κ × ν)) (d : Dict κ ν) (hnd : (l.map Prod.fst).Nodup)
    (hnew : ∀ p ∈ l, p.1 ∉ d.keys) (k : κ) :
    (l.foldl (fun d p => d.insert p.1 p.2) d).getD k 0 = d.getD k 0 + sumAt l k := by
  induction l generalizing d with
  | nil => simp [sumAt]
  | cons p l ih =>
    obtain ⟨hp, hnd⟩ := List.nodup_cons.mp hnd
    have hzero := getD_of_notMem (hnew p (by simp)) (0 : ν)
    have hrest : ∀ q ∈ l, q.1 ∉ (d.insert p.1 p.2).keys := by
      intro q hq hmem
      rcases mem_keys_insert.mp hmem with h | h
      · exact hp (h ▸ List.mem_map_of_mem hq)
      · exact hnew q (by simp [hq]) h
    rw [List.foldl_cons, ih _ hnd hrest, sumAt_cons, getD_insert]
    by_cases h : k = p.1
    · simp [h, hzero]
    · simp [h, Ne.symm h]

/-- Two lists that agree on where `f` is not zero have the same sum. -/
theorem sum_map_eq_of_support {f : κ → ν} {l l' : List κ} (hl : l.Nodup) (hl' : l'.Nodup)
    (h : ∀ k, f k ≠ 0 → (k ∈ l ↔ k ∈ l')) : (l.map f).sum = (l'.map f).sum := by
  rw [← List.sum_toFinset _ hl, ← List.sum_toFinset _ hl']
  refine Finset.sum_congr_of_eq_on_inter (fun k hk hk' => ?_) (fun k hk' hk => ?_) fun _ _ _ => rfl
  · by_contra h0
    exact hk' (by simpa using (h k h0).mp (by simpa using hk))
  · by_contra h0
    exact hk (by simpa using (h k h0).mpr (by simpa using hk'))

/-- The values of a dictionary, summed over a list that holds all its keys. -/
theorem sum_getD {d : Dict κ ν} {ks : List κ} (hnd : ks.Nodup) (hsub : ∀ k ∈ d.keys, k ∈ ks) :
    (ks.map fun k => d.getD k 0).sum = d.values.sum := by
  have hkeys : (ks.map fun k => d.getD k 0).sum = (d.keys.map fun k => d.getD k 0).sum := by
    refine sum_map_eq_of_support hnd d.nodup fun k hk => ⟨fun _ => ?_, hsub k⟩
    by_contra hmem
    exact hk (getD_of_notMem hmem 0)
  rw [hkeys, keys, values, List.map_map]
  refine congrArg _ (List.map_congr_left fun e he => ?_)
  exact getD_of_mem he 0

omit [DecidableEq κ] in
theorem sum_filter_eq {v : κ → ν} (p : κ → Prop) [DecidablePred p] (l : List κ) :
    ((l.filter fun x => p x).map v).sum = (l.map fun x => if p x then v x else 0).sum := by
  induction l with
  | nil => rfl
  | cons x l ih =>
    rw [List.map_cons, List.sum_cons, ← ih]
    by_cases hx : p x
    · rw [List.filter_cons_of_pos (by simpa using hx), if_pos hx, List.map_cons, List.sum_cons]
    · rw [List.filter_cons_of_neg (by simpa using hx), if_neg hx, zero_add]

omit [DecidableEq κ] in
/-- A sum, split into what counts and what does not. -/
theorem sum_map_ite_add_filter {v : κ → ν} (p : κ → Prop) [DecidablePred p] (l : List κ) :
    (l.map fun x => if p x then v x else 0).sum + ((l.filter fun x => ¬p x).map v).sum = (l.map v).sum := by
  rw [sum_filter_eq (fun x => ¬p x), ← List.sum_map_add]
  refine congrArg _ (List.map_congr_left fun x _ => ?_)
  by_cases hx : p x <;> simp [hx]

omit [DecidableEq κ] in
theorem sum_filter_add_filter_not {v : κ → ν} (p : κ → Prop) [DecidablePred p] (l : List κ) :
    ((l.filter fun x => p x).map v).sum + ((l.filter fun x => ¬p x).map v).sum = (l.map v).sum := by
  rw [sum_filter_eq p, sum_map_ite_add_filter]

/-- The part of a list with a given key, where the keys are distinct. -/
theorem sum_filter_key {ι : Type*} {k : ι → κ} {v : ι → ν} {l : List ι} (hnd : (l.map k).Nodup) {x : ι}
    (hx : x ∈ l) : ((l.filter fun y => k y = k x).map v).sum = v x := by
  induction l with
  | nil => simp at hx
  | cons y l ih =>
    obtain ⟨hy, hnd⟩ := List.nodup_cons.mp hnd
    rcases List.mem_cons.mp hx with rfl | hx
    · have hnil : (l.filter fun y => k y = k x) = [] := by
        refine List.filter_eq_nil_iff.mpr fun z hz => ?_
        have hne : k z ≠ k x := fun he => hy (he ▸ List.mem_map_of_mem hz)
        simpa using hne
      rw [List.filter_cons_of_pos (by simp), hnil]
      simp
    · have hne : k y ≠ k x := fun he => hy (he ▸ List.mem_map_of_mem hx)
      rw [List.filter_cons_of_neg (by simpa using hne)]
      exact ih hnd hx

end Sums

section Update
variable {ι μ : Type*} {k : ι → κ} {g : ι → Option ν → ν}

/-- Values accumulated key by key: if every update adds `v`, a key ends with the sum over its own. -/
theorem map_get?_foldl_update [AddCommMonoid μ] {m : ν → μ} {v : ι → μ} (hg : ∀ x o, m (g x o) = (o.map m).getD 0 + v x)
    (l : List ι) (d : Dict κ ν) (a : κ) :
    (((l.foldl (fun d x => d.update (k x) (g x)) d).get? a).map m).getD 0 =
      ((d.get? a).map m).getD 0 + ((l.filter fun x => k x = a).map v).sum := by
  induction l generalizing d with
  | nil => simp
  | cons x l ih =>
    have hx : (((d.update (k x) (g x)).get? a).map m).getD 0 = ((d.get? a).map m).getD 0 + if k x = a then v x else 0 := by
      unfold update
      rw [get?_insert]
      by_cases ha : k x = a
      · subst ha
        simp [hg]
      · simp [ha, Ne.symm ha]
    rw [List.foldl_cons, ih, hx, List.filter_cons]
    by_cases ha : k x = a
    · simp [ha, add_assoc]
    · simp [ha]

theorem measure_foldl_update {m : ν → ℕ} {v : ι → ℕ} (hg : ∀ x o, m (g x o) = (o.map m).getD 0 + v x) (l : List ι)
    (d : Dict κ ν) (a : κ) :
    (l.foldl (fun d x => d.update (k x) (g x)) d).measure m a =
      d.measure m a + ((l.filter fun x => k x = a).map v).sum := map_get?_foldl_update hg l d a

theorem mem_keys_foldl_update {l : List ι} {d : Dict κ ν} {a : κ} :
    a ∈ (l.foldl (fun d x => d.update (k x) (g x)) d).keys ↔ a ∈ d.keys ∨ ∃ x ∈ l, k x = a := by
  induction l generalizing d with
  | nil => simp
  | cons x l ih =>
    rw [List.foldl_cons, ih, update, mem_keys_insert]
    simp only [List.mem_cons, exists_eq_or_imp]
    tauto

end Update

theorem mem_keys_foldl_insert {l : List (κ × ν)} {d : Dict κ ν} {a : κ} :
    a ∈ (l.foldl (fun d p => d.insert p.1 p.2) d).keys ↔ a ∈ d.keys ∨ ∃ p ∈ l, p.1 = a :=
  mem_keys_foldl_update (k := Prod.fst) (g := fun p _ => p.2)

theorem mem_keys_foldl_add [Zero ν] [Add ν] {l : List (κ × ν)} {d : Dict κ ν} {a : κ} :
    a ∈ (l.foldl (fun d p => d.add p.1 p.2) d).keys ↔ a ∈ d.keys ∨ ∃ p ∈ l, p.1 = a :=
  mem_keys_foldl_update (k := Prod.fst) (g := fun p o => o.getD 0 + p.2)

/-- A sum over a list, taken key by key. -/
theorem sum_by_key {ι μ : Type*} [AddCommMonoid μ] {ks : List κ} (hnd : ks.Nodup) {P : κ → Bool} {k : ι → κ}
    {v : ι → μ} {l : List ι} (hk : ∀ x ∈ l, k x ∈ ks) :
    ((ks.filter P).map fun a => ((l.filter fun x => k x = a).map v).sum).sum =
      ((l.filter fun x => P (k x)).map v).sum := by
  induction l with
  | nil => simp
  | cons x l ih =>
    have hx : ((ks.filter P).map fun a => if k x = a then v x else 0).sum = if P (k x) then v x else 0 := by
      rw [← List.sum_toFinset _ (hnd.filter P), Finset.sum_ite_eq]
      simp [hk x (List.mem_cons_self ..)]
    have hsplit (a : κ) : (((x :: l).filter fun y => k y = a).map v).sum =
        (if k x = a then v x else 0) + ((l.filter fun y => k y = a).map v).sum := by
      rw [List.filter_cons]
      by_cases ha : k x = a
      · simp [ha]
      · simp [ha]
    simp only [hsplit]
    rw [List.sum_map_add, hx, ih fun y hy => hk y (List.mem_cons_of_mem _ hy), List.filter_cons]
    cases hP : P (k x) <;> simp

/-! ### Dictionaries merged value by value -/

section Merge

variable {μ : Type*}

/-- Every entry of `e` is put into `d`, combined with what is there. -/
def mergeWith (combine : ν → μ → ν) (none : ν) (d : Dict κ ν) (e : Dict κ μ) : Dict κ ν :=
  e.entries.foldl (fun d p => d.insert p.1 (combine (d.getD p.1 none) p.2)) d

variable {combine : ν → μ → ν} {none : ν} {k : κ}

theorem getD_mergeWith_entries {l : List (κ × μ)} (hnd : (l.map Prod.fst).Nodup) (d : Dict κ ν) :
    (l.foldl (fun d p => d.insert p.1 (combine (d.getD p.1 none) p.2)) d).getD k none =
      ((l.find? fun p => p.1 = k).map fun p => combine (d.getD k none) p.2).getD (d.getD k none) := by
  induction l generalizing d with
  | nil => rfl
  | cons p l ih =>
    obtain ⟨hp, hnd⟩ := List.nodup_cons.mp hnd
    rw [List.foldl_cons, ih hnd, getD_insert]
    by_cases hk : p.1 = k
    · subst hk
      have hnone : (l.find? fun q => q.1 = p.1) = .none := by
        refine List.find?_eq_none.mpr fun q hq heq => hp ?_
        exact of_decide_eq_true heq ▸ List.mem_map_of_mem hq
      rw [hnone, List.find?_cons_of_pos (by simp), if_pos rfl]
      rfl
    · rw [List.find?_cons_of_neg (by simpa using hk), if_neg (Ne.symm hk)]

/-- A measure that the combination adds up is added up by the merge. -/
theorem measure_mergeWith {α : Type*} {f : ν → α} {g : μ → α} {a : α → α → α} {z : μ} {d : Dict κ ν} {e : Dict κ μ}
    (hcombine : ∀ v w, f (combine v w) = a (f v) (g w)) (hzero : ∀ v, a (f v) (g z) = f v) :
    f ((d.mergeWith combine none e).getD k none) = a (f (d.getD k none)) (g (e.getD k z)) := by
  have he : e.getD k z = ((e.entries.find? fun p => p.1 = k).map Prod.snd).getD z := rfl
  rw [mergeWith, getD_mergeWith_entries e.nodup, he]
  cases e.entries.find? fun p => p.1 = k with
  | none => exact (hzero _).symm
  | some p => exact hcombine _ _

/-- What the entries of a dictionary give a key is what it has there. -/
theorem sumAt_entries [AddCommMonoid ν] (d : Dict κ ν) : sumAt d.entries k = d.getD k 0 := by
  have hentries := entries_ofList d.nodup
  have hsum := getD_foldl_insert d.entries empty d.nodup (fun _ _ => List.not_mem_nil) k
  rw [getD_of_notMem (show k ∉ (empty : Dict κ ν).keys from List.not_mem_nil), zero_add] at hsum
  rw [← hsum]
  change (ofList d.entries).getD k 0 = d.getD k 0
  simp only [getD, get?, hentries]

end Merge

end Dict
