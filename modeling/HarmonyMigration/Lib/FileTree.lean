import Mathlib.Data.String.Basic
import Mathlib.Tactic

/-! Files by path. A directory is the set of files at or below it, so renaming one
rewrites the front of their paths. -/

namespace FileTree

/-- The components of a relative path. -/
abbrev Path := List String

instance pathLawfulBEq : LawfulBEq Path := List.instLawfulBEq

/-- The text of a path, components joined by slashes. -/
def text (p : Path) : List Char := List.intercalate ['/'] (p.map String.toList)

/-- Paths in the order of their texts. -/
def sortPaths (ps : List Path) : List Path := ps.insertionSort fun p q => text p ≤ text q

@[simp] theorem mem_sortPaths {ps : List Path} {p : Path} : p ∈ sortPaths ps ↔ p ∈ ps :=
  List.mem_insertionSort _

theorem sortPaths_nodup {ps : List Path} : (sortPaths ps).Nodup ↔ ps.Nodup :=
  (List.perm_insertionSort _ ps).nodup_iff

theorem sortPaths_sorted (ps : List Path) : (sortPaths ps).Pairwise fun a b => text a ≤ text b := by
  have : Std.Total fun p q : Path => text p ≤ text q := ⟨fun _ _ => le_total _ _⟩
  have : IsTrans Path fun p q => text p ≤ text q := ⟨fun _ _ _ => le_trans⟩
  exact List.pairwise_insertionSort _ ps

theorem text_append {p r : Path} (hp : p ≠ []) (hr : r ≠ []) : text (p ++ r) = text p ++ '/' :: text r := by
  induction p with
  | nil => contradiction
  | cons x p ih =>
    unfold text at *
    by_cases hn : p = []
    · subst hn
      rw [List.singleton_append, List.map_cons, List.intercalate_cons_of_ne_nil (by simpa using hr)]
      simp
    · rw [List.cons_append, List.map_cons, List.intercalate_cons_of_ne_nil (by simp [hn]), ih hn,
        List.map_cons, List.intercalate_cons_of_ne_nil (by simpa using hn)]
      simp

/-- A path never sorts behind one below it. -/
theorem not_text_le_of_prefix {p q : Path} (hp : p ≠ []) (h : p <+: q) (hne : p ≠ q) :
    ¬text q ≤ text p := by
  obtain ⟨r, rfl⟩ := h
  have hr : r ≠ [] := by rintro rfl; simp at hne
  rw [text_append hp hr]
  intro hle
  have hle' : text p ≤ text p ++ '/' :: text r := not_lt.mp (List.le_append_left : ¬text p ++ _ < text p)
  have heq := le_antisymm hle hle'
  simpa using congrArg List.length heq

abbrev Files (F : Type*) := List (Path × F)

variable {F : Type*}

/-- Something is at `rel` or below it. -/
def lexists (t : Files F) (rel : Path) : Prop := ∃ e ∈ t, rel <+: e.1

instance (t : Files F) (rel : Path) : Decidable (lexists t rel) := by unfold lexists; infer_instance

/-- The files at or below `rel`, by their paths from there. -/
def below (t : Files F) (rel : Path) : Files F :=
  t.filterMap fun e => if rel <+: e.1 then some (e.1.drop rel.length, e.2) else none

/-- `rel` is a directory. -/
def isDir (t : Files F) (rel : Path) : Prop := ∃ e ∈ t, rel <+: e.1 ∧ e.1 ≠ rel

instance (t : Files F) (rel : Path) : Decidable (isDir t rel) := by unfold isDir; infer_instance

/-- `os.replace(src, dst)` of a file or directory. -/
def rename (src dst : Path) (t : Files F) : Files F :=
  t.map fun e => if src <+: e.1 then (dst ++ e.1.drop src.length, e.2) else e

/-- Write a whole file. -/
def write (p : Path) (f : F) (t : Files F) : Files F :=
  if p ∈ t.map Prod.fst then t.map fun e => if e.1 = p then (p, f) else e else t ++ [(p, f)]

/-- The tree with everything at or below the paths in `moved` put under `dest`. -/
def relocate (dest : Path) (moved : List Path) (t : Files F) : Files F :=
  t.map fun e => if ∃ rel ∈ moved, rel <+: e.1 then (dest ++ e.1, e.2) else e

/-- Neither path contains the other. -/
def Apart (p q : Path) : Prop := ¬p <+: q ∧ ¬q <+: p

theorem apart_of_prefix {p q r : Path} (h : Apart p q) (hp : p <+: r) : ¬q <+: r := by
  intro hq
  rcases List.prefix_or_prefix_of_prefix hp hq with h1 | h1
  · exact h.1 h1
  · exact h.2 h1

theorem Apart.not_prefix_append {rel dest : Path} (h : Apart rel dest) (x : Path) :
    ¬rel <+: dest ++ x := fun hp => apart_of_prefix h hp (List.prefix_append dest x)

theorem rename_append (src dst : Path) (a b : Files F) :
    rename src dst (a ++ b) = rename src dst a ++ rename src dst b := List.map_append

theorem rename_eq_self {src dst : Path} {t : Files F} (h : ¬lexists t src) : rename src dst t = t := by
  refine (List.map_congr_left fun e he => ?_).trans (List.map_id t)
  exact if_neg fun hp => h ⟨e, he, hp⟩

@[simp] theorem lexists_append (a b : Files F) (rel : Path) :
    lexists (a ++ b) rel ↔ lexists a rel ∨ lexists b rel := by
  simp only [lexists, List.mem_append, or_and_right, exists_or]

@[simp] theorem relocate_nil (dest : Path) (t : Files F) : relocate dest [] t = t := by
  simp [relocate]

theorem exists_prefix_snoc {moved : List Path} {rel p : Path} :
    (∃ m ∈ moved ++ [rel], m <+: p) ↔ (∃ m ∈ moved, m <+: p) ∨ rel <+: p := by
  simp only [List.mem_append, List.mem_singleton, or_and_right, exists_or, exists_eq_left]

/-- Moving one more path under `dest`. -/
theorem rename_relocate {dest rel : Path} (h : Apart rel dest) (moved : List Path) (t : Files F) :
    rename rel (dest ++ rel) (relocate dest moved t) = relocate dest (moved ++ [rel]) t := by
  unfold rename relocate
  rw [List.map_map]
  refine List.map_congr_left fun e _ => ?_
  simp only [Function.comp_apply, exists_prefix_snoc]
  by_cases hm : ∃ m ∈ moved, m <+: e.1
  · rw [if_pos hm, if_neg (h.not_prefix_append _), if_pos (Or.inl hm)]
  · rw [if_neg hm]
    by_cases hr : rel <+: e.1
    · rw [if_pos hr, if_pos (Or.inr hr), List.append_assoc, List.prefix_iff_eq_append.mp hr]
    · rw [if_neg hr, if_neg (not_or.mpr ⟨hm, hr⟩)]

/-- Moving the last one back. -/
theorem rename_back {dest rel : Path} {moved : List Path} {t : Files F}
    (hapart : ∀ m ∈ moved, Apart m rel) (hfree : ∀ e ∈ t, ¬dest <+: e.1) :
    rename (dest ++ rel) rel (relocate dest (moved ++ [rel]) t) = relocate dest moved t := by
  unfold rename relocate
  rw [List.map_map]
  refine List.map_congr_left fun e he => ?_
  simp only [Function.comp_apply, exists_prefix_snoc]
  by_cases hr : rel <+: e.1
  · have hm : ¬∃ m ∈ moved, m <+: e.1 := by
      rintro ⟨m, hmem, hp⟩
      exact apart_of_prefix (hapart m hmem) hp hr
    rw [if_pos (Or.inr hr), if_pos ((List.prefix_append_right_inj dest).mpr hr), if_neg hm]
    simp only [List.length_append, List.drop_append, Nat.add_sub_cancel_left,
      List.drop_eq_nil_of_le (Nat.le_add_right _ _), List.nil_append,
      List.prefix_iff_eq_append.mp hr]
  · by_cases hm : ∃ m ∈ moved, m <+: e.1
    · rw [if_pos (Or.inl hm), if_neg (mt (List.prefix_append_right_inj dest).mp hr), if_pos hm]
    · have hd : ¬dest ++ rel <+: e.1 := fun hp => hfree e he ((List.prefix_append dest rel).trans hp)
      rw [if_neg (not_or.mpr ⟨hm, hr⟩), if_neg hd, if_neg hm]

/-- A path that was moved is gone from its place. -/
theorem not_lexists_of_moved {dest rel : Path} {moved : List Path} (t : Files F) (h : Apart rel dest)
    (hrel : rel ∈ moved) : ¬lexists (relocate dest moved t) rel := by
  rintro ⟨e', he', hp⟩
  obtain ⟨e, -, rfl⟩ := List.mem_map.mp he'
  by_cases hm : ∃ m ∈ moved, m <+: e.1
  · rw [if_pos hm] at hp
    exact h.not_prefix_append _ hp
  · rw [if_neg hm] at hp
    exact hm ⟨rel, hrel, hp⟩

theorem lexists_dest_of_moved {dest rel : Path} {moved : List Path} {t : Files F} (h : lexists t rel)
    (hrel : rel ∈ moved) : lexists (relocate dest moved t) (dest ++ rel) := by
  obtain ⟨e, he, hp⟩ := h
  refine ⟨_, List.mem_map.mpr ⟨e, he, rfl⟩, ?_⟩
  rw [if_pos ⟨rel, hrel, hp⟩]
  exact (List.prefix_append_right_inj dest).mpr hp

/-- A path apart from all moved ones is still in its place. -/
theorem lexists_of_not_moved {dest rel : Path} {moved : List Path} {t : Files F} (h : lexists t rel)
    (hapart : ∀ m ∈ moved, Apart m rel) : lexists (relocate dest moved t) rel := by
  obtain ⟨e, he, hp⟩ := h
  refine ⟨_, List.mem_map.mpr ⟨e, he, rfl⟩, ?_⟩
  rw [if_neg]
  · exact hp
  · rintro ⟨m, hm, hmp⟩
    exact apart_of_prefix (hapart m hm) hmp hp

theorem not_lexists_dest {dest rel : Path} {moved : List Path} {t : Files F}
    (hapart : ∀ m ∈ moved, Apart m rel) (hfree : ∀ e ∈ t, ¬dest <+: e.1) :
    ¬lexists (relocate dest moved t) (dest ++ rel) := by
  rintro ⟨e', he', hp⟩
  obtain ⟨e, he, rfl⟩ := List.mem_map.mp he'
  by_cases hm : ∃ m ∈ moved, m <+: e.1
  · rw [if_pos hm] at hp
    obtain ⟨m, hmem, hmp⟩ := hm
    exact apart_of_prefix (hapart m hmem) hmp ((List.prefix_append_right_inj dest).mp hp)
  · rw [if_neg hm] at hp
    exact hfree e he ((List.prefix_append dest rel).trans hp)

theorem write_of_notMem {p : Path} {f : F} {t : Files F} (h : p ∉ t.map Prod.fst) :
    write p f t = t ++ [(p, f)] := if_neg h

/-- Writing a file that stands behind a part of the tree without it. -/
theorem write_append {p : Path} {f : F} {a : Files F} (h : p ∉ a.map Prod.fst) (b : Files F) :
    write p f (a ++ b) = a ++ write p f b := by
  have hid : (a.map fun e => if e.1 = p then (p, f) else e) = a := by
    refine (List.map_congr_left fun e he => ?_).trans (List.map_id a)
    exact if_neg fun hp => h (List.mem_map.mpr ⟨e, he, hp⟩)
  unfold write
  by_cases hb : p ∈ b.map Prod.fst
  · rw [if_pos (by rw [List.map_append]; exact List.mem_append_right _ hb), if_pos hb,
      List.map_append, hid]
  · have hab : p ∉ (a ++ b).map Prod.fst := by
      rw [List.map_append, List.mem_append]
      exact not_or.mpr ⟨h, hb⟩
    rw [if_neg hab, if_neg hb, List.append_assoc]

end FileTree
