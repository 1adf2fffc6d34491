import Mathlib.Data.Nat.Bitwise
import Mathlib.Tactic

/-! Sorted-pair Merkle trees over an arbitrary ordered digest type. A level is
paired from the left and an unpaired last node is carried up unchanged. An
accepted proof of any length, from siblings nobody vouches for, starts at a node
of the tree; a value that is no pair hash is then one of the leaves. The siblings
on the way up from a leaf lead to the top, whatever the pair hash is. -/

namespace Merkle

variable {D : Type*}

section Sorted
variable [LinearOrder D] (H : D → D → D)

/-- The pair hash, smaller value first. -/
def sorted (a b : D) : D := if a < b then H a b else H b a

/-- Hash `x` with each sibling in turn. -/
def fold (x : D) (proof : List D) : D := proof.foldl (sorted H) x

variable {H}

theorem sorted_inj (hH : Function.Injective2 H) {a b c d : D} (h : sorted H a b = sorted H c d) :
    (a = c ∧ b = d) ∨ (a = d ∧ b = c) := by
  unfold sorted at h
  split_ifs at h with h1 h2 h2
  · exact Or.inl (hH h)
  · exact Or.inr (hH h)
  · exact Or.inr (hH h).symm
  · exact Or.inl (hH h).symm

theorem sorted_comm (a b : D) : sorted H a b = sorted H b a := by
  rcases lt_trichotomy a b with h | rfl | h
  · simp [sorted, h, h.not_gt]
  · rfl
  · simp [sorted, h, h.not_gt]

theorem sorted_ne {x : D} (hx : ∀ a b, H a b ≠ x) (a b : D) : sorted H a b ≠ x := by
  unfold sorted
  split_ifs <;> exact hx _ _

end Sorted

section Levels
variable (pair : D → D → D)

/-- One level up: neighbours are combined, an unpaired last node is carried up. -/
def levelUp : List D → List D
  | a :: b :: rest => pair a b :: levelUp rest
  | [a] => [a]
  | [] => []

theorem levelUp_length (l : List D) : (levelUp pair l).length = (l.length + 1) / 2 := by
  induction l using levelUp.induct with
  | case1 a b rest ih => simp only [levelUp, List.length_cons, ih]; omega
  | case2 a => simp [levelUp]
  | case3 => simp [levelUp]

theorem levelUp_length_lt {l : List D} (h : 1 < l.length) :
    (levelUp pair l).length < l.length := by
  rw [levelUp_length]; omega

theorem levelUp_ne_nil {l : List D} (h : l ≠ []) : levelUp pair l ≠ [] := by
  have h0 : 0 < l.length := List.length_pos_of_ne_nil h
  have h1 := levelUp_length pair l
  exact List.ne_nil_of_length_pos (by omega)

/-- The entry `i` of the next level, as a position-wise construction writes it. -/
theorem levelUp_getElem? (l : List D) (i : ℕ) :
    (levelUp pair l)[i]? =
      match l[2 * i]?, l[2 * i + 1]? with
      | some a, some b => some (pair a b)
      | some a, none => some a
      | none, _ => none := by
  induction l using levelUp.induct generalizing i with
  | case1 a b rest ih =>
    cases i with
    | zero => simp [levelUp]
    | succ i => simpa [levelUp, Nat.mul_add] using ih i
  | case2 a => cases i <;> simp [levelUp, Nat.mul_add]
  | case3 => simp [levelUp]

/-- The level above an even prefix and a rest is the levels above each, joined. -/
theorem levelUp_append {a : List D} (h : 2 ∣ a.length) (b : List D) :
    levelUp pair (a ++ b) = levelUp pair a ++ levelUp pair b := by
  induction a using levelUp.induct with
  | case1 x y rest ih =>
    have hr : 2 ∣ rest.length := by simp only [List.length_cons] at h; omega
    simp only [List.cons_append, levelUp, ih hr]
  | case2 x => simp at h
  | case3 => rfl

/-- The paired prefix, then an unpaired last node. -/
theorem levelUp_paired (l : List D) :
    levelUp pair l =
      if l.length - l.length % 2 < l.length then
        levelUp pair (l.take (l.length - l.length % 2)) ++ l.getLast?.toList
      else levelUp pair (l.take (l.length - l.length % 2)) := by
  generalize hp : l.length - l.length % 2 = paired
  have hlen : (l.take paired).length = paired := by rw [List.length_take]; omega
  have hcut : levelUp pair l = levelUp pair (l.take paired) ++ levelUp pair (l.drop paired) := by
    rw [← levelUp_append pair (by rw [hlen]; omega), List.take_append_drop]
  split_ifs with hodd
  · obtain ⟨x, hx⟩ : ∃ x, l.drop paired = [x] :=
      List.length_eq_one_iff.mp (by rw [List.length_drop]; omega)
    have hlast : l.getLast? = some x := by
      rw [← List.take_append_drop paired l, hx, List.getLast?_concat]
    rw [hcut, hx, hlast]
    rfl
  · rw [hcut, List.drop_eq_nil_of_le (by omega), levelUp, List.append_nil]

/-- Whatever pairing preserves holds of the next level if it holds of this one. -/
theorem levelUp_forall {P : D → Prop} (hpair : ∀ a b, P a → P b → P (pair a b)) {l : List D}
    (h : ∀ d ∈ l, P d) : ∀ d ∈ levelUp pair l, P d := by
  induction l using levelUp.induct with
  | case1 a b rest ih =>
    intro d hd
    rcases List.mem_cons.mp hd with rfl | hd
    · exact hpair a b (h a (by simp)) (h b (by simp))
    · exact ih (fun x hx => h x (by simp [hx])) d hd
  | case2 a => exact h
  | case3 => exact h

theorem levelUp_map {E : Type*} {f : D → E} {pair' : E → E → E}
    (hf : ∀ a b, pair' (f a) (f b) = f (pair a b)) (l : List D) :
    levelUp pair' (l.map f) = (levelUp pair l).map f := by
  induction l using levelUp.induct with
  | case1 a b rest ih => simp [levelUp, hf, ih]
  | case2 a => rfl
  | case3 => rfl

theorem filterMap_range_getElem? (l : List D) :
    (List.range l.length).filterMap (fun k => l[k]?) = l := by
  induction l with
  | nil => rfl
  | cons a l ih =>
    rw [List.length_cons, List.range_succ_eq_map, List.filterMap_cons, List.filterMap_map]
    simpa using ih

/-- The nodes of a tree over `leaves`: the leaves, and every pair of nodes. -/
inductive Node (leaves : List D) : D → Prop
  | leaf {d : D} : d ∈ leaves → Node leaves d
  | pair {a b : D} : Node leaves a → Node leaves b → Node leaves (pair a b)

theorem node_levelUp {leaves l : List D} (h : ∀ d ∈ l, Node pair leaves d) :
    ∀ d ∈ levelUp pair l, Node pair leaves d :=
  levelUp_forall pair (fun _ _ ha hb => .pair ha hb) h

/-- All levels, leaves first: go up while a level has more than one node. -/
def climb (next : List D → List D) : ℕ → List D → List (List D)
  | 0, l => [l]
  | n + 1, l => if 1 < l.length then l :: climb next n (next l) else [l]

/-- The single node of the last level. -/
def top (levels : List (List D)) : Option D := levels.getLast?.bind List.head?

theorem climb_ne_nil (next : List D → List D) (n : ℕ) (l : List D) : climb next n l ≠ [] := by
  cases n with
  | zero => simp [climb]
  | succ n => simp only [climb]; split_ifs <;> simp

theorem climb_head? (next : List D → List D) (n : ℕ) (l : List D) : (climb next n l).head? = some l := by
  cases n with
  | zero => rfl
  | succ n => simp only [climb]; split_ifs <;> rfl

/-- Two ways up that agree wherever `P` holds, and keep `P`, build the same levels. -/
theorem climb_congr {P : List D → Prop} {next next' : List D → List D}
    (h : ∀ l, P l → next l = next' l) (hP : ∀ l, P l → P (next' l)) (n : ℕ) {l : List D} (hl : P l) :
    climb next n l = climb next' n l := by
  induction n generalizing l with
  | zero => rfl
  | succ n ih => simp only [climb, h l hl, ih (hP l hl)]

theorem climb_map {E : Type*} {f : D → E} {next : List D → List D} {next' : List E → List E}
    (hf : ∀ l, next' (l.map f) = (next l).map f) (n : ℕ) (l : List D) :
    climb next' n (l.map f) = (climb next n l).map (List.map f) := by
  induction n generalizing l with
  | zero => rfl
  | succ n ih =>
    simp only [climb, List.length_map, hf, ih]
    split_ifs <;> rfl

/-- With as many rounds as leaves the climb ends because one node is left. -/
theorem climb_getLast? {n : ℕ} {l : List D} (hl : l ≠ []) (hn : l.length ≤ n + 1) :
    ∃ r, (climb (levelUp pair) n l).getLast? = some [r] := by
  induction n generalizing l with
  | zero =>
    obtain ⟨r, rfl⟩ := List.length_eq_one_iff.mp
      (le_antisymm hn (List.length_pos_of_ne_nil hl))
    exact ⟨r, rfl⟩
  | succ n ih =>
    by_cases h1 : 1 < l.length
    · have hlt := levelUp_length_lt pair h1
      obtain ⟨r, hr⟩ := ih (levelUp_ne_nil pair hl) (by omega)
      refine ⟨r, ?_⟩
      simp only [climb, if_pos h1]
      rw [List.getLast?_cons_of_ne_nil (climb_ne_nil _ _ _), hr]
    · obtain ⟨r, rfl⟩ := List.length_eq_one_iff.mp
        (le_antisymm (not_lt.mp h1) (List.length_pos_of_ne_nil hl))
      exact ⟨r, by simp [climb]⟩

theorem exists_top {n : ℕ} {l : List D} (hl : l ≠ []) (hn : l.length ≤ n + 1) :
    ∃ r, top (climb (levelUp pair) n l) = some r := by
  obtain ⟨r, hr⟩ := climb_getLast? pair hl hn
  exact ⟨r, by simp [top, hr]⟩

theorem node_climb {leaves : List D} (n : ℕ) {l : List D} (h : ∀ d ∈ l, Node pair leaves d) :
    ∀ level ∈ climb (levelUp pair) n l, ∀ d ∈ level, Node pair leaves d := by
  induction n generalizing l with
  | zero => simpa [climb] using h
  | succ n ih =>
    intro level hlevel
    simp only [climb] at hlevel
    split_ifs at hlevel with h1
    · rcases List.mem_cons.mp hlevel with rfl | hm
      · exact h
      · exact ih (node_levelUp pair h) level hm
    · rw [List.mem_singleton.mp hlevel]
      exact h

/-- The top of a tree over `leaves` is one of its nodes. -/
theorem node_top {leaves : List D} {n : ℕ} {r : D}
    (h : top (climb (levelUp pair) n leaves) = some r) : Node pair leaves r := by
  unfold top at h
  obtain ⟨level, hlast, hhead⟩ := Option.bind_eq_some_iff.mp h
  exact node_climb pair n (fun d hd => .leaf hd) level (List.mem_of_getLast? hlast) r
    (List.mem_of_head? hhead)

end Levels

section Completeness
variable {pair : D → D → D} (hcomm : ∀ a b, pair a b = pair b a)

/-- The siblings on the way up from position `i`, lowest level first. -/
def path : List (List D) → ℕ → List D
  | [], _ => []
  | level :: rest, i => level[i ^^^ 1]?.toList ++ path rest (i / 2)

include hcomm in
/-- A node joined with its sibling, or carried up for want of one, is the node above it. -/
theorem levelUp_sibling {l : List D} {i : ℕ} {x : D} (h : l[i]? = some x) :
    (levelUp pair l)[i / 2]? = some (l[i ^^^ 1]?.toList.foldl pair x) := by
  rw [levelUp_getElem?]
  rcases Nat.even_or_odd i with heven | hodd
  · -- a left node: the sibling may be missing
    have hi : 2 * (i / 2) = i := Nat.two_mul_div_two_of_even heven
    rw [Nat.xor_one_of_even heven, hi, h]
    cases l[i + 1]? with
    | none => rfl
    | some y => rfl
  · have hi : 2 * (i / 2) + 1 = i := Nat.two_mul_div_two_add_one_of_odd hodd
    have hlt : 2 * (i / 2) < l.length := by
      have := (List.getElem?_eq_some_iff.mp h).1
      omega
    rw [Nat.xor_one_of_odd hodd, hi, h, show i - 1 = 2 * (i / 2) by omega,
      List.getElem?_eq_getElem hlt]
    exact congrArg some (hcomm _ _)

theorem top_singleton {l : List D} (hle : l.length ≤ 1) {i : ℕ} {x : D} (h : l[i]? = some x) :
    top [l] = some x := by
  have hlt := (List.getElem?_eq_some_iff.mp h).1
  obtain ⟨r, rfl⟩ := List.length_eq_one_iff.mp (le_antisymm hle (by omega))
  obtain rfl : i = 0 := by simpa using hlt
  exact h

include hcomm in
/-- Completeness: the siblings of a position lead from its leaf to the top. -/
theorem top_eq_foldl_path {n : ℕ} {l : List D} (hn : l.length ≤ n + 1) {i : ℕ} {x : D}
    (h : l[i]? = some x) :
    top (climb (levelUp pair) n l) =
      some ((path (climb (levelUp pair) n l).dropLast i).foldl pair x) := by
  induction n generalizing l i x with
  | zero => exact top_singleton hn h
  | succ n ih =>
    by_cases h1 : 1 < l.length
    · have hlt := levelUp_length_lt pair h1
      have hne := climb_ne_nil (levelUp pair) n (levelUp pair l)
      have hup := ih (by omega) (levelUp_sibling hcomm h)
      simp only [climb, if_pos h1]
      rw [List.dropLast_cons_of_ne_nil hne, path, List.foldl_append, ← hup, top, top,
        List.getLast?_cons_of_ne_nil hne]
    · rw [climb, if_neg h1]
      exact top_singleton (by omega) h

end Completeness

section Soundness
variable [LinearOrder D] {H : D → D → D} {leaves : List D}

/-- A value that is no pair hash can be a node only as a leaf. -/
theorem Node.mem_leaves {x : D} (h : Node (sorted H) leaves x) (hx : ∀ a b, H a b ≠ x) :
    x ∈ leaves := by
  cases h with
  | leaf hm => exact hm
  | pair ha hb => exact absurd rfl (sorted_ne hx _ _)

/-- If the walk over `proof` from `x` ends at a node, `x` is a node: each step's
value is a pair hash, hence no leaf, so its two inputs are the node's children. -/
theorem node_of_fold (hH : Function.Injective2 H) (hsep : ∀ d ∈ leaves, ∀ a b, H a b ≠ d)
    (proof : List D) (x : D) (h : Node (sorted H) leaves (fold H x proof)) :
    Node (sorted H) leaves x := by
  induction proof generalizing x with
  | nil => exact h
  | cons p ps ih =>
    have hp : Node (sorted H) leaves (sorted H x p) := ih _ h
    generalize he : sorted H x p = y at hp
    cases hp with
    | leaf hm => exact absurd he (sorted_ne (hsep _ hm) x p)
    | pair ha hb =>
      rcases sorted_inj hH he with ⟨rfl, -⟩ | ⟨rfl, -⟩
      · exact ha
      · exact hb

/-- Soundness: an accepted proof for a value that is no pair hash is about a leaf. -/
theorem mem_leaves_of_fold (hH : Function.Injective2 H) (hsep : ∀ d ∈ leaves, ∀ a b, H a b ≠ d)
    {root x : D} (hroot : Node (sorted H) leaves root) (hx : ∀ a b, H a b ≠ x) (proof : List D)
    (h : fold H x proof = root) : x ∈ leaves :=
  (node_of_fold hH hsep proof x (h ▸ hroot)).mem_leaves hx

end Soundness

end Merkle
