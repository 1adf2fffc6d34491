import Mathlib.Tactic

/-! Rules for computations that may fail. -/

namespace Except

variable {ε α β : Type*}

theorem of_bind_ok {x : Except ε α} {f : α → Except ε β} {b : β} (h : x.bind f = .ok b) :
    ∃ a, x = .ok a ∧ f a = .ok b := by
  cases x with
  | error e => cases h
  | ok a => exact ⟨a, rfl, h⟩

theorem of_map_ok {x : Except ε α} {f : α → β} {b : β} (h : x.map f = .ok b) :
    ∃ a, x = .ok a ∧ f a = b := by
  cases x with
  | error e => cases h
  | ok a => exact ⟨a, rfl, Except.ok.inj h⟩

/-- `if not p: raise e`. -/
def require (p : Prop) [Decidable p] (e : ε) : Except ε Unit := if p then .ok () else .error e

theorem of_require_ok {p : Prop} [Decidable p] {e : ε} {u : Unit} (h : require p e = .ok u) : p := by
  unfold require at h
  split_ifs at h with hp
  exact hp

theorem require_ok {p : Prop} [Decidable p] {e : ε} (h : p) : require p e = .ok () := if_pos h

theorem require_iff {p : Prop} [Decidable p] {e : ε} {u : Unit} : require p e = .ok u ↔ p :=
  ⟨of_require_ok, require_ok⟩

@[simp] theorem require_bind_ok {p : Prop} [Decidable p] {e : ε} {f : Unit → Except ε β} {b : β} :
    (require p e).bind f = .ok b ↔ p ∧ f () = .ok b := by
  unfold require
  split_ifs with hp
  · simp [hp, Except.bind]
  · simp [hp, Except.bind]

/-- A computation whose evaluation succeeds has a result. -/
theorem exists_ok_of_toBool {x : Except ε α} (h : x.toBool = true) : ∃ a, x = .ok a := by
  cases x with
  | error e => cases h
  | ok a => exact ⟨a, rfl⟩

theorem eq_ok_of_toOption {x : Except ε α} {a : α} (h : x.toOption = some a) : x = .ok a := by
  cases x with
  | error e => cases h
  | ok b => exact congrArg Except.ok (Option.some.inj h)

/-- What is evaluated of a result is so of the result. -/
theorem exists_ok_of_map {x : Except ε α} {f : α → β} {b : β} (h : x.toOption.map f = some b) :
    ∃ a, x = .ok a ∧ f a = b := by
  cases x with
  | error e => cases h
  | ok a => exact ⟨a, rfl, Option.some.inj h⟩

theorem exists_ok_of_any {x : Except ε α} {p : α → Bool} (h : x.toOption.any p = true) : ∃ a, x = .ok a ∧ p a = true := by
  cases x with
  | error e => cases h
  | ok a => exact ⟨a, rfl, h⟩

theorem bind_ok_left {a : α} {f : α → Except ε β} : (Except.ok a : Except ε α).bind f = f a := rfl

/-- What an optional value stands for, or an error where there is none. -/
def ofOption (o : Option α) (e : ε) : Except ε α := o.elim (.error e) .ok

@[simp] theorem ofOption_bind_ok {o : Option α} {e : ε} {f : α → Except ε β} {b : β} :
    (ofOption o e).bind f = .ok b ↔ ∃ a, o = some a ∧ f a = .ok b := by
  cases o with
  | none => simp [ofOption, Except.bind]
  | some a => simp [ofOption, Except.bind]

theorem require_bind_bind {γ : Type*} {p : Prop} [Decidable p] {e : ε} {f : Unit → Except ε β}
    {g : β → Except ε γ} : ((require p e).bind f).bind g = (require p e).bind fun u => (f u).bind g := by
  unfold require
  split_ifs <;> rfl

/-- Fallible work that agrees on the members of a list agrees on the list. -/
theorem mapM_congr {ε α β : Type} {f g : α → Except ε β} {l : List α} (h : ∀ a ∈ l, f a = g a) :
    l.mapM f = l.mapM g := by
  induction l with
  | nil => rfl
  | cons a l ih =>
    rw [List.mapM_cons, List.mapM_cons, h a (by simp), ih fun b hb => h b (by simp [hb])]

/-- A list of fallible results, one for each element in order. -/
theorem forall₂_of_mapM_ok {ε α β : Type} {f : α → Except ε β} {l : List α} {bs : List β}
    (h : l.mapM f = .ok bs) : List.Forall₂ (fun a b => f a = .ok b) l bs := by
  induction l generalizing bs with
  | nil =>
    obtain rfl : [] = bs := by simpa [pure, Except.pure] using h
    exact .nil
  | cons a l ih =>
    rw [List.mapM_cons] at h
    obtain ⟨b, hb, h⟩ := of_bind_ok h
    obtain ⟨cs, hcs, h⟩ := of_bind_ok h
    obtain rfl : b :: cs = bs := by simpa [pure, Except.pure] using h
    exact .cons hb (ih hcs)

theorem mapM_ok_of_forall₂ {ε α β : Type} {f : α → Except ε β} {l : List α} {bs : List β}
    (h : List.Forall₂ (fun a b => f a = .ok b) l bs) : l.mapM f = .ok bs := by
  induction h with
  | nil => rfl
  | cons hb _ ih =>
    rw [List.mapM_cons, hb, ih]
    rfl

theorem mapM_ok_of_forall {ε α β : Type} {f : α → Except ε β} {g : α → β} {l : List α} (h : ∀ a ∈ l, f a = .ok (g a)) :
    l.mapM f = .ok (l.map g) := by
  refine mapM_ok_of_forall₂ ?_
  induction l with
  | nil => exact .nil
  | cons a l ih => exact .cons (h a (by simp)) (ih fun b hb => h b (by simp [hb]))

/-- Another order of the list gives the results in that order. -/
theorem mapM_perm {ε α β : Type} {f : α → Except ε β} {l l' : List α} {bs : List β} (h : l.mapM f = .ok bs)
    (hl : l.Perm l') : ∃ bs', l'.mapM f = .ok bs' ∧ bs.Perm bs' := by
  obtain ⟨bs', hbs', hperm⟩ := List.perm_comp_forall₂ hl.symm (forall₂_of_mapM_ok h)
  exact ⟨bs', mapM_ok_of_forall₂ hbs', hperm.symm⟩

theorem map_eq_of_forall₂ {α β γ : Type*} {R : α → β → Prop} {f : α → γ} {g : β → γ} {l : List α} {l' : List β}
    (h : List.Forall₂ R l l') (hR : ∀ a b, R a b → f a = g b) : l.map f = l'.map g := by
  induction h with
  | nil => rfl
  | cons hab _ ih => rw [List.map_cons, List.map_cons, hR _ _ hab, ih]

theorem ok_of_mem_left {α β : Type*} {R : α → β → Prop} {l : List α} {bs : List β}
    (h : List.Forall₂ R l bs) {a : α} (ha : a ∈ l) : ∃ b ∈ bs, R a b := by
  induction h with
  | nil => simp at ha
  | cons hb _ ih =>
    rcases List.mem_cons.mp ha with rfl | ha
    · exact ⟨_, by simp, hb⟩
    · obtain ⟨b, hm, hb⟩ := ih ha
      exact ⟨b, by simp [hm], hb⟩

theorem ok_of_mem_right {α β : Type*} {R : α → β → Prop} {l : List α} {bs : List β}
    (h : List.Forall₂ R l bs) {b : β} (hb : b ∈ bs) : ∃ a ∈ l, R a b := by
  induction h with
  | nil => simp at hb
  | cons ha _ ih =>
    rcases List.mem_cons.mp hb with rfl | hb
    · exact ⟨_, by simp, ha⟩
    · obtain ⟨a, hm, ha⟩ := ih hb
      exact ⟨a, by simp [hm], ha⟩

/-- Of lists made one for each member, the part of the joined list that only one member can have. -/
theorem filter_flatten_of_forall₂ {α β γ κ : Type*} {R : α → β → Prop} {key : α → κ} {g : β → List γ}
    {P : γ → Bool} {k : κ} {l : List α} {bs : List β} (h : List.Forall₂ R l bs) (hnd : (l.map key).Nodup)
    (hother : ∀ a b, R a b → key a ≠ k → (g b).filter P = []) {a : α} (ha : a ∈ l) (hk : key a = k) :
    ∃ b, R a b ∧ ((bs.map g).flatten).filter P = (g b).filter P := by
  have hnone : ∀ {l : List α} {bs : List β}, List.Forall₂ R l bs → k ∉ l.map key →
      ((bs.map g).flatten).filter P = [] := fun {l bs} h hk => by
    induction h with
    | nil => rfl
    | @cons a b l bs hab _ ih =>
      rw [List.map_cons, List.mem_cons, not_or] at hk
      rw [List.map_cons, List.flatten_cons, List.filter_append, hother a b hab (Ne.symm hk.1), ih hk.2]
      rfl
  induction h with
  | nil => simp at ha
  | @cons a' b l bs hab htail ih =>
    obtain ⟨hhead, hnd⟩ := List.nodup_cons.mp hnd
    rw [List.map_cons, List.flatten_cons, List.filter_append]
    rcases List.mem_cons.mp ha with rfl | ha
    · exact ⟨b, hab, by rw [hnone htail (hk ▸ hhead), List.append_nil]⟩
    · obtain ⟨b', hb', heq⟩ := ih hnd ha
      have hne : key a' ≠ k := fun he => hhead (he.trans hk.symm ▸ List.mem_map_of_mem ha)
      exact ⟨b', hb', by rw [hother a' b hab hne, heq, List.nil_append]⟩

theorem exists_mapM_ok_iff {ε α β : Type} {f : α → Except ε β} {l : List α} :
    (∃ bs, l.mapM f = .ok bs) ↔ ∀ a ∈ l, ∃ b, f a = .ok b := by
  refine ⟨fun ⟨bs, h⟩ a ha => ?_, fun h => ?_⟩
  · obtain ⟨b, -, hb⟩ := ok_of_mem_left (forall₂_of_mapM_ok h) ha
    exact ⟨b, hb⟩
  · induction l with
    | nil => exact ⟨[], rfl⟩
    | cons a l ih =>
      obtain ⟨b, hb⟩ := h a (by simp)
      obtain ⟨bs, hbs⟩ := ih fun c hc => h c (by simp [hc])
      exact ⟨b :: bs, by rw [List.mapM_cons, hb, hbs]; rfl⟩

theorem mem_of_mapM_some {α β : Type} {f : α → Option β} {l : List α} {bs : List β} (h : l.mapM f = some bs) :
    (∀ a ∈ l, ∃ b ∈ bs, f a = some b) ∧ ∀ b ∈ bs, ∃ a ∈ l, f a = some b := by
  induction l generalizing bs with
  | nil =>
    cases h
    exact ⟨fun _ ha => absurd ha List.not_mem_nil, fun _ hb => absurd hb List.not_mem_nil⟩
  | cons a l ih =>
    rw [List.mapM_cons] at h
    obtain ⟨b, hb, h⟩ := Option.bind_eq_some_iff.mp h
    obtain ⟨bs', hbs, h⟩ := Option.bind_eq_some_iff.mp h
    cases h
    obtain ⟨ih1, ih2⟩ := ih hbs
    constructor
    · intro x hx
      rcases List.mem_cons.mp hx with rfl | hx
      · exact ⟨b, List.mem_cons_self, hb⟩
      · obtain ⟨y, hy, hxy⟩ := ih1 x hx
        exact ⟨y, List.mem_cons_of_mem _ hy, hxy⟩
    · intro y hy
      rcases List.mem_cons.mp hy with rfl | hy
      · exact ⟨a, List.mem_cons_self, hb⟩
      · obtain ⟨x, hx, hxy⟩ := ih2 y hy
        exact ⟨x, List.mem_cons_of_mem _ hx, hxy⟩

theorem map_eq_of_mapM_some {α β κ : Type} {f : α → Option β} {g : β → κ} {g' : α → κ} {l : List α} {bs : List β}
    (h : l.mapM f = some bs) (hg : ∀ a b, f a = some b → g b = g' a) : bs.map g = l.map g' := by
  induction l generalizing bs with
  | nil =>
    cases h
    rfl
  | cons a l ih =>
    rw [List.mapM_cons] at h
    obtain ⟨b, hb, h⟩ := Option.bind_eq_some_iff.mp h
    obtain ⟨bs', hbs, h⟩ := Option.bind_eq_some_iff.mp h
    cases h
    rw [List.map_cons, List.map_cons, hg a b hb, ih hbs]

end Except
