import HarmonyMigration.Lib.Except

/-! What holds along a fallible fold that succeeds, and errors that a computation does not raise. -/

namespace Except

variable {ε α σ : Type}

theorem foldlM_cons_ok {f : σ → α → Except ε σ} {a : α} {l : List α} {s s' : σ}
    (h : (a :: l).foldlM f s = .ok s') : ∃ t, f s a = .ok t ∧ l.foldlM f t = .ok s' := by
  rw [List.foldlM_cons] at h
  exact of_bind_ok h

theorem foldlM_append_invariant {f : σ → α → Except ε σ} {I : List α → σ → Prop}
    (hstep : ∀ done a s s', I done s → f s a = .ok s' → I (done ++ [a]) s') {done l : List α} {s s' : σ}
    (h0 : I done s) (h : l.foldlM f s = .ok s') : I (done ++ l) s' := by
  induction l generalizing done s with
  | nil =>
    obtain rfl : s = s' := by simpa [pure, Except.pure] using h
    simpa using h0
  | cons a l ih =>
    obtain ⟨t, ht, hrest⟩ := foldlM_cons_ok h
    have hnext := hstep done a s t h0 ht
    simpa using ih hnext hrest

/-- An invariant of what was folded and the state reached, kept by each step, holds of the whole list. -/
theorem foldlM_invariant {f : σ → α → Except ε σ} {I : List α → σ → Prop}
    (hstep : ∀ done a s s', I done s → f s a = .ok s' → I (done ++ [a]) s') {l : List α} {s s' : σ}
    (h0 : I [] s) (h : l.foldlM f s = .ok s') : I l s' :=
  foldlM_append_invariant hstep h0 h

/-! ### Steps in a row -/

section Steps

variable {ε α β γ : Type}

theorem bind_bind (x : Except ε α) (f : α → Except ε β) (g : β → Except ε γ) :
    (x.bind f).bind g = x.bind fun a => (f a).bind g := by
  cases x with
  | error e => rfl
  | ok a => rfl

theorem map_bind (x : Except ε α) (f : α → β) (g : β → Except ε γ) : (x.map f).bind g = x.bind fun a => g (f a) := by
  cases x with
  | error e => rfl
  | ok a => rfl

theorem exists_bind_ok_iff {x : Except ε α} {f : α → Except ε β} :
    (∃ b, x.bind f = .ok b) ↔ ∃ a, x = .ok a ∧ ∃ b, f a = .ok b := by
  refine ⟨fun ⟨b, h⟩ => ?_, fun ⟨a, ha, b, hb⟩ => ⟨b, ?_⟩⟩
  · obtain ⟨a, ha, hb⟩ := of_bind_ok h
    exact ⟨a, ha, b, hb⟩
  · rw [ha]
    exact hb

theorem exists_map_ok_iff {x : Except ε α} {f : α → β} :
    (∃ b, x.map f = .ok b) ↔ ∃ a, x = .ok a := by
  refine ⟨fun ⟨b, h⟩ => ?_, fun ⟨a, ha⟩ => ⟨f a, ?_⟩⟩
  · obtain ⟨a, ha, -⟩ := of_map_ok h
    exact ⟨a, ha⟩
  · rw [ha]
    rfl

end Steps

/-! ### Errors that are not raised -/

section Raises

variable {ε ε' α β : Type} {e : ε}

theorem mapError_ok {x : Except ε α} {f : ε → ε'} {a : α} (h : x.mapError f = .ok a) : x = .ok a := by
  cases x with
  | error e => cases h
  | ok b => exact congrArg Except.ok (Except.ok.inj h)

theorem bind_ne_error {x : Except ε α} {f : α → Except ε β} (hx : x ≠ .error e) (hf : ∀ a, x = .ok a → f a ≠ .error e) :
    x.bind f ≠ .error e := by
  cases x with
  | error e' => exact fun h => hx (congrArg Except.error (Except.error.inj h))
  | ok a => exact hf a rfl

theorem map_ne_error {x : Except ε α} {f : α → β} (hx : x ≠ .error e) : x.map f ≠ .error e := by
  cases x with
  | error e' => exact fun h => hx (congrArg Except.error (Except.error.inj h))
  | ok a => exact fun h => by cases h

theorem require_ne_error {p : Prop} [Decidable p] {e' : ε} (h : e' ≠ e) : require p e' ≠ .error e := by
  unfold require
  split_ifs
  · exact fun h => by cases h
  · exact fun heq => h (Except.error.inj heq)

theorem ok_of_ofOption {o : Option α} {a : α} (h : ofOption o e = .ok a) : o = some a := by
  cases o with
  | none => cases h
  | some b => exact congrArg some (Except.ok.inj h)

theorem ofOption_ne_error {o : Option α} {e' : ε} (h : e' ≠ e) : ofOption o e' ≠ .error e := by
  cases o with
  | none => exact fun heq => h (Except.error.inj heq)
  | some a => exact fun h => by cases h

theorem mapError_ne_error {x : Except ε' α} {f : ε' → ε} (h : ∀ e', f e' ≠ e) : x.mapError f ≠ .error e := by
  cases x with
  | error e' => exact fun heq => h e' (Except.error.inj heq)
  | ok a => exact fun h => by cases h

/-- Where each member succeeds or raises an error in `Q`, so does the list. -/
theorem mapM_total {Q : ε → Prop} {f : α → Except ε β} {l : List α}
    (h : ∀ x ∈ l, (∃ y, f x = .ok y) ∨ ∃ e, f x = .error e ∧ Q e) :
    (∃ ys, l.mapM f = .ok ys) ∨ ∃ e, l.mapM f = .error e ∧ Q e := by
  induction l with
  | nil => exact Or.inl ⟨[], rfl⟩
  | cons x l ih =>
    rw [List.mapM_cons]
    rcases h x List.mem_cons_self with ⟨y, hy⟩ | ⟨e, he, hQ⟩
    · rcases ih fun x hx => h x (List.mem_cons_of_mem _ hx) with ⟨ys, hys⟩ | ⟨e, he, hQ⟩
      · exact Or.inl ⟨y :: ys, by rw [hy, hys]; rfl⟩
      · exact Or.inr ⟨e, by rw [hy, he]; rfl, hQ⟩
    · exact Or.inr ⟨e, by rw [he]; rfl, hQ⟩

end Raises

end Except
