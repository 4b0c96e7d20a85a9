import BlockAssembler.Error

/-! How a computation with a state and errors runs, one equation for each way to go on
from what its first part gives. -/

namespace BlockAssembler

section
variable {σ α β : Type} {s s' : σ}

theorem bind_ok {x : EStateM AssemblyError σ α} {a : α} (h : x.run s = .ok a s')
    (f : α → EStateM AssemblyError σ β) : (x >>= f).run s = (f a).run s' := by
  rw [EStateM.run_bind, h]

theorem bind_error {x : EStateM AssemblyError σ α} {e : AssemblyError} (h : x.run s = .error e s')
    (f : α → EStateM AssemblyError σ β) : (x >>= f).run s = .error e s' := by
  rw [EStateM.run_bind, h]

theorem bind_eq_ok {x : EStateM AssemblyError σ α} {f : α → EStateM AssemblyError σ β} {b : β}
    (h : (x >>= f).run s = .ok b s') : ∃ a s₁, x.run s = .ok a s₁ ∧ (f a).run s₁ = .ok b s' := by
  cases hx : x.run s with
  | ok a s₁ => exact ⟨a, s₁, rfl, by rwa [bind_ok hx] at h⟩
  | error e s₁ => rw [bind_error hx] at h; cases h

/-- What is left when the state is forgotten. -/
theorem run'_eq_some {x : EStateM AssemblyError σ α} {a : α} : x.run' s = some a ↔ ∃ s', x.run s = .ok a s' := by
  unfold EStateM.run'
  cases hx : x.run s with
  | ok a' s' => simp
  | error e s' => simp

theorem map_ok {x : EStateM AssemblyError σ α} {a : α} (h : x.run s = .ok a s') (f : α → β) :
    (f <$> x).run s = .ok (f a) s' := by
  rw [← bind_pure_comp, bind_ok h, EStateM.run_pure]

theorem get_bind (f : σ → EStateM AssemblyError σ β) : (get >>= f).run s = (f s).run s := rfl

theorem modify_bind (f : σ → σ) (g : PUnit → EStateM AssemblyError σ β) :
    ((modify f : EStateM AssemblyError σ PUnit) >>= g).run s = (g ⟨⟩).run (f s) := rfl

theorem ensure_run {p : Prop} [Decidable p] (hp : p) (e : AssemblyError) :
    (ensure p e : EStateM AssemblyError σ Unit).run s = .ok () s := by
  rw [ensure, if_pos hp, EStateM.run_pure]

theorem ensure_run_error {p : Prop} [Decidable p] (hp : ¬ p) (e : AssemblyError) :
    (ensure p e : EStateM AssemblyError σ Unit).run s = .error e s := by
  rw [ensure, if_neg hp, EStateM.run_throw]

theorem ensure_run_eq_ok {p : Prop} [Decidable p] {e : AssemblyError} {u : Unit}
    (h : (ensure p e : EStateM AssemblyError σ Unit).run s = .ok u s') : p ∧ s' = s := by
  by_cases hp : p
  · rw [ensure_run hp] at h
    cases h
    exact ⟨hp, rfl⟩
  · rw [ensure_run_error hp] at h
    cases h

end

theorem except_bind_eq_ok {ε α β : Type} {x : Except ε α} {f : α → Except ε β} {b : β} :
    (x >>= f) = .ok b ↔ ∃ a, x = .ok a ∧ f a = .ok b := by
  rcases x with e | a
  · exact ⟨fun h => (nomatch h), fun ⟨_, h, _⟩ => (nomatch h)⟩
  · exact ⟨fun h => ⟨a, rfl, h⟩, fun ⟨_, h, hf⟩ => by cases h; exact hf⟩

theorem ensure_eq_ok {p : Prop} [Decidable p] {e : AssemblyError} {u : Unit}
    (h : (ensure p e : Except AssemblyError Unit) = .ok u) : p := by
  unfold ensure at h
  split at h
  · next hp => exact hp
  · cases h

/-! ### Errors -/

section
variable {α β : Type} {Q : AssemblyError → Prop}

theorem bind_errors {x : Except AssemblyError α} {g : α → Except AssemblyError β}
    (hx : ∀ e, x = .error e → Q e) (hg : ∀ a e, g a = .error e → Q e) : ∀ e, (x >>= g) = .error e → Q e := by
  cases x with
  | error e' => exact fun e h => hx e (congrArg Except.error (Except.error.inj h))
  | ok a => exact hg a

theorem ensure_errors {p : Prop} [Decidable p] {e' : AssemblyError} (he : Q e') :
    ∀ e, (ensure p e' : Except AssemblyError Unit) = .error e → Q e := by
  intro e h
  unfold ensure at h
  split at h
  · cases h
  · obtain rfl := Except.error.inj h
    exact he

end

end BlockAssembler
