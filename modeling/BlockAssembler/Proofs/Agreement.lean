import BlockAssembler.Proofs.Run

/-! Two computations that end alike. Started in states that agree in what matters, they both end
well, with values and states that agree in turn, or they both fail; which error it is and what state
it leaves are not compared. Computations that are put together from such pairs are such a pair. -/

namespace BlockAssembler

section
variable {σ α β γ δ : Type} {R : σ → σ → Prop} {V : α → β → Prop} {W : γ → δ → Prop}

inductive EndAlike (R : σ → σ → Prop) (V : α → β → Prop) :
    EStateM.Result AssemblyError σ α → EStateM.Result AssemblyError σ β → Prop
  | ok {a : α} {b : β} {s t : σ} (hvalue : V a b) (hstate : R s t) : EndAlike R V (.ok a s) (.ok b t)
  | error (e e' : AssemblyError) (s t : σ) : EndAlike R V (.error e s) (.error e' t)

/-- From states that agree by `R` both computations end well, with values that agree by `V`, or both
fail. -/
def Agree (R : σ → σ → Prop) (V : α → β → Prop) (x : EStateM AssemblyError σ α) (y : EStateM AssemblyError σ β) :
    Prop :=
  ∀ s t, R s t → EndAlike R V (x.run s) (y.run t)

namespace Agree

variable {x : EStateM AssemblyError σ α} {y : EStateM AssemblyError σ β} {f : α → EStateM AssemblyError σ γ}
  {g : β → EStateM AssemblyError σ δ}

theorem pure {a : α} {b : β} (h : V a b) : Agree R V (Pure.pure a) (Pure.pure b) := fun _ _ hst => .ok h hst

theorem throw (e e' : AssemblyError) :
    Agree R V (MonadExcept.throw e : EStateM AssemblyError σ α) (MonadExcept.throw e' : EStateM AssemblyError σ β) :=
  fun s t _ => .error e e' s t

theorem throw_bind (e e' : AssemblyError) (f : α → EStateM AssemblyError σ γ) :
    Agree R W (MonadExcept.throw e >>= f) (MonadExcept.throw e' : EStateM AssemblyError σ δ) :=
  fun s t _ => .error e e' s t

theorem bind_throw (x : EStateM AssemblyError σ α) (e e' : AssemblyError) :
    Agree R W (x >>= fun _ => MonadExcept.throw e) (MonadExcept.throw e' : EStateM AssemblyError σ δ) := by
  intro s t _
  cases hrun : x.run s with
  | ok a s' =>
    rw [bind_ok hrun]
    exact .error e e' s' t
  | error e'' s' =>
    rw [bind_error hrun]
    exact .error e'' e' s' t

theorem bind (hx : Agree R V x y) (hf : ∀ a b, V a b → Agree R W (f a) (g b)) : Agree R W (x >>= f) (y >>= g) := by
  intro s t hst
  have h := hx s t hst
  generalize hrun : x.run s = r at h
  generalize hrun' : y.run t = r' at h
  cases h with
  | ok hvalue hstate =>
    rw [bind_ok hrun, bind_ok hrun']
    exact hf _ _ hvalue _ _ hstate
  | error e e' s' t' =>
    rw [bind_error hrun, bind_error hrun']
    exact .error e e' s' t'

theorem ofExcept (r : Except AssemblyError α) :
    Agree R Eq (MonadExcept.ofExcept r : EStateM AssemblyError σ α) (MonadExcept.ofExcept r) := by
  cases r with
  | ok a => exact pure rfl
  | error e => exact throw e e

theorem ensure (p : Prop) [Decidable p] (e : AssemblyError) :
    Agree R Eq (ensure p e : EStateM AssemblyError σ Unit) (ensure p e) := by
  unfold BlockAssembler.ensure
  split
  · exact pure rfl
  · exact throw e e

theorem modify {φ ψ : σ → σ} (h : ∀ s t, R s t → R (φ s) (ψ t)) :
    Agree R Eq (modify φ : EStateM AssemblyError σ PUnit) (modify ψ) :=
  fun s t hst => .ok rfl (h s t hst)

theorem symm {x y : EStateM AssemblyError σ α} (hR : ∀ s t, R s t → R t s) (h : Agree R Eq x y) : Agree R Eq y x := by
  intro s t hst
  have h' := h t s (hR s t hst)
  generalize x.run t = r at h'
  generalize y.run s = r' at h'
  cases h' with
  | ok hvalue hstate => exact .ok hvalue.symm (hR _ _ hstate)
  | error e e' s' t' => exact .error e' e t' s'

theorem trans {x y z : EStateM AssemblyError σ α} (hrefl : ∀ s, R s s) (hR : ∀ s t u, R s t → R t u → R s u)
    (h : Agree R Eq x y) (h' : Agree R Eq y z) : Agree R Eq x z := by
  intro s t hst
  have hxy := h s t hst
  have hyz := h' t t (hrefl t)
  generalize x.run s = r at hxy
  generalize y.run t = r' at hxy hyz
  generalize z.run t = r'' at hyz
  cases hxy with
  | ok hvalue hstate =>
    cases hyz with
    | ok hvalue' hstate' => exact .ok (hvalue.trans hvalue') (hR _ _ _ hstate hstate')
  | error e e' s' t' =>
    cases hyz with
    | error _ e'' _ t'' => exact .error e e'' s' t''

end Agree

end

end BlockAssembler
