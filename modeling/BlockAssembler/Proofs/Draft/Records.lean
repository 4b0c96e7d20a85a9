import BlockAssembler.Proofs.Draft

/-! What pointing a field at an instruction does to the records: it changes that field
only. The shape of the records, that is how many handlers and branches they have
and which jumps they list, is never touched. -/

namespace BlockAssembler

theorem modify_append_of_lt {α : Type} {l : List α} {i : Nat} (hi : i < l.length) (f : α → α)
    (l' : List α) : (l ++ l').modify i f = l.modify i f ++ l' := by
  apply List.ext_getElem?
  intro j
  simp only [List.getElem?_modify, List.getElem?_append, List.length_modify]
  split <;> grind

/-- The element behind `l` is reached by the length of `l`. -/
theorem modify_length_append {α : Type} (l : List α) (x : α) (l' : List α) (f : α → α) :
    (l ++ x :: l').modify l.length f = l ++ f x :: l' := by
  induction l with
  | nil => rfl
  | cons y l ih => simp [ih]

theorem mem_array_modify {α : Type} {xs : Array α} {n : Nat} {f : α → α} {x : α}
    (hx : x ∈ xs.modify n f) : x ∈ xs ∨ ∃ y ∈ xs, x = f y := by
  obtain ⟨i, hi, rfl⟩ := Array.mem_iff_getElem.1 hx
  rw [Array.getElem_modify]
  split
  · exact .inr ⟨_, Array.getElem_mem _, rfl⟩
  · exact .inl (Array.getElem_mem _)

/-- A field holds what it held, or is new and empty. -/
def FieldKept (old new : Option (Option Handle)) : Prop := new = old ∨ old = none ∧ new = some none

theorem FieldKept.iff {old new : Option (Option Handle)} (h : FieldKept old new) (x : Handle) :
    new = some (some x) ↔ old = some (some x) := by
  rcases h with rfl | ⟨rfl, rfl⟩
  · exact Iff.rfl
  · simp

theorem FieldKept.isSome {old new : Option (Option Handle)} (h : FieldKept old new) (hold : old.isSome) :
    new.isSome := by
  rcases h with rfl | ⟨rfl, rfl⟩
  · exact hold
  · rfl

namespace Records

variable {r : Records} {h : Handle} {a b : Anchor}

/-! ### Fields -/

theorem field?_set_self (hf : (r.field? a).isSome) : (r.set h a).field? a = some (some h) := by
  cases a with
  | tryStart range | tryEnd range =>
    obtain ⟨g, hg⟩ : ∃ g, r.ranges[range]? = some g := by
      simpa [field?, Option.isSome_iff_exists] using hf
    simp [set, field?, modifyRange, hg]
  | handlerStart range handler =>
    obtain ⟨_, g, hg, k, hk, -⟩ : ∃ t, ∃ g, r.ranges[range]? = some g ∧
        ∃ k, g.handlers[handler]? = some k ∧ k.start = t := by
      simpa [field?, Option.isSome_iff_exists, Option.bind_eq_some_iff] using hf
    simp [set, field?, modifyRange, hg, Array.getElem?_modify, hk]
  | branchNext chain branch =>
    obtain ⟨_, c, hc, br, hbr, -⟩ : ∃ t, ∃ c, r.chains[chain]? = some c ∧
        ∃ br, c.branches[branch]? = some br ∧ br.next = t := by
      simpa [field?, Option.isSome_iff_exists, Option.bind_eq_some_iff] using hf
    simp [set, field?, modifyChain, hc, Array.getElem?_modify, hbr]
  | ifEnd chain =>
    obtain ⟨c, hc⟩ : ∃ c, r.chains[chain]? = some c := by
      simpa [field?, Option.isSome_iff_exists] using hf
    simp [set, field?, modifyChain, hc]

theorem field?_set_of_ne (hne : b ≠ a) : (r.set h a).field? b = r.field? b := by
  cases a <;> cases b <;> simp only [field?, set, modifyRange, modifyChain, List.getElem?_modify]
  all_goals grind

@[simp] theorem isSome_field?_set : ((r.set h a).field? b).isSome = (r.field? b).isSome := by
  cases a <;> cases b <;> simp only [field?, set, modifyRange, modifyChain, List.getElem?_modify]
  all_goals grind

theorem field?_setAll_of_not_mem {as : List Anchor} (hb : b ∉ as) :
    (setAll h as r).field? b = r.field? b := by
  induction as generalizing r with
  | nil => rfl
  | cons a as ih =>
    rw [List.mem_cons, not_or] at hb
    rw [setAll, List.foldl_cons, ← setAll, ih hb.2, field?_set_of_ne hb.1]

/-- An anchor that is pointed at an instruction stays there: all others are pointed at
the same one. -/
theorem field?_setAll_of_mem {as : List Anchor} (hb : b ∈ as) (hf : (r.field? b).isSome) :
    (setAll h as r).field? b = some (some h) := by
  induction as generalizing r with
  | nil => simp at hb
  | cons a as ih =>
    rw [setAll, List.foldl_cons, ← setAll]
    by_cases hmem : b ∈ as
    · exact ih hmem (by rwa [isSome_field?_set])
    · obtain rfl : b = a := by simpa [hmem] using hb
      rw [field?_setAll_of_not_mem hmem, field?_set_self hf]

/-- The fields of a record that is added are empty. -/
theorem field?_addRange (a : Anchor) : FieldKept (r.field? a) (r.addRange.field? a) := by
  cases a with
  | branchNext chain branch | ifEnd chain => exact .inl rfl
  | tryStart range | tryEnd range | handlerStart range handler =>
    simp only [field?, addRange, List.getElem?_append]
    by_cases hlt : range < r.ranges.length
    · simp [FieldKept, hlt]
    · rw [List.getElem?_eq_none (Nat.le_of_not_lt hlt)]
      cases hk : range - r.ranges.length <;> simp [FieldKept, hlt, GuardedRange.fresh]

theorem field?_addChain (test : Handle) (a : Anchor) : FieldKept (r.field? a) ((r.addChain test).field? a) := by
  cases a with
  | tryStart range | tryEnd range | handlerStart range handler => exact .inl rfl
  | ifEnd chain =>
    simp only [field?, addChain, List.getElem?_append]
    by_cases hlt : chain < r.chains.length
    · simp [FieldKept, hlt]
    · rw [List.getElem?_eq_none (Nat.le_of_not_lt hlt)]
      cases hk : chain - r.chains.length <;> simp [FieldKept, hlt, Chain.fresh]
  | branchNext chain branch =>
    simp only [field?, addChain, List.getElem?_append]
    by_cases hlt : chain < r.chains.length
    · simp [FieldKept, hlt]
    · rw [List.getElem?_eq_none (Nat.le_of_not_lt hlt)]
      cases hk : chain - r.chains.length <;> cases branch <;>
        simp [FieldKept, hlt, Chain.fresh, ChainBranch.fresh]

/-! ### Shape -/

@[simp] theorem length_ranges_set : (r.set h a).ranges.length = r.ranges.length := by
  cases a <;> simp [set, modifyRange, modifyChain]

@[simp] theorem length_chains_set : (r.set h a).chains.length = r.chains.length := by
  cases a <;> simp [set, modifyRange, modifyChain]

@[simp] theorem handlerCount_set (range : Nat) :
    (r.set h a).handlerCount range = r.handlerCount range := by
  cases a <;> simp only [set, modifyRange, modifyChain, handlerCount, List.getElem?_modify] <;> grind

@[simp] theorem hasElse_set (chain : Nat) : (r.set h a).hasElse chain = r.hasElse chain := by
  cases a <;> simp only [set, modifyRange, modifyChain, hasElse, List.getElem?_modify] <;> grind

@[simp] theorem lastBranch_set (chain : Nat) : (r.set h a).lastBranch chain = r.lastBranch chain := by
  cases a <;> simp only [set, modifyRange, modifyChain, lastBranch, List.getElem?_modify] <;>
    cases r.chains[chain]? <;> simp <;> split <;> simp [Chain.lastBranch]

theorem hasSkips_modifyNext (c : Chain) (branch : Nat) (target : Option Handle) :
    Chain.hasSkips { c with branches := c.branches.modify branch fun br => { br with next := target } }
      = c.hasSkips := by
  rw [Chain.hasSkips, Chain.hasSkips, Bool.eq_iff_iff, Array.any_eq_true, Array.any_eq_true]
  simp only [Array.size_modify, Array.getElem_modify]
  grind

@[simp] theorem hasSkips_set (chain : Nat) : (r.set h a).hasSkips chain = r.hasSkips chain := by
  cases a <;> simp only [set, modifyRange, modifyChain, hasSkips, List.getElem?_modify] <;>
    cases r.chains[chain]? <;> simp <;> split <;> first | rfl | exact hasSkips_modifyNext ..

/-- What `set` leaves alone, `setAll` leaves alone. -/
theorem setAll_eq {β : Type} (f : Records → β) (hset : ∀ r a, f (r.set h a) = f r)
    (as : List Anchor) (r : Records) : f (setAll h as r) = f r := by
  induction as generalizing r with
  | nil => rfl
  | cons a as ih => rw [setAll, List.foldl_cons, ← setAll, ih, hset]

section SetAll
variable (as : List Anchor)

@[simp] theorem length_ranges_setAll : (setAll h as r).ranges.length = r.ranges.length :=
  setAll_eq (·.ranges.length) (fun _ _ => length_ranges_set) as r

@[simp] theorem length_chains_setAll : (setAll h as r).chains.length = r.chains.length :=
  setAll_eq (·.chains.length) (fun _ _ => length_chains_set) as r

@[simp] theorem handlerCount_setAll (range : Nat) :
    (setAll h as r).handlerCount range = r.handlerCount range :=
  setAll_eq (·.handlerCount range) (fun _ _ => handlerCount_set range) as r

@[simp] theorem hasElse_setAll (chain : Nat) :
    (setAll h as r).hasElse chain = r.hasElse chain :=
  setAll_eq (·.hasElse chain) (fun _ _ => hasElse_set chain) as r

@[simp] theorem lastBranch_setAll (chain : Nat) :
    (setAll h as r).lastBranch chain = r.lastBranch chain :=
  setAll_eq (·.lastBranch chain) (fun _ _ => lastBranch_set chain) as r

@[simp] theorem hasSkips_setAll (chain : Nat) :
    (setAll h as r).hasSkips chain = r.hasSkips chain :=
  setAll_eq (·.hasSkips chain) (fun _ _ => hasSkips_set chain) as r

@[simp] theorem isSome_field?_setAll :
    ((setAll h as r).field? b).isSome = (r.field? b).isSome :=
  setAll_eq (fun r => (r.field? b).isSome) (fun _ _ => isSome_field?_set) as r

end SetAll

/-! ### Exchange -/

theorem set_addRange (hf : (r.field? a).isSome) : r.addRange.set h a = (r.set h a).addRange := by
  cases a with
  | tryStart range | tryEnd range | handlerStart range handler =>
    have hlt : range < r.ranges.length := by
      refine Nat.lt_of_not_le fun hge => ?_
      simp [field?, List.getElem?_eq_none hge] at hf
    simp [set, addRange, modifyRange, modify_append_of_lt hlt]
  | branchNext chain branch | ifEnd chain => rfl

theorem setAll_addRange {as : List Anchor} (hf : ∀ a ∈ as, (r.field? a).isSome) :
    setAll h as r.addRange = (setAll h as r).addRange := by
  induction as generalizing r with
  | nil => rfl
  | cons a as ih =>
    rw [setAll, List.foldl_cons, ← setAll, set_addRange (hf a (by simp)),
      ih fun b hb => by rw [isSome_field?_set]; exact hf b (by simp [hb])]
    rfl

/-- Whether a chain has a final body is no field of an anchor. -/
theorem set_modifyElse (chain : Nat) :
    (r.modifyChain chain fun c => { c with hasElse := true }).set h a
      = (r.set h a).modifyChain chain fun c => { c with hasElse := true } := by
  cases a with
  | tryStart range | tryEnd range | handlerStart range handler => rfl
  | branchNext other branch | ifEnd other =>
    simp only [set, modifyChain, mk.injEq, true_and]
    apply List.ext_getElem?
    intro i
    simp only [List.getElem?_modify]
    grind

theorem setAll_modifyElse (as : List Anchor) (chain : Nat) :
    setAll h as (r.modifyChain chain fun c => { c with hasElse := true })
      = (setAll h as r).modifyChain chain fun c => { c with hasElse := true } := by
  induction as generalizing r with
  | nil => rfl
  | cons a as ih => rw [setAll, List.foldl_cons, ← setAll, set_modifyElse, ih]; rfl

end Records

end BlockAssembler
