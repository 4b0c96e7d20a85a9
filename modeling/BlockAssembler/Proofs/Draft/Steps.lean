import BlockAssembler.Proofs.Draft.Records
import BlockAssembler.Proofs.Run
import Mathlib.Logic.Relation

/-! What a stream can do to a draft, said once. Every item comes down to a few steps,
each with the guard it has passed; what every step keeps, every stream keeps. -/

namespace BlockAssembler.Draft

inductive Step : Draft → Draft → Prop
  | append (d : Draft) (op : Opcode) : Step d (d.append op)
  | beginRange (d : Draft) : Step d (d.beginRange.await (.tryStart d.records.ranges.length))
  | beginHandler {d : Draft} {range : Nat} {outer : List Open} (catches : Option String)
      (hopened : d.opened = .range range :: outer) :
      Step d ((d.endGuarded range).beginHandler range catches)
  | endRange {d : Draft} {range : Nat} {outer : List Open}
      (hopened : d.opened = .range range :: outer) (hhandlers : d.records.handlerCount range ≠ 0) :
      Step d (d.popOpen.await (.tryEnd range))
  | beginChain (d : Draft) (test : Test) : Step d ((d.append (.branch test 0)).beginChain d.size)
  | endBranch {d : Draft} {chain : Nat} {outer : List Open}
      (hopened : d.opened = .chain chain :: outer) (helse : d.records.hasElse chain = false) :
      Step d (d.endBranch chain)
  | addBranch {d : Draft} {chain : Nat} {outer : List Open} (test : Test)
      (hopened : d.opened = .chain chain :: outer) : Step d (d.addBranch chain test)
  | beginElse {d : Draft} {chain : Nat} {outer : List Open}
      (hopened : d.opened = .chain chain :: outer) (helse : d.records.hasElse chain = false) :
      Step d ((d.endBranch chain).modifyChain chain fun c => { c with hasElse := true })
  | endChain {d : Draft} {chain : Nat} {outer : List Open}
      (hopened : d.opened = .chain chain :: outer) : Step d (d.popOpen.endChain chain)

abbrev Reaches : Draft → Draft → Prop := Relation.ReflTransGen Step

/-! ### Guards -/

variable {d d' : Draft}

theorem currentRange_eq_ok {range : Nat} (h : d.currentRange = .ok range) :
    ∃ outer, d.opened = .range range :: outer := by
  unfold currentRange at h
  split at h
  · next r outer hopened =>
    obtain rfl : r = range := by simpa using h
    exact ⟨outer, hopened⟩
  · simp at h

theorem currentChain_eq_ok {chain : Nat} (h : d.currentChain = .ok chain) :
    ∃ outer, d.opened = .chain chain :: outer := by
  unfold currentChain at h
  split at h
  · next c outer hopened =>
    obtain rfl : c = chain := by simpa using h
    exact ⟨outer, hopened⟩
  · simp at h

theorem extendableChain_eq_ok {chain : Nat} (h : d.extendableChain = .ok chain) :
    (∃ outer, d.opened = .chain chain :: outer) ∧ d.records.hasElse chain = false := by
  unfold extendableChain at h
  split at h
  · next c outer hopened =>
    split at h
    · simp at h
    · next helse =>
      obtain rfl : c = chain := by simpa using h
      exact ⟨⟨outer, hopened⟩, by simpa using helse⟩
  · simp at h

/-! ### Items -/

section
variable {condition items : List Item} {test : Test}

theorem emit_op_eq_ok {opcode : Opcode} (h : emit (.op opcode) d = .ok d') : d' = d.append opcode := by
  rw [emit] at h
  exact (Except.ok.inj h).symm

theorem emit_beginTry_eq_ok (h : emit .beginTry d = .ok d') :
    d' = d.beginRange.await (.tryStart d.records.ranges.length) := by
  rw [emit] at h
  exact (Except.ok.inj h).symm

theorem emit_beginCatch_eq_ok {catches : Option String} (h : emit (.beginCatch catches) d = .ok d') :
    ∃ range outer, d.opened = .range range :: outer ∧
      d' = (d.endGuarded range).beginHandler range catches := by
  rw [emit, except_bind_eq_ok] at h
  obtain ⟨range, hrange, h⟩ := h
  obtain ⟨outer, hopened⟩ := currentRange_eq_ok hrange
  exact ⟨range, outer, hopened, (Except.ok.inj h).symm⟩

theorem emit_endTry_eq_ok (h : emit .endTry d = .ok d') :
    ∃ range outer, d.opened = .range range :: outer ∧ d.records.handlerCount range ≠ 0 ∧
      d' = d.popOpen.await (.tryEnd range) := by
  rw [emit, except_bind_eq_ok] at h
  obtain ⟨range, hrange, h⟩ := h
  obtain ⟨outer, hopened⟩ := currentRange_eq_ok hrange
  split at h
  · simp at h
  · next hhandlers => exact ⟨range, outer, hopened, hhandlers, (Except.ok.inj h).symm⟩

theorem emit_beginIf_eq_ok (h : emit (.beginIf condition test) d = .ok d') :
    ∃ d₁, emitAll condition d = .ok d₁ ∧ d' = (d₁.append (.branch test 0)).beginChain d₁.size := by
  rw [emit, except_bind_eq_ok] at h
  obtain ⟨d₁, hcondition, h⟩ := h
  exact ⟨d₁, hcondition, (Except.ok.inj h).symm⟩

/-- The chain of the branch is the innermost structure in front of the condition and behind it. -/
theorem emit_elseIf_eq_ok (h : emit (.elseIf condition test) d = .ok d') :
    ∃ chain outer outer' d₁, d.opened = .chain chain :: outer ∧ d.records.hasElse chain = false ∧
      emitAll condition (d.endBranch chain) = .ok d₁ ∧ d₁.opened = .chain chain :: outer' ∧
      d' = d₁.addBranch chain test := by
  rw [emit, except_bind_eq_ok] at h
  obtain ⟨chain, hchain, h⟩ := h
  obtain ⟨⟨outer, hopened⟩, helse⟩ := extendableChain_eq_ok hchain
  obtain ⟨d₁, hcondition, h⟩ := except_bind_eq_ok.1 h
  obtain ⟨current, hcurrent, h⟩ := except_bind_eq_ok.1 h
  obtain ⟨outer', hopened'⟩ := currentChain_eq_ok hcurrent
  split at h
  · next heq =>
    subst heq
    exact ⟨current, outer, outer', d₁, hopened, helse, hcondition, hopened', (Except.ok.inj h).symm⟩
  · simp at h

theorem emit_beginElse_eq_ok (h : emit .beginElse d = .ok d') :
    ∃ chain outer, d.opened = .chain chain :: outer ∧ d.records.hasElse chain = false ∧
      d' = (d.endBranch chain).modifyChain chain fun c => { c with hasElse := true } := by
  rw [emit, except_bind_eq_ok] at h
  obtain ⟨chain, hchain, h⟩ := h
  obtain ⟨⟨outer, hopened⟩, helse⟩ := extendableChain_eq_ok hchain
  exact ⟨chain, outer, hopened, helse, (Except.ok.inj h).symm⟩

theorem emit_endIf_eq_ok (h : emit .endIf d = .ok d') :
    ∃ chain outer, d.opened = .chain chain :: outer ∧ d' = d.popOpen.endChain chain := by
  rw [emit, except_bind_eq_ok] at h
  obtain ⟨chain, hchain, h⟩ := h
  obtain ⟨outer, hopened⟩ := currentChain_eq_ok hchain
  exact ⟨chain, outer, hopened, (Except.ok.inj h).symm⟩

theorem emitAll_nil_eq_ok (h : emitAll [] d = .ok d') : d' = d := (Except.ok.inj h).symm

theorem emitAll_cons_eq_ok {item : Item} (h : emitAll (item :: items) d = .ok d') :
    ∃ d₁, emit item d = .ok d₁ ∧ emitAll items d₁ = .ok d' := by
  rwa [emitAll, except_bind_eq_ok] at h

end

/-! ### Streams -/

theorem emitAll_append (xs ys : List Item) (d : Draft) :
    emitAll (xs ++ ys) d = emitAll xs d >>= emitAll ys := by
  induction xs generalizing d with
  | nil => rfl
  | cons x xs ih =>
    rw [List.cons_append, emitAll, emitAll, bind_assoc]
    congr 1
    funext d
    exact ih d

mutual

theorem reaches_of_emit (item : Item) (d d' : Draft) (h : emit item d = .ok d') : Reaches d d' := by
  match item with
  | .op opcode =>
    obtain rfl := emit_op_eq_ok h
    exact .single (.append d opcode)
  | .beginTry =>
    obtain rfl := emit_beginTry_eq_ok h
    exact .single (.beginRange d)
  | .beginCatch catches =>
    obtain ⟨range, outer, hopened, rfl⟩ := emit_beginCatch_eq_ok h
    exact .single (.beginHandler catches hopened)
  | .endTry =>
    obtain ⟨range, outer, hopened, hhandlers, rfl⟩ := emit_endTry_eq_ok h
    exact .single (.endRange hopened hhandlers)
  | .beginIf condition test =>
    obtain ⟨d₁, hcondition, rfl⟩ := emit_beginIf_eq_ok h
    exact (reaches_of_emitAll condition d d₁ hcondition).tail (.beginChain d₁ test)
  | .elseIf condition test =>
    obtain ⟨chain, outer, outer', d₁, hopened, helse, hcondition, hopened', rfl⟩ := emit_elseIf_eq_ok h
    exact .head (.endBranch hopened helse)
      ((reaches_of_emitAll condition _ d₁ hcondition).tail (.addBranch test hopened'))
  | .beginElse =>
    obtain ⟨chain, outer, hopened, helse, rfl⟩ := emit_beginElse_eq_ok h
    exact .single (.beginElse hopened helse)
  | .endIf =>
    obtain ⟨chain, outer, hopened, rfl⟩ := emit_endIf_eq_ok h
    exact .single (.endChain hopened)

theorem reaches_of_emitAll (items : List Item) (d d' : Draft) (h : emitAll items d = .ok d') :
    Reaches d d' := by
  match items with
  | [] =>
    obtain rfl := emitAll_nil_eq_ok h
    exact .refl
  | item :: items =>
    obtain ⟨d₁, hitem, hitems⟩ := emitAll_cons_eq_ok h
    exact (reaches_of_emit item d d₁ hitem).trans (reaches_of_emitAll items d₁ d' hitems)

end

/-- What every step keeps, every stream keeps. -/
theorem Reaches.keeps {P : Draft → Prop} (hstep : ∀ {d d' : Draft}, Step d d' → P d → P d')
    (h : Reaches d d') (hd : P d) : P d' := by
  induction h with
  | refl => exact hd
  | tail _ hlast ih => exact hstep hlast ih

end BlockAssembler.Draft
