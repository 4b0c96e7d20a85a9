import BlockAssembler.Proofs.Builder.Levels
import BlockAssembler.Proofs.Draft.Effects
import BlockAssembler.Proofs.Draft.Steps

/-! The depth with which the scan comes to the end of a draft. An item changes it in its own way whatever has been
emitted before: the jumps that a marker adds leave the stack alone, the test of a branch takes the value of its
condition, and a handler starts with the exception. -/

namespace BlockAssembler

mutual

/-- The depth behind an item. -/
def Item.after : Item → Int → Int
  | .op opcode, z => z + opcode.stackEffect
  | .beginTry, z | .endTry, z | .beginElse, z | .endIf, z => z
  | .beginCatch _, _ => 1
  | .beginIf condition _, z | .elseIf condition _, z => Item.afterAll condition z - 1

/-- The depth behind items. -/
def Item.afterAll : List Item → Int → Int
  | [], z => z
  | item :: items, z => Item.afterAll items (item.after z)

end

@[simp] theorem Item.afterAll_append (items items' : List Item) (z : Int) :
    afterAll (items ++ items') z = afterAll items' (afterAll items z) := by
  induction items generalizing z with
  | nil => rw [List.nil_append, afterAll]
  | cons item items ih => rw [List.cons_append, afterAll, afterAll, ih]

namespace Draft

variable {d d' : Draft} {chain range : Nat}

/-- The depth in front of the next instruction, as far as is known. -/
def level (d : Draft) : Int := if d.entering then 1 else remains 0 d.lines

theorem level_append (op : Opcode) : (d.append op).level = d.level + op.stackEffect := by
  have hlevel : (d.append op).level = remains 0 (d.lines ++ [⟨op, d.entering⟩]) := rfl
  rw [hlevel, remains_append, remains_cons, remains_nil, Line.leaves, Line.reset, level]

theorem level_of_eq (hlines : d'.lines = d.lines) (hentering : d'.entering = d.entering) : d'.level = d.level := by
  rw [level, level, hlines, hentering]

theorem level_jumpOut : d.jumpOut.level = d.level := by
  unfold jumpOut
  split
  · exact (level_append _).trans (Int.add_zero _)
  · rfl

theorem level_endBranch (d : Draft) (chain : Nat) : (d.endBranch chain).level = d.level := by
  have hentering : (d.endBranch chain).entering = d.jumpOut.entering := by
    simp [Draft.endBranch, await, modifyChain, Anchor.isHandlerStart]
  have hlevel : (d.endBranch chain).level = d.jumpOut.level := level_of_eq rfl hentering
  rw [hlevel, level_jumpOut]

theorem level_beginHandler (range : Nat) (catches : Option String) : (d.beginHandler range catches).level = 1 := by
  rw [level, if_pos]
  simp [beginHandler, await, Anchor.isHandlerStart]

theorem level_endChain (chain : Nat) : (d.endChain chain).level = d.level :=
  level_of_eq (lines_endChain chain) (entering_endChain chain)

mutual

theorem level_emit (item : Item) (d d' : Draft) (h : emit item d = .ok d') : d'.level = item.after d.level := by
  match item with
  | .op opcode =>
    obtain rfl := emit_op_eq_ok h
    rw [level_append, Item.after]
  | .beginTry =>
    obtain rfl := emit_beginTry_eq_ok h
    rw [Item.after]
    exact level_of_eq rfl (by simp [beginRange, await, Anchor.isHandlerStart])
  | .beginCatch catches =>
    obtain ⟨range, outer, hopened, rfl⟩ := emit_beginCatch_eq_ok h
    rw [level_beginHandler, Item.after]
  | .endTry =>
    obtain ⟨range, outer, hopened, hhandlers, rfl⟩ := emit_endTry_eq_ok h
    rw [Item.after]
    exact level_of_eq rfl (by simp [popOpen, await, Anchor.isHandlerStart])
  | .beginIf condition test =>
    obtain ⟨d₁, hcondition, rfl⟩ := emit_beginIf_eq_ok h
    rw [Item.after, ← level_emitAll condition d d₁ hcondition]
    exact level_append (d := d₁) (.branch test 0)
  | .elseIf condition test =>
    obtain ⟨chain, outer, outer', d₁, hopened, helse, hcondition, hopened', rfl⟩ := emit_elseIf_eq_ok h
    rw [Item.after, ← level_endBranch d chain, ← level_emitAll condition _ d₁ hcondition]
    exact level_append (d := d₁) (.branch test 0)
  | .beginElse =>
    obtain ⟨chain, outer, hopened, helse, rfl⟩ := emit_beginElse_eq_ok h
    rw [Item.after]
    exact level_endBranch d chain
  | .endIf =>
    obtain ⟨chain, outer, hopened, rfl⟩ := emit_endIf_eq_ok h
    rw [Item.after]
    exact level_endChain (d := d.popOpen) chain

theorem level_emitAll (items : List Item) (d d' : Draft) (h : emitAll items d = .ok d') :
    d'.level = Item.afterAll items d.level := by
  match items with
  | [] =>
    obtain rfl := emitAll_nil_eq_ok h
    rw [Item.afterAll]
  | item :: items =>
    obtain ⟨d₁, hitem, hitems⟩ := emitAll_cons_eq_ok h
    rw [level_emitAll items d₁ d' hitems, level_emit item d d₁ hitem, Item.afterAll]

end

/-- Where the depth is zero no handler waits for the next instruction. -/
theorem remains_of_level (h : d.level = 0) : remains 0 d.lines = 0 := by
  rw [level] at h
  split at h
  · cases h
  · exact h

end Draft

end BlockAssembler
