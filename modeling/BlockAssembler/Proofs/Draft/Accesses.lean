import BlockAssembler.Proofs.Code.Position
import BlockAssembler.Proofs.Draft.Effects
import BlockAssembler.Proofs.Renumbering

/-! The instructions that access local variables. A structure adds jumps only, the end of a body is
adjusted by an instruction that returns, and a distance is none of their operands; so a code object
has the accesses of its stream, in the order of the stream. -/

namespace BlockAssembler

namespace Opcode

/-- The local variable that the instruction loads from or stores to. -/
def local? : Opcode → Option UInt16
  | aload slot | astore slot => some slot
  | _ => none

def isAccess (op : Opcode) : Bool := op.local?.isSome

theorem local?_withDistance (d : Int) (op : Opcode) : (op.withDistance d).local? = op.local? := by
  cases op <;> rfl

end Opcode

/-- The accesses to local variables among instructions. -/
def accesses (ops : List Opcode) : List Opcode := ops.filter Opcode.isAccess

@[simp] theorem accesses_append (ops ops' : List Opcode) : accesses (ops ++ ops') = accesses ops ++ accesses ops' :=
  List.filter_append ..

theorem accesses_map_withDistance (d : Int) (ops : List Opcode) :
    accesses (ops.map (Opcode.withDistance d)) = accesses ops := by
  induction ops with
  | nil => rfl
  | cons op ops ih =>
    rw [List.map_cons, accesses, accesses, List.filter_cons, List.filter_cons, ← accesses, ← accesses, ih,
      Opcode.isAccess, Opcode.local?_withDistance, ← Opcode.isAccess]
    cases op <;> rfl

def Code.accesses (c : Code) : List Opcode := BlockAssembler.accesses c.opcodes

mutual

/-- The accesses of an item, those of its condition included. -/
def Item.accesses : Item → List Opcode
  | .op opcode => BlockAssembler.accesses [opcode]
  | .beginTry | .beginCatch _ | .endTry | .beginElse | .endIf => []
  | .beginIf condition _ | .elseIf condition _ => accessesAll condition

def Item.accessesAll : List Item → List Opcode
  | [] => []
  | item :: items => item.accesses ++ accessesAll items

end

@[simp] theorem Item.accessesAll_append (items items' : List Item) :
    accessesAll (items ++ items') = accessesAll items ++ accessesAll items' := by
  induction items with
  | nil => rfl
  | cons item items ih => rw [List.cons_append, accessesAll, accessesAll, ih, List.append_assoc]

/-! ### Drafts -/

namespace Draft

variable {d d' : Draft} {range chain : Nat}

def accesses (d : Draft) : List Opcode := BlockAssembler.accesses d.opcodes

@[simp] theorem accesses_add (op : Opcode) :
    (d.append op).accesses = d.accesses ++ BlockAssembler.accesses [op] := by
  rw [accesses, opcodes_append, accesses_append, ← accesses]

@[simp] theorem accesses_jumpOut : d.jumpOut.accesses = d.accesses := by
  unfold jumpOut
  split
  · simp [BlockAssembler.accesses, Opcode.isAccess, Opcode.local?]
  · rfl

@[simp] theorem accesses_beginHandler (catches : Option String) :
    (d.beginHandler range catches).accesses = d.accesses := rfl

@[simp] theorem accesses_endGuarded : (d.endGuarded range).accesses = d.accesses := by
  unfold endGuarded
  split
  · show (d.append (.goto 0)).accesses = d.accesses
    simp [BlockAssembler.accesses, Opcode.isAccess, Opcode.local?]
  · exact accesses_jumpOut

@[simp] theorem accesses_endBranch : (d.endBranch chain).accesses = d.accesses := accesses_jumpOut

@[simp] theorem accesses_addBranch (test : Test) : (d.addBranch chain test).accesses = d.accesses := by
  show (d.append (.branch test 0)).accesses = d.accesses
  simp [BlockAssembler.accesses, Opcode.isAccess, Opcode.local?]

@[simp] theorem accesses_endChain : (d.endChain chain).accesses = d.accesses :=
  congrArg BlockAssembler.accesses opcodes_endChain

mutual

theorem accesses_emit (item : Item) (d d' : Draft) (h : emit item d = .ok d') :
    d'.accesses = d.accesses ++ item.accesses := by
  match item with
  | .op opcode =>
    obtain rfl := emit_op_eq_ok h
    rw [accesses_add, Item.accesses]
  | .beginTry =>
    obtain rfl := emit_beginTry_eq_ok h
    exact (List.append_nil _).symm
  | .beginCatch catches =>
    obtain ⟨range, outer, -, rfl⟩ := emit_beginCatch_eq_ok h
    simp [Item.accesses]
  | .endTry =>
    obtain ⟨range, outer, -, -, rfl⟩ := emit_endTry_eq_ok h
    exact (List.append_nil _).symm
  | .beginIf condition test =>
    obtain ⟨d₁, hcondition, rfl⟩ := emit_beginIf_eq_ok h
    rw [Item.accesses, ← accesses_emitAll condition d d₁ hcondition]
    show (d₁.append (.branch test 0)).accesses = d₁.accesses
    simp [BlockAssembler.accesses, Opcode.isAccess, Opcode.local?]
  | .elseIf condition test =>
    obtain ⟨chain, outer, outer', d₁, -, -, hcondition, -, rfl⟩ := emit_elseIf_eq_ok h
    rw [accesses_addBranch, accesses_emitAll condition _ d₁ hcondition, accesses_endBranch, Item.accesses]
  | .beginElse =>
    obtain ⟨chain, outer, -, -, rfl⟩ := emit_beginElse_eq_ok h
    rw [Item.accesses, List.append_nil]
    exact @accesses_endBranch d chain
  | .endIf =>
    obtain ⟨chain, outer, -, rfl⟩ := emit_endIf_eq_ok h
    rw [accesses_endChain, Item.accesses, List.append_nil]
    rfl

theorem accesses_emitAll (items : List Item) (d d' : Draft) (h : emitAll items d = .ok d') :
    d'.accesses = d.accesses ++ Item.accessesAll items := by
  match items with
  | [] =>
    obtain rfl := emitAll_nil_eq_ok h
    rw [Item.accessesAll, List.append_nil]
  | item :: items =>
    obtain ⟨d₁, hitem, hitems⟩ := emitAll_cons_eq_ok h
    rw [accesses_emitAll items d₁ d' hitems, accesses_emit item d d₁ hitem, Item.accessesAll, List.append_assoc]

end

theorem accesses_ensureReturn : d.ensureReturn.accesses = d.accesses := by
  unfold ensureReturn
  split
  · simp [BlockAssembler.accesses, Opcode.isAccess, Opcode.local?]
  · rfl

end Draft

/-! ### Builders -/

namespace Builder

variable {b b' : Builder} {count : Nat} {op : Opcode}

theorem opcodes_eq_filterMap (b : Builder) : b.opcodes.toList = b.code.toList.filterMap b.opcode? := by
  simp only [opcodes, cells, Array.toList_map, Array.toList_filterMap, List.map_filterMap]
  rfl

theorem Replaced.opcodes_eq (h : Replaced count op b b') (hb : b.Intact) :
    b'.opcodes.toList = b.opcodes.toList.take (b.arena.size - count) ++ [op] := by
  have hfront : (List.range (b.arena.size - count)).filterMap b'.opcode? =
      (List.range (b.arena.size - count)).filterMap b.opcode? := by
    refine List.filterMap_congr fun x hx => h.opcode?_of_lt ?_
    rw [List.mem_range] at hx
    omega
  have hsome : ∀ x ∈ List.range b.arena.size, (b.opcode? x).isSome := fun x hx => by
    rw [opcode?, Array.getElem?_eq_getElem (List.mem_range.1 hx)]
    rfl
  have hcut : (List.range b.arena.size).filterMap b.opcode? =
      (List.range (b.arena.size - count)).filterMap b.opcode? ++
        ((List.range b.arena.size).drop (b.arena.size - count)).filterMap b.opcode? := by
    rw [← List.filterMap_append, ← Nat.min_eq_left (Nat.sub_le b.arena.size count), ← List.take_range,
      Nat.min_eq_left (Nat.sub_le ..), List.take_append_drop]
  have hlength : ((List.range (b.arena.size - count)).filterMap b.opcode?).length = b.arena.size - count := by
    rw [length_filterMap_of_isSome, List.length_range]
    exact fun x hx => hsome x (List.mem_range.2 (by rw [List.mem_range] at hx; omega))
  rw [opcodes_eq_filterMap, h.code, List.filterMap_append, hfront, opcodes_eq_filterMap, hb.code_eq,
    Array.toList_range, hcut, List.take_left' hlength]
  simp [h.opcode?_replacement]

/-- The adjustment takes no access away, and adds none. -/
theorem accesses_adjust {kind : BlockKind} (hb : b.Intact) (h : (adjust kind).run b = .ok true b') :
    accesses b'.opcodes.toList = accesses b.opcodes.toList := by
  rcases adjust_cases hb h with ⟨-, rfl⟩ | ⟨-, hnull, hreplaced⟩
  · rfl
  · obtain ⟨front, hops⟩ := hb.arranged.returnsNull_iff.1 hnull
    have hsize : b.arena.size - 2 = front.length := by
      have hlength := hb.arranged.length_opcodes
      rw [← hops, List.length_append, hb.code_eq, Array.size_range] at hlength
      rw [← hlength]
      rfl
    rw [hreplaced.opcodes_eq hb, hsize, ← hops, List.take_left, accesses_append, accesses_append]
    rfl

theorem Placed.accesses_eq {maxLocals : Nat} {c : Code} (hplaced : b.Placed maxLocals c) (hb : b.Arranged) :
    c.accesses = accesses b.opcodes.toList := by
  rw [Code.accesses, ← accesses_map_withDistance 0, hplaced.map_withDistance hb, accesses_map_withDistance]

end Builder

end BlockAssembler
