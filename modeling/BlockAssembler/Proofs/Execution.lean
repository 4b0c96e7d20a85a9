import BlockAssembler.Code

/-! Runs of a code object in which nothing throws. A run starts at an offset, goes on to
the next instruction or follows the distance of a jump, and ends at the first return or
throw. Which conditional jumps are passed is given in advance, in the order in which the
run meets them. -/

namespace BlockAssembler

/-- The instruction that starts at an offset. -/
def Code.at? (c : Code) (pc : Int) : Option Opcode :=
  (c.instructions.find? fun p => decide ((p.offset : Int) = pc)).map PlacedOpcode.opcode

namespace Opcode

/-- Whether a run ends at the instruction. -/
def isEnd : Opcode → Bool
  | voidReturn | areturn | athrow => true
  | _ => false

/-- Where a run goes on after the instruction at `pc`; `passed` says whether a conditional
jump is passed without being taken. -/
def successor (pc : Int) (passed : Bool) (op : Opcode) : Option Int :=
  match op with
  | voidReturn | areturn | athrow => none
  | goto d => some (pc + d)
  | branch _ d => some (if passed then pc + op.size else pc + d)
  | _ => some (pc + op.size)

/-- The number of outcomes that the instruction asks for. -/
def tests : Opcode → Nat
  | branch .. => 1
  | _ => 0

theorem successor_of_isEnd {op : Opcode} (h : op.isEnd = true) (pc : Int) (passed : Bool) :
    op.successor pc passed = none := by
  cases op <;> first | rfl | simp [isEnd] at h

theorem successor_of_plain {op : Opcode} (hjump : op.isJump = false) (hend : op.isEnd = false) (pc : Int)
    (passed : Bool) : op.successor pc passed = some (pc + op.size) := by
  cases op <;> first | rfl | simp_all [isEnd, isJump, distance?]

/-- A run goes on to the next instruction or follows the distance of a jump. -/
theorem eq_or_eq_of_successor {op : Opcode} {pc pc' : Int} {passed : Bool}
    (h : op.successor pc passed = some pc') :
    pc' = pc + op.size ∨ ∃ d, op.distance? = some d ∧ pc' = pc + d := by
  cases op with
  | voidReturn | areturn | athrow => cases h
  | goto d => exact .inr ⟨d, rfl, (Option.some.inj h).symm⟩
  | branch test d =>
    cases passed with
    | true => exact .inl (Option.some.inj h).symm
    | false => exact .inr ⟨d, rfl, (Option.some.inj h).symm⟩
  | _ => exact .inl (Option.some.inj h).symm

end Opcode

/-- The instructions that a run from `pc` executes, when `k` conditional jumps have come
before. -/
inductive Code.Run (c : Code) (passes : Nat → Bool) : Int → Nat → List Opcode → Prop
  | last {pc : Int} {k : Nat} {op : Opcode} (hop : c.at? pc = some op)
      (hend : op.successor pc (passes k) = none) : Run c passes pc k [op]
  | step {pc pc' : Int} {k : Nat} {op : Opcode} {ops : List Opcode} (hop : c.at? pc = some op)
      (hnext : op.successor pc (passes k) = some pc') (hrun : Run c passes pc' (k + op.tests) ops) :
      Run c passes pc k (op :: ops)

/-- There is at most one run. -/
theorem Code.Run.unique {c : Code} {passes : Nat → Bool} {pc : Int} {k : Nat} {ops ops' : List Opcode}
    (h : c.Run passes pc k ops) (h' : c.Run passes pc k ops') : ops = ops' := by
  induction h generalizing ops' with
  | last hop hend =>
    cases h' with
    | last hop' hend' => rw [Option.some.inj (hop.symm.trans hop')]
    | step hop' hnext' =>
      rw [Option.some.inj (hop.symm.trans hop')] at hend
      rw [hend] at hnext'
      cases hnext'
  | step hop hnext hrun ih =>
    cases h' with
    | last hop' hend' =>
      rw [Option.some.inj (hop.symm.trans hop')] at hnext
      rw [hnext] at hend'
      cases hend'
    | step hop' hnext' hrun' =>
      obtain rfl := Option.some.inj (hop.symm.trans hop')
      obtain rfl := Option.some.inj (hnext.symm.trans hnext')
      rw [ih hrun']

/-- What remains of a run without its gotos and without the distances of its jumps. -/
def visible (ops : List Opcode) : List Opcode :=
  (ops.filter fun op => !op matches .goto _).map (Opcode.withDistance 0)

theorem visible_append (ops ops' : List Opcode) :
    visible (ops ++ ops') = visible ops ++ visible ops' := by
  simp [visible]

theorem visible_of_plain {op : Opcode} (hjump : op.isJump = false) : visible [op] = [op] := by
  cases op <;> first | rfl | cases hjump

end BlockAssembler
