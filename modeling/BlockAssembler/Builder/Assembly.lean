import BlockAssembler.Builder.Sequence
import BlockAssembler.Builder.Depth
import BlockAssembler.Builder.Layout

/-! From a builder to a code object. The checks come in a fixed order: structures still
open, anchors that still wait, the depth of the stack, the number of locals, the
length of the code, the exception table, the distance of each jump, and last the
offset of each instruction. -/

namespace BlockAssembler.Builder

/-- Nothing may wait for an instruction that never comes. -/
def checkPending (b : Builder) : Except AssemblyError Unit :=
  match b.pending[0]? with
  | none => return
  | some a => throw (.internal (.missingTarget a))

/-- The length of the code is held against its last instruction. -/
def checkLength (b : Builder) : Except AssemblyError Unit :=
  let length := b.layout.length
  match b.last? with
  | none => return
  | some last => ensure (length ≤ fieldLimit) (.offsetOverflow (b.code.size - 1) last.mnemonic length)

/-- The checks that need no record. -/
def checkLimits (b : Builder) (maxLocals : Nat) : Except AssemblyError Unit := do
  ensure b.opened.isEmpty (.malformedStructure .unterminated)
  b.checkPending
  ensure (b.stackDepth ≤ fieldLimit) (.stackOverflow b.stackDepth)
  ensure (maxLocals ≤ fieldLimit) (.localsOverflow maxLocals)
  b.checkLength

/-- The exception table, and the instructions by handle with the distances of the jumps. -/
def patched (b : Builder) (l : Layout) : Except AssemblyError (List ExceptionEntry × Array Opcode) := do
  let exceptions ← b.exceptionTable l
  let ops ← b.spaced l
  return (exceptions, ops)

/-- The instructions in their order, each with its place; `ops` holds them by handle. -/
def sequence (b : Builder) (l : Layout) (ops : Array Opcode) : List (Place × Opcode) :=
  b.code.toList.filterMap fun h => ops[h]?.map fun op => (l.place h, op)

/-- The code object that the exception table and the instructions give. -/
def finished (b : Builder) (l : Layout) (maxLocals : Nat) (exceptions : List ExceptionEntry) (ops : Array Opcode) :
    Except AssemblyError Code := do
  let instructions ← (b.sequence l ops).mapM fun (p, op) => return ⟨← p.coordinate op, op⟩
  return {
    maxStack := b.stackDepth
    maxLocals := maxLocals
    instructions := instructions.toArray
    exceptions := exceptions.toArray }

/-- Ends the assembly of the sequence. -/
def assemble (maxLocals : Nat) : Assembly Code := do
  let b ← get
  MonadExcept.ofExcept (b.checkLimits maxLocals)
  let l := b.layout
  noteAll (b.emptyRanges l b.ranges.toList)
  let (exceptions, ops) ← MonadExcept.ofExcept (b.patched l)
  note (.assembled b.code.size l.length exceptions.length b.stackDepth maxLocals)
  MonadExcept.ofExcept (b.finished l maxLocals exceptions ops)

end BlockAssembler.Builder
