import BlockAssembler.Builder.Sequence

/-! How a body ends. Every body ends in a return. Where nothing is to be returned, a
final `null` that is returned turns into a plain return, and a method body that
does nothing else is left out. -/

namespace BlockAssembler.Builder

/-- Adds a return, unless the sequence ends in one and nothing waits for what follows. -/
def ensureReturn : Assembly Unit := do
  let b ← get
  if !b.last?.any Opcode.isReturn || !b.pending.isEmpty then
    let _ ← append .voidReturn

/-- Whether the sequence only returns, or only returns `null`. -/
def isTrivial (b : Builder) : Bool :=
  match b.opcodes.toList with
  | [.voidReturn] => true
  | [.aconstNull, .areturn] => true
  | _ => false

def returnsNull (b : Builder) : Bool :=
  match b.tail 2 with
  | [.aconstNull, .areturn] => true
  | _ => false

/-- Turns a final return of `null` into a plain return. -/
def dropNull : Assembly Unit := do
  if (← get).returnsNull then
    let _ ← replaceTail 2 .voidReturn

/-- Adjusts the end of a body to the kind of its block; false if the block is left out. -/
def adjust : BlockKind → Assembly Bool
  | .function => return true
  | .module => do
    dropNull
    return true
  | .method => do
    if (← get).isTrivial then
      note .emptyBlock
      return false
    else
      dropNull
      return true

end BlockAssembler.Builder
