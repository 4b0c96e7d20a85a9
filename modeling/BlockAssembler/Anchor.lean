/-! Handles and anchors. A handle names an instruction from the moment it is added
and never changes or returns; an anchor names the field of a control structure
record that waits for, or holds, the handle of an instruction. -/

namespace BlockAssembler

/-- The name of an instruction: instructions are numbered as they are added. -/
abbrev Handle := Nat

/-- A field of a guarded range or of a conditional chain that points at an instruction. -/
inductive Anchor
  /-- the first guarded instruction of a range -/
  | tryStart (range : Nat)
  /-- the instruction after the last handler of a range -/
  | tryEnd (range : Nat)
  /-- the first instruction of a handler of a range -/
  | handlerStart (range handler : Nat)
  /-- where the test of a branch lands when it fails -/
  | branchNext (chain branch : Nat)
  /-- the instruction after a chain -/
  | ifEnd (chain : Nat)
  deriving DecidableEq, Repr

namespace Anchor

def text : Anchor → String
  | tryStart range => s!"TryStart({range})"
  | tryEnd range => s!"TryEnd({range})"
  | handlerStart range handler => s!"HandlerStart({range}, {handler})"
  | branchNext chain branch => s!"BranchNext({chain}, {branch})"
  | ifEnd chain => s!"IfEnd({chain})"

def isHandlerStart : Anchor → Bool
  | handlerStart .. => true
  | _ => false

end Anchor

end BlockAssembler
