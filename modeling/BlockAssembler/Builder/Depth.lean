import BlockAssembler.Builder.Basic

/-! The depth of the operand stack, in one scan of the sequence. A throw clears the
stack and pushes what was thrown, so the scan starts again from one wherever a
handler starts. -/

namespace BlockAssembler

/-- The depth in front of the next instruction, and the greatest depth so far. -/
structure Depth where
  current : Int
  greatest : Int
  deriving DecidableEq, Repr

namespace Depth

def start : Depth := ⟨0, 0⟩

/-- A handler finds exactly the thrown value on the stack. -/
def enterHandler (d : Depth) : Depth := ⟨1, max d.greatest 1⟩

def apply (d : Depth) (op : Opcode) : Depth :=
  let current := d.current + op.stackEffect
  ⟨current, max d.greatest current⟩

def step (d : Depth) (c : Cell) : Depth :=
  (if c.isHandlerEntry then d.enterHandler else d).apply c.opcode

end Depth

/-- The greatest depth that the scan meets. -/
def Builder.stackDepth (b : Builder) : Nat := (b.cells.foldl Depth.step Depth.start).greatest.toNat

end BlockAssembler
