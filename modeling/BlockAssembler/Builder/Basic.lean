import BlockAssembler.Builder.Record
import BlockAssembler.Event

/-! The builder of an instruction sequence. Instructions keep their handles for good;
what is taken out of the sequence stays in the arena. The builder also keeps the
records of the control structures, the structures that are open, and the anchors
that wait for the next instruction. Every instruction lists the anchors whose
fields point at it, so that the fields can follow when it is replaced. -/

namespace BlockAssembler

/-- An instruction of the arena. -/
structure Cell where
  opcode : Opcode
  /-- the anchors of the fields that point here -/
  references : Array Anchor
  /-- whether the instruction is part of the sequence -/
  alive : Bool
  deriving DecidableEq

/-- Whether a handler starts at the instruction. -/
def Cell.isHandlerEntry (c : Cell) : Bool := c.references.any Anchor.isHandlerStart

structure Builder where
  arena : Array Cell
  /-- the sequence -/
  code : Array Handle
  ranges : Array GuardedRange
  chains : Array Chain
  /-- the open structures, the innermost first -/
  opened : List Open
  /-- the anchors that wait for the next instruction, in the order they asked -/
  pending : Array Anchor
  journal : Journal

/-- A computation on a builder; the builder outlives an error. -/
abbrev Assembly := EStateM AssemblyError Builder

namespace Builder

def empty : Builder := ⟨#[], #[], #[], #[], [], #[], #[]⟩

/-! ### Views -/

def opcode? (b : Builder) (h : Handle) : Option Opcode := b.arena[h]?.map Cell.opcode

def isAlive (b : Builder) (h : Handle) : Bool := b.arena[h]?.any Cell.alive

def references (b : Builder) (h : Handle) : Array Anchor :=
  (b.arena[h]?.map Cell.references).getD #[]

/-- The cells of the sequence in order. -/
def cells (b : Builder) : Array Cell := b.code.filterMap (b.arena[·]?)

/-- The instructions of the sequence in order. -/
def opcodes (b : Builder) : Array Opcode := b.cells.map Cell.opcode

def last? (b : Builder) : Option Opcode := b.code.back?.bind b.opcode?

/-- The last `n` instructions of the sequence. -/
def tail (b : Builder) (n : Nat) : List Opcode :=
  (b.code.extract (b.code.size - n) b.code.size).toList.filterMap b.opcode?

/-- Whether control can reach the next instruction: something waits for it, or the
last instruction goes on to it. -/
def fallsThrough (b : Builder) : Bool :=
  !b.pending.isEmpty ||
    match b.last? with
    | some op => !op.isTerminal
    | none => true

/-- What the field of an anchor holds, if there is such a field. -/
def field? (b : Builder) : Anchor → Option (Option Handle)
  | .tryStart range => b.ranges[range]?.map GuardedRange.start
  | .tryEnd range => b.ranges[range]?.map GuardedRange.join
  | .handlerStart range handler =>
    (b.ranges[range]?.bind (·.handlers[handler]?)).map Handler.start
  | .branchNext chain branch =>
    (b.chains[chain]?.bind (·.branches[branch]?)).map ChainBranch.next
  | .ifEnd chain => b.chains[chain]?.map Chain.join

/-! ### Updates -/

def modifyRange (b : Builder) (range : Nat) (f : GuardedRange → GuardedRange) : Builder :=
  { b with ranges := b.ranges.modify range f }

def modifyChain (b : Builder) (chain : Nat) (f : Chain → Chain) : Builder :=
  { b with chains := b.chains.modify chain f }

def modifyCell (b : Builder) (h : Handle) (f : Cell → Cell) : Builder :=
  { b with arena := b.arena.modify h f }

/-- Points the field of an anchor at an instruction. -/
def setField (b : Builder) (h : Handle) : Anchor → Builder
  | .tryStart range => b.modifyRange range fun r => { r with start := some h }
  | .tryEnd range => b.modifyRange range fun r => { r with join := some h }
  | .handlerStart range handler =>
    b.modifyRange range fun r =>
      { r with handlers := r.handlers.modify handler fun k => { k with start := some h } }
  | .branchNext chain branch =>
    b.modifyChain chain fun c =>
      { c with branches := c.branches.modify branch fun br => { br with next := some h } }
  | .ifEnd chain => b.modifyChain chain fun c => { c with join := some h }

def addReference (b : Builder) (h : Handle) (a : Anchor) : Builder :=
  b.modifyCell h fun s => { s with references := s.references.push a }

def clearReferences (b : Builder) (h : Handle) : Builder :=
  b.modifyCell h fun s => { s with references := #[] }

/-- Takes the anchors that wait out of the queue. -/
def takePending (b : Builder) : List Anchor × Builder :=
  (b.pending.toList, { b with pending := #[] })

end Builder

end BlockAssembler
