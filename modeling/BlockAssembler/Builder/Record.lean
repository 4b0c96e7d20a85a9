import BlockAssembler.Opcode
import BlockAssembler.Anchor

/-! The records of the control structures. A record names instructions by their
handles; a field that no instruction has been found for yet is empty. The jumps a
record lists are those it will give a distance to, each with the field it has to
land on. -/

namespace BlockAssembler

/-- A handler of a guarded range. -/
structure Handler where
  start : Option Handle
  /-- the class it catches; `none` catches everything -/
  catches : Option String
  /-- the jump that ends the handler, if another handler follows and control can reach it -/
  skip : Option Handle
  deriving DecidableEq

/-- A guarded body and its handlers. -/
structure GuardedRange where
  start : Option Handle
  /-- the instruction after the last handler -/
  join : Option Handle
  /-- the jump over the handlers; the guarded range ends in front of it -/
  skip : Option Handle
  handlers : Array Handler
  deriving DecidableEq

/-- A conditional branch of a chain. -/
structure ChainBranch where
  /-- the conditional jump over the body -/
  test : Handle
  /-- the jump that ends the body, if another branch follows and control can reach it -/
  skip : Option Handle
  /-- where the conditional jump lands -/
  next : Option Handle
  deriving DecidableEq

/-- Conditional branches tried in order, and perhaps a body for when all tests fail. -/
structure Chain where
  branches : Array ChainBranch
  /-- the instruction after the chain -/
  join : Option Handle
  hasElse : Bool
  deriving DecidableEq

/-- A structure that has been begun and not ended, by the number of its record. -/
inductive Open
  | range (index : Nat)
  | chain (index : Nat)
  deriving DecidableEq, Repr

/-- A jump and the instruction it has to land on. -/
structure Link where
  jump : Option Handle
  target : Option Handle
  deriving DecidableEq

namespace GuardedRange

/-- A range that has just been begun. -/
def fresh : GuardedRange := ⟨none, none, none, #[]⟩

/-- The jump over the handlers, then those that end the handlers. -/
def links (r : GuardedRange) : List Link :=
  ⟨r.skip, r.join⟩ :: r.handlers.toList.filterMap fun h =>
    h.skip.map fun jump => ⟨some jump, r.join⟩

end GuardedRange

namespace ChainBranch

/-- A branch whose body has just been begun. -/
def fresh (test : Handle) : ChainBranch := ⟨test, none, none⟩

def links (join : Option Handle) (br : ChainBranch) : List Link :=
  ⟨some br.test, br.next⟩ :: (br.skip.map fun jump => ⟨some jump, join⟩).toList

end ChainBranch

namespace Chain

/-- A chain whose first body has just been begun. -/
def fresh (test : Handle) : Chain := ⟨#[ChainBranch.fresh test], none, false⟩

/-- Branch by branch, the conditional jump and then the jump that ends the body. -/
def links (c : Chain) : List Link := c.branches.toList.flatMap (ChainBranch.links c.join)

/-- The number of the branch begun last. -/
def lastBranch (c : Chain) : Nat := c.branches.size - 1

/-- Whether the body of some branch ends in a jump to the join point. -/
def hasSkips (c : Chain) : Bool := c.branches.any fun br => br.skip.isSome

end Chain

end BlockAssembler
