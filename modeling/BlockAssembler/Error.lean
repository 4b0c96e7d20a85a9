import BlockAssembler.Anchor
import BlockAssembler.Text.Quoted

/-! Why a block cannot become a code object. An error is its cause; the wording is
one function. Faults are apart from the other causes: a fault says that the
records of the assembler contradict each other, which no stream of instructions
is meant to bring about. -/

namespace BlockAssembler

/-- How a stream of structure markers can be wrong. -/
inductive Malformation
  | unterminated
  | rangeWithoutHandlers
  | handlerOutsideRange
  | branchOutsideChain
  | branchAfterElse
  | unbalancedCondition
  | chainWithoutBranches
  deriving DecidableEq, Repr

def Malformation.reason : Malformation → String
  | unterminated => "unterminated control structure"
  | rangeWithoutHandlers => "guarded range without handlers"
  | handlerOutsideRange => "handler outside of a guarded range"
  | branchOutsideChain => "branch outside of a conditional chain"
  | branchAfterElse => "branch after the final else"
  | unbalancedCondition => "unbalanced structure inside a branch condition"
  | chainWithoutBranches => "conditional chain without branches"

/-- A contradiction inside the assembler. -/
inductive Fault
  /-- a record field was needed before any instruction was found for it -/
  | unresolved
  /-- a record names an instruction that was never added -/
  | unknownInstruction (handle : Handle)
  /-- a record names an instruction that is no longer part of the sequence -/
  | removedInstruction (handle : Handle)
  /-- an anchor names a field of a record that does not exist -/
  | malformedAnchor (anchor : Anchor)
  /-- more instructions were to be replaced than there are -/
  | tailOutOfBounds (count : Nat)
  /-- an instruction to be removed is still pointed at -/
  | stillReferenced (handle : Handle)
  /-- the sequence ends before the instruction that an anchor waits for -/
  | missingTarget (anchor : Anchor)
  /-- a record gives a distance to an instruction that is not a jump -/
  | notAJump (handle : Handle)
  /-- a jump holds a distance that its encoding cannot hold -/
  | unpatchedDistance (distance : Int)
  deriving DecidableEq, Repr

def Fault.text : Fault → String
  | unresolved => "Unresolved forward reference."
  | unknownInstruction handle => s!"Malformed instruction handle #{handle}."
  | removedInstruction handle => s!"Dangling back-reference to removed instruction #{handle}."
  | malformedAnchor anchor => s!"Malformed anchor {anchor.text}."
  | tailOutOfBounds count => s!"Tail replacement of {count} instructions out of bounds."
  | stillReferenced handle => s!"Removing instruction #{handle} that is still referenced."
  | missingTarget anchor => s!"Forward reference {anchor.text} has no target instruction."
  | notAJump handle => s!"Instruction #{handle} is not a jump."
  | unpatchedDistance distance => s!"Unpatched branch offset {distance}."

inductive AssemblyError
  /-- a distance, the offset of an instruction, or the length of the whole code exceeds the format -/
  | offsetOverflow (instruction : Nat) (mnemonic : String) (value : Int)
  | stackOverflow (depth : Nat)
  | localsOverflow (count : Nat)
  | poolOverflow
  | malformedDescriptor (text : String)
  | malformedStructure (cause : Malformation)
  | internal (fault : Fault)
  deriving DecidableEq, Repr

def AssemblyError.message : AssemblyError → String
  | offsetOverflow instruction mnemonic value =>
    s!"Offset {value} of instruction #{instruction} ({mnemonic}) does not fit into the target format."
  | stackOverflow depth => s!"Operand stack depth {depth} exceeds the target format limit."
  | localsOverflow count => s!"{count} local variables exceed the target format limit."
  | poolOverflow => "Constant pool overflow."
  | malformedDescriptor text => s!"Malformed descriptor {Text.quote text}."
  | malformedStructure cause => s!"Malformed control structure: {cause.reason}."
  | internal fault =>
    fault.text ++ "\n\nThis is an internal assembler error. The code object of the current block "
      ++ "cannot be produced."

/-- Goes on if a condition holds, and fails if it does not. -/
def ensure {m : Type → Type} [Monad m] [MonadExcept AssemblyError m] (condition : Prop)
    [Decidable condition] (e : AssemblyError) : m Unit :=
  if condition then pure () else throw e

end BlockAssembler
