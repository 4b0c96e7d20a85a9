import BlockAssembler.Builder.Basic
import BlockAssembler.Code

/-! Where instructions come to lie, and what follows from it: the exception table and
the distances of the jumps. Sizes do not depend on distances, so one pass fixes
every offset. A handle in a record has to name an instruction of the sequence. An
offset is counted without a bound, and held against the size of its field wherever
it is stored. -/

namespace BlockAssembler

/-- The index of an instruction in the sequence and the offset of its first byte. -/
structure Place where
  index : Nat
  offset : Nat
  deriving DecidableEq, Repr

/-- The places by handle, and the count and total size of what has been placed. -/
structure Layout where
  places : Array Place
  count : Nat
  length : Nat
  deriving DecidableEq, Repr

/-- The greatest value of a sixteen bit field of the format. -/
def Builder.fieldLimit : Nat := 65535

/-- The offset of an instruction, as a field of the format holds it. -/
def Place.coordinate (p : Place) (op : Opcode) : Except AssemblyError Nat := do
  ensure (p.offset ≤ Builder.fieldLimit) (.offsetOverflow p.index op.mnemonic p.offset)
  return p.offset

namespace Layout

def blank (handles : Nat) : Layout := ⟨Array.replicate handles ⟨0, 0⟩, 0, 0⟩

/-- Puts an instruction behind all others. -/
def put (l : Layout) (h : Handle) (size : Nat) : Layout :=
  ⟨l.places.set! h ⟨l.count, l.length⟩, l.count + 1, l.length + size⟩

def place (l : Layout) (h : Handle) : Place := l.places[h]?.getD ⟨0, 0⟩

end Layout

namespace Builder

def layout (b : Builder) : Layout :=
  b.code.foldl (fun l h => l.put h ((b.opcode? h).map Opcode.size |>.getD 0)) (.blank b.arena.size)

/-- The place of the instruction that a record field names. -/
def placeOf (b : Builder) (l : Layout) : Option Handle → Except AssemblyError Place
  | none => .error (.internal .unresolved)
  | some h =>
    match b.arena[h]? with
    | none => .error (.internal (.unknownInstruction h))
    | some s =>
      if s.alive then .ok (l.place h) else .error (.internal (.removedInstruction h))

/-- The offset of the instruction that a record field names, for a field of the format. -/
def coordinate (b : Builder) (l : Layout) (field : Option Handle) : Except AssemblyError Nat := do
  let p ← b.placeOf l field
  match field.bind b.opcode? with
  | some op => p.coordinate op
  | none => throw (.internal .unresolved)

/-! ### The exception table -/

/-- The first guarded instruction and the jump behind the last one. -/
def guarded (b : Builder) (l : Layout) (r : GuardedRange) : Except AssemblyError (Place × Place) := do
  let start ← b.placeOf l r.start
  let stop ← b.placeOf l r.skip
  return (start, stop)

/-- The entry of a handler; the range is read anew for each. -/
def entry (b : Builder) (l : Layout) (r : GuardedRange) (k : Handler) : Except AssemblyError ExceptionEntry := do
  let start ← b.coordinate l r.start
  let stop ← b.coordinate l r.skip
  let handler ← b.coordinate l k.start
  return ⟨start, stop, handler, k.catches⟩

/-- One entry for each handler; none if no instruction is guarded. -/
def entries (b : Builder) (l : Layout) (r : GuardedRange) :
    Except AssemblyError (List ExceptionEntry) := do
  let (start, stop) ← b.guarded l r
  if start.offset < stop.offset then
    r.handlers.toList.mapM (b.entry l r)
  else return []

/-- The entries of all ranges in the order in which they were begun. -/
def exceptionTable (b : Builder) (l : Layout) : Except AssemblyError (List ExceptionEntry) := do
  return (← b.ranges.toList.mapM (b.entries l)).flatten

/-- The events about ranges that guard nothing, up to the first range that cannot be
entered in the table. -/
def emptyRanges (b : Builder) (l : Layout) : List GuardedRange → List Event
  | [] => []
  | r :: rs =>
    match b.guarded l r, b.entries l r with
    | .ok (start, stop), .ok _ =>
      if start.offset < stop.offset then b.emptyRanges l rs
      else .emptyRange start.offset :: b.emptyRanges l rs
    | _, _ => []

/-! ### Distances -/

/-- The jumps that the records lay down: first of all ranges, then of all chains. -/
def links (b : Builder) : List Link :=
  b.ranges.toList.flatMap GuardedRange.links ++ b.chains.toList.flatMap Chain.links

/-- The jump of a link and its distance. -/
def distance (b : Builder) (l : Layout) (link : Link) : Except AssemblyError (Handle × Int) := do
  let target ← b.placeOf l link.target
  let source ← b.placeOf l link.jump
  let d : Int := target.offset - source.offset
  match link.jump, link.jump.bind b.opcode? with
  | some h, some op =>
    ensure (Opcode.fitsJump d) (.offsetOverflow source.index op.mnemonic d)
    ensure op.isJump (.internal (.notAJump h))
    return (h, d)
  | _, _ => throw (.internal .unresolved)

/-- Gives the jumps of the links their distances; `ops` holds the instructions by handle. -/
def space (b : Builder) (l : Layout) : List Link → Array Opcode → Except AssemblyError (Array Opcode)
  | [], ops => return ops
  | link :: links, ops => do
    let (h, d) ← b.distance l link
    b.space l links (ops.modify h (Opcode.withDistance d))

/-- The instructions of the arena by handle, every jump with its distance. -/
def spaced (b : Builder) (l : Layout) : Except AssemblyError (Array Opcode) :=
  b.space l b.links (b.arena.map Cell.opcode)

end Builder

end BlockAssembler
