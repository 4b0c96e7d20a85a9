import BlockAssembler.Opcode.Text
import BlockAssembler.Opcode.Encoding

/-! Code objects: instructions at their byte offsets, the exception table, and the
limits of stack and locals. A code object is written byte by byte into a class,
and line by line for a reader. -/

namespace BlockAssembler

/-- An instruction at the offset of its first byte. -/
structure PlacedOpcode where
  offset : Nat
  opcode : Opcode
  deriving DecidableEq

/-- A throw at an offset from `start` on and below `stop` goes to `handler`, if it is
of the class that is caught; `none` catches everything. -/
structure ExceptionEntry where
  start : Nat
  stop : Nat
  handler : Nat
  catches : Option String
  deriving DecidableEq

/-- The offset, then the instruction. -/
def PlacedOpcode.text (p : PlacedOpcode) : String := s!"{p.offset}: {p.opcode.text}"

/-- The guarded offsets, where they lead, and what is caught. -/
def ExceptionEntry.text (e : ExceptionEntry) : String :=
  s!"{e.start}..{e.stop} -> {e.handler} " ++ e.catches.getD "any"

structure Code where
  maxStack : Nat
  maxLocals : Nat
  instructions : Array PlacedOpcode
  exceptions : Array ExceptionEntry
  deriving DecidableEq

namespace Code

/-- The number of bytes: where the last instruction ends. -/
def length (c : Code) : Nat :=
  match c.instructions.back? with
  | some last => last.offset + last.opcode.size
  | none => 0

/-! ### Finding an instruction by its offset -/

/-- Bisects the indices from `base` on, `size` of them: if the offsets never decrease, the
greatest index whose offset is at most `offset`, if there is one. An equal offset
counts as at most, so of several equal ones the last is found. -/
def bisect (instructions : Array PlacedOpcode) (offset base size : Nat) : Nat :=
  if _more : 1 < size then
    let half := size / 2
    let middle := base + half
    let base := if instructions[middle]?.any (offset < ·.offset) then base else middle
    bisect instructions offset base (size - half)
  else base
  termination_by size
  decreasing_by exact Nat.sub_lt (Nat.lt_of_succ_lt _more) (Nat.div_pos _more (by decide))

/-- The index of the instruction that starts at an offset. -/
def position? (c : Code) (offset : Nat) : Option Nat :=
  let index := bisect c.instructions offset 0 c.instructions.size
  if c.instructions[index]?.any (·.offset = offset) then some index else none

/-! ### Bytes -/

def encodeInto : List PlacedOpcode → Array UInt8 → Interning (Array UInt8)
  | [], out => return out
  | placed :: rest, out => do
    let bytes ← placed.opcode.encode
    encodeInto rest (out ++ bytes)

/-- The bytes of all instructions; their symbolic operands go into the pool. -/
def encode (c : Code) : Interning (Array UInt8) := encodeInto c.instructions.toList #[]

/-! ### Text -/

def indented (depth : Nat) (line : String) : String :=
  String.ofList (List.replicate (4 * depth) ' ') ++ line ++ "\n"

/-- A heading and one line for each element; nothing at all if there are none. -/
def paragraph (heading : String) (lines : List String) : String :=
  if lines.isEmpty then ""
  else lines.foldl (fun out line => out ++ indented 2 line) (indented 1 heading)

def text (c : Code) : String :=
  "Code \x7b\n" ++ indented 1 s!"max_stack: {c.maxStack}" ++ indented 1 s!"max_locals: {c.maxLocals}"
    ++ paragraph "instructions:" (c.instructions.toList.map PlacedOpcode.text)
    ++ paragraph "exceptions:" (c.exceptions.toList.map ExceptionEntry.text) ++ "\x7d"

end Code

end BlockAssembler
