import BlockAssembler.BlockKind
import BlockAssembler.Opcode.Text

/-! What the assembler notes while it works. An event is what happened; its level
and its wording are functions of it. -/

namespace BlockAssembler

inductive Level
  | trace
  | debug
  | warn
  deriving DecidableEq, Repr

def Level.name : Level → String
  | trace => "TRACE"
  | debug => "DEBUG"
  | warn => "WARN"

inductive Event
  | appended (handle : Handle) (opcode : Opcode)
  | resolved (anchor : Anchor) (target : Handle)
  | redirected (anchor : Anchor) (removed replacement : Handle)
  | nonLocalName (name : String) (builtin : Bool)
  | emptyRange (offset : Nat)
  | emptyBlock
  | assembled (instructions length entries maxStack maxLocals : Nat)
  | compiled (kind : BlockKind) (module : String) (commands length : Nat)
  deriving DecidableEq

namespace Event

def level : Event → Level
  | appended .. | resolved .. | redirected .. | nonLocalName .. => .trace
  | emptyBlock | assembled .. | compiled .. => .debug
  | emptyRange _ => .warn

def message : Event → String
  | appended handle opcode => s!"append #{handle} {opcode.text}"
  | resolved anchor target => s!"resolve {anchor.text} -> #{target}"
  | redirected anchor removed replacement =>
    s!"redirect {anchor.text}: #{removed} -> #{replacement}"
  | nonLocalName name builtin => s!"non-local name {Text.quote name} (builtin: {builtin})"
  | emptyRange offset => s!"empty guarded range at offset {offset}"
  | emptyBlock => "empty block ignored"
  | assembled instructions length entries maxStack maxLocals =>
    s!"assembled {instructions} instructions ({length} bytes), {entries} exception entries, "
      ++ s!"max stack {maxStack}, max locals {maxLocals}"
  | compiled kind module commands length =>
    s!"{kind.name} block of {module} transpiled: {commands} commands, {length} bytes"

end Event

/-- The events so far, the oldest first. -/
abbrev Journal := Array Event

end BlockAssembler
