import BlockAssembler.Block.Tail
import BlockAssembler.Builder.Assembly
import BlockAssembler.Builder.ControlFlow
import BlockAssembler.Lowering

/-! Blocks: the commands of one lexical unit, and their way to a code object. Commands
are lowered one at a time, each after the items of those before it have been
added, so the first error in this order is the one that is reported. -/

namespace BlockAssembler

structure Block where
  kind : BlockKind
  module : Module
  commands : Array Command
  scope : Scope

/-- What a block is turned into. -/
inductive Compiled
  | code (code : Code)
  /-- the block does nothing and is to be left out -/
  | ignored
  deriving DecidableEq

namespace Block

def new (kind : BlockKind) (module : Module) : Block := ⟨kind, module, #[], ⟨.empty, #[]⟩⟩

/-- A block whose first local variables are its arguments, in order. -/
def withArguments (kind : BlockKind) (module : Module) (names : List String) :
    Except AssemblyError Block :=
  match Locals.allocateAll names .empty with
  | .ok _ locals => .ok ⟨kind, module, #[], ⟨locals, #[]⟩⟩
  | .error e _ => .error e

def extend (b : Block) (commands : List Command) : Block :=
  { b with commands := b.commands ++ commands }

/-- Lowers a command and adds its items; returns the names bound by then. -/
def addCommand (m : Module) (command : Command) (locals : Locals) : Assembly Locals :=
  match Lowering.lower m command #[] ⟨locals, #[]⟩ with
  | .ok items scope => do
    Builder.noteAll scope.journal.toList
    Builder.emitAll items.toList
    return scope.locals
  | .error e scope => do
    Builder.noteAll scope.journal.toList
    throw e

def addAll (m : Module) : List Command → Locals → Assembly Locals
  | [], locals => return locals
  | command :: commands, locals => do
    let locals ← addCommand m command locals
    addAll m commands locals

/-- The steps from the commands to the code object. -/
def assembly (b : Block) : Assembly Compiled := do
  let locals ← addAll b.module b.commands.toList b.scope.locals
  Builder.ensureReturn
  if ← Builder.adjust b.kind then
    let code ← Builder.assemble locals.size
    Builder.note (.compiled b.kind b.module.descriptor b.commands.size code.length)
    return .code code
  else return .ignored

/-- What a block is turned into, and all that was noted on the way. -/
def compile (b : Block) : Except AssemblyError Compiled × Journal :=
  match b.assembly { Builder.empty with journal := b.scope.journal } with
  | .ok result builder => (.ok result, builder.journal)
  | .error e builder => (.error e, builder.journal)

end Block

end BlockAssembler
