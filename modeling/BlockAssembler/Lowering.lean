import BlockAssembler.Builtins
import BlockAssembler.Command
import BlockAssembler.Event
import BlockAssembler.Locals
import BlockAssembler.Runtime

/-! From commands to instruction streams. The operands of a command come before the
command itself. A name that is bound so far is a local variable; any other name
is looked up at run time. Names are bound in the order in which the stream is
written, and a name bound before an error stays bound. -/

namespace BlockAssembler

/-- What the blocks of a class have in common. -/
structure Module where
  /-- the class that holds the globals -/
  descriptor : String
  config : Runtime
  builtins : Builtins

/-- The names bound so far, and what has been noted. -/
structure Scope where
  locals : Locals
  journal : Journal

/-- A computation in a scope; the scope outlives an error. -/
abbrev Lowering := EStateM AssemblyError Scope

namespace Lowering

def note (e : Event) : Lowering Unit := modify fun s => { s with journal := s.journal.push e }

/-- The slot of a name, which is bound if it was not. -/
def bindName (name : String) : Lowering UInt16 := fun s =>
  match Locals.allocate name s.locals with
  | .ok slot locals => .ok slot { s with locals := locals }
  | .error e locals => .error e { s with locals := locals }

def assign (name : String) : Lowering (List Item) := do
  return [.op (.astore (← bindName name))]

/-- The lookup of a name among the globals and then, if they do not have it, among the
builtins. -/
def lookup (m : Module) (name : String) : Except AssemblyError (List Item) := do
  let get ← m.config.tableLookup
  let globals ← m.config.globals m.descriptor
  let builtins ← m.config.builtins
  return [
    .op (.getstatic globals),
    .op (.ldc (.string name)),
    .op (.invoke .virtual get),
    .beginIf [.op .dup] .ifnonnull,
    .op .pop,
    .op (.getstatic builtins),
    .op (.ldc (.string name)),
    .op (.invoke .virtual get),
    .endIf]

def fetch (m : Module) (name : String) : Lowering (List Item) := do
  match (← get).locals.slot? name with
  | some slot => return [.op (.aload slot)]
  | none =>
    note (.nonLocalName name (m.builtins.contains name))
    MonadExcept.ofExcept (lookup m name)

def constant (config : Runtime) : Constant → Except AssemblyError (List Item)
  | .null => return [.op .aconstNull]
  | .bool value => return [.op (.getstatic (← config.bool value))]
  | .int value => return [.op (.ldc (.long value)), .op (.invoke .static (← config.intMaker))]
  | .str value => return [
      .op (.new config.strClass),
      .op .dup,
      .op (.ldc (.string value)),
      .op (.invoke .special (← config.strConstructor))]

/-- What a handler does with the exception it finds on the stack. -/
def receive : Option String → Lowering (List Item)
  | some name => assign name
  | none => return [.op .pop]

mutual

/-- Appends the items of a command to `out`. -/
def lower (m : Module) : Command → Array Item → Lowering (Array Item)
  | .mk operation arguments, out => do
    let out ← lowerAll m arguments out
    lowerOperation m operation out

def lowerOperation (m : Module) : Operation → Array Item → Lowering (Array Item)
  | .pass, out => return out
  | .constant value, out => do
    let items ← MonadExcept.ofExcept (constant m.config value)
    return out ++ items
  | .fetch name, out => do
    let items ← fetch m name
    return out ++ items
  | .assign name, out => do
    let items ← assign name
    return out ++ items
  | .discard, out => return out.push (.op .pop)
  | .returnTop, out => return out.push (.op .areturn)
  | .conditional clauses otherwise, out => do
    ensure (!clauses.isEmpty) (.malformedStructure .chainWithoutBranches)
    let truth ← MonadExcept.ofExcept m.config.truth
    let out ← lowerClauses m truth .beginIf clauses out
    match otherwise with
    | none => return out.push .endIf
    | some body =>
      let out ← lowerAll m body (out.push .beginElse)
      return out.push .endIf
  | .guarded body handlers, out => do
    ensure (!handlers.isEmpty) (.malformedStructure .rangeWithoutHandlers)
    let out ← lowerAll m body (out.push .beginTry)
    let out ← lowerHandlers m handlers out
    return out.push .endTry
  | .raw items, out => return out ++ items

/-- The first clause is begun by `opening`, the others by `elseIf`. The truth value of a
condition is zero if the condition fails. -/
def lowerClauses (m : Module) (truth : MethodRef) (opening : List Item → Test → Item) :
    List Clause → Array Item → Lowering (Array Item)
  | [], out => return out
  | .mk condition body :: clauses, out => do
    let condition ← lowerAll m condition #[]
    let condition := condition.push (.op (.invoke .interface truth))
    let out ← lowerAll m body (out.push (opening condition.toList .ifeq))
    lowerClauses m truth .elseIf clauses out

def lowerHandlers (m : Module) : List CatchClause → Array Item → Lowering (Array Item)
  | [], out => return out
  | .mk className name body :: handlers, out => do
    let out := out.push (.beginCatch className)
    let received ← receive name
    let out ← lowerAll m body (out ++ received)
    lowerHandlers m handlers out

def lowerAll (m : Module) : List Command → Array Item → Lowering (Array Item)
  | [], out => return out
  | command :: commands, out => do
    let out ← lower m command out
    lowerAll m commands out

end

end Lowering

end BlockAssembler
