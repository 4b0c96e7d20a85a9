/-! The kinds of lexical unit a block can be the body of. -/

namespace BlockAssembler

/-- A method returns nothing and is left out when its body is empty; a module body
returns nothing and is always kept; a function keeps its body as it is. -/
inductive BlockKind
  | method
  | function
  | module
  deriving DecidableEq, Repr

def BlockKind.name : BlockKind → String
  | method => "Method"
  | function => "Function"
  | module => "Module"

end BlockAssembler
