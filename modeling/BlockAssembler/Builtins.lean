/-! The names that the runtime is expected to provide as builtins. They have no part
in the code that is emitted: a name that is not local is always looked up among
the globals first and among the builtins second. -/

namespace BlockAssembler

structure Builtins where
  names : List String
  deriving DecidableEq

namespace Builtins

def standard : Builtins where
  names := ["abs", "all", "any", "bool", "dict", "float", "int", "isinstance", "len", "list", "max",
    "min", "object", "print", "range", "repr", "set", "str", "sum", "tuple", "type", "Exception"]

def contains (b : Builtins) (name : String) : Bool := b.names.contains name

def register (b : Builtins) (name : String) : Builtins := ⟨name :: b.names⟩

theorem contains_register (b : Builtins) (name other : String) :
    (b.register name).contains other = (other == name || b.contains other) :=
  List.contains_cons

end Builtins

end BlockAssembler
