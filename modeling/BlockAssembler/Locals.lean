import BlockAssembler.Error
import Std.Data.HashMap

/-! The local variables of a block. A name gets the next free slot when it is first
bound and keeps it; slots are sixteen bits wide. -/

namespace BlockAssembler

/-- The names in the order of their slots, and the slot of each name. -/
structure Locals where
  names : Array String
  slots : Std.HashMap String UInt16

namespace Locals

def empty : Locals := ⟨#[], ∅⟩

/-- The number of slots in use. -/
def size (l : Locals) : Nat := l.names.size

def slot? (l : Locals) (name : String) : Option UInt16 := l.slots[name]?

/-- The slot of a name, which gets one if it has none. A full table stays as it is. -/
def allocate (name : String) : EStateM AssemblyError Locals UInt16 := fun l =>
  match l.slot? name with
  | some slot => .ok slot l
  | none =>
    if l.size < UInt16.size then
      let slot := UInt16.ofNat l.size
      .ok slot ⟨l.names.push name, l.slots.insert name slot⟩
    else .error (.localsOverflow (l.size + 1)) l

/-- Gives slots to names in order. -/
def allocateAll : List String → EStateM AssemblyError Locals Unit
  | [] => return
  | name :: names => do
    let _ ← allocate name
    allocateAll names

end Locals

end BlockAssembler
