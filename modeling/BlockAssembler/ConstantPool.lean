import BlockAssembler.Member
import Std.Data.HashMap

/-! The constant pool of a class. A symbol is a constant as an instruction names it;
an entry is a constant as the pool stores it, with the indices of earlier entries
in place of its parts. Interning a symbol interns its parts first, gives the index
of an equal entry if there is one, and otherwise adds an entry at the next free
slot. A pool that is full refuses the entry and keeps the parts it has already
taken. -/

namespace BlockAssembler

/-- A constant by its meaning. -/
inductive Symbol
  | utf8 (text : String)
  | integer (value : Int32)
  | long (value : Int64)
  | string (text : String)
  | className (name : String)
  | nameAndType (name descriptor : String)
  | field (owner name descriptor : String)
  | method (owner name descriptor : String)
  | interfaceMethod (owner name descriptor : String)
  deriving DecidableEq

/-- A constant as it is stored; an index names an earlier entry. -/
inductive Entry
  | utf8 (text : String)
  | integer (value : Int32)
  | long (value : Int64)
  | string (utf8 : Nat)
  | className (utf8 : Nat)
  | nameAndType (name descriptor : Nat)
  | field (owner nameAndType : Nat)
  | method (owner nameAndType : Nat)
  | interfaceMethod (owner nameAndType : Nat)
  deriving DecidableEq, Hashable

/-- A long takes two slots of the pool. -/
def Entry.slots : Entry → Nat
  | long _ => 2
  | _ => 1

/-- The entries in the order of interning with their indices, the index of each
entry, and the next free slot. -/
structure ConstantPool where
  entries : Array (Nat × Entry)
  indices : Std.HashMap Entry Nat
  next : Nat

/-- A computation on a pool; the pool outlives an error. -/
abbrev Interning := EStateM AssemblyError ConstantPool

namespace ConstantPool

/-- Slots are numbered from one. -/
def empty : ConstantPool := ⟨#[], ∅, 1⟩

/-- The number of slots in use. -/
def size (p : ConstantPool) : Nat := p.next - 1

/-- The slot count of a class file is sixteen bits wide and counts the unused slot zero. -/
def slotLimit : Nat := 65535

def add (e : Entry) : Interning Nat := fun p =>
  match p.indices[e]? with
  | some i => .ok i p
  | none =>
    if p.next + e.slots ≤ slotLimit then
      .ok p.next ⟨p.entries.push (p.next, e), p.indices.insert e p.next, p.next + e.slots⟩
    else .error .poolOverflow p

def internUtf8 (text : String) : Interning Nat := add (.utf8 text)

def internClass (name : String) : Interning Nat := do
  add (.className (← internUtf8 name))

def internNameAndType (name descriptor : String) : Interning Nat := do
  let name ← internUtf8 name
  let descriptor ← internUtf8 descriptor
  add (.nameAndType name descriptor)

/-- The class of a member comes first, then its name and its descriptor. -/
def internMember (kind : Nat → Nat → Entry) (owner name descriptor : String) : Interning Nat := do
  let owner ← internClass owner
  let nameAndType ← internNameAndType name descriptor
  add (kind owner nameAndType)

/-- The index of a symbol, which is added if it is new. -/
def intern : Symbol → Interning Nat
  | .utf8 text => internUtf8 text
  | .integer value => add (.integer value)
  | .long value => add (.long value)
  | .string text => do add (.string (← internUtf8 text))
  | .className name => internClass name
  | .nameAndType name descriptor => internNameAndType name descriptor
  | .field owner name descriptor => internMember .field owner name descriptor
  | .method owner name descriptor => internMember .method owner name descriptor
  | .interfaceMethod owner name descriptor => internMember .interfaceMethod owner name descriptor

/-- Pools print their size only. -/
def text (p : ConstantPool) : String := s!"ConstantPool \x7b len: {p.size}, .. \x7d"

end ConstantPool

end BlockAssembler
