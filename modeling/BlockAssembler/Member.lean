import BlockAssembler.Descriptor
import BlockAssembler.Error

/-! References to the fields and methods of classes. A reference holds the type
itself, not its spelling, so the number of slots it moves is known and its
descriptor is well formed; the only way to fail is to read one from text. An
instruction takes a member of either kind, and what it does to the stack follows
from the descriptor. -/

namespace BlockAssembler

structure FieldRef where
  owner : String
  name : String
  type : FieldType
  deriving DecidableEq

namespace FieldRef

def ofText (owner name descriptor : String) : Except AssemblyError FieldRef :=
  match FieldType.ofDescriptor? descriptor with
  | some type => .ok ⟨owner, name, type⟩
  | none => .error (.malformedDescriptor descriptor)

def descriptor (f : FieldRef) : String := f.type.descriptor

def text (f : FieldRef) : String := f.owner ++ "." ++ f.name ++ ":" ++ f.descriptor

end FieldRef

structure MethodRef where
  owner : String
  name : String
  type : MethodType
  deriving DecidableEq

namespace MethodRef

def ofText (owner name descriptor : String) : Except AssemblyError MethodRef :=
  match MethodType.ofDescriptor? descriptor with
  | some type => .ok ⟨owner, name, type⟩
  | none => .error (.malformedDescriptor descriptor)

def descriptor (m : MethodRef) : String := m.type.descriptor

def text (m : MethodRef) : String := m.owner ++ "." ++ m.name ++ ":" ++ m.descriptor

end MethodRef

/-- A member of either kind. -/
inductive MemberRef
  | field (ref : FieldRef)
  | method (ref : MethodRef)
  deriving DecidableEq

instance : Coe FieldRef MemberRef := ⟨.field⟩

instance : Coe MethodRef MemberRef := ⟨.method⟩

namespace MemberRef

def owner : MemberRef → String
  | field f => f.owner
  | method m => m.owner

def name : MemberRef → String
  | field f => f.name
  | method m => m.name

def descriptor : MemberRef → String
  | field f => f.descriptor
  | method m => m.descriptor

def text : MemberRef → String
  | field f => f.text
  | method m => m.text

/-- The slots of the arguments; a field has none. -/
def argSlots : MemberRef → Nat
  | field _ => 0
  | method m => m.type.argSlots

/-- The slots of the result, which for a field is its value. -/
def resultSlots : MemberRef → Nat
  | field f => f.type.slots
  | method m => m.type.resultSlots

end MemberRef

end BlockAssembler
