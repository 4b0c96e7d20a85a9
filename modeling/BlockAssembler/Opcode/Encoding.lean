import BlockAssembler.Opcode
import BlockAssembler.ConstantPool

/-! The bytes of an instruction. Symbolic operands are interned and written as
two-byte indices; every wider number is written with its high byte first. A call
of an interface method also writes how many slots its arguments and the receiver
take, which has to fit one byte; this is checked after the method is interned. -/

namespace BlockAssembler

/-- Two bytes, the high one first. -/
def wide (n : Nat) : List UInt8 := [UInt8.ofNat (n / 256), UInt8.ofNat n]

/-- The low byte of the two's complement of a number. -/
def signedByte (v : Int) : UInt8 := UInt8.ofNat (v % 256).toNat

/-- The low two bytes of the two's complement of a number. -/
def signedWide (v : Int) : List UInt8 := wide (v % 65536).toNat

/-- The constant of a member, of the kind that the instruction asks for. -/
def MemberRef.symbol (kind : String → String → String → Symbol) (m : MemberRef) : Symbol :=
  kind m.owner m.name m.descriptor

/-- The kind of constant that a call asks for. -/
def Dispatch.kind : Dispatch → String → String → String → Symbol
  | interface => .interfaceMethod
  | _ => .method

def FieldRef.symbol (f : FieldRef) : Symbol := MemberRef.symbol .field f

def MethodRef.symbol (dispatch : Dispatch) (m : MethodRef) : Symbol := MemberRef.symbol dispatch.kind m

def Loadable.symbol : Loadable → Symbol
  | int value => .integer value
  | long value => .long value
  | string value => .string value

def Dispatch.code : Dispatch → UInt8
  | virtual => 0xb6
  | special => 0xb7
  | static => 0xb8
  | interface => 0xb9

def Test.code : Test → UInt8
  | ifeq => 0x99
  | ifne => 0x9a
  | ifnull => 0xc6
  | ifnonnull => 0xc7

namespace Opcode

/-- An operation byte and the index of its operand. -/
def encodeIndexed (code : UInt8) (operand : Symbol) : Interning (List UInt8) := do
  let index ← ConstantPool.intern operand
  return code :: wide index

def encodeSlot (code implied : UInt8) (slot : UInt16) : List UInt8 :=
  match slotForm slot with
  | .implied => [implied + UInt8.ofNat slot.toNat]
  | .byte => [code, UInt8.ofNat slot.toNat]
  | .wide => 0xc4 :: code :: wide slot.toNat

/-- A distance has to fit two bytes; the assembler gives no other. -/
def encodeJump (code : UInt8) (distance : Int) : Interning (List UInt8) := do
  ensure (fitsJump distance) (.internal (.unpatchedDistance distance))
  return code :: signedWide distance

def encodeInterfaceCall (member : MemberRef) : Interning (List UInt8) := do
  let called ← encodeIndexed Dispatch.interface.code (member.symbol Dispatch.interface.kind)
  let count := member.argSlots + 1
  ensure (count ≤ 255) (.malformedDescriptor member.descriptor)
  return called ++ [UInt8.ofNat count, 0]

def encode : Opcode → Interning (List UInt8)
  | aconstNull => return [0x01]
  | iconst value =>
    match intForm value with
    | .implied => return [signedByte (3 + value.toInt)]
    | .byte => return [0x10, signedByte value.toInt]
    | .short => return 0x11 :: signedWide value.toInt
    | .pooled => encodeIndexed 0x13 (.integer value)
  | ldc (.long value) => encodeIndexed 0x14 (.long value)
  | ldc value => encodeIndexed 0x13 value.symbol
  | aload slot => return encodeSlot 0x19 0x2a slot
  | astore slot => return encodeSlot 0x3a 0x4b slot
  | dup => return [0x59]
  | pop => return [0x57]
  | swap => return [0x5f]
  | new className => encodeIndexed 0xbb (.className className)
  | checkcast className => encodeIndexed 0xc0 (.className className)
  | getstatic member => encodeIndexed 0xb2 (member.symbol .field)
  | putstatic member => encodeIndexed 0xb3 (member.symbol .field)
  | invoke .interface member => encodeInterfaceCall member
  | invoke dispatch member => encodeIndexed dispatch.code (member.symbol dispatch.kind)
  | branch test distance => encodeJump test.code distance
  | goto distance => encodeJump 0xa7 distance
  | voidReturn => return [0xb1]
  | areturn => return [0xb0]
  | athrow => return [0xbf]

end Opcode

end BlockAssembler
