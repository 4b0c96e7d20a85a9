import BlockAssembler.Opcode

/-! The written form of an instruction: its mnemonic and then its operand. A
distance always shows its sign, a long constant ends in `L`, and a string
constant is quoted. -/

namespace BlockAssembler

def Loadable.text : Loadable → String
  | int value => toString value.toInt
  | long value => toString value.toInt ++ "L"
  | string value => Text.quote value

namespace Opcode

def signed (d : Int) : String := if 0 ≤ d then s!"+{d}" else toString d

def operand? : Opcode → Option String
  | iconst value => some (toString value.toInt)
  | ldc value => some value.text
  | aload slot | astore slot => some (toString slot.toNat)
  | new className | checkcast className => some className
  | getstatic member | putstatic member | invoke _ member => some member.text
  | branch _ distance | goto distance => some (signed distance)
  | aconstNull | dup | pop | swap | voidReturn | areturn | athrow => none

def text (op : Opcode) : String :=
  match op.operand? with
  | none => op.mnemonic
  | some operand => op.mnemonic ++ " " ++ operand

end Opcode

end BlockAssembler
