import BlockAssembler.Member

/-! Instructions of the target machine: their operands, their mnemonics, what they
do to the depth of the operand stack, and how many bytes they take. The size of
an instruction never depends on the distance a jump holds, so a sequence can be
laid out before its jumps are known. -/

namespace BlockAssembler

/-- A constant that an instruction pushes. -/
inductive Loadable
  | int (value : Int32)
  | long (value : Int64)
  | string (value : String)
  deriving DecidableEq

/-- The test of a conditional jump: the jump is taken if the test holds. -/
inductive Test
  | ifeq
  | ifne
  | ifnull
  | ifnonnull
  deriving DecidableEq, Repr

def Test.mnemonic : Test → String
  | ifeq => "ifeq"
  | ifne => "ifne"
  | ifnull => "ifnull"
  | ifnonnull => "ifnonnull"

/-- How the receiver and the body of a called method are found. -/
inductive Dispatch
  | virtual
  | special
  | static
  | interface
  deriving DecidableEq, Repr

namespace Dispatch

def mnemonic : Dispatch → String
  | virtual => "invokevirtual"
  | special => "invokespecial"
  | static => "invokestatic"
  | interface => "invokeinterface"

/-- Every call but a static one takes the receiver from the stack. -/
def receiverSlots : Dispatch → Nat
  | static => 0
  | _ => 1

end Dispatch

/-- An instruction. Jumps hold their distance, measured between first bytes. -/
inductive Opcode
  | aconstNull
  | iconst (value : Int32)
  | ldc (value : Loadable)
  | aload (slot : UInt16)
  | astore (slot : UInt16)
  | dup
  | pop
  | swap
  | new (className : String)
  | checkcast (className : String)
  | getstatic (member : MemberRef)
  | putstatic (member : MemberRef)
  | invoke (dispatch : Dispatch) (member : MemberRef)
  | branch (test : Test) (distance : Int)
  | goto (distance : Int)
  | voidReturn
  | areturn
  | athrow
  deriving DecidableEq

namespace Opcode

/-- The shortest of the four ways to write an integer constant. -/
inductive IntForm
  | implied
  | byte
  | short
  | pooled
  deriving DecidableEq, Repr

def intForm (value : Int32) : IntForm :=
  let v := value.toInt
  if -1 ≤ v ∧ v ≤ 5 then .implied
  else if -128 ≤ v ∧ v ≤ 127 then .byte
  else if -32768 ≤ v ∧ v ≤ 32767 then .short
  else .pooled

/-- The three ways to write the slot of a local variable. -/
inductive SlotForm
  | implied
  | byte
  | wide
  deriving DecidableEq, Repr

def slotForm (slot : UInt16) : SlotForm :=
  if slot.toNat ≤ 3 then .implied
  else if slot.toNat ≤ 255 then .byte
  else .wide

def mnemonic : Opcode → String
  | aconstNull => "aconst_null"
  | iconst value =>
    match intForm value with
    | .implied => "iconst"
    | .byte => "bipush"
    | .short => "sipush"
    | .pooled => "ldc_w"
  | ldc (.long _) => "ldc2_w"
  | ldc _ => "ldc_w"
  | aload _ => "aload"
  | astore _ => "astore"
  | dup => "dup"
  | pop => "pop"
  | swap => "swap"
  | new _ => "new"
  | checkcast _ => "checkcast"
  | getstatic _ => "getstatic"
  | putstatic _ => "putstatic"
  | invoke dispatch _ => dispatch.mnemonic
  | branch test _ => test.mnemonic
  | goto _ => "goto"
  | voidReturn => "return"
  | areturn => "areturn"
  | athrow => "athrow"

/-- The change of the depth of the operand stack. -/
def stackEffect : Opcode → Int
  | aconstNull => 1
  | iconst _ => 1
  | ldc (.long _) => 2
  | ldc _ => 1
  | aload _ => 1
  | astore _ => -1
  | dup => 1
  | pop => -1
  | swap => 0
  | new _ => 1
  | checkcast _ => 0
  | getstatic member => member.resultSlots
  | putstatic member => -member.resultSlots
  | invoke dispatch member => member.resultSlots - member.argSlots - dispatch.receiverSlots
  | branch .. => -1
  | goto _ => 0
  | voidReturn => 0
  | areturn => -1
  | athrow => -1

/-- The number of bytes of the encoding. -/
def size : Opcode → Nat
  | iconst value =>
    match intForm value with
    | .implied => 1
    | .byte => 2
    | .short => 3
    | .pooled => 3
  | aload slot | astore slot =>
    match slotForm slot with
    | .implied => 1
    | .byte => 2
    | .wide => 4
  | invoke .interface _ => 5
  | ldc _ | new _ | checkcast _ | getstatic _ | putstatic _ | invoke .. | branch .. | goto _ => 3
  | aconstNull | dup | pop | swap | voidReturn | areturn | athrow => 1

/-- The distance of a jump. -/
def distance? : Opcode → Option Int
  | branch _ distance => some distance
  | goto distance => some distance
  | _ => none

def isJump (op : Opcode) : Bool := op.distance?.isSome

/-- Gives a jump its distance; any other instruction stays as it is. -/
def withDistance (d : Int) : Opcode → Opcode
  | branch test _ => branch test d
  | goto _ => goto d
  | op => op

/-- The instructions that leave the body with or without a value. -/
def isReturn : Opcode → Bool
  | voidReturn | areturn => true
  | _ => false

/-- The instructions after which control never goes on to the next one. -/
def isTerminal : Opcode → Bool
  | voidReturn | areturn | athrow | goto _ => true
  | _ => false

/-- The distances that the format can hold. -/
def fitsJump (d : Int) : Prop := -32768 ≤ d ∧ d ≤ 32767

instance (d : Int) : Decidable (fitsJump d) := inferInstanceAs (Decidable (_ ∧ _))

theorem size_pos (op : Opcode) : 0 < op.size := by
  unfold size
  repeat' split
  all_goals decide

theorem size_withDistance (d : Int) (op : Opcode) : (op.withDistance d).size = op.size := by
  cases op <;> rfl

theorem stackEffect_withDistance (d : Int) (op : Opcode) :
    (op.withDistance d).stackEffect = op.stackEffect := by
  cases op <;> rfl

end Opcode

end BlockAssembler
