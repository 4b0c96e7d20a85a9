import BlockAssembler.Opcode

/-! Items of an instruction stream: plain instructions, and markers that begin and
end guarded ranges and conditional chains. A marker that begins a branch carries
the stream of its condition. -/

namespace BlockAssembler

inductive Item
  | op (opcode : Opcode)
  /-- the next instruction is the first guarded one -/
  | beginTry
  /-- ends the guarded body or the handler before it, and begins a handler -/
  | beginCatch (className : Option String)
  /-- the next instruction follows the guarded range and its handlers -/
  | endTry
  /-- the condition, a jump that is taken if the test holds, and then the first body -/
  | beginIf (condition : List Item) (test : Test)
  /-- ends the body before it, and begins another conditional branch -/
  | elseIf (condition : List Item) (test : Test)
  /-- ends the body before it, and begins the body for when all tests fail -/
  | beginElse
  /-- the next instruction follows the chain -/
  | endIf

end BlockAssembler
