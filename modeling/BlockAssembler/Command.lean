import BlockAssembler.Item

/-! Commands: what a block is written in. A command is an operation and the commands
that push its operands; conditional and guarded operations hold lists of commands
in turn. -/

namespace BlockAssembler

/-- A constant of the source language. -/
inductive Constant
  | null
  | bool (value : Bool)
  | int (value : Int64)
  | str (value : String)
  deriving DecidableEq

mutual

/-- An operation, and the commands that push its operands in order. -/
inductive Command
  | mk (operation : Operation) (arguments : List Command)

inductive Operation
  | pass
  | constant (value : Constant)
  | fetch (name : String)
  | assign (name : String)
  | discard
  | returnTop
  | conditional (clauses : List Clause) (otherwise : Option (List Command))
  | guarded (body : List Command) (handlers : List CatchClause)
  /-- items that are taken over as they are -/
  | raw (items : List Item)

/-- A body that is run if the value of its condition is true. -/
inductive Clause
  | mk (condition body : List Command)

/-- The class that is caught, `none` for all, and the local variable that is given the
exception, `none` to drop it. -/
inductive CatchClause
  | mk (className name : Option String) (body : List Command)

end

end BlockAssembler
