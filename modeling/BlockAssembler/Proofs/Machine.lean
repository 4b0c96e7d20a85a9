import BlockAssembler.Proofs.Code.Position
import Mathlib.Logic.Function.Basic
import Mathlib.Logic.Relation

/-! The machine that executes a code object, as far as names are concerned: what an instruction does
to the operand stack and the local variables when the tables of names have given contents. A static
field pushes what it holds, and one method looks a name up in what a field holds. Every other
instruction whose effect depends on more than that stops the machine. -/

namespace BlockAssembler

/-- The instructions of `ops` lie one behind the other from an offset on. -/
def Code.Spells (c : Code) : Int → List Opcode → Prop
  | _, [] => True
  | pc, op :: ops => c.at? pc = some op ∧ Spells c (pc + op.size) ops

/-- Instructions that stand one behind the other take the sum of their sizes. -/
theorem offset_add_length {all ops : List Opcode} {n : Nat}
    (hops : ∀ i op, ops[i]? = some op → all[n + i]? = some op) :
    offset all (n + ops.length) = offset all n + (ops.map Opcode.size).sum := by
  induction ops generalizing n with
  | nil => rfl
  | cons op ops ih =>
    have hop : all[n]? = some op := hops 0 op rfl
    have hrest := ih (n := n + 1) fun i op' hi => by
      rw [Nat.add_right_comm]
      exact hops (i + 1) op' hi
    rw [offset_succ, hop, Option.map_some, Option.getD_some] at hrest
    rw [List.length_cons, List.map_cons, List.sum_cons, Nat.add_comm ops.length 1, ← Nat.add_assoc, hrest, Nat.add_assoc]

namespace Code.Contiguous

variable {c : Code} {i : Nat} {op : Opcode}

theorem at?_offset (hc : c.Contiguous) (hop : c.opcodes[i]? = some op) :
    c.at? (offset c.opcodes i) = some op := by
  rw [getElem?_opcodes] at hop
  obtain ⟨p, hp, rfl⟩ := Option.map_eq_some_iff.1 hop
  rw [← hc.offset_eq hp]
  obtain ⟨op, hat⟩ := exists_at? (Array.mem_of_getElem? hp)
  obtain ⟨q, hq, hoffset, rfl⟩ := exists_of_at? hat
  obtain ⟨j, hj⟩ := Array.mem_iff_getElem?.1 hq
  -- no two instructions have the same offset
  rcases Nat.lt_trichotomy i j with hlt | rfl | hlt
  · have := hc.offset_lt hlt hp hj
    omega
  · rw [hat, Option.some.inj (hp.symm.trans hj)]
  · have := hc.offset_lt hlt hj hp
    omega

/-- What stands one behind the other lies so. -/
theorem spells (hc : c.Contiguous) {n : Nat} {ops : List Opcode}
    (hops : ∀ i op, ops[i]? = some op → c.opcodes[n + i]? = some op) : c.Spells (offset c.opcodes n) ops := by
  induction ops generalizing n with
  | nil => trivial
  | cons op ops ih =>
    have hop : c.opcodes[n]? = some op := hops 0 op rfl
    refine ⟨hc.at?_offset hop, ?_⟩
    have hrest := ih (n := n + 1) fun i op' hi => by
      rw [Nat.add_right_comm]
      exact hops (i + 1) op' hi
    rwa [offset_succ, hop, Option.map_some, Option.getD_some, Int.natCast_add] at hrest

end Code.Contiguous

namespace Machine

/-- What a reference refers to. -/
inductive Referent
  | text (value : String)
  /-- what a static field holds -/
  | held (field : FieldRef)
  | object (number : Nat)
  deriving DecidableEq

/-- A value of one slot; a reference may be null. -/
inductive Value
  | int (value : Int32)
  | reference (target : Option Referent)
  deriving DecidableEq

/-- What the machine finds outside of the code. -/
structure World where
  /-- the method that looks a name up in a table -/
  get : MethodRef
  /-- the entry of a name in the table that a field holds -/
  entry : FieldRef → String → Option Referent

@[ext]
structure State where
  pc : Int
  stack : List Value
  locals : UInt16 → Value
  /-- the fields whose tables have been asked, in order -/
  asked : List FieldRef

/-- Whether a test holds of a value, if it is a test of such values. -/
def holds? : Test → Value → Option Bool
  | .ifeq, .int value => some (value == 0)
  | .ifne, .int value => some (value != 0)
  | .ifnull, .reference target => some target.isNone
  | .ifnonnull, .reference target => some target.isSome
  | _, _ => none

namespace State

variable (op : Opcode) (stack : List Value) (s : State)

/-- Goes on behind an instruction with another stack. -/
def next : State := { s with pc := s.pc + op.size, stack }

@[simp] theorem next_pc : (s.next op stack).pc = s.pc + op.size := rfl

@[simp] theorem next_stack : (s.next op stack).stack = stack := rfl

@[simp] theorem next_locals : (s.next op stack).locals = s.locals := rfl

@[simp] theorem next_asked : (s.next op stack).asked = s.asked := rfl

end State

variable (w : World)

/-- Executes an instruction. -/
def exec (op : Opcode) (s : State) : Option State :=
  match op, s.stack with
  | .aconstNull, stack => some (s.next op (.reference none :: stack))
  | .iconst value, stack | .ldc (.int value), stack => some (s.next op (.int value :: stack))
  | .ldc (.string value), stack => some (s.next op (.reference (some (.text value)) :: stack))
  | .aload slot, stack => some (s.next op (s.locals slot :: stack))
  | .astore slot, value :: stack =>
    some { s.next op stack with locals := Function.update s.locals slot value }
  | .dup, value :: stack => some (s.next op (value :: value :: stack))
  | .pop, _ :: stack => some (s.next op stack)
  | .swap, first :: second :: stack => some (s.next op (second :: first :: stack))
  | .getstatic (.field field), stack => some (s.next op (.reference (some (.held field)) :: stack))
  | .invoke .virtual (.method method), .reference (some (.text name)) :: .reference (some (.held table)) :: stack =>
    if method = w.get then
      some { s.next op (.reference (w.entry table name) :: stack) with asked := s.asked ++ [table] }
    else none
  | .branch test distance, value :: stack =>
    (holds? test value).map fun taken =>
      if taken then { s with pc := s.pc + distance, stack } else s.next op stack
  | .goto distance, _ => some { s with pc := s.pc + distance }
  | _, _ => none

/-- Executes the instruction at which control is. -/
def step (c : Code) (s : State) : Option State := (c.at? s.pc).bind fun op => exec w op s

/-- The machine gets from a state to another. -/
abbrev Executes (c : Code) : State → State → Prop := Relation.ReflTransGen fun s s' => step w c s = some s'

variable {w} {c : Code} {s s' s'' : State} {op : Opcode}

/-- A reference is tested. -/
theorem exec_ifnonnull {target : Option Referent} {stack : List Value} (h : s.stack = .reference target :: stack)
    (distance : Int) : exec w (.branch .ifnonnull distance) s =
      some (if target.isSome then { s with pc := s.pc + distance, stack }
        else s.next (.branch .ifnonnull distance) stack) := by
  obtain ⟨pc, _, locals, asked⟩ := s
  cases h
  rfl

/-- Nothing is left to execute. -/
theorem Executes.of_eq (h : s = s') : Executes w c s s' := h ▸ .refl

/-- Executes one instruction first. -/
theorem Executes.next (hop : c.at? s.pc = some op) (hexec : exec w op s = some s') (hrest : Executes w c s' s'') :
    Executes w c s s'' := .head (by rw [step, hop, Option.bind_some, hexec]) hrest

end Machine

end BlockAssembler
