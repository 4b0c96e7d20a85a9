import BlockAssembler.Proofs.Body
import BlockAssembler.Proofs.Execution

/-! Balanced streams as programs. A stream is run by recursion on its tree: no jump, no
offset and no record is involved. -/

namespace BlockAssembler

/-- What has been executed, how many tests have been decided by then, and whether the
run has ended. -/
structure Ran where
  shown : List Opcode
  tests : Nat
  ended : Bool

namespace Ran

/-- Nothing happens. -/
def idle (k : Nat) : Ran := ⟨[], k, false⟩

/-- Goes on after what has been executed so far, unless the run has ended. -/
def andThen (r : Ran) (next : Nat → Ran) : Ran :=
  if r.ended then r
  else ⟨r.shown ++ (next r.tests).shown, (next r.tests).tests, (next r.tests).ended⟩

theorem andThen_idle (r : Ran) : r.andThen idle = r := by
  obtain ⟨shown, tests, ended⟩ := r
  cases ended <;> simp [andThen, idle]

theorem ended_andThen {r : Ran} {next : Nat → Ran} :
    (r.andThen next).ended = false ↔ r.ended = false ∧ (next r.tests).ended = false := by
  cases hended : r.ended <;> simp [andThen, hended]

end Ran

/-- Executes one instruction; `k` tests have been decided. -/
def Opcode.ran (op : Opcode) (k : Nat) : Ran := ⟨[op], k + op.tests, op.isEnd⟩

section
variable (passes : Nat → Bool)

mutual

/-- Runs a stream. A test that passes enters the body behind it. The handlers of a guarded
range are left out, as nothing throws. -/
def Body.run : Body → Nat → Ran
  | .nil, k => .idle k
  | .op opcode rest, k => (opcode.ran k).andThen fun k => rest.run k
  | .guarded body _ _ _ rest, k => (body.run k).andThen fun k => rest.run k
  | .chain condition test body more rest, k =>
    (condition.run k).andThen fun k =>
      (((Opcode.branch test 0).ran k).andThen fun k' =>
        if passes k then body.run k' else more.run k').andThen fun k => rest.run k

/-- Tries the branches from the first one on. -/
def Arms.run : Arms → Nat → Ran
  | .done, k => .idle k
  | .otherwise body, k => body.run k
  | .elseIf condition test body more, k =>
    (condition.run k).andThen fun k =>
      ((Opcode.branch test 0).ran k).andThen fun k' =>
        if passes k then body.run k' else more.run k'

end

theorem Opcode.isTerminal_of_ran {op : Opcode} (hjump : op.isJump = false) {k : Nat}
    (hended : (op.ran k).ended = false) : op.isTerminal = false := by
  cases op <;> simp_all [ran, isEnd, isTerminal, isJump, distance?]

mutual

/-- A run gets past the end of a stream only where control can reach it. -/
theorem Body.exit_of_run (t : Body) (hjump : t.Jumpless) (k : Nat) (hended : (t.run passes k).ended = false) :
    t.exit true = true := by
  match t with
  | .nil => rfl
  | .op opcode rest =>
    obtain ⟨hop, hrest⟩ := Ran.ended_andThen.1 hended
    rw [Body.exit, Opcode.isTerminal_of_ran hjump.1 hop]
    exact rest.exit_of_run hjump.2 _ hrest
  | .guarded body catches handler more rest =>
    obtain ⟨-, hrest⟩ := Ran.ended_andThen.1 hended
    exact rest.exit_of_run hjump.2.2.2 _ hrest
  | .chain condition test body more rest =>
    obtain ⟨-, htests⟩ := Ran.ended_andThen.1 hended
    obtain ⟨hbranch, hrest⟩ := Ran.ended_andThen.1 htests
    obtain ⟨-, harm⟩ := Ran.ended_andThen.1 hbranch
    have hexit : more.exit (body.exit true) = true := by
      split at harm
      · rw [body.exit_of_run hjump.2.1 _ harm, more.exit_true]
      · exact more.exit_of_run hjump.2.2.1 _ harm _
    rw [Body.exit, hexit]
    exact rest.exit_of_run hjump.2.2.2 _ hrest

theorem Arms.exit_of_run (t : Arms) (hjump : t.Jumpless) (k : Nat) (hended : (t.run passes k).ended = false)
    (skipped : Bool) : t.exit skipped = true := by
  match t with
  | .done => rfl
  | .otherwise body =>
    rw [Arms.exit, body.exit_of_run hjump k hended, Bool.or_true]
  | .elseIf condition test body more =>
    obtain ⟨-, hbranch⟩ := Ran.ended_andThen.1 hended
    obtain ⟨-, harm⟩ := Ran.ended_andThen.1 hbranch
    rw [Arms.exit]
    split at harm
    · rw [body.exit_of_run hjump.2.1 _ harm, Bool.or_true, more.exit_true]
    · exact more.exit_of_run hjump.2.2 _ harm _

end

/-- What is executed if a stream is run as a whole: what runs off its end returns. -/
def Body.trace (t : Body) : List Opcode :=
  ((t.run passes 0).andThen fun k => Opcode.voidReturn.ran k).shown

end

end BlockAssembler
