import BlockAssembler.Proofs.Draft

/-! Balanced streams as trees, and what they are turned into: the linked code, in which
every jump names the index it lands on, and the records of the structures. All of it
depends on the tree and on the index of its first instruction only. Whether a handler
or a branch ends in a jump depends on whether control can reach its end, and that is
the business of its own last instruction. -/

namespace BlockAssembler

mutual

/-- A balanced stream. -/
inductive Body
  | nil
  | op (opcode : Opcode) (rest : Body)
  | guarded (body : Body) (catches : Option String) (handler : Body) (more : Catches) (rest : Body)
  | chain (condition : Body) (test : Test) (body : Body) (more : Arms) (rest : Body)

/-- The handlers after the first one. -/
inductive Catches
  | done
  | handler (catches : Option String) (body : Body) (more : Catches)

/-- The branches after the first one, and perhaps a final body. -/
inductive Arms
  | done
  | otherwise (body : Body)
  | elseIf (condition : Body) (test : Test) (body : Body) (more : Arms)

end

/-! ### Streams -/

mutual

def Body.items : Body → List Item
  | .nil => []
  | .op opcode rest => .op opcode :: rest.items
  | .guarded body catches handler more rest =>
    .beginTry :: body.items ++ .beginCatch catches :: handler.items ++ more.items ++ .endTry :: rest.items
  | .chain condition test body more rest =>
    .beginIf condition.items test :: body.items ++ more.items ++ .endIf :: rest.items

def Catches.items : Catches → List Item
  | .done => []
  | .handler catches body more => .beginCatch catches :: body.items ++ more.items

def Arms.items : Arms → List Item
  | .done => []
  | .otherwise body => .beginElse :: body.items
  | .elseIf condition test body more => .elseIf condition.items test :: body.items ++ more.items

end

/-! ### Jumps -/

mutual

/-- No instruction of the item is a jump. -/
def Item.jumpless : Item → Bool
  | .op opcode => !opcode.isJump
  | .beginTry | .beginCatch _ | .endTry | .beginElse | .endIf => true
  | .beginIf condition _ | .elseIf condition _ => jumplessAll condition

def Item.jumplessAll : List Item → Bool
  | [] => true
  | item :: items => item.jumpless && jumplessAll items

end

@[simp] theorem Item.jumplessAll_append (items items' : List Item) :
    jumplessAll (items ++ items') = (jumplessAll items && jumplessAll items') := by
  induction items with
  | nil => rfl
  | cons item items ih => rw [List.cons_append, jumplessAll, jumplessAll, ih, Bool.and_assoc]

mutual

/-- No instruction of the stream itself is a jump. -/
def Body.Jumpless : Body → Prop
  | .nil => True
  | .op opcode rest => opcode.isJump = false ∧ rest.Jumpless
  | .guarded body _ handler more rest =>
    body.Jumpless ∧ handler.Jumpless ∧ more.Jumpless ∧ rest.Jumpless
  | .chain condition _ body more rest =>
    condition.Jumpless ∧ body.Jumpless ∧ more.Jumpless ∧ rest.Jumpless

def Catches.Jumpless : Catches → Prop
  | .done => True
  | .handler _ body more => body.Jumpless ∧ more.Jumpless

def Arms.Jumpless : Arms → Prop
  | .done => True
  | .otherwise body => body.Jumpless
  | .elseIf condition _ body more => condition.Jumpless ∧ body.Jumpless ∧ more.Jumpless

end

/-! ### Reachability -/

def Arms.hasElse : Arms → Bool
  | .done => false
  | .otherwise _ => true
  | .elseIf _ _ _ more => more.hasElse

mutual

/-- Whether control can reach what follows, if it can reach the stream when `live`. -/
def Body.exit : Body → Bool → Bool
  | .nil, live => live
  | .op opcode rest, _ => rest.exit !opcode.isTerminal
  | .guarded _ _ _ _ rest, _ => rest.exit true
  | .chain _ _ body more rest, _ => rest.exit (more.exit (body.exit true))

/-- `skipped` says whether a branch so far jumps to the join point. -/
def Arms.exit : Arms → Bool → Bool
  | .done, _ => true
  | .otherwise body, skipped => skipped || body.exit true
  | .elseIf _ _ body more, skipped => more.exit (skipped || body.exit true)

end

/-- A chain with a body that jumps to the join point goes on there. -/
theorem Arms.exit_true (t : Arms) : t.exit true = true := by
  match t with
  | .done => rfl
  | .otherwise body => rfl
  | .elseIf condition test body more =>
    rw [Arms.exit, Bool.true_or]
    exact more.exit_true

/-! ### Sizes -/

/-- The number of jumps that end what control can reach the end of when `live`. -/
def skipSize (live : Bool) : Nat := if live then 1 else 0

mutual

/-- The number of instructions. -/
def Body.size : Body → Nat
  | .nil => 0
  | .op _ rest => 1 + rest.size
  | .guarded body _ handler more rest =>
    body.size + (1 + (handler.size + (more.size (handler.exit true) + rest.size)))
  | .chain condition _ body more rest =>
    condition.size + (1 + (body.size + (more.size (body.exit true) + rest.size)))

/-- `live` says whether control can reach the end of the handler before. -/
def Catches.size : Catches → Bool → Nat
  | .done, _ => 0
  | .handler _ body more, live => skipSize live + (body.size + more.size (body.exit true))

/-- `live` says whether control can reach the end of the body before. -/
def Arms.size : Arms → Bool → Nat
  | .done, _ => 0
  | .otherwise body, live => skipSize live + body.size
  | .elseIf condition _ body more, live =>
    skipSize live + (condition.size + (1 + (body.size + more.size (body.exit true))))

end

/-- Where the first instruction of the next branch is, if the body before ends at `n`. -/
def Arms.next : Arms → Nat → Bool → Nat
  | .done, n, _ => n
  | .otherwise _, n, live | .elseIf .., n, live => n + skipSize live

/-! ### Linked code -/

/-- An instruction whose jumps name the index of the instruction they land on. -/
inductive Instr
  | plain (opcode : Opcode)
  | goto (target : Nat)
  | branch (test : Test) (target : Nat)
  deriving DecidableEq

/-- The instruction before it has a distance. -/
def Instr.opcode : Instr → Opcode
  | plain opcode => opcode
  | goto _ => .goto 0
  | branch test _ => .branch test 0

def Instr.target? : Instr → Option Nat
  | plain _ => none
  | goto target | branch _ target => some target

/-- The jump that ends what control can reach the end of when `live`. -/
def skipCode (live : Bool) (join : Nat) : List Instr := if live then [.goto join] else []

mutual

/-- The code of a stream whose first instruction has the index `n`. -/
def Body.code : Body → Nat → List Instr
  | .nil, _ => []
  | .op opcode rest, n => .plain opcode :: rest.code (n + 1)
  | .guarded body _ handler more rest, n =>
    let stop := n + body.size
    let last := stop + 1 + handler.size
    let join := last + more.size (handler.exit true)
    body.code n ++ .goto join :: (handler.code (stop + 1) ++
      (more.code last (handler.exit true) join ++ rest.code join))
  | .chain condition test body more rest, n =>
    let jump := n + condition.size
    let stop := jump + 1 + body.size
    let join := stop + more.size (body.exit true)
    condition.code n ++ .branch test (more.next stop (body.exit true)) :: (body.code (jump + 1) ++
      (more.code stop (body.exit true) join ++ rest.code join))

def Catches.code : Catches → Nat → Bool → Nat → List Instr
  | .done, _, _, _ => []
  | .handler _ body more, n, live, join =>
    let start := n + skipSize live
    skipCode live join ++ (body.code start ++ more.code (start + body.size) (body.exit true) join)

def Arms.code : Arms → Nat → Bool → Nat → List Instr
  | .done, _, _, _ => []
  | .otherwise body, n, live, join => skipCode live join ++ body.code (n + skipSize live)
  | .elseIf condition test body more, n, live, join =>
    let start := n + skipSize live
    let jump := start + condition.size
    let stop := jump + 1 + body.size
    skipCode live join ++ (condition.code start ++ .branch test (more.next stop (body.exit true)) ::
      (body.code (jump + 1) ++ more.code stop (body.exit true) join))

end

/-! ### Records -/

/-- The jump at the end of the handler before, if another handler follows. -/
def Catches.skip : Catches → Nat → Bool → Option Handle
  | .done, _, _ => none
  | .handler .., n, live => if live then some n else none

/-- The jump at the end of the body before, if another branch follows. -/
def Arms.skip : Arms → Nat → Bool → Option Handle
  | .done, _, _ => none
  | .otherwise _, n, live | .elseIf .., n, live => if live then some n else none

def Catches.handlers : Catches → Nat → Bool → List Handler
  | .done, _, _ => []
  | .handler catches body more, n, live =>
    let start := n + skipSize live
    ⟨some start, catches, more.skip (start + body.size) (body.exit true)⟩ ::
      more.handlers (start + body.size) (body.exit true)

def Arms.branches : Arms → Nat → Bool → List ChainBranch
  | .done, _, _ | .otherwise _, _, _ => []
  | .elseIf condition _ body more, n, live =>
    let jump := n + skipSize live + condition.size
    let stop := jump + 1 + body.size
    ⟨jump, more.skip stop (body.exit true), some (more.next stop (body.exit true))⟩ ::
      more.branches stop (body.exit true)

/-- The record of a guarded range whose first instruction has the index `n`. The range ends
in front of the jump over the handlers. -/
def GuardedRange.record (body : Body) (catches : Option String) (handler : Body) (more : Catches)
    (n : Nat) : GuardedRange :=
  let stop := n + body.size
  let last := stop + 1 + handler.size
  let first : Handler := ⟨some (stop + 1), catches, more.skip last (handler.exit true)⟩
  ⟨some n, some (last + more.size (handler.exit true)), some stop,
    (first :: more.handlers last (handler.exit true)).toArray⟩

/-- The record of a chain. The join point stays open if no body jumps there and a final
body goes on to what follows. -/
def Chain.record (branches : List ChainBranch) (hasElse : Bool) (join : Nat) : Chain :=
  let skips := branches.any fun br => br.skip.isSome
  ⟨branches.toArray, if skips || !hasElse then some join else none, hasElse⟩

mutual

def Body.ranges : Body → Nat → List GuardedRange
  | .nil, _ => []
  | .op _ rest, n => rest.ranges (n + 1)
  | .guarded body catches handler more rest, n =>
    let stop := n + body.size
    let last := stop + 1 + handler.size
    .record body catches handler more n ::
      (body.ranges n ++ (handler.ranges (stop + 1) ++ (more.ranges last (handler.exit true) ++
        rest.ranges (last + more.size (handler.exit true)))))
  | .chain condition _ body more rest, n =>
    let jump := n + condition.size
    let stop := jump + 1 + body.size
    condition.ranges n ++ (body.ranges (jump + 1) ++ (more.ranges stop (body.exit true) ++
      rest.ranges (stop + more.size (body.exit true))))

def Catches.ranges : Catches → Nat → Bool → List GuardedRange
  | .done, _, _ => []
  | .handler _ body more, n, live =>
    let start := n + skipSize live
    body.ranges start ++ more.ranges (start + body.size) (body.exit true)

def Arms.ranges : Arms → Nat → Bool → List GuardedRange
  | .done, _, _ => []
  | .otherwise body, n, live => body.ranges (n + skipSize live)
  | .elseIf condition _ body more, n, live =>
    let start := n + skipSize live
    let jump := start + condition.size
    condition.ranges start ++ (body.ranges (jump + 1) ++
      more.ranges (jump + 1 + body.size) (body.exit true))

end

mutual

def Body.chains : Body → Nat → List Chain
  | .nil, _ => []
  | .op _ rest, n => rest.chains (n + 1)
  | .guarded body _ handler more rest, n =>
    let stop := n + body.size
    let last := stop + 1 + handler.size
    body.chains n ++ (handler.chains (stop + 1) ++ (more.chains last (handler.exit true) ++
      rest.chains (last + more.size (handler.exit true))))
  | .chain condition _ body more rest, n =>
    let jump := n + condition.size
    let stop := jump + 1 + body.size
    let join := stop + more.size (body.exit true)
    let first : ChainBranch :=
      ⟨jump, more.skip stop (body.exit true), some (more.next stop (body.exit true))⟩
    condition.chains n ++
      Chain.record (first :: more.branches stop (body.exit true)) more.hasElse join ::
        (body.chains (jump + 1) ++ (more.chains stop (body.exit true) ++ rest.chains join))

def Catches.chains : Catches → Nat → Bool → List Chain
  | .done, _, _ => []
  | .handler _ body more, n, live =>
    let start := n + skipSize live
    body.chains start ++ more.chains (start + body.size) (body.exit true)

def Arms.chains : Arms → Nat → Bool → List Chain
  | .done, _, _ => []
  | .otherwise body, n, live => body.chains (n + skipSize live)
  | .elseIf condition _ body more, n, live =>
    let start := n + skipSize live
    let jump := start + condition.size
    condition.chains start ++ (body.chains (jump + 1) ++
      more.chains (jump + 1 + body.size) (body.exit true))

end

end BlockAssembler
