import BlockAssembler.Builder.Sequence
import BlockAssembler.Item

/-! Control structures from their markers. A marker registers records, emits the
jumps that its structure needs, and lets anchors wait for what comes next; the
distances are given later. A marker that does not fit the open structures is
refused. -/

namespace BlockAssembler.Builder

/-- A jump, if control can reach the end of the sequence. -/
def jumpOut : Assembly (Option Handle) := do
  if (← get).fallsThrough then some <$> append (.goto 0) else return none

/-! ### Guarded ranges -/

/-- Begins a record of a guarded range and opens it. -/
def openRange : Assembly Nat :=
  modifyGet fun b =>
    let range := b.ranges.size
    (range, { b with ranges := b.ranges.push .fresh, opened := .range range :: b.opened })

/-- The range whose body or handler is being added. -/
def currentRange : Assembly Nat := do
  match (← get).opened with
  | .range range :: _ => return range
  | _ => throw (.malformedStructure .handlerOutsideRange)

def handlerCount (b : Builder) (range : Nat) : Nat :=
  (b.ranges[range]?.map fun r => r.handlers.size).getD 0

/-- Ends the guarded body, always by a jump: the range reaches up to it. -/
def endBody (range : Nat) : Assembly Unit := do
  let jump ← append (.goto 0)
  modify (·.modifyRange range fun r => { r with skip := some jump })

/-- Ends the handler begun last, by a jump if control can reach its end. -/
def endHandler (range : Nat) : Assembly Unit := do
  let skip ← jumpOut
  modify (·.modifyRange range fun r =>
    { r with handlers := r.handlers.modify (r.handlers.size - 1) fun k => { k with skip := skip } })

/-- Ends what comes before a handler: the body before the first one, else a handler. -/
def endGuarded (range : Nat) : Assembly Unit := do
  if handlerCount (← get) range = 0 then endBody range else endHandler range

def beginHandler (range : Nat) (catches : Option String) : Assembly Unit := do
  let handler := handlerCount (← get) range
  modify (·.modifyRange range fun r =>
    { r with handlers := r.handlers.push ⟨none, catches, none⟩ })
  awaitNext (.handlerStart range handler)

/-! ### Conditional chains -/

/-- Begins a record of a chain at its first conditional jump and opens it. -/
def openChain (test : Handle) : Assembly Unit :=
  modify fun b =>
    let chain := b.chains.size
    { b with chains := b.chains.push (.fresh test), opened := .chain chain :: b.opened }

/-- The chain whose body is being added. -/
def currentChain : Assembly Nat := do
  match (← get).opened with
  | .chain chain :: _ => return chain
  | _ => throw (.malformedStructure .branchOutsideChain)

def hasElse (b : Builder) (chain : Nat) : Bool := b.chains[chain]?.any Chain.hasElse

def lastBranch (b : Builder) (chain : Nat) : Nat := (b.chains[chain]?.map Chain.lastBranch).getD 0

/-- The chain being added, if another branch may follow. -/
def extendableChain : Assembly Nat := do
  let chain ← currentChain
  ensure (!hasElse (← get) chain) (.malformedStructure .branchAfterElse)
  return chain

/-- Ends the body of the last branch, by a jump if control can reach its end, and
lets its conditional jump wait for what comes next. -/
def endBranch (chain : Nat) : Assembly Unit := do
  let skip ← jumpOut
  let branch := lastBranch (← get) chain
  modify (·.modifyChain chain fun c =>
    { c with branches := c.branches.modify branch fun br => { br with skip := skip } })
  awaitNext (.branchNext chain branch)

/-- What has to land behind a chain: the last conditional jump if there is no final
body, and the join point if anything jumps to it. -/
def chainEnd (b : Builder) (chain : Nat) : List Anchor :=
  let hasElse := hasElse b chain
  let hasSkips := b.chains[chain]?.any Chain.hasSkips
  (if hasElse then [] else [.branchNext chain (lastBranch b chain)])
    ++ (if hasSkips || !hasElse then [.ifEnd chain] else [])

/-- Lets wait for what comes next whatever has to land there. -/
def endChain (chain : Nat) : Assembly Unit :=
  modify fun b =>
    let waiting := chainEnd b chain
    { b with pending := b.pending ++ waiting }

/-- Leaves the innermost structure. -/
def popOpen : Assembly Unit := modify fun b => { b with opened := b.opened.tail }

/-! ### Items -/

mutual

/-- Adds an item of a stream. -/
def emit : Item → Assembly Unit
  | .op opcode => do
    let _ ← append opcode
  | .beginTry => do
    let range ← openRange
    awaitNext (.tryStart range)
  | .beginCatch className => do
    let range ← currentRange
    endGuarded range
    beginHandler range className
  | .endTry => do
    let range ← currentRange
    ensure (handlerCount (← get) range ≠ 0) (.malformedStructure .rangeWithoutHandlers)
    popOpen
    awaitNext (.tryEnd range)
  | .beginIf condition test => do
    emitAll condition
    openChain (← append (.branch test 0))
  | .elseIf condition test => do
    let chain ← extendableChain
    endBranch chain
    emitAll condition
    ensure ((← currentChain) = chain) (.malformedStructure .unbalancedCondition)
    let jump ← append (.branch test 0)
    modify (·.modifyChain chain fun c => { c with branches := c.branches.push (.fresh jump) })
  | .beginElse => do
    let chain ← extendableChain
    endBranch chain
    modify (·.modifyChain chain fun c => { c with hasElse := true })
  | .endIf => do
    let chain ← currentChain
    popOpen
    endChain chain

/-- Adds the items of a stream in order, up to the first that is refused. -/
def emitAll : List Item → Assembly Unit
  | [] => return
  | item :: items => do
    emit item
    emitAll items

end

end BlockAssembler.Builder
