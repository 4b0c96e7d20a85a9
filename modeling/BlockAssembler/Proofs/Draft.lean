import BlockAssembler.Builder.ControlFlow

/-! Drafts of a sequence. A builder keeps a queue of the anchors that wait for the next
instruction. The next instruction will get the next handle whatever it is, so an
anchor can just as well be pointed there at once: a draft is what is left of a
builder then. It has no queue, no arena and no journal, and a marker acts on it by
a plain function that can only refuse. -/

namespace BlockAssembler

/-- The records of the control structures, in the order in which they were begun. -/
structure Records where
  ranges : List GuardedRange
  chains : List Chain

namespace Records

def field? (r : Records) : Anchor → Option (Option Handle)
  | .tryStart range => r.ranges[range]?.map GuardedRange.start
  | .tryEnd range => r.ranges[range]?.map GuardedRange.join
  | .handlerStart range handler =>
    (r.ranges[range]?.bind (·.handlers[handler]?)).map Handler.start
  | .branchNext chain branch =>
    (r.chains[chain]?.bind (·.branches[branch]?)).map ChainBranch.next
  | .ifEnd chain => r.chains[chain]?.map Chain.join

def modifyRange (range : Nat) (f : GuardedRange → GuardedRange) (r : Records) : Records :=
  { r with ranges := r.ranges.modify range f }

def modifyChain (chain : Nat) (f : Chain → Chain) (r : Records) : Records :=
  { r with chains := r.chains.modify chain f }

def addRange (r : Records) : Records := { r with ranges := r.ranges ++ [.fresh] }

def addChain (test : Handle) (r : Records) : Records := { r with chains := r.chains ++ [.fresh test] }

/-- Points the field of an anchor at an instruction. -/
def set (h : Handle) (r : Records) : Anchor → Records
  | .tryStart range => r.modifyRange range fun g => { g with start := some h }
  | .tryEnd range => r.modifyRange range fun g => { g with join := some h }
  | .handlerStart range handler =>
    r.modifyRange range fun g =>
      { g with handlers := g.handlers.modify handler fun k => { k with start := some h } }
  | .branchNext chain branch =>
    r.modifyChain chain fun c =>
      { c with branches := c.branches.modify branch fun br => { br with next := some h } }
  | .ifEnd chain => r.modifyChain chain fun c => { c with join := some h }

def setAll (h : Handle) (as : List Anchor) (r : Records) : Records := as.foldl (set h) r

def handlerCount (r : Records) (range : Nat) : Nat :=
  (r.ranges[range]?.map fun g => g.handlers.size).getD 0

def hasElse (r : Records) (chain : Nat) : Bool := r.chains[chain]?.any Chain.hasElse

def hasSkips (r : Records) (chain : Nat) : Bool := r.chains[chain]?.any Chain.hasSkips

def lastBranch (r : Records) (chain : Nat) : Nat := (r.chains[chain]?.map Chain.lastBranch).getD 0

/-- What has to land behind a chain. -/
def chainEnd (r : Records) (chain : Nat) : List Anchor :=
  (if r.hasElse chain then [] else [.branchNext chain (r.lastBranch chain)])
    ++ (if r.hasSkips chain || !r.hasElse chain then [.ifEnd chain] else [])

end Records

/-- An instruction of a draft, and whether a handler starts there. -/
structure Line where
  opcode : Opcode
  entry : Bool

structure Draft where
  lines : List Line
  records : Records
  /-- the open structures, the innermost first -/
  opened : List Open
  /-- whether the next instruction starts a handler -/
  entering : Bool
  /-- whether control can reach the next instruction -/
  live : Bool

namespace Draft

def empty : Draft := ⟨[], ⟨[], []⟩, [], false, true⟩

/-- The handle of the next instruction. -/
def size (d : Draft) : Nat := d.lines.length

def opcodes (d : Draft) : List Opcode := d.lines.map Line.opcode

def append (op : Opcode) (d : Draft) : Draft :=
  { d with lines := d.lines ++ [⟨op, d.entering⟩], entering := false, live := !op.isTerminal }

/-- Points the field of an anchor at the next instruction. -/
def await (a : Anchor) (d : Draft) : Draft :=
  { d with records := d.records.set d.size a, entering := d.entering || a.isHandlerStart, live := true }

def modifyRange (range : Nat) (f : GuardedRange → GuardedRange) (d : Draft) : Draft :=
  { d with records := d.records.modifyRange range f }

def modifyChain (chain : Nat) (f : Chain → Chain) (d : Draft) : Draft :=
  { d with records := d.records.modifyChain chain f }

/-- The jump that `jumpOut` adds. -/
def skip (d : Draft) : Option Handle := if d.live then some d.size else none

def jumpOut (d : Draft) : Draft := if d.live then d.append (.goto 0) else d

/-! ### Guarded ranges -/

def beginRange (d : Draft) : Draft :=
  { d with records := d.records.addRange, opened := .range d.records.ranges.length :: d.opened }

def currentRange (d : Draft) : Except Malformation Nat :=
  match d.opened with
  | .range range :: _ => .ok range
  | _ => .error .handlerOutsideRange

def endBody (range : Nat) (d : Draft) : Draft :=
  (d.append (.goto 0)).modifyRange range fun g => { g with skip := some d.size }

def endHandler (range : Nat) (d : Draft) : Draft :=
  d.jumpOut.modifyRange range fun g =>
    { g with handlers := g.handlers.modify (g.handlers.size - 1) fun k => { k with skip := d.skip } }

def endGuarded (range : Nat) (d : Draft) : Draft :=
  if d.records.handlerCount range = 0 then d.endBody range else d.endHandler range

def beginHandler (range : Nat) (catches : Option String) (d : Draft) : Draft :=
  (d.modifyRange range fun g => { g with handlers := g.handlers.push ⟨none, catches, none⟩ }).await
    (.handlerStart range (d.records.handlerCount range))

/-! ### Conditional chains -/

def beginChain (test : Handle) (d : Draft) : Draft :=
  { d with records := d.records.addChain test, opened := .chain d.records.chains.length :: d.opened }

def currentChain (d : Draft) : Except Malformation Nat :=
  match d.opened with
  | .chain chain :: _ => .ok chain
  | _ => .error .branchOutsideChain

def extendableChain (d : Draft) : Except Malformation Nat :=
  match d.opened with
  | .chain chain :: _ => if d.records.hasElse chain then .error .branchAfterElse else .ok chain
  | _ => .error .branchOutsideChain

def endBranch (chain : Nat) (d : Draft) : Draft :=
  (d.jumpOut.modifyChain chain fun c =>
    { c with branches := c.branches.modify (d.records.lastBranch chain) fun br =>
        { br with skip := d.skip } }).await
    (.branchNext chain (d.records.lastBranch chain))

/-- Adds a branch whose conditional jump is the next instruction. -/
def addBranch (chain : Nat) (test : Test) (d : Draft) : Draft :=
  (d.append (.branch test 0)).modifyChain chain fun c =>
    { c with branches := c.branches.push (.fresh d.size) }

def popOpen (d : Draft) : Draft := { d with opened := d.opened.tail }

def awaitAll (as : List Anchor) (d : Draft) : Draft := as.foldl (fun d a => d.await a) d

def endChain (chain : Nat) (d : Draft) : Draft := d.awaitAll (d.records.chainEnd chain)

/-! ### Items -/

mutual

def emit : Item → Draft → Except Malformation Draft
  | .op opcode, d => .ok (d.append opcode)
  | .beginTry, d => .ok (d.beginRange.await (.tryStart d.records.ranges.length))
  | .beginCatch className, d => do
    let range ← d.currentRange
    return (d.endGuarded range).beginHandler range className
  | .endTry, d => do
    let range ← d.currentRange
    if d.records.handlerCount range = 0 then .error .rangeWithoutHandlers
    else return d.popOpen.await (.tryEnd range)
  | .beginIf condition test, d => do
    let d ← emitAll condition d
    return (d.append (.branch test 0)).beginChain d.size
  | .elseIf condition test, d => do
    let chain ← d.extendableChain
    let d ← emitAll condition (d.endBranch chain)
    let current ← d.currentChain
    if current = chain then return d.addBranch chain test else .error .unbalancedCondition
  | .beginElse, d => do
    let chain ← d.extendableChain
    return (d.endBranch chain).modifyChain chain fun c => { c with hasElse := true }
  | .endIf, d => do
    let chain ← d.currentChain
    return d.popOpen.endChain chain

def emitAll : List Item → Draft → Except Malformation Draft
  | [], d => .ok d
  | item :: items, d => do
    let d ← emit item d
    emitAll items d

end

/-- Adds a return, unless the last instruction is one and control cannot get past it. -/
def ensureReturn (d : Draft) : Draft :=
  if d.live || !d.opcodes.getLast?.any Opcode.isReturn then d.append .voidReturn else d

end Draft

end BlockAssembler
