import BlockAssembler.Builder.Basic

/-! Adding instructions and replacing the last ones. A new instruction becomes the
target of every anchor that waits; a replacement becomes the target of every
anchor that pointed at what it replaces. -/

namespace BlockAssembler.Builder

def note (e : Event) : Assembly Unit := modify fun b => { b with journal := b.journal.push e }

def noteAll (es : List Event) : Assembly Unit :=
  modify fun b => { b with journal := b.journal ++ es }

/-- Lets an anchor wait for the next instruction. -/
def awaitNext (a : Anchor) : Assembly Unit :=
  modify fun b => { b with pending := b.pending.push a }

/-- Puts an instruction into the arena only. -/
def allocate (op : Opcode) : Assembly Handle :=
  modifyGet fun b => (b.arena.size, { b with arena := b.arena.push ⟨op, #[], true⟩ })

/-- Puts an instruction into the arena and at the end of the sequence. -/
def push (op : Opcode) : Assembly Handle := do
  note (.appended (← get).arena.size op)
  let h ← allocate op
  modify fun b => { b with code := b.code.push h }
  return h

def pushAll : List Opcode → Assembly Unit
  | [] => return
  | op :: ops => do
    let _ ← push op
    pushAll ops

/-- Points the field of an anchor at an instruction and lists the anchor there. -/
def point (h : Handle) (a : Anchor) : Assembly Unit := do
  ensure (((← get).field? a).isSome) (.internal (.malformedAnchor a))
  modify fun b => (b.setField h a).addReference h a

def settleAll (h : Handle) : List Anchor → Assembly Unit
  | [] => return
  | a :: as => do
    note (.resolved a h)
    point h a
    settleAll h as

/-- Points everything that waits at an instruction. -/
def settlePending (h : Handle) : Assembly Unit := do
  settleAll h (← modifyGet takePending)

/-- Adds an instruction, at which everything that waits then points. -/
def append (op : Opcode) : Assembly Handle := do
  let h ← push op
  settlePending h
  return h

/-- Adds instructions, at the first of which everything that waits then points. With
no instruction the anchors go on waiting. -/
def appendAll : List Opcode → Assembly (Option Handle)
  | [] => return none
  | op :: ops => do
    let h ← push op
    pushAll ops
    settlePending h
    return some h

/-! ### Replacing the tail -/

def redirectAll (removed replacement : Handle) : List Anchor → Assembly Unit
  | [] => return
  | a :: as => do
    note (.redirected a removed replacement)
    point replacement a
    redirectAll removed replacement as

/-- Takes an instruction out of use. Nothing may point at it any more. -/
def remove (h : Handle) : Assembly Unit := do
  ensure (((← get).references h).isEmpty) (.internal (.stillReferenced h))
  modify fun b => b.modifyCell h fun s => { s with alive := false }

def removeAll (replacement : Handle) : List Handle → Assembly Unit
  | [] => return
  | h :: hs => do
    let anchors := ((← get).references h).toList
    modify (·.clearReferences h)
    redirectAll h replacement anchors
    remove h
    removeAll replacement hs

/-- Replaces the last `count` instructions by one, at which everything that pointed
at them then points. -/
def replaceTail (count : Nat) (op : Opcode) : Assembly Handle := do
  let code := (← get).code
  ensure (count ≤ code.size) (.internal (.tailOutOfBounds count))
  let split := code.size - count
  let h ← allocate op
  modify fun b => { b with code := code.take split }
  removeAll h (code.extract split code.size).toList
  modify fun b => { b with code := b.code.push h }
  return h

end BlockAssembler.Builder
