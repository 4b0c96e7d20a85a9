import BlockAssembler.Proofs.Draft.Steps

/-! What a step does to the records. Each step changes one record, to which it gives the
handles of instructions that have just been added or are about to be. -/

namespace BlockAssembler

/-- Adds a handler that starts at an instruction. -/
def GuardedRange.addHandler (start : Handle) (catches : Option String) (g : GuardedRange) :
    GuardedRange :=
  { g with handlers := g.handlers.push ⟨some start, catches, none⟩ }

/-- Ends the last branch: the jump that ends its body, and where its test lands. -/
def Chain.endLast (skip : Option Handle) (next : Handle) (c : Chain) : Chain :=
  { c with branches := c.branches.modify c.lastBranch fun br => { br with skip := skip, next := some next } }

/-- Ends a chain in front of an instruction. -/
def Chain.close (join : Handle) (c : Chain) : Chain where
  branches := if c.hasElse then c.branches
    else c.branches.modify c.lastBranch fun br => { br with next := some join }
  join := if c.hasSkips || !c.hasElse then some join else c.join
  hasElse := c.hasElse

theorem modify_size_push {α : Type} (xs : Array α) (x : α) (f : α → α) :
    (xs.push x).modify xs.size f = xs.push (f x) := by
  apply Array.ext_getElem?
  intro i
  simp only [Array.getElem?_modify, Array.getElem?_push]
  by_cases hi : i = xs.size
  · simp [hi]
  · simp [hi, Ne.symm hi]

theorem array_modify_modify {α : Type} (xs : Array α) (i : Nat) (f g : α → α) :
    (xs.modify i f).modify i g = xs.modify i (g ∘ f) := by
  apply Array.ext_getElem?
  intro j
  simp only [Array.getElem?_modify]
  split <;> simp

namespace Draft

variable {d : Draft} {range chain : Nat}

/-! ### Instructions -/

@[simp] theorem opcodes_append (op : Opcode) : (d.append op).opcodes = d.opcodes ++ [op] := by
  simp [opcodes, append]

@[simp] theorem size_append (op : Opcode) : (d.append op).size = d.size + 1 := by
  simp [size, append]

@[simp] theorem records_append (op : Opcode) : (d.append op).records = d.records := rfl

@[simp] theorem length_opcodes : d.opcodes.length = d.size := by simp [opcodes, size]

theorem opcodes_jumpOut :
    d.jumpOut.opcodes = d.opcodes ++ (if d.live then [.goto 0] else []) := by
  unfold jumpOut
  split <;> simp

@[simp] theorem records_jumpOut : d.jumpOut.records = d.records := by
  unfold jumpOut
  split <;> rfl

@[simp] theorem opened_jumpOut : d.jumpOut.opened = d.opened := by
  unfold jumpOut
  split <;> rfl

theorem awaitAll_eq {β : Type} (f : Draft → β) (hawait : ∀ d a, f (await a d) = f d)
    (as : List Anchor) (d : Draft) : f (d.awaitAll as) = f d := by
  induction as generalizing d with
  | nil => rfl
  | cons a as ih => rw [awaitAll, List.foldl_cons, ← awaitAll, ih, hawait]

theorem lines_endChain (chain : Nat) : (d.endChain chain).lines = d.lines :=
  awaitAll_eq lines (fun _ _ => rfl) _ d

@[simp] theorem opcodes_endChain : (d.endChain chain).opcodes = d.opcodes :=
  awaitAll_eq opcodes (fun _ _ => rfl) _ d

@[simp] theorem opened_endChain : (d.endChain chain).opened = d.opened :=
  awaitAll_eq opened (fun _ _ => rfl) _ d

/-! ### Guarded ranges -/

@[simp] theorem ranges_beginRange :
    (d.beginRange.await (.tryStart d.records.ranges.length)).records.ranges
      = d.records.ranges ++ [⟨some d.size, none, none, #[]⟩] := by
  simp only [beginRange, await, Records.addRange, Records.set, Records.modifyRange]
  exact modify_length_append ..

@[simp] theorem ranges_beginHandler (catches : Option String) :
    (d.beginHandler range catches).records.ranges
      = d.records.ranges.modify range (GuardedRange.addHandler d.size catches) := by
  apply List.ext_getElem?
  intro i
  simp only [beginHandler, await, Draft.modifyRange, Records.set, Records.modifyRange,
    List.getElem?_modify, Records.handlerCount]
  by_cases hi : range = i
  · subst hi
    cases d.records.ranges[range]? with
    | none => rfl
    | some g => simp [GuardedRange.addHandler, modify_size_push, size]
  · simp [hi]

@[simp] theorem chains_beginHandler (catches : Option String) :
    (d.beginHandler range catches).records.chains = d.records.chains := rfl

@[simp] theorem opcodes_beginHandler (catches : Option String) :
    (d.beginHandler range catches).opcodes = d.opcodes := rfl

@[simp] theorem opened_beginHandler (catches : Option String) :
    (d.beginHandler range catches).opened = d.opened := rfl

@[simp] theorem chains_endGuarded : (d.endGuarded range).records.chains = d.records.chains := by
  unfold endGuarded endBody endHandler jumpOut
  split
  · rfl
  · split <;> rfl

@[simp] theorem opened_endGuarded : (d.endGuarded range).opened = d.opened := by
  unfold endGuarded endBody endHandler jumpOut
  split
  · rfl
  · split <;> rfl

/-- The body before the first handler always ends in a jump, a handler only if control can
reach its end. -/
theorem ranges_endGuarded :
    (d.endGuarded range).records.ranges = d.records.ranges.modify range fun g =>
      if d.records.handlerCount range = 0 then { g with skip := some d.size }
      else { g with handlers := g.handlers.modify (g.handlers.size - 1) fun k => { k with skip := d.skip } } := by
  unfold endGuarded
  split
  · rfl
  · unfold endHandler jumpOut
    split <;> rfl

/-! ### Conditional chains -/

@[simp] theorem chains_endBranch :
    (d.endBranch chain).records.chains
      = d.records.chains.modify chain (Chain.endLast d.skip d.jumpOut.size) := by
  apply List.ext_getElem?
  intro i
  simp only [endBranch, await, Draft.modifyChain, Records.set, Records.modifyChain,
    List.getElem?_modify, Records.lastBranch, records_jumpOut]
  by_cases hi : chain = i
  · subst hi
    cases d.records.chains[chain]? with
    | none => rfl
    | some c => simp [Chain.endLast, array_modify_modify, Function.comp_def, size]
  · simp [hi]

@[simp] theorem ranges_endBranch :
    (d.endBranch chain).records.ranges = d.records.ranges := by
  rw [endBranch, await, Records.set, Draft.modifyChain, Records.modifyChain, Records.modifyChain,
    records_jumpOut]

@[simp] theorem opened_endBranch : (d.endBranch chain).opened = d.opened := opened_jumpOut

@[simp] theorem chains_addBranch (test : Test) :
    (d.addBranch chain test).records.chains
      = d.records.chains.modify chain fun c => { c with branches := c.branches.push (.fresh d.size) } := rfl

@[simp] theorem ranges_endChain : (d.endChain chain).records.ranges = d.records.ranges := by
  rw [endChain, Records.chainEnd]
  cases d.records.hasElse chain <;> cases d.records.hasSkips chain <;> rfl

@[simp] theorem chains_endChain :
    (d.endChain chain).records.chains = d.records.chains.modify chain (Chain.close d.size) := by
  apply List.ext_getElem?
  intro i
  rw [List.getElem?_modify, endChain, Records.chainEnd]
  by_cases hi : chain = i
  · subst hi
    cases hc : d.records.chains[chain]? with
    | none =>
      cases d.records.hasElse chain <;> cases d.records.hasSkips chain <;>
        simp [awaitAll, await, Records.set, Records.modifyChain, hc]
    | some c =>
      have helse : d.records.hasElse chain = c.hasElse := by simp [Records.hasElse, hc]
      have hskips : d.records.hasSkips chain = c.hasSkips := by simp [Records.hasSkips, hc]
      have hlast : d.records.lastBranch chain = c.lastBranch := by simp [Records.lastBranch, hc]
      cases he : c.hasElse <;> cases hs : c.hasSkips <;>
        simp [awaitAll, await, Records.set, Records.modifyChain, hc, helse, hskips, hlast, he, hs,
          Chain.close, size]
      rw [← he]
  · cases d.records.hasElse chain <;> cases d.records.hasSkips chain <;>
      simp [awaitAll, await, Records.set, Records.modifyChain, hi]

/-! ### Growth -/

variable {d' : Draft}

theorem prefix_opcodes (h : d.lines <+: d'.lines) : d.opcodes <+: d'.opcodes := h.map Line.opcode

theorem prefix_append (d : Draft) (op : Opcode) : d.lines <+: (d.append op).lines := ⟨_, rfl⟩

theorem prefix_jumpOut (d : Draft) : d.lines <+: d.jumpOut.lines := by
  unfold jumpOut
  split
  · exact d.prefix_append _
  · exact List.prefix_rfl

theorem prefix_endGuarded (d : Draft) (range : Nat) : d.lines <+: (d.endGuarded range).lines := by
  unfold endGuarded
  split
  · exact d.prefix_append _
  · exact d.prefix_jumpOut

theorem prefix_ensureReturn (d : Draft) : d.lines <+: d.ensureReturn.lines := by
  unfold ensureReturn
  split
  · exact d.prefix_append _
  · exact List.prefix_rfl

/-- What has been emitted stays. -/
theorem Step.prefix_lines (h : Step d d') : d.lines <+: d'.lines := by
  cases h with
  | append op => exact d.prefix_append op
  | @beginHandler range outer catches hopened => exact d.prefix_endGuarded range
  | beginRange | endRange hopened hhandlers => exact List.prefix_rfl
  | beginChain test | addBranch test hopened => exact d.prefix_append _
  | endBranch hopened helse | beginElse hopened helse => exact d.prefix_jumpOut
  | endChain hopened =>
    rw [lines_endChain]
    exact List.prefix_rfl

theorem Reaches.prefix_lines (h : Reaches d d') : d.lines <+: d'.lines := by
  induction h with
  | refl => exact List.prefix_rfl
  | tail _ hlast ih => exact ih.trans hlast.prefix_lines

end Draft

end BlockAssembler
