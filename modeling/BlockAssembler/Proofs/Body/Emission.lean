import BlockAssembler.Proofs.Body
import BlockAssembler.Proofs.Draft.Effects

/-! What a balanced stream adds to a draft: its linked code without the targets, and its
records. A balanced stream is never refused. -/

namespace BlockAssembler

/-! ### Sizes -/

@[simp] theorem length_skipCode (live : Bool) (join : Nat) :
    (skipCode live join).length = skipSize live := by
  cases live <;> rfl

mutual

@[simp] theorem Body.length_code (t : Body) (n : Nat) : (t.code n).length = t.size := by
  match t with
  | .nil => rfl
  | .op opcode rest =>
    simp only [Body.code, Body.size, List.length_cons, rest.length_code]
    omega
  | .guarded body catches handler more rest =>
    simp only [Body.code, Body.size, List.length_append, List.length_cons, body.length_code,
      handler.length_code, more.length_code, rest.length_code]
    omega
  | .chain condition test body more rest =>
    simp only [Body.code, Body.size, List.length_append, List.length_cons, condition.length_code,
      body.length_code, more.length_code, rest.length_code]
    omega

@[simp] theorem Catches.length_code (t : Catches) (n : Nat) (live : Bool) (join : Nat) :
    (t.code n live join).length = t.size live := by
  match t with
  | .done => rfl
  | .handler catches body more =>
    simp only [Catches.code, Catches.size, List.length_append, length_skipCode, body.length_code,
      more.length_code]

@[simp] theorem Arms.length_code (t : Arms) (n : Nat) (live : Bool) (join : Nat) :
    (t.code n live join).length = t.size live := by
  match t with
  | .done => rfl
  | .otherwise body =>
    simp only [Arms.code, Arms.size, List.length_append, length_skipCode, body.length_code]
  | .elseIf condition test body more =>
    simp only [Arms.code, Arms.size, List.length_append, List.length_cons, length_skipCode,
      condition.length_code, body.length_code, more.length_code]
    omega

end

namespace Draft

/-- What has been added between two drafts, apart from the targets of the jumps. -/
structure Adds (d d' : Draft) (code : List Instr) (ranges : List GuardedRange) (chains : List Chain) :
    Prop where
  opcodes : d'.opcodes = d.opcodes ++ code.map Instr.opcode
  ranges : d'.records.ranges = d.records.ranges ++ ranges
  chains : d'.records.chains = d.records.chains ++ chains
  opened : d'.opened = d.opened

variable {d d' : Draft}

theorem Adds.trans {d'' : Draft} {code code' : List Instr} {ranges ranges' : List GuardedRange}
    {chains chains' : List Chain} (h : Adds d d' code ranges chains)
    (h' : Adds d' d'' code' ranges' chains') :
    Adds d d'' (code ++ code') (ranges ++ ranges') (chains ++ chains') where
  opcodes := by rw [h'.opcodes, h.opcodes]; simp
  ranges := by rw [h'.ranges, h.ranges]; simp
  chains := by rw [h'.chains, h.chains]; simp
  opened := by rw [h'.opened, h.opened]

theorem Adds.append (d : Draft) (op : Opcode) : Adds d (d.append op) [.plain op] [] [] where
  opcodes := opcodes_append op
  ranges := (List.append_nil _).symm
  chains := (List.append_nil _).symm
  opened := rfl

/-- The number of instructions, and whether control can reach the end. -/
structure At (d : Draft) (n : Nat) (live : Bool) : Prop where
  size : d.size = n
  live : d.live = live

variable {n : Nat} {live : Bool}

theorem at_self (d : Draft) : d.At d.size d.live := ⟨rfl, rfl⟩

theorem At.skip (h : d.At n live) : d.skip = if live then some n else none := by
  rw [Draft.skip, h.size, h.live]

theorem opcodes_jumpOut_skipCode (h : d.At n live) (join : Nat) :
    d.jumpOut.opcodes = d.opcodes ++ (skipCode live join).map Instr.opcode := by
  rw [opcodes_jumpOut, h.live]
  cases live <;> rfl

theorem size_jumpOut (h : d.At n live) : d.jumpOut.size = n + skipSize live := by
  rw [← length_opcodes, opcodes_jumpOut_skipCode h 0, List.length_append, length_opcodes, h.size]
  simp

theorem emitAll_cons {item : Item} (h : emit item d = .ok d') (items : List Item) :
    emitAll (item :: items) d = emitAll items d' := by
  rw [emitAll, h]
  rfl

theorem emitAll_before {items : List Item} (h : emitAll items d = .ok d') (items' : List Item) :
    emitAll (items ++ items') d = emitAll items' d' := by
  rw [emitAll_append, h]
  rfl

/-! ### Guarded ranges -/

/-- The draft is inside a guarded range with the record `g`. -/
structure InRange (d : Draft) (before : List GuardedRange) (g : GuardedRange)
    (after : List GuardedRange) (outer : List Open) : Prop where
  opened : d.opened = .range before.length :: outer
  ranges : d.records.ranges = before ++ g :: after

section
variable {before after : List GuardedRange} {g : GuardedRange} {outer : List Open}

theorem InRange.adds (h : InRange d before g after outer) {code : List Instr}
    {ranges : List GuardedRange} {chains : List Chain} (hadds : Adds d d' code ranges chains) :
    InRange d' before g (after ++ ranges) outer :=
  ⟨by rw [hadds.opened, h.opened], by rw [hadds.ranges, h.ranges]; simp⟩

theorem InRange.handlerCount (h : InRange d before g after outer) :
    d.records.handlerCount before.length = g.handlers.size := by
  simp [Records.handlerCount, h.ranges]

theorem At.beginTry (h : d.At n live) :
    ∃ d', emit .beginTry d = .ok d' ∧ d'.At n true ∧ d'.opcodes = d.opcodes ∧
      InRange d' d.records.ranges ⟨some n, none, none, #[]⟩ [] d.opened ∧
      d'.records.chains = d.records.chains := by
  obtain ⟨rfl, rfl⟩ := h
  exact ⟨d.beginRange.await (.tryStart d.records.ranges.length), rfl, ⟨rfl, rfl⟩, rfl,
    ⟨rfl, ranges_beginRange⟩, rfl⟩

/-- Ends the guarded body and begins the first handler. -/
theorem InRange.firstCatch (h : InRange d before g after outer) (hat : d.At n live)
    (hg : g.handlers = #[]) (catches : Option String) :
    ∃ d', emit (.beginCatch catches) d = .ok d' ∧ d'.At (n + 1) true ∧
      d'.opcodes = d.opcodes ++ [.goto 0] ∧
      InRange d' before
        { g with skip := some n, handlers := #[⟨some (n + 1), catches, none⟩] } after outer ∧
      d'.records.chains = d.records.chains := by
  obtain ⟨rfl, rfl⟩ := hat
  have hcount : d.records.handlerCount before.length = 0 := by rw [h.handlerCount, hg]; rfl
  have hend : d.endGuarded before.length = d.endBody before.length := by
    rw [endGuarded, if_pos hcount]
  have hsize : (d.endBody before.length).size = d.size + 1 := size_append _
  refine ⟨(d.endGuarded before.length).beginHandler before.length catches, ?_, ⟨?_, rfl⟩, ?_,
    ⟨?_, ?_⟩, ?_⟩
  · rw [emit, currentRange, h.opened]
    rfl
  · rw [← hsize, ← hend]
    rfl
  · rw [opcodes_beginHandler, hend]
    exact opcodes_append _
  · rw [opened_beginHandler, opened_endGuarded, h.opened]
  · rw [ranges_beginHandler, ranges_endGuarded, hcount, h.ranges, hend, hsize]
    simp only [if_true, modify_length_append, GuardedRange.addHandler, hg]
    rfl
  · rw [chains_beginHandler, chains_endGuarded]

/-- Ends the last handler and begins another one. -/
theorem InRange.nextCatch (h : InRange d before g after outer) (hat : d.At n live)
    {hs : Array Handler} {k : Handler} (hg : g.handlers = hs.push k) (catches : Option String)
    (join : Nat) :
    ∃ d', emit (.beginCatch catches) d = .ok d' ∧ d'.At (n + skipSize live) true ∧
      d'.opcodes = d.opcodes ++ (skipCode live join).map Instr.opcode ∧
      InRange d' before
        (GuardedRange.addHandler (n + skipSize live) catches
          { g with handlers := hs.push { k with skip := d.skip } }) after outer ∧
      d'.records.chains = d.records.chains := by
  have hcount : d.records.handlerCount before.length ≠ 0 := by rw [h.handlerCount, hg]; simp
  have hend : d.endGuarded before.length = d.endHandler before.length := by
    rw [endGuarded, if_neg hcount]
  have hsize : (d.endHandler before.length).size = n + skipSize live := size_jumpOut hat
  refine ⟨(d.endGuarded before.length).beginHandler before.length catches, ?_, ⟨?_, rfl⟩, ?_,
    ⟨?_, ?_⟩, ?_⟩
  · rw [emit, currentRange, h.opened]
    rfl
  · rw [← hsize, ← hend]
    rfl
  · rw [opcodes_beginHandler, hend]
    exact opcodes_jumpOut_skipCode hat join
  · rw [opened_beginHandler, opened_endGuarded, h.opened]
  · rw [ranges_beginHandler, ranges_endGuarded, h.ranges, hend, hsize]
    simp only [hcount, if_false, modify_length_append, GuardedRange.addHandler, hg]
    simp [modify_size_push]
  · rw [chains_beginHandler, chains_endGuarded]

theorem InRange.endTry (h : InRange d before g after outer) (hn : d.size = n)
    (hg : g.handlers ≠ #[]) :
    ∃ d', emit .endTry d = .ok d' ∧ d'.At n true ∧ d'.opcodes = d.opcodes ∧
      d'.records.ranges = before ++ { g with join := some n } :: after ∧
      d'.records.chains = d.records.chains ∧ d'.opened = outer := by
  subst hn
  have hcount : d.records.handlerCount before.length ≠ 0 := by
    rw [h.handlerCount]
    simpa using hg
  refine ⟨d.popOpen.await (.tryEnd before.length), ?_, ⟨rfl, rfl⟩, rfl, ?_, rfl, ?_⟩
  · rw [emit, currentRange, h.opened]
    show (if d.records.handlerCount before.length = 0 then _ else _) = _
    rw [if_neg hcount]
    rfl
  · show d.records.ranges.modify before.length _ = _
    rw [h.ranges, modify_length_append]
    rfl
  · show d.opened.tail = outer
    rw [h.opened, List.tail_cons]

end

/-! ### Conditional chains -/

/-- The draft is inside a chain with the record `c`. -/
structure InChain (d : Draft) (before : List Chain) (c : Chain) (after : List Chain)
    (outer : List Open) : Prop where
  opened : d.opened = .chain before.length :: outer
  chains : d.records.chains = before ++ c :: after

theorem live_awaitAll (as : List Anchor) (d : Draft) :
    (d.awaitAll as).live = (d.live || !as.isEmpty) := by
  induction as generalizing d with
  | nil => simp [awaitAll]
  | cons a as ih =>
    rw [awaitAll, List.foldl_cons, ← awaitAll, ih]
    simp [await]

section
variable {before after : List Chain} {c : Chain} {outer : List Open}

theorem InChain.adds (h : InChain d before c after outer) {code : List Instr}
    {ranges : List GuardedRange} {chains : List Chain} (hadds : Adds d d' code ranges chains) :
    InChain d' before c (after ++ chains) outer :=
  ⟨by rw [hadds.opened, h.opened], by rw [hadds.chains, h.chains]; simp⟩

theorem At.beginIf {condition : List Item} (hcondition : emitAll condition d = .ok d')
    (h : d'.At n live) (test : Test) :
    ∃ d'', emit (.beginIf condition test) d = .ok d'' ∧ d''.At (n + 1) true ∧
      d''.opcodes = d'.opcodes ++ [.branch test 0] ∧
      InChain d'' d'.records.chains (.fresh n) [] d'.opened ∧
      d''.records.ranges = d'.records.ranges := by
  obtain ⟨rfl, rfl⟩ := h
  refine ⟨(d'.append (.branch test 0)).beginChain d'.size, ?_, ⟨size_append _, rfl⟩,
    opcodes_append _, ⟨rfl, rfl⟩, rfl⟩
  rw [emit, hcondition]
  rfl

/-- Ends the body of the last branch. -/
theorem InChain.endBranch (h : InChain d before c after outer) (hat : d.At n live)
    {brs : Array ChainBranch} {br : ChainBranch} (hc : c.branches = brs.push br) :
    InChain (d.endBranch before.length) before
      { c with branches :=
          brs.push { br with skip := d.skip, next := some (n + skipSize live) } } after outer := by
  refine ⟨by rw [opened_endBranch, h.opened], ?_⟩
  have hlast : c.lastBranch = brs.size := by simp [Chain.lastBranch, hc]
  rw [chains_endBranch, h.chains, modify_length_append, size_jumpOut hat, Chain.endLast, hlast, hc]
  simp [modify_size_push]

theorem At.endBranch (h : d.At n live) (chain : Nat) :
    (d.endBranch chain).At (n + skipSize live) true := ⟨size_jumpOut h, rfl⟩

theorem InChain.extendable (h : InChain d before c after outer) (helse : c.hasElse = false) :
    d.extendableChain = .ok before.length := by
  have hno : d.records.hasElse before.length = false := by simp [Records.hasElse, h.chains, helse]
  rw [extendableChain, h.opened]
  show (if d.records.hasElse before.length = true then _ else _) = _
  rw [hno]
  rfl

theorem InChain.elseIf (h : InChain d before c after outer) (helse : c.hasElse = false)
    {condition : List Item} (test : Test) {d₁ : Draft} {before' after' : List Chain} {c' : Chain}
    (hcondition : emitAll condition (d.endBranch before.length) = .ok d₁)
    (h₁ : InChain d₁ before' c' after' outer) (hbefore : before'.length = before.length)
    (hat : d₁.At n live) :
    ∃ d', emit (.elseIf condition test) d = .ok d' ∧ d'.At (n + 1) true ∧
      d'.opcodes = d₁.opcodes ++ [.branch test 0] ∧
      InChain d' before' { c' with branches := c'.branches.push (.fresh n) } after' outer ∧
      d'.records.ranges = d₁.records.ranges := by
  obtain ⟨rfl, rfl⟩ := hat
  refine ⟨d₁.addBranch before.length test, ?_, ⟨size_append _, rfl⟩, opcodes_append _,
    ⟨h₁.opened, ?_⟩, rfl⟩
  · rw [emit, h.extendable helse]
    show (do
      let d ← emitAll condition (d.endBranch before.length)
      let current ← d.currentChain
      if current = before.length then return d.addBranch before.length test
        else .error .unbalancedCondition) = _
    rw [hcondition, ← hbefore]
    show (do
      let current ← d₁.currentChain
      if current = before'.length then return d₁.addBranch before'.length test
        else .error .unbalancedCondition) = _
    rw [currentChain, h₁.opened]
    show (if before'.length = before'.length then _ else _) = _
    rw [if_pos rfl]
    rfl
  · show (d₁.records.chains.modify before.length _) = _
    rw [h₁.chains, ← hbefore, modify_length_append]

theorem InChain.beginElse (h : InChain d before c after outer) (hat : d.At n live)
    (helse : c.hasElse = false) {brs : Array ChainBranch} {br : ChainBranch}
    (hc : c.branches = brs.push br) (join : Nat) :
    ∃ d', emit .beginElse d = .ok d' ∧ d'.At (n + skipSize live) true ∧
      d'.opcodes = d.opcodes ++ (skipCode live join).map Instr.opcode ∧
      InChain d' before
        { c with
          hasElse := true
          branches := brs.push { br with skip := d.skip, next := some (n + skipSize live) } }
        after outer ∧
      d'.records.ranges = d.records.ranges := by
  have hend := h.endBranch hat hc
  refine ⟨(d.endBranch before.length).modifyChain before.length fun c => { c with hasElse := true },
    ?_, ⟨size_jumpOut hat, rfl⟩, opcodes_jumpOut_skipCode hat join, ⟨hend.opened, ?_⟩, ?_⟩
  · rw [emit, h.extendable helse]
    rfl
  · show ((d.endBranch before.length).records.chains.modify before.length _) = _
    rw [hend.chains, modify_length_append]
  · show (d.endBranch before.length).records.ranges = _
    exact ranges_endBranch

theorem InChain.endIf (h : InChain d before c after outer) (hat : d.At n live) :
    ∃ d', emit .endIf d = .ok d' ∧ d'.At n (live || (c.hasSkips || !c.hasElse)) ∧
      d'.opcodes = d.opcodes ∧ d'.records.chains = before ++ c.close n :: after ∧
      d'.records.ranges = d.records.ranges ∧ d'.opened = outer := by
  obtain ⟨rfl, rfl⟩ := hat
  refine ⟨d.popOpen.endChain before.length, ?_, ⟨?_, ?_⟩, opcodes_endChain, ?_, ranges_endChain, ?_⟩
  · rw [emit, currentChain, h.opened]
    rfl
  · rw [← length_opcodes, opcodes_endChain]
    exact length_opcodes
  · have helse : d.records.hasElse before.length = c.hasElse := by simp [Records.hasElse, h.chains]
    have hskips : d.records.hasSkips before.length = c.hasSkips := by simp [Records.hasSkips, h.chains]
    rw [endChain, live_awaitAll]
    show (d.live || !(d.records.chainEnd before.length).isEmpty) = _
    rw [Records.chainEnd, helse, hskips]
    cases c.hasElse <;> cases c.hasSkips <;> rfl
  · rw [chains_endChain]
    show d.records.chains.modify before.length (Chain.close d.size) = _
    rw [h.chains, modify_length_append]
  · rw [opened_endChain, popOpen, h.opened]
    rfl

end

/-- Without a final body the last test lands behind the chain. -/
theorem close_of_no_else {c : Chain} (helse : c.hasElse = false) {brs : Array ChainBranch}
    {br : ChainBranch} (hc : c.branches = brs.push br) (join : Nat) :
    c.close join = Chain.record (brs.toList ++ [{ br with next := some join }]) false join := by
  have hlast : c.lastBranch = brs.size := by simp [Chain.lastBranch, hc]
  have hbranches : c.branches.modify c.lastBranch (fun br => { br with next := some join })
      = (brs.toList ++ [{ br with next := some join }]).toArray := by
    rw [hlast, hc, modify_size_push, ← Array.toList_inj]
    simp
  simp [Chain.close, Chain.record, helse, hbranches]

theorem close_of_else (branches : Array ChainBranch) (join : Nat) :
    Chain.close join ⟨branches, none, true⟩ = Chain.record branches.toList true join := by
  simp [Chain.close, Chain.record, Chain.hasSkips]

/-! ### Trees -/

/-- The stream of the body is emitted from every draft, and adds what the body says. -/
def Emits (t : Body) : Prop :=
  ∀ ⦃d : Draft⦄ ⦃n : Nat⦄ ⦃live : Bool⦄, d.At n live →
    ∃ d', emitAll t.items d = .ok d' ∧ d'.At (n + t.size) (t.exit live) ∧
      Adds d d' (t.code n) (t.ranges n) (t.chains n)

/-- The handlers are emitted behind another one, with the record `k`, of the same range. -/
def EmitsCatches (t : Catches) : Prop :=
  ∀ ⦃d : Draft⦄ ⦃n : Nat⦄ ⦃live : Bool⦄, d.At n live →
    ∀ ⦃before after : List GuardedRange⦄ ⦃g : GuardedRange⦄ ⦃outer : List Open⦄,
    InRange d before g after outer →
    ∀ (hs : Array Handler) ⦃k : Handler⦄, g.handlers = hs.push k → k.skip = none → ∀ join : Nat,
    ∃ d', emitAll t.items d = .ok d' ∧ d'.size = n + t.size live ∧
      d'.opcodes = d.opcodes ++ (t.code n live join).map Instr.opcode ∧
      InRange d' before
        { g with handlers := hs ++ ({ k with skip := t.skip n live } :: t.handlers n live).toArray }
        (after ++ t.ranges n live) outer ∧
      d'.records.chains = d.records.chains ++ t.chains n live

/-- The branches are emitted behind another one, with the record `br`, of the same chain, and
the chain is ended. -/
def EmitsArms (t : Arms) : Prop :=
  ∀ ⦃d : Draft⦄ ⦃n : Nat⦄ ⦃live : Bool⦄, d.At n live →
    ∀ ⦃before after : List Chain⦄ ⦃c : Chain⦄ ⦃outer : List Open⦄,
    InChain d before c after outer → c.hasElse = false → c.join = none →
    ∀ (brs : Array ChainBranch) ⦃br : ChainBranch⦄, c.branches = brs.push br → br.skip = none →
    ∀ join : Nat,
    ∃ d', emitAll (t.items ++ [.endIf]) d = .ok d' ∧
      d'.At (n + t.size live) (t.exit (brs.any (fun br => br.skip.isSome) || live)) ∧
      d'.opcodes = d.opcodes ++ (t.code n live join).map Instr.opcode ∧
      d'.records.chains = before ++
        Chain.record (brs.toList ++ ⟨br.test, t.skip n live, some (t.next n live)⟩ :: t.branches n live)
          t.hasElse (n + t.size live) :: (after ++ t.chains n live) ∧
      d'.records.ranges = d.records.ranges ++ t.ranges n live ∧ d'.opened = outer

theorem emits_nil : Emits .nil := fun d _ _ hat =>
  ⟨d, rfl, hat, ⟨by simp [Body.code], by simp [Body.ranges], by simp [Body.chains], rfl⟩⟩

theorem Emits.op {rest : Body} (hrest : Emits rest) (opcode : Opcode) : Emits (.op opcode rest) := by
  intro d n live hat
  obtain ⟨rfl, rfl⟩ := hat
  obtain ⟨d', hrun, hat', hadds⟩ := hrest (d := d.append opcode) ⟨size_append _, rfl⟩
  refine ⟨d', hrun, ⟨?_, hat'.live⟩, (Adds.append d opcode).trans hadds⟩
  rw [hat'.size, Body.size, Nat.add_assoc]

theorem Emits.guarded {body handler rest : Body} {more : Catches} (hbody : Emits body)
    (catches : Option String) (hhandler : Emits handler) (hmore : EmitsCatches more)
    (hrest : Emits rest) : Emits (.guarded body catches handler more rest) := by
  intro d n live hat
  obtain ⟨d₀, hrun₀, hat₀, hops₀, h₀, hchains₀⟩ := hat.beginTry
  obtain ⟨d₁, hrun₁, hat₁, hadds₁⟩ := hbody hat₀
  obtain ⟨d₂, hrun₂, hat₂, hops₂, h₂, hchains₂⟩ := (h₀.adds hadds₁).firstCatch hat₁ rfl catches
  obtain ⟨d₃, hrun₃, hat₃, hadds₃⟩ := hhandler hat₂
  obtain ⟨d₄, hrun₄, hsize₄, hops₄, h₄, hchains₄⟩ := hmore hat₃ (h₂.adds hadds₃) #[] rfl rfl
    (n + body.size + 1 + handler.size + more.size (handler.exit true))
  obtain ⟨d₅, hrun₅, hat₅, hops₅, hranges₅, hchains₅, hopened₅⟩ := h₄.endTry hsize₄ (by simp)
  obtain ⟨d₆, hrun₆, hat₆, hadds₆⟩ := hrest hat₅
  refine ⟨d₆, ?_, ⟨?_, hat₆.live⟩, ⟨?_, ?_, ?_, ?_⟩⟩
  · simp only [Body.items, List.cons_append, List.append_assoc]
    rw [emitAll_cons hrun₀, emitAll_before hrun₁, emitAll_cons hrun₂, emitAll_before hrun₃,
      emitAll_before hrun₄, emitAll_cons hrun₅]
    exact hrun₆
  · rw [hat₆.size, Body.size]
    omega
  · rw [hadds₆.opcodes, hops₅, hops₄, hadds₃.opcodes, hops₂, hadds₁.opcodes, hops₀]
    simp [Body.code, Instr.opcode]
  · rw [hadds₆.ranges, hranges₅]
    simp [Body.ranges, GuardedRange.record]
  · rw [hadds₆.chains, hchains₅, hchains₄, hadds₃.chains, hchains₂, hadds₁.chains, hchains₀]
    simp [Body.chains]
  · rw [hadds₆.opened, hopened₅]

theorem Emits.chain {condition body rest : Body} {more : Arms} (hcondition : Emits condition)
    (test : Test) (hbody : Emits body) (hmore : EmitsArms more) (hrest : Emits rest) :
    Emits (.chain condition test body more rest) := by
  intro d n live hat
  obtain ⟨d₁, hrun₁, hat₁, hadds₁⟩ := hcondition hat
  obtain ⟨d₂, hrun₂, hat₂, hops₂, h₂, hranges₂⟩ := At.beginIf hrun₁ hat₁ test
  obtain ⟨d₃, hrun₃, hat₃, hadds₃⟩ := hbody hat₂
  obtain ⟨d₄, hrun₄, hat₄, hops₄, hchains₄, hranges₄, hopened₄⟩ :=
    hmore hat₃ (h₂.adds hadds₃) rfl rfl #[] rfl rfl
      (n + condition.size + 1 + body.size + more.size (body.exit true))
  obtain ⟨d₅, hrun₅, hat₅, hadds₅⟩ := hrest hat₄
  refine ⟨d₅, ?_, ⟨?_, ?_⟩, ⟨?_, ?_, ?_, ?_⟩⟩
  · have hitems : (Body.chain condition test body more rest).items = .beginIf condition.items test ::
        (body.items ++ ((more.items ++ [.endIf]) ++ rest.items)) := by simp [Body.items]
    rw [hitems, emitAll_cons hrun₂, emitAll_before hrun₃, emitAll_before hrun₄]
    exact hrun₅
  · rw [hat₅.size, Body.size]
    omega
  · rw [hat₅.live]
    simp [Body.exit]
  · rw [hadds₅.opcodes, hops₄, hadds₃.opcodes, hops₂, hadds₁.opcodes]
    simp [Body.code, Instr.opcode]
  · rw [hadds₅.ranges, hranges₄, hadds₃.ranges, hranges₂, hadds₁.ranges]
    simp [Body.ranges]
  · rw [hadds₅.chains, hchains₄, hadds₁.chains]
    simp [Body.chains, ChainBranch.fresh]
  · rw [hadds₅.opened, hopened₄, hadds₁.opened]

theorem emitsCatches_done : EmitsCatches .done := by
  intro d n live hat before after g outer h hs k hg hk join
  refine ⟨d, rfl, hat.size, by simp [Catches.code], ⟨h.opened, ?_⟩, by simp [Catches.chains]⟩
  have hk' : { k with skip := none } = k := by rw [← hk]
  rw [h.ranges]
  simp [Catches.ranges, Catches.skip, Catches.handlers, hk', ← hg]

theorem EmitsCatches.handler {body : Body} {more : Catches} (hmore : EmitsCatches more)
    (catches : Option String) (hbody : Emits body) : EmitsCatches (.handler catches body more) := by
  intro d n live hat before after g outer h hs k hg hk join
  obtain ⟨d₁, hrun₁, hat₁, hops₁, h₁, hchains₁⟩ := h.nextCatch hat hg catches join
  obtain ⟨d₂, hrun₂, hat₂, hadds₂⟩ := hbody hat₁
  obtain ⟨d₃, hrun₃, hsize₃, hops₃, h₃, hchains₃⟩ := hmore hat₂ (h₁.adds hadds₂)
    (hs.push { k with skip := d.skip }) rfl rfl join
  refine ⟨d₃, ?_, ?_, ?_, ?_, ?_⟩
  · rw [Catches.items, List.cons_append, emitAll_cons hrun₁, emitAll_before hrun₂]
    exact hrun₃
  · rw [hsize₃, Catches.size]
    omega
  · rw [hops₃, hadds₂.opcodes, hops₁]
    simp [Catches.code]
  · rw [Catches.skip, ← hat.skip, Catches.handlers, Catches.ranges]
    simpa [GuardedRange.addHandler] using h₃
  · rw [hchains₃, hadds₂.chains, hchains₁, Catches.chains]
    simp

theorem emitsArms_done : EmitsArms .done := by
  intro d n live hat before after c outer h helse hjoin brs br hc hbr join
  obtain ⟨d', hrun, hat', hops, hchains, hranges, hopened⟩ := h.endIf hat
  refine ⟨d', ?_, ⟨hat'.size, ?_⟩, by simp [hops, Arms.code], ?_, by simp [hranges, Arms.ranges], hopened⟩
  · exact emitAll_cons hrun []
  · rw [hat'.live, helse]
    simp [Arms.exit]
  · rw [hchains, close_of_no_else helse hc]
    simp [Arms.branches, Arms.skip, Arms.next, Arms.hasElse, Arms.size, Arms.chains, hbr]

theorem Emits.otherwise {body : Body} (hbody : Emits body) : EmitsArms (.otherwise body) := by
  intro d n live hat before after c outer h helse hjoin brs br hc hbr join
  obtain ⟨d₁, hrun₁, hat₁, hops₁, h₁, hranges₁⟩ := h.beginElse hat helse hc join
  obtain ⟨d₂, hrun₂, hat₂, hadds₂⟩ := hbody hat₁
  obtain ⟨d₃, hrun₃, hat₃, hops₃, hchains₃, hranges₃, hopened₃⟩ := (h₁.adds hadds₂).endIf hat₂
  refine ⟨d₃, ?_, ⟨?_, ?_⟩, ?_, ?_, ?_, hopened₃⟩
  · rw [Arms.items, List.cons_append, emitAll_cons hrun₁, emitAll_before hrun₂]
    exact emitAll_cons hrun₃ []
  · rw [hat₃.size, Arms.size, Nat.add_assoc]
  · rw [hat₃.live, hat.skip]
    cases live <;> simp [Chain.hasSkips, Arms.exit, Bool.or_comm]
  · rw [hops₃, hadds₂.opcodes, hops₁]
    simp [Arms.code]
  · simp only [hjoin] at hchains₃
    rw [hchains₃, close_of_else, hat.skip]
    simp [Arms.branches, Arms.skip, Arms.next, Arms.hasElse, Arms.size, Arms.chains, Nat.add_assoc]
  · rw [hranges₃, hadds₂.ranges, hranges₁, Arms.ranges]

theorem EmitsArms.elseIf {condition body : Body} {more : Arms} (hmore : EmitsArms more)
    (test : Test) (hcondition : Emits condition) (hbody : Emits body) :
    EmitsArms (.elseIf condition test body more) := by
  intro d n live hat before after c outer h helse hjoin brs br hc hbr join
  have h₁ := h.endBranch hat hc
  obtain ⟨d₂, hrun₂, hat₂, hadds₂⟩ := hcondition (hat.endBranch before.length)
  obtain ⟨d₃, hrun₃, hat₃, hops₃, h₃, hranges₃⟩ := h.elseIf helse test hrun₂ (h₁.adds hadds₂) rfl hat₂
  obtain ⟨d₄, hrun₄, hat₄, hadds₄⟩ := hbody hat₃
  obtain ⟨d₅, hrun₅, hat₅, hops₅, hchains₅, hranges₅, hopened₅⟩ :=
    hmore hat₄ (h₃.adds hadds₄) helse hjoin _ rfl rfl join
  refine ⟨d₅, ?_, ⟨?_, ?_⟩, ?_, ?_, ?_, hopened₅⟩
  · rw [Arms.items, List.cons_append, List.cons_append, List.append_assoc, emitAll_cons hrun₃,
      emitAll_before hrun₄]
    exact hrun₅
  · rw [hat₅.size, Arms.size]
    omega
  · rw [hat₅.live, hat.skip]
    cases live <;> simp [Arms.exit]
  · rw [hops₅, hadds₄.opcodes, hops₃, hadds₂.opcodes]
    show (d.jumpOut.opcodes ++ _ ++ _ ++ _ ++ _) = _
    rw [opcodes_jumpOut_skipCode hat join]
    simp [Arms.code, Instr.opcode]
  · rw [hchains₅, hat.skip]
    simp [Arms.branches, Arms.skip, Arms.next, Arms.hasElse, Arms.size, Arms.chains,
      ChainBranch.fresh, Nat.add_assoc]
  · rw [hranges₅, hadds₄.ranges, hranges₃, hadds₂.ranges, ranges_endBranch]
    simp [Arms.ranges]

mutual

theorem emits_body (t : Body) : Emits t := by
  match t with
  | .nil => exact emits_nil
  | .op opcode rest => exact (emits_body rest).op opcode
  | .guarded body catches handler more rest =>
    exact (emits_body body).guarded catches (emits_body handler) (emits_catches more) (emits_body rest)
  | .chain condition test body more rest =>
    exact (emits_body condition).chain test (emits_body body) (emits_arms more) (emits_body rest)

theorem emits_catches (t : Catches) : EmitsCatches t := by
  match t with
  | .done => exact emitsCatches_done
  | .handler catches body more => exact (emits_catches more).handler catches (emits_body body)

theorem emits_arms (t : Arms) : EmitsArms t := by
  match t with
  | .done => exact emitsArms_done
  | .otherwise body => exact (emits_body body).otherwise
  | .elseIf condition test body more =>
    exact (emits_arms more).elseIf test (emits_body condition) (emits_body body)

end

end Draft

end BlockAssembler
