import BlockAssembler.Proofs.Builder.Coherence

/-! What a builder is asked for over a whole sequence of calls, and that it stays coherent with that.
A call may be refused halfway, as a marker that does not fit or as a condition that holds such a
marker; what has been asked for by then stays asked for, and the builder can be used further. -/

namespace BlockAssembler.Builder

/-! ### Requests -/

section
variable {α : Type}

/-- What is asked for behind a computation: nothing if it is refused. -/
def following (x : Assembly α) (as : α → Builder → List Anchor) (b : Builder) : List Anchor :=
  match x.run b with
  | .ok a b' => as a b'
  | .error .. => []

variable {x : Assembly α} {as : α → Builder → List Anchor} {b b' : Builder}

theorem following_ok {a : α} (h : x.run b = .ok a b') : following x as b = as a b' := by rw [following, h]

theorem following_error {e : AssemblyError} (h : x.run b = .error e b') : following x as b = [] := by
  rw [following, h]

end

mutual

/-- The anchors that an item lets wait, in order, up to where it is refused. -/
def asks : Item → Builder → List Anchor
  | .op _, _ => []
  | .beginTry, b => [.tryStart b.ranges.size]
  | .beginCatch _, b => following currentRange (fun range b => [.handlerStart range (handlerCount b range)]) b
  | .endTry, b =>
    following currentRange (fun range b => if handlerCount b range = 0 then [] else [.tryEnd range]) b
  | .beginIf condition _, b => asksAll condition b
  | .elseIf condition _, b =>
    following extendableChain (fun chain b =>
      .branchNext chain (lastBranch b chain) :: following (endBranch chain) (fun _ b => asksAll condition b) b) b
  | .beginElse, b => following extendableChain (fun chain b => [.branchNext chain (lastBranch b chain)]) b
  | .endIf, b => following currentChain (fun chain b => chainEnd b chain) b

def asksAll : List Item → Builder → List Anchor
  | [], _ => []
  | item :: items, b => asks item b ++ following (emit item) (fun _ b => asksAll items b) b

end

/-! ### Steadiness -/

/-- The record of a structure is there, that of a chain with a first branch. -/
def Registered (b : Builder) : Open → Prop
  | .range range => (b.field? (.tryEnd range)).isSome
  | .chain chain => (b.field? (.branchNext chain 0)).isSome

/-- Between two steps a builder is coherent, everything that waits has a field, and what is open has
a record. -/
structure Steady (b : Builder) (asked : List Anchor) : Prop where
  coherent : b.Coherent asked
  waits : b.Waits
  registered : ∀ o ∈ b.opened, b.Registered o

variable {α β : Type} {x : Assembly α} {f : α → Assembly β} {b b' : Builder} {asked asked' : List Anchor}

theorem steady_empty : empty.Steady [] := ⟨coherent_empty, by simp [Waits, empty], by simp [empty]⟩

theorem Registered.mono {o : Open} (h : b.Registered o)
    (hfields : ∀ a, (b.field? a).isSome → (b'.field? a).isSome) : b'.Registered o := by
  cases o with
  | range range => exact hfields _ h
  | chain chain => exact hfields _ h

theorem Registered.isSome_lastBranch {chain : Nat} (h : b.Registered (.chain chain)) :
    (b.field? (.branchNext chain (lastBranch b chain))).isSome := by
  obtain ⟨c, hc, hpos⟩ : ∃ c, b.chains[chain]? = some c ∧ 0 < c.branches.size := by
    simpa [Registered, field?, Option.isSome_iff_exists, Option.bind_eq_some_iff, Array.getElem?_eq_some_iff] using h
  have hlt : c.lastBranch < c.branches.size := Nat.sub_lt hpos Nat.one_pos
  simp [field?, lastBranch, hc, hlt]

theorem Registered.isSome_chainEnd {chain : Nat} (h : b.Registered (.chain chain)) :
    ∀ a ∈ chainEnd b chain, (b.field? a).isSome := by
  have hlast := h.isSome_lastBranch
  have hjoin : (b.field? (.ifEnd chain)).isSome := by
    cases hc : b.chains[chain]? with
    | none => simp [Registered, field?, hc] at h
    | some c => simp [field?, hc]
  intro a ha
  unfold chainEnd at ha
  rcases List.mem_append.1 ha with ha | ha
  · split at ha
    · simp at ha
    · rwa [List.mem_singleton.1 ha]
  · split at ha
    · rwa [List.mem_singleton.1 ha]
    · simp at ha

namespace Steady

theorem added {op : Opcode} {ops : List Opcode} (hb : b.Steady asked) (h : Added op ops b b') : b'.Steady asked := by
  refine ⟨h.coherent hb.coherent hb.waits, h.waits, fun o ho => ?_⟩
  refine (hb.registered o (h.opened ▸ ho)).mono fun a ha => ?_
  rw [field?_eq, h.records, Records.isSome_field?_setAll, ← field?_eq]
  exact ha

theorem reshaped (hb : b.Steady asked) (h : Reshaped b b')
    (hopened : ∀ o ∈ b'.opened, o ∈ b.opened ∨ b'.Registered o) : b'.Steady asked := by
  refine ⟨h.coherent hb.coherent, h.waits hb.waits, fun o ho => ?_⟩
  rcases hopened o ho with hold | hnew
  · refine (hb.registered o hold).mono fun a ha => ?_
    rw [field?_eq]
    exact (h.fields a).isSome (field?_eq (b := b) a ▸ ha)
  · exact hnew

/-- The same structures stay open. -/
theorem reshaped_of_opened_eq (hb : b.Steady asked) (h : Reshaped b b') (hopened : b'.opened = b.opened) :
    b'.Steady asked :=
  hb.reshaped h fun _ ho => .inl (hopened ▸ ho)

theorem popped (hb : b.Steady asked) : Steady { b with opened := b.opened.tail } asked :=
  hb.reshaped ⟨rfl, rfl, rfl, fun _ => .inl rfl⟩ fun _ ho => .inl (List.mem_of_mem_tail ho)

theorem await (hb : b.Steady asked) {as : List Anchor} (has : ∀ a ∈ as, (b.field? a).isSome) :
    Steady { b with pending := b.pending ++ as } (asked ++ as) := by
  refine ⟨hb.coherent.await as, fun a ha => ?_, hb.registered⟩
  rw [← Array.mem_toList_iff, Array.toList_appendList, List.mem_append, Array.mem_toList_iff] at ha
  exact ha.elim (hb.waits a) (has a)

end Steady

/-! ### Steps -/

/-- From `b` the computation ends, well or as a malformed structure, and the builder it leaves is
steady with what has been asked for by then. -/
def Steadies (x : Assembly α) (b : Builder) (asked : List Anchor) : Prop :=
  (∃ a b', x.run b = .ok a b' ∧ b'.Steady asked) ∨
    ∃ m b', x.run b = .error (.malformedStructure m) b' ∧ b'.Steady asked

theorem Steadies.of_run {x y : Assembly α} (hrun : x.run b = y.run b') (hy : Steadies y b' asked) :
    Steadies x b asked := by
  rw [Steadies, hrun]
  exact hy

theorem Steadies.bind {as : α → Builder → List Anchor} (hx : Steadies x b asked)
    (hf : ∀ a b', x.run b = .ok a b' → b'.Steady asked → Steadies (f a) b' (asked ++ as a b')) :
    Steadies (x >>= f) b (asked ++ following x as b) := by
  rcases hx with ⟨a, b', hrun, hb'⟩ | ⟨m, b', hrun, hb'⟩
  · rw [following_ok hrun]
    exact (hf a b' hrun hb').of_run (bind_ok hrun f)
  · rw [following_error hrun, List.append_nil]
    exact .inr ⟨m, b', bind_error hrun f, hb'⟩

/-- Nothing more is asked for. -/
theorem Steadies.bind_quiet (hx : Steadies x b asked)
    (hf : ∀ a b', x.run b = .ok a b' → b'.Steady asked → Steadies (f a) b' asked) :
    Steadies (x >>= f) b asked := by
  rcases hx with ⟨a, b', hrun, hb'⟩ | ⟨m, b', hrun, hb'⟩
  · exact (hf a b' hrun hb').of_run (bind_ok hrun f)
  · exact .inr ⟨m, b', bind_error hrun f, hb'⟩

/-- Something is read off the builder. -/
theorem Steadies.lift {r : Except Malformation α} (hb : b.Steady asked) (hx : x.run b = (lift r).run b) :
    Steadies x b asked := by
  cases r with
  | ok a => exact .inl ⟨a, b, hx, hb⟩
  | error m => exact .inr ⟨m, b, hx, hb⟩

theorem lift_eq_ok {r : Except Malformation α} {a : α} (h : (lift r).run b = .ok a b') : r = .ok a ∧ b' = b := by
  cases r with
  | ok a =>
    cases h
    exact ⟨rfl, rfl⟩
  | error m => cases h

theorem Steadies.read {as : α → Builder → List Anchor} {r : Except Malformation α} (hb : b.Steady asked)
    (hx : x.run b = (Builder.lift r).run b) (hf : ∀ a, r = .ok a → Steadies (f a) b (asked ++ as a b)) :
    Steadies (x >>= f) b (asked ++ following x as b) :=
  (Steadies.lift hb hx).bind fun a b' hrun _ => by
    obtain ⟨ha, rfl⟩ := lift_eq_ok (hx ▸ hrun)
    exact hf a ha

/-- The counts that name the fields of a record are the same, and so are the open structures. -/
structure Alike (b b' : Builder) : Prop where
  opened : b'.opened = b.opened
  handlerCount : ∀ range, handlerCount b' range = handlerCount b range
  lastBranch : ∀ chain, lastBranch b' chain = lastBranch b chain

theorem Alike.refl (b : Builder) : Alike b b := ⟨rfl, fun _ => rfl, fun _ => rfl⟩

theorem Alike.trans {b₁ b₂ b₃ : Builder} (h : Alike b₁ b₂) (h' : Alike b₂ b₃) : Alike b₁ b₃ where
  opened := h'.opened.trans h.opened
  handlerCount range := (h'.handlerCount range).trans (h.handlerCount range)
  lastBranch chain := (h'.lastBranch chain).trans (h.lastBranch chain)

/-- The computation ends well, asks for nothing, and begins no handler and no branch. -/
def Quiet (x : Assembly α) (b : Builder) (asked : List Anchor) : Prop :=
  ∃ a b', x.run b = .ok a b' ∧ b'.Steady asked ∧ Alike b b'

theorem Quiet.bind (hx : Quiet x b asked) (hf : ∀ a b', b'.Steady asked → Quiet (f a) b' asked) :
    Quiet (x >>= f) b asked := by
  obtain ⟨a, b', hrun, hb', halike⟩ := hx
  obtain ⟨c, b'', hrun', hb'', halike'⟩ := hf a b' hb'
  exact ⟨c, b'', by rw [bind_ok hrun, hrun'], hb'', halike.trans halike'⟩

theorem Quiet.bind_steadies (hx : Quiet x b asked)
    (hf : ∀ a b', b'.Steady asked → Alike b b' → Steadies (f a) b' asked') : Steadies (x >>= f) b asked' := by
  obtain ⟨a, b', hrun, hb', halike⟩ := hx
  exact (hf a b' hb' halike).of_run (bind_ok hrun f)

theorem Added.alike {op : Opcode} {ops : List Opcode} (h : Added op ops b b') : Alike b b' where
  opened := h.opened
  handlerCount range := by
    rw [handlerCount_records, h.records, Records.handlerCount_setAll, handlerCount_records]
  lastBranch chain := by
    rw [lastBranch_records, h.records, Records.lastBranch_setAll, lastBranch_records]

theorem quiet_append (hb : b.Steady asked) (op : Opcode) : Quiet (append op) b asked := by
  obtain ⟨b', hrun, h⟩ := append_added hb.waits op
  exact ⟨_, b', hrun, hb.added h, h.alike⟩

theorem quiet_jumpOut (hb : b.Steady asked) : Quiet jumpOut b asked := by
  by_cases hfalls : b.fallsThrough = true
  · obtain ⟨a, b', hrun, h⟩ := quiet_append hb (.goto 0)
    exact ⟨some a, b', by rw [jumpOut, get_bind, if_pos hfalls, map_ok hrun], h⟩
  · exact ⟨none, b, by rw [jumpOut, get_bind, if_neg hfalls, EStateM.run_pure], hb, .refl b⟩

/-- A change of a range that adds no handler. -/
theorem quiet_modifyRange (hb : b.Steady asked) (range : Nat) {f : GuardedRange → GuardedRange} (hf : RangeKeeps f)
    (hsize : ∀ g, (f g).handlers.size = g.handlers.size) : Quiet (modify (·.modifyRange range f)) b asked := by
  refine ⟨_, _, rfl, hb.reshaped_of_opened_eq (reshaped_modifyRange range hf) rfl, rfl, fun i => ?_, fun _ => rfl⟩
  simp only [handlerCount, modifyRange, Array.getElem?_modify]
  cases b.ranges[i]? with
  | none => simp
  | some g => split <;> simp [hsize]

theorem quiet_endGuarded (hb : b.Steady asked) (range : Nat) : Quiet (endGuarded range) b asked := by
  by_cases hcount : handlerCount b range = 0
  · have hbody : Quiet (endBody range) b asked := (quiet_append hb (.goto 0)).bind fun jump b' hb' =>
      quiet_modifyRange hb' range (rangeKeeps_skip (some jump)) fun _ => rfl
    obtain ⟨a, b', hrun, h⟩ := hbody
    exact ⟨a, b', by rw [endGuarded_of_unhandled hcount, hrun], h⟩
  · have hhandler : Quiet (endHandler range) b asked := (quiet_jumpOut hb).bind fun skip b' hb' =>
      quiet_modifyRange hb' range (rangeKeeps_handlerSkip skip) fun g => by simp
    obtain ⟨a, b', hrun, h⟩ := hhandler
    exact ⟨a, b', by rw [endGuarded_of_handled hcount, hrun], h⟩

theorem steadies_await (hb : b.Steady asked) {a : Anchor} (ha : (b.field? a).isSome) :
    Steadies (awaitNext a) b (asked ++ [a]) := by
  refine .inl ⟨(), { b with pending := b.pending ++ [a] }, ?_, hb.await (by simpa using ha)⟩
  rw [awaitNext, EStateM.run_modify]
  simp

theorem steadies_beginHandler (hb : b.Steady asked) {range : Nat} (hrange : .range range ∈ b.opened)
    (catches : Option String) :
    Steadies (beginHandler range catches) b (asked ++ [.handlerStart range (handlerCount b range)]) := by
  obtain ⟨g, hg⟩ : ∃ g, b.ranges[range]? = some g := by
    simpa [Registered, field?, Option.isSome_iff_exists] using hb.registered _ hrange
  rw [beginHandler, Steadies, get_bind, modify_bind]
  refine steadies_await (hb.reshaped_of_opened_eq (reshaped_modifyRange range (rangeKeeps_push catches)) rfl) ?_
  simp [field?, handlerCount, modifyRange, Array.getElem?_modify, hg]

theorem steadies_endBranch (hb : b.Steady asked) {chain : Nat} (hchain : .chain chain ∈ b.opened) :
    Steadies (endBranch chain) b (asked ++ [.branchNext chain (lastBranch b chain)]) := by
  refine (quiet_jumpOut hb).bind_steadies fun skip b' hb' halike => ?_
  rw [← halike.lastBranch, Steadies, get_bind, modify_bind]
  have hreshaped := reshaped_modifyChain (b := b') chain (chainKeeps_skip (lastBranch b' chain) skip)
  refine steadies_await (hb'.reshaped_of_opened_eq hreshaped rfl) ?_
  rw [field?_eq]
  refine (hreshaped.fields _).isSome ?_
  rw [← field?_eq]
  exact (hb'.registered _ (halike.opened ▸ hchain)).isSome_lastBranch

/-- Leaves a range and lets its end wait. -/
theorem steadies_closeRange (hb : b.Steady asked) {range : Nat} (hrange : .range range ∈ b.opened) :
    Steadies (popOpen >>= fun _ => awaitNext (.tryEnd range)) b (asked ++ [.tryEnd range]) := by
  rw [Steadies, popOpen, modify_bind]
  exact steadies_await hb.popped (hb.registered _ hrange)

theorem steadies_closeChain (hb : b.Steady asked) {chain : Nat} (hchain : .chain chain ∈ b.opened) :
    Steadies (popOpen >>= fun _ => endChain chain) b (asked ++ chainEnd b chain) := by
  rw [Steadies, popOpen, modify_bind]
  exact .inl ⟨(), _, rfl, hb.popped.await (hb.registered _ hchain).isSome_chainEnd⟩

theorem steadies_beginTry (hb : b.Steady asked) :
    Steadies (openRange >>= fun range => awaitNext (.tryStart range)) b (asked ++ [.tryStart b.ranges.size]) := by
  have hopen : openRange.run b = .ok b.ranges.size b.withRange := rfl
  refine .of_run (bind_ok hopen _) (steadies_await (hb.reshaped reshaped_withRange fun o ho => ?_) ?_)
  · rcases List.mem_cons.1 ho with rfl | hold
    · exact .inr (by simp [Registered, field?, withRange])
    · exact .inl hold
  · simp [field?, withRange]

theorem steadies_openChain (hb : b.Steady asked) (test : Handle) : Steadies (openChain test) b asked := by
  refine .inl ⟨(), b.withChain test, rfl, hb.reshaped (reshaped_withChain test) fun o ho => ?_⟩
  rcases List.mem_cons.1 ho with rfl | hold
  · exact .inr (by simp [Registered, field?, withChain, Chain.fresh])
  · exact .inl hold

theorem steadies_modifyChain (hb : b.Steady asked) (chain : Nat) {f : Chain → Chain} (hf : ChainKeeps f) :
    Steadies (modify (·.modifyChain chain f)) b asked :=
  .inl ⟨_, _, rfl, hb.reshaped_of_opened_eq (reshaped_modifyChain chain hf) rfl⟩

theorem steadies_addBranch (hb : b.Steady asked) (chain : Nat) (test : Test) :
    Steadies (append (.branch test 0) >>= fun jump =>
      modify (·.modifyChain chain fun c => { c with branches := c.branches.push (.fresh jump) })) b asked :=
  (quiet_append hb (.branch test 0)).bind_steadies fun jump _ hb' _ =>
    steadies_modifyChain hb' chain (chainKeeps_push jump)

theorem mem_opened_of_currentRange {range : Nat} (h : b.draft.currentRange = .ok range) :
    .range range ∈ b.opened := by
  obtain ⟨outer, hopened⟩ := Draft.currentRange_eq_ok h
  exact (show b.opened = _ from hopened) ▸ List.mem_cons_self

theorem mem_opened_of_currentChain {chain : Nat} (h : b.draft.currentChain = .ok chain) :
    .chain chain ∈ b.opened := by
  obtain ⟨outer, hopened⟩ := Draft.currentChain_eq_ok h
  exact (show b.opened = _ from hopened) ▸ List.mem_cons_self

theorem mem_opened_of_extendableChain {chain : Nat} (h : b.draft.extendableChain = .ok chain) :
    .chain chain ∈ b.opened := by
  obtain ⟨⟨outer, hopened⟩, -⟩ := Draft.extendableChain_eq_ok h
  exact (show b.opened = _ from hopened) ▸ List.mem_cons_self

mutual

/-- An item leaves the builder steady, also when it is refused. -/
theorem emit_steadies (item : Item) (b : Builder) (asked : List Anchor) (hb : b.Steady asked) :
    Steadies (emit item) b (asked ++ asks item b) := by
  match item with
  | .op opcode =>
    rw [emit, asks, List.append_nil]
    exact (quiet_append hb opcode).bind_steadies fun _ b' hb' _ => .inl ⟨(), b', rfl, hb'⟩
  | .beginTry =>
    rw [emit, asks]
    exact steadies_beginTry hb
  | .beginCatch className =>
    rw [emit, asks]
    refine .read hb currentRange_run fun range hrange => ?_
    have hopen := mem_opened_of_currentRange hrange
    refine (quiet_endGuarded hb range).bind_steadies fun _ b' hb' halike => ?_
    rw [← halike.handlerCount]
    exact steadies_beginHandler hb' (halike.opened ▸ hopen) className
  | .endTry =>
    rw [emit, asks]
    refine .read hb currentRange_run fun range hrange => ?_
    have hopen := mem_opened_of_currentRange hrange
    by_cases hcount : handlerCount b range = 0
    · rw [if_pos hcount, List.append_nil]
      refine .inr ⟨.rangeWithoutHandlers, b, ?_, hb⟩
      rw [get_bind, bind_error (ensure_run_error (by simpa using hcount) _)]
    · rw [if_neg hcount]
      refine .of_run ?_ (steadies_closeRange hb hopen)
      rw [get_bind, bind_ok (ensure_run hcount _)]
  | .beginIf condition test =>
    rw [emit, asks]
    refine (emitAll_steadies condition b asked hb).bind_quiet fun _ b₁ _ hb₁ => ?_
    exact (quiet_append hb₁ (.branch test 0)).bind_steadies fun jump b₂ hb₂ _ => steadies_openChain hb₂ jump
  | .elseIf condition test =>
    rw [emit, asks]
    refine .read hb extendableChain_run fun chain hchain => ?_
    rw [List.append_cons]
    refine (steadies_endBranch hb (mem_opened_of_extendableChain hchain)).bind fun _ b₁ _ hb₁ => ?_
    refine (emitAll_steadies condition b₁ _ hb₁).bind_quiet fun _ b₂ _ hb₂ => ?_
    -- Whatever the condition has done, the branch is asked about again, and goes to the same record.
    refine (Steadies.lift hb₂ currentChain_run).bind_quiet fun current b₃ _ hb₃ => ?_
    by_cases heq : current = chain
    · exact .of_run (bind_ok (ensure_run heq _) _) (steadies_addBranch hb₃ chain test)
    · exact .inr ⟨.unbalancedCondition, b₃, bind_error (ensure_run_error heq _) _, hb₃⟩
  | .beginElse =>
    rw [emit, asks]
    refine .read hb extendableChain_run fun chain hchain => ?_
    refine (steadies_endBranch hb (mem_opened_of_extendableChain hchain)).bind_quiet fun _ b' _ hb' => ?_
    exact steadies_modifyChain hb' chain chainKeeps_else
  | .endIf =>
    rw [emit, asks]
    refine .read hb currentChain_run fun chain hchain => ?_
    exact steadies_closeChain hb (mem_opened_of_currentChain hchain)

theorem emitAll_steadies (items : List Item) (b : Builder) (asked : List Anchor) (hb : b.Steady asked) :
    Steadies (emitAll items) b (asked ++ asksAll items b) := by
  match items with
  | [] =>
    rw [emitAll, asksAll, List.append_nil]
    exact .inl ⟨(), b, rfl, hb⟩
  | item :: items =>
    rw [emitAll, asksAll, ← List.append_assoc]
    exact (emit_steadies item b asked hb).bind fun _ b' _ hb' => emitAll_steadies items b' _ hb'

end

/-! ### Calls -/

/-- A call of the interface of a builder. -/
inductive Call
  | append (op : Opcode)
  | appendAll (ops : List Opcode)
  | await (a : Anchor)
  | emit (item : Item)
  | replaceTail (count : Nat) (op : Opcode)

namespace Call

def run : Call → Assembly Unit
  | append op => do
    let _ ← Builder.append op
  | appendAll ops => do
    let _ ← Builder.appendAll ops
  | await a => awaitNext a
  | emit item => Builder.emit item
  | replaceTail count op => do
    let _ ← Builder.replaceTail count op

/-- The anchors that the call asks for. -/
def asks : Call → Builder → List Anchor
  | await a, _ => [a]
  | emit item, b => Builder.asks item b
  | append _, _ | appendAll _, _ | replaceTail _ _, _ => []

/-- An anchor names a field that there is, and only instructions that there are get replaced. -/
def Proper (b : Builder) : Call → Prop
  | await a => (b.field? a).isSome
  | replaceTail count _ => count ≤ b.code.size
  | append _ | appendAll _ | emit _ => True

instance decidableProper (b : Builder) : (c : Call) → Decidable (c.Proper b)
  | await a => inferInstanceAs (Decidable ((b.field? a).isSome = true))
  | replaceTail count _ => inferInstanceAs (Decidable (count ≤ b.code.size))
  | append _ | appendAll _ | emit _ => .isTrue trivial

/-- The call ends, well or as a malformed structure. -/
def Ends (b : Builder) (c : Call) : Prop :=
  (∃ b', c.run.run b = .ok () b') ∨ ∃ m b', c.run.run b = .error (.malformedStructure m) b'

/-- The builder that the call leaves, also if it is refused. -/
def after (b : Builder) (c : Call) : Builder :=
  match c.run.run b with
  | .ok _ b' | .error _ b' => b'

end Call

/-- The builder that calls leave, one after the other. -/
def afterAll (calls : List Call) (b : Builder) : Builder := calls.foldl Call.after b

/-- All the anchors that calls ask for. -/
def askedBy : List Call → Builder → List Anchor
  | [], _ => []
  | c :: calls, b => c.asks b ++ askedBy calls (c.after b)

/-- Each call is proper when its turn comes. -/
def ProperAll : List Call → Builder → Prop
  | [], _ => True
  | c :: calls, b => c.Proper b ∧ ProperAll calls (c.after b)

instance decidableProperAll : (calls : List Call) → (b : Builder) → Decidable (ProperAll calls b)
  | [], _ => .isTrue trivial
  | c :: calls, b =>
    have := decidableProperAll calls (c.after b)
    inferInstanceAs (Decidable (c.Proper b ∧ ProperAll calls (c.after b)))

theorem steadies_appendAll (hb : b.Steady asked) (ops : List Opcode) : Steadies (appendAll ops) b asked := by
  cases ops with
  | nil => exact .inl ⟨none, b, rfl, hb⟩
  | cons op ops =>
    obtain ⟨b', hrun, h⟩ := appendAll_run hb.waits op ops
    exact .inl ⟨_, b', hrun, hb.added h⟩

theorem steadies_replaceTail (hb : b.Steady asked) {count : Nat} (hcount : count ≤ b.code.size) (op : Opcode) :
    Steadies (replaceTail count op) b asked := by
  obtain ⟨b', hrun, h⟩ := hb.coherent.arranged.replaceTail_run hb.coherent.isSome_field? hcount op
  refine .inl ⟨_, b', hrun, h.coherent hb.coherent, h.waits hb.waits, fun o ho => ?_⟩
  obtain ⟨as, hrecords, -⟩ := h.records
  refine (hb.registered o (h.opened ▸ ho)).mono fun a ha => ?_
  rwa [field?_eq, hrecords, Records.isSome_field?_setAll, ← field?_eq]

theorem call_steadies (hb : b.Steady asked) (c : Call) (hc : c.Proper b) : Steadies c.run b (asked ++ c.asks b) := by
  cases c with
  | append op =>
    rw [Call.asks, List.append_nil]
    exact (quiet_append hb op).bind_steadies fun _ b' hb' _ => .inl ⟨(), b', rfl, hb'⟩
  | appendAll ops =>
    rw [Call.asks, List.append_nil]
    exact (steadies_appendAll hb ops).bind_quiet fun _ b' _ hb' => .inl ⟨(), b', rfl, hb'⟩
  | await a => exact steadies_await hb hc
  | emit item => exact emit_steadies item b asked hb
  | replaceTail count op =>
    rw [Call.asks, List.append_nil]
    exact (steadies_replaceTail hb hc op).bind_quiet fun _ b' _ hb' => .inl ⟨(), b', rfl, hb'⟩

theorem Steadies.after {c : Call} (h : Steadies c.run b asked) : (c.after b).Steady asked := by
  rcases h with ⟨_, b', hrun, hb'⟩ | ⟨m, b', hrun, hb'⟩
  · rwa [Call.after, hrun]
  · rwa [Call.after, hrun]

theorem Steadies.ends {c : Call} (h : Steadies c.run b asked) : c.Ends b := by
  rcases h with ⟨_, b', hrun, -⟩ | ⟨m, b', hrun, -⟩
  · exact .inl ⟨b', hrun⟩
  · exact .inr ⟨m, b', hrun⟩

theorem Steady.afterAll {calls : List Call} (hb : b.Steady asked) (hcalls : ProperAll calls b) :
    (afterAll calls b).Steady (asked ++ askedBy calls b) := by
  induction calls generalizing b asked with
  | nil => rwa [askedBy, List.append_nil]
  | cons c calls ih =>
    rw [askedBy, ← List.append_assoc]
    exact ih (call_steadies hb c hcalls.1).after hcalls.2

/-- Whatever calls have led to a builder, refused ones among them, it is coherent with all that they
have asked for; every further call ends, too; and instructions that are added take over what waits,
in its order. -/
theorem coherent_afterAll (calls : List Call) (hcalls : ProperAll calls empty) {b : Builder}
    (hb : afterAll calls empty = b) :
    b.Coherent (askedBy calls empty) ∧ (∀ c : Call, c.Proper b → c.Ends b) ∧
      (∀ op, ∃ b', (append op).run b = .ok b.arena.size b' ∧ Added op [] b b') ∧
      ∀ op ops, ∃ b', (appendAll (op :: ops)).run b = .ok (some b.arena.size) b' ∧ Added op ops b b' := by
  subst hb
  have hsteady : (afterAll calls empty).Steady (askedBy calls empty) := steady_empty.afterAll hcalls
  refine ⟨hsteady.coherent, fun c hc => ?_, append_added hsteady.waits, appendAll_run hsteady.waits⟩
  exact (call_steadies hsteady c hc).ends

/-- The end of a range is refused while there is no handler; its start is asked for once more; both
starts end up at a replacement; and a condition is refused halfway. -/
def wavering : List Call := [
  .emit .beginTry, .append .aconstNull, .emit .endTry, .await (.tryStart 0), .emit (.beginCatch none),
  .appendAll [.aconstNull, .areturn], .replaceTail 3 .voidReturn, .appendAll [],
  .emit (.beginIf [.beginTry, .endTry] .ifeq)]

theorem coherent_wavering :
    (afterAll wavering empty).Coherent [.tryStart 0, .tryStart 0, .handlerStart 0 0, .tryStart 1] ∧
      (afterAll wavering empty).code = #[0, 4] ∧
      (afterAll wavering empty).references 4 = #[.tryStart 0, .handlerStart 0 0] :=
  ⟨(coherent_afterAll wavering (by decide) rfl).1, by decide, by decide⟩

end BlockAssembler.Builder
