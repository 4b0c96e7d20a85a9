import BlockAssembler.Block.Tail
import BlockAssembler.Proofs.Draft.Intact

/-! On an intact builder no step of a stream meets a contradiction: a stream is refused
exactly when its draft is refused, with the same cause. -/

namespace BlockAssembler.Builder

variable {b : Builder}

/-! ### Views -/

theorem opcode?_eq (h : Handle) : b.opcode? h = b.draft.opcodes[h]? := by
  simp only [opcode?, draft, Draft.opcodes, List.map_map, List.getElem?_map, Array.getElem?_toList]
  rfl

theorem last?_eq (hb : b.Intact) : b.last? = b.draft.opcodes.getLast? := by
  have hlength : b.draft.opcodes.length = b.arena.size := by rw [Draft.length_opcodes, size_draft]
  rw [last?, hb.code_eq, List.getLast?_eq_getElem?, hlength, Array.back?_eq_getElem?, Array.size_range]
  by_cases hempty : b.arena.size = 0
  · rw [List.getElem?_eq_none (by omega), Array.getElem?_eq_none (by simp [hempty])]
    rfl
  · rw [Array.getElem?_range, if_pos (by omega), Option.bind_some, opcode?_eq]

theorem handlerCount_eq (range : Nat) : handlerCount b range = b.draft.records.handlerCount range := by
  show _ = (Records.setAll _ _ b.records).handlerCount range
  rw [Records.handlerCount_setAll, handlerCount_records]

theorem hasElse_eq (chain : Nat) : hasElse b chain = b.draft.records.hasElse chain := by
  show _ = (Records.setAll _ _ b.records).hasElse chain
  rw [Records.hasElse_setAll]
  simp [hasElse, Records.hasElse, records]

theorem lastBranch_eq (chain : Nat) : lastBranch b chain = b.draft.records.lastBranch chain := by
  show _ = (Records.setAll _ _ b.records).lastBranch chain
  rw [Records.lastBranch_setAll, lastBranch_records]

theorem hasSkips_eq (chain : Nat) :
    b.chains[chain]?.any Chain.hasSkips = b.draft.records.hasSkips chain := by
  show _ = (Records.setAll _ _ b.records).hasSkips chain
  rw [Records.hasSkips_setAll]
  simp [Records.hasSkips, records]

theorem chainEnd_eq (chain : Nat) : chainEnd b chain = b.draft.records.chainEnd chain := by
  rw [chainEnd, Records.chainEnd, hasElse_eq, lastBranch_eq, hasSkips_eq]

/-! ### Guarded ranges -/

theorem openRange_does (hb : b.Intact) :
    Does openRange b b.draft.records.ranges.length b.draft.beginRange := by
  have hlength : b.draft.records.ranges.length = b.ranges.size := by simp [draft, records]
  rw [hlength]
  refine ⟨b.withRange, rfl, reshaped_withRange.intact hb, ?_⟩
  have hset : Records.setAll b.withRange.arena.size b.withRange.pending.toList b.records.addRange
      = (Records.setAll b.arena.size b.pending.toList b.records).addRange :=
    Records.setAll_addRange fun a ha => hb.waits a (Array.mem_toList_iff.1 ha)
  have hlive : b.withRange.fallsThrough = b.fallsThrough := rfl
  rw [Draft.beginRange, hlength, draft, records_withRange, hlive, hset]
  rfl

/-- Goes on with the result of a draft, or is refused as the draft is. -/
def lift {α : Type} : Except Malformation α → Assembly α
  | .ok a => pure a
  | .error m => throw (.malformedStructure m)

theorem currentRange_run : currentRange.run b = (lift b.draft.currentRange).run b := by
  have hopened : b.draft.opened = b.opened := rfl
  rw [currentRange, get_bind, Draft.currentRange, hopened]
  rcases b.opened with _ | ⟨_ | _, _⟩ <;> rfl

theorem endBody_settles (hb : b.Intact) (range : Nat) :
    Settles (endBody range) b () (b.draft.endBody range) := by
  unfold endBody Draft.endBody
  refine (append_settles hb (.goto 0)).settled_bind fun b' hb' hdraft hp => ?_
  rw [← hdraft]
  exact modifyRange_settles hb' hp _ (rangeKeeps_skip _)

theorem endHandler_settles (hb : b.Intact) (range : Nat) :
    Settles (endHandler range) b () (b.draft.endHandler range) := by
  unfold endHandler Draft.endHandler
  refine (jumpOut_settles hb).settled_bind fun b' hb' hdraft hp => ?_
  rw [← hdraft]
  exact modifyRange_settles hb' hp _ (rangeKeeps_handlerSkip _)

theorem endGuarded_settles (hb : b.Intact) (range : Nat) :
    Settles (endGuarded range) b () (b.draft.endGuarded range) := by
  unfold Draft.endGuarded
  rw [← handlerCount_eq]
  by_cases hcount : handlerCount b range = 0
  · obtain ⟨b', hrun, hend⟩ := endBody_settles hb range
    refine ⟨b', ?_, by rwa [if_pos hcount]⟩
    rw [endGuarded_of_unhandled hcount, hrun]
  · obtain ⟨b', hrun, hend⟩ := endHandler_settles hb range
    refine ⟨b', ?_, by rwa [if_neg hcount]⟩
    rw [endGuarded_of_handled hcount, hrun]

theorem beginHandler_does (hb : b.Intact) (hp : b.pending = #[]) {range : Nat}
    (hrange : range < b.draft.records.ranges.length) (catches : Option String) :
    Does (beginHandler range catches) b () (b.draft.beginHandler range catches) := by
  obtain ⟨b', hrun, hb', hdraft, -⟩ := modifyRange_settles hb hp range (rangeKeeps_push catches)
  have hfield : (b'.draft.records.field? (.handlerStart range (handlerCount b range))).isSome := by
    rw [hdraft, handlerCount_eq]
    simp [Draft.modifyRange, Records.modifyRange, Records.field?, Records.handlerCount, hrange]
  obtain ⟨b'', hrun', hend⟩ := awaitNext_does hb' hfield
  refine ⟨b'', ?_, by rwa [hdraft, handlerCount_eq] at hend⟩
  rw [beginHandler, get_bind, bind_ok hrun, hrun']

theorem popOpen_does (hb : b.Intact) : Does popOpen b () b.draft.popOpen :=
  ⟨_, rfl, ⟨hb.code_eq, hb.alive, hb.waits, hb.lists, hb.listed⟩, rfl⟩

theorem closeRange_does (hb : b.Intact) {range : Nat} (hlt : range < b.draft.records.ranges.length) :
    Does (popOpen >>= fun _ => awaitNext (.tryEnd range)) b ()
      (b.draft.popOpen.await (.tryEnd range)) := by
  refine (popOpen_does hb).bind fun b' hb' hdraft => ?_
  rw [← hdraft]
  refine awaitNext_does hb' ?_
  rw [hdraft]
  simp [Draft.popOpen, Records.field?, hlt]

/-! ### Conditional chains -/

theorem openChain_does (hb : b.Intact) (hp : b.pending = #[]) (test : Handle) :
    Does (openChain test) b () (b.draft.beginChain test) := by
  refine ⟨b.withChain test, rfl, (reshaped_withChain test).intact hb, ?_⟩
  have hlive : (b.withChain test).fallsThrough = b.fallsThrough := rfl
  rw [Draft.beginChain, draft_of_settled hp, draft, records_withChain, hlive]
  simp [draft, hp, withChain, Records.setAll, records]

theorem currentChain_run : currentChain.run b = (lift b.draft.currentChain).run b := by
  have hopened : b.draft.opened = b.opened := rfl
  rw [currentChain, get_bind, Draft.currentChain, hopened]
  rcases b.opened with _ | ⟨_ | _, _⟩ <;> rfl

theorem extendableChain_run : extendableChain.run b = (lift b.draft.extendableChain).run b := by
  have hopened : b.draft.opened = b.opened := rfl
  have hrun := currentChain_run (b := b)
  rw [extendableChain]
  rcases h : b.opened with _ | ⟨_ | chain, outer⟩
  · rw [Draft.currentChain, hopened, h] at hrun
    rw [bind_error hrun, Draft.extendableChain, hopened, h]
    rfl
  · rw [Draft.currentChain, hopened, h] at hrun
    rw [bind_error hrun, Draft.extendableChain, hopened, h]
    rfl
  · rw [Draft.currentChain, hopened, h] at hrun
    rw [bind_ok hrun, get_bind, Draft.extendableChain, hopened, h, hasElse_eq]
    cases he : b.draft.records.hasElse chain
    · rw [bind_ok (ensure_run (by simp) _)]
      simp only [he, Bool.false_eq_true, if_false]
      rfl
    · rw [bind_error (ensure_run_error (by simp) _)]
      simp only [he, if_true]
      rfl

theorem endBranch_does (hb : b.Intact) (hd : b.draft.Sound) {chain : Nat}
    (hopen : .chain chain ∈ b.draft.opened) :
    Does (endBranch chain) b () (b.draft.endBranch chain) := by
  obtain ⟨c, hc, hlt⟩ := hd.exists_chain hopen
  obtain ⟨b₁, hrun₁, hb₁, hdraft₁, hp₁⟩ := jumpOut_settles hb
  have hlast : lastBranch b₁ chain = b.draft.records.lastBranch chain := by
    rw [lastBranch_eq, hdraft₁, Draft.records_jumpOut]
  obtain ⟨b₂, hrun₂, hb₂, hdraft₂, -⟩ := modifyChain_settles hb₁ hp₁ chain
    (chainKeeps_skip (lastBranch b₁ chain) b.draft.skip)
  have hfield : (b₂.draft.records.field? (.branchNext chain (lastBranch b₁ chain))).isSome := by
    rw [hdraft₂, hdraft₁, hlast]
    simp [Draft.modifyChain, Records.modifyChain, Records.field?, Records.lastBranch, hc, hlt]
  obtain ⟨b₃, hrun₃, hend⟩ := awaitNext_does hb₂ hfield
  refine ⟨b₃, ?_, by rwa [hdraft₂, hdraft₁, hlast] at hend⟩
  rw [endBranch, bind_ok hrun₁, get_bind, bind_ok hrun₂, hrun₃]

theorem addBranch_does (hb : b.Intact) (chain : Nat) (test : Test) :
    Does (append (.branch test 0) >>= fun jump =>
      modify (·.modifyChain chain fun c => { c with branches := c.branches.push (.fresh jump) })) b ()
      (b.draft.addBranch chain test) := by
  refine (append_settles hb (.branch test 0)).bind fun b' hb' hdraft hp => ?_
  rw [Draft.addBranch, ← hdraft]
  exact (modifyChain_settles hb' hp _ (chainKeeps_push _)).does

theorem setElse_does (hb : b.Intact) (chain : Nat) :
    Does (modify (·.modifyChain chain fun c => { c with hasElse := true })) b ()
      (b.draft.modifyChain chain fun c => { c with hasElse := true }) := by
  refine ⟨_, rfl, (reshaped_modifyChain chain chainKeeps_else).intact hb, ?_⟩
  have hlive : (b.modifyChain chain fun c => { c with hasElse := true }).fallsThrough = b.fallsThrough := rfl
  rw [draft, records_modifyChain, hlive, Records.setAll_modifyElse]
  rfl

theorem awaitAll_does (as : List Anchor) (hb : b.Intact)
    (hf : ∀ a ∈ as, (b.draft.records.field? a).isSome) :
    Does (modify fun b => { b with pending := b.pending ++ as }) b () (b.draft.awaitAll as) := by
  induction as generalizing b with
  | nil =>
    refine ⟨b, ?_, hb, rfl⟩
    rw [EStateM.run_modify]
    simp
  | cons a as ih =>
    obtain ⟨b₁, hrun₁, hb₁, hdraft₁⟩ := awaitNext_does hb (hf a (by simp))
    obtain rfl : { b with pending := b.pending.push a } = b₁ := by
      rw [awaitNext, EStateM.run_modify] at hrun₁
      injection hrun₁
    obtain ⟨b₂, hrun₂, hb₂, hdraft₂⟩ := ih hb₁ fun x hx => by
      rw [hdraft₁]
      simpa [Draft.await] using hf x (by simp [hx])
    refine ⟨b₂, ?_, hb₂, by rw [hdraft₂, hdraft₁]; rfl⟩
    rw [EStateM.run_modify] at hrun₂ ⊢
    simpa using hrun₂

theorem endChain_does (hb : b.Intact) {chain : Nat} {c : Chain}
    (hc : b.draft.records.chains[chain]? = some c) (hlt : c.lastBranch < c.branches.size) :
    Does (endChain chain) b () (b.draft.endChain chain) := by
  have hfields : ∀ a ∈ b.draft.records.chainEnd chain, (b.draft.records.field? a).isSome := by
    intro a ha
    rw [Records.chainEnd, List.mem_append] at ha
    rcases ha with ha | ha
    · split at ha
      · simp at ha
      · obtain rfl := List.mem_singleton.1 ha
        simp [Records.field?, Records.lastBranch, hc, hlt]
    · split at ha
      · obtain rfl := List.mem_singleton.1 ha
        simp [Records.field?, hc]
      · simp at ha
  obtain ⟨b', hrun, hend⟩ := awaitAll_does _ hb hfields
  refine ⟨b', ?_, hend⟩
  rw [endChain, EStateM.run_modify, chainEnd_eq]
  rw [EStateM.run_modify] at hrun
  exact hrun

theorem closeChain_does (hb : b.Intact) (hd : b.draft.Sound) {chain : Nat}
    (hopen : .chain chain ∈ b.draft.opened) :
    Does (popOpen >>= fun _ => endChain chain) b () (b.draft.popOpen.endChain chain) := by
  obtain ⟨c, hc, hlt⟩ := hd.exists_chain hopen
  refine (popOpen_does hb).bind fun b' hb' hdraft => ?_
  rw [← hdraft]
  exact endChain_does hb' (by rwa [hdraft]) hlt

/-! ### Items -/

/-- The computation goes on as its draft does, or is refused as its draft is. -/
def Follows (x : Assembly Unit) (b : Builder) : Except Malformation Draft → Prop
  | .ok d => Does x b () d
  | .error m => ∃ b', x.run b = .error (.malformedStructure m) b'

theorem Follows.of_run {x y : Assembly Unit} {b b' : Builder} {r : Except Malformation Draft}
    (hrun : x.run b = y.run b') (hy : Follows y b' r) : Follows x b r := by
  cases r with
  | ok d =>
    obtain ⟨b'', hy, hend⟩ := hy
    exact ⟨b'', hrun.trans hy, hend⟩
  | error m =>
    obtain ⟨b'', hy⟩ := hy
    exact ⟨b'', hrun.trans hy⟩

theorem Follows.bind {x : Assembly Unit} {f : Unit → Assembly Unit} {r : Except Malformation Draft}
    {g : Draft → Except Malformation Draft} (hx : Follows x b r)
    (hf : ∀ b', b'.Intact → r = .ok b'.draft → Follows (f ()) b' (g b'.draft)) :
    Follows (x >>= f) b (r >>= g) := by
  cases r with
  | error m =>
    obtain ⟨b', hrun⟩ := hx
    exact ⟨b', bind_error hrun f⟩
  | ok d =>
    obtain ⟨b', hrun, hb', rfl⟩ := hx
    exact (hf b' hb' rfl).of_run (bind_ok hrun f)

/-- Reads something off the builder that can be read off its draft. -/
theorem Follows.read {α : Type} {x : Assembly α} {f : α → Assembly Unit} {r : Except Malformation α}
    {g : α → Except Malformation Draft} (hx : x.run b = (lift r).run b)
    (hf : ∀ a, r = .ok a → Follows (f a) b (g a)) : Follows (x >>= f) b (r >>= g) := by
  cases r with
  | error m => exact ⟨b, bind_error hx f⟩
  | ok a => exact (hf a rfl).of_run (bind_ok hx f)

mutual

/-- The steps of an item meet no contradiction. -/
theorem emit_follows (item : Item) (b : Builder) (hb : b.Intact) (hd : b.draft.Sound) :
    Follows (emit item) b (Draft.emit item b.draft) := by
  match item with
  | .op opcode =>
    rw [emit, Draft.emit]
    exact (append_settles hb opcode).bind fun b' hb' hdraft _ => ⟨b', rfl, hb', hdraft⟩
  | .beginTry =>
    rw [emit, Draft.emit]
    refine (openRange_does hb).bind fun b' hb' hdraft => ?_
    rw [← hdraft]
    refine awaitNext_does hb' ?_
    rw [hdraft]
    simp [Draft.beginRange, Records.addRange, Records.field?]
  | .beginCatch className =>
    rw [emit, Draft.emit]
    refine .read currentRange_run fun range hrange => ?_
    obtain ⟨outer, hopened⟩ := Draft.currentRange_eq_ok hrange
    refine (endGuarded_settles hb range).bind fun b' hb' hdraft hp => ?_
    rw [← hdraft]
    refine beginHandler_does hb' hp ?_ className
    rw [hdraft, Draft.ranges_endGuarded, List.length_modify]
    exact hd.range_lt range (by simp [hopened])
  | .endTry =>
    rw [emit, Draft.emit]
    refine .read currentRange_run fun range hrange => ?_
    obtain ⟨outer, hopened⟩ := Draft.currentRange_eq_ok hrange
    have hlt := hd.range_lt range (by simp [hopened])
    by_cases hcount : b.draft.records.handlerCount range = 0
    · rw [if_pos hcount]
      refine ⟨b, ?_⟩
      rw [get_bind, handlerCount_eq, bind_error (ensure_run_error (by simpa using hcount) _)]
    · rw [if_neg hcount]
      have hend : Follows (popOpen >>= fun _ => awaitNext (.tryEnd range)) b
          (.ok (b.draft.popOpen.await (.tryEnd range))) := closeRange_does hb hlt
      refine Follows.of_run ?_ hend
      rw [get_bind, handlerCount_eq, bind_ok (ensure_run (by simpa using hcount) _)]
  | .beginIf condition test =>
    rw [emit, Draft.emit]
    refine (emitAll_follows condition b hb hd).bind fun b' hb' hcondition => ?_
    refine (append_settles hb' (.branch test 0)).bind fun b'' hb'' hdraft hp => ?_
    rw [← hdraft]
    exact openChain_does hb'' hp _
  | .elseIf condition test =>
    rw [emit, Draft.emit]
    refine .read extendableChain_run fun chain hchain => ?_
    obtain ⟨⟨outer, hopened⟩, helse⟩ := Draft.extendableChain_eq_ok hchain
    have hopen : .chain chain ∈ b.draft.opened := by simp [hopened]
    obtain ⟨b₁, hrun₁, hb₁, hdraft₁⟩ := endBranch_does hb hd hopen
    have hd₁ : b₁.draft.Sound := hdraft₁ ▸ hd.endBranch hopen
    refine Follows.of_run (bind_ok hrun₁ _) ?_
    rw [← hdraft₁]
    refine (emitAll_follows condition b₁ hb₁ hd₁).bind fun b₂ hb₂ hcondition => ?_
    refine .read currentChain_run fun current hcurrent => ?_
    by_cases heq : current = chain
    · subst heq
      rw [if_pos rfl]
      exact Follows.of_run (bind_ok (ensure_run rfl _) _) (addBranch_does hb₂ current test)
    · rw [if_neg heq]
      exact ⟨b₂, bind_error (ensure_run_error heq _) _⟩
  | .beginElse =>
    rw [emit, Draft.emit]
    refine .read extendableChain_run fun chain hchain => ?_
    obtain ⟨⟨outer, hopened⟩, helse⟩ := Draft.extendableChain_eq_ok hchain
    refine (endBranch_does hb hd (by simp [hopened])).bind fun b' hb' hdraft => ?_
    rw [← hdraft]
    exact setElse_does hb' chain
  | .endIf =>
    rw [emit, Draft.emit]
    refine .read currentChain_run fun chain hchain => ?_
    obtain ⟨outer, hopened⟩ := Draft.currentChain_eq_ok hchain
    exact closeChain_does hb hd (by simp [hopened])

theorem emitAll_follows (items : List Item) (b : Builder) (hb : b.Intact) (hd : b.draft.Sound) :
    Follows (emitAll items) b (Draft.emitAll items b.draft) := by
  match items with
  | [] =>
    rw [emitAll, Draft.emitAll]
    exact ⟨b, rfl, hb, rfl⟩
  | item :: items =>
    rw [emitAll, Draft.emitAll]
    refine (emit_follows item b hb hd).bind fun b' hb' hitem => ?_
    exact emitAll_follows items b' hb' ((Draft.reaches_of_emit item _ _ hitem).sound hd)

end

/-- From the start a stream is followed by its draft. -/
theorem emitAll_empty_follows (items : List Item) :
    Follows (emitAll items) empty (Draft.emitAll items .empty) := by
  have hempty : empty.draft = Draft.empty := draft_empty #[]
  have hfollows := emitAll_follows items empty (intact_empty #[]) (hempty ▸ Draft.sound_empty)
  rwa [hempty] at hfollows

/-- The builder of a stream that is accepted. -/
theorem emitAll_empty_eq_ok {items : List Item} (h : (emitAll items).run empty = .ok () b) :
    b.Intact ∧ Draft.emitAll items .empty = .ok b.draft := by
  have hfollows := emitAll_empty_follows items
  cases hemit : Draft.emitAll items .empty with
  | error m =>
    rw [hemit] at hfollows
    obtain ⟨b', hrun⟩ := hfollows
    rw [hrun] at h
    cases h
  | ok d =>
    rw [hemit] at hfollows
    obtain ⟨b', hrun, hb, rfl⟩ := hfollows
    rw [hrun] at h
    cases h
    exact ⟨hb, rfl⟩

theorem returnNeeded_eq :
    (b.fallsThrough || !b.last?.any Opcode.isReturn)
      = (!b.last?.any Opcode.isReturn || !b.pending.isEmpty) := by
  unfold fallsThrough
  cases b.last? with
  | none => simp
  | some op => cases op <;> simp [Opcode.isReturn, Opcode.isTerminal]

/-- A return is added unless the sequence ends in one and control cannot get past it;
afterwards nothing waits. -/
theorem ensureReturn_settles (hb : b.Intact) :
    Settles ensureReturn b () b.draft.ensureReturn := by
  have hlive : b.draft.live = b.fallsThrough := rfl
  unfold Draft.ensureReturn
  rw [← last?_eq hb, hlive, returnNeeded_eq]
  by_cases hneeded : (!b.last?.any Opcode.isReturn || !b.pending.isEmpty) = true
  · obtain ⟨b', hrun, hend⟩ := append_settles hb .voidReturn
    refine ⟨b', ?_, by rwa [if_pos hneeded]⟩
    rw [ensureReturn, get_bind, if_pos hneeded, bind_ok hrun, EStateM.run_pure]
  · refine ⟨b, ?_, hb, by rw [if_neg hneeded], by simp_all⟩
    rw [ensureReturn, get_bind, if_neg hneeded, EStateM.run_pure]

end BlockAssembler.Builder
