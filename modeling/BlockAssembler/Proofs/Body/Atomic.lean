import BlockAssembler.Proofs.Body.Language
import BlockAssembler.Proofs.Builder.Spared

/-! Refused items and balanced streams, from any builder. A balanced stream only works on structures
that it begins itself, so it cannot be refused, leaves the same structures open, and spares the
records that were there. The marker of a further branch ends the branch before and then adds its
condition, after which it still asks whether it is in its chain. If the condition is balanced, it
is; so an item that is refused has been refused before it has changed anything. -/

namespace BlockAssembler

namespace Builder

variable {s b b' : Builder} {range chain : Nat} {outer : List Open}

/-! ### Ranges -/

/-- A range that has been begun since `s` is the innermost open structure. -/
structure OwnRange (s b : Builder) (range : Nat) (outer : List Open) : Prop where
  spares : s.Spares b
  later : s.ranges.size ≤ range
  there : range < b.ranges.size
  opened : b.opened = .range range :: outer

theorem currentRange_of_opened (h : b.opened = .range range :: outer) : currentRange.run b = .ok range b := by
  rw [currentRange, get_bind, h]
  rfl

namespace OwnRange

/-- Steps that open and close nothing and work on other records. -/
theorem next {α : Type} {x : Assembly α} (h : OwnRange s b range outer)
    (hx : Sure b x b fun _ b' => b'.opened = b.opened) :
    Sure s x b fun _ b' => OwnRange s b' range outer ∧ handlerCount b' range = handlerCount b range := by
  refine (hx.lift h.spares).mono fun _ b' hspares ⟨hfrom, hopened⟩ => ⟨?_, hfrom.handlerCount_eq h.there⟩
  exact ⟨hspares, h.later, Nat.lt_of_lt_of_le h.there hfrom.ranges, hopened.trans h.opened⟩

theorem modify (h : OwnRange s b range outer) {f : GuardedRange → GuardedRange} (hf : RangeKeeps f) :
    OwnRange s (b.modifyRange range f) range outer :=
  ⟨h.spares.modifyRange h.later hf, h.later, by simpa [modifyRange] using h.there, h.opened⟩

theorem await (h : OwnRange s b range outer) {a : Anchor} (ha : s.Younger b a) :
    OwnRange s { b with pending := b.pending.push a } range outer :=
  ⟨h.spares.awaitOne ha, h.later, h.there, h.opened⟩

theorem endGuarded (h : OwnRange s b range outer) :
    Sure s (endGuarded range) b fun _ b' => OwnRange s b' range outer := by
  by_cases hcount : handlerCount b range = 0
  · refine .of_run (endGuarded_of_unhandled hcount) ((h.next (sure_append _ b)).bind fun jump b' _ hjump => ?_)
    have hown := hjump.1.modify (rangeKeeps_skip (some jump))
    exact .of_ok rfl hown.spares hown
  · refine .of_run (endGuarded_of_handled hcount) ((h.next (sure_jumpOut b)).bind fun skip b' _ hskip => ?_)
    have hown := hskip.1.modify (rangeKeeps_handlerSkip skip)
    exact .of_ok rfl hown.spares hown

theorem beginHandler (h : OwnRange s b range outer) (catches : Option String) :
    Sure s (beginHandler range catches) b fun _ b' => OwnRange s b' range outer ∧ handlerCount b' range ≠ 0 := by
  obtain ⟨g, hg⟩ : ∃ g, b.ranges[range]? = some g := ⟨_, Array.getElem?_eq_getElem h.there⟩
  have hpushed := h.modify (rangeKeeps_push catches)
  have hyounger : s.Younger (b.modifyRange range fun r => { r with handlers := r.handlers.push ⟨none, catches, none⟩ })
      (.handlerStart range (handlerCount b range)) :=
    ⟨h.later, by simp [field?, handlerCount, modifyRange, Array.getElem?_modify, hg]⟩
  have hown := hpushed.await hyounger
  refine .of_ok rfl hown.spares ⟨hown, ?_⟩
  simp [handlerCount, modifyRange, Array.getElem?_modify, hg]

theorem emit_beginCatch (h : OwnRange s b range outer) (catches : Option String) :
    Sure s (emit (.beginCatch catches)) b fun _ b' => OwnRange s b' range outer ∧ handlerCount b' range ≠ 0 := by
  rw [emit]
  refine .of_run (bind_ok (currentRange_of_opened h.opened) _) ?_
  exact h.endGuarded.bind fun _ _ _ h' => h'.beginHandler catches

theorem emit_endTry (h : OwnRange s b range outer) (hcount : handlerCount b range ≠ 0) :
    Sure s (emit .endTry) b fun _ b' => b'.opened = outer := by
  have hrun : (emit .endTry).run b = (awaitNext (.tryEnd range)).run { b with opened := b.opened.tail } := by
    rw [emit, bind_ok (currentRange_of_opened h.opened), get_bind, bind_ok (ensure_run hcount _), popOpen, modify_bind]
  have hyounger : s.Younger { b with opened := b.opened.tail } (.tryEnd range) := ⟨h.later, by simp [field?, h.there]⟩
  refine .of_run hrun (.of_ok rfl (h.spares.popped.awaitOne hyounger) ?_)
  show b.opened.tail = outer
  rw [h.opened]
  rfl

end OwnRange

theorem sure_beginTry (h : s.Spares b) :
    Sure s (emit .beginTry) b fun _ b' => OwnRange s b' b.ranges.size b.opened := by
  have hrun : (emit .beginTry).run b = (awaitNext (.tryStart b.ranges.size)).run b.withRange := by
    have hopen : openRange.run b = .ok b.ranges.size b.withRange := rfl
    rw [emit, bind_ok hopen]
  have hown : OwnRange s b.withRange b.ranges.size b.opened := ⟨h.withRange, h.ranges, by simp [withRange], rfl⟩
  have hyounger : s.Younger b.withRange (.tryStart b.ranges.size) := ⟨h.ranges, by simp [field?, withRange]⟩
  exact .of_run hrun (.of_ok rfl (hown.await hyounger).spares (hown.await hyounger))

/-! ### Chains -/

/-- A chain that has been begun since `s` is the innermost open structure. -/
structure OwnChain (s b : Builder) (chain : Nat) (outer : List Open) : Prop where
  spares : s.Spares b
  later : s.chains.size ≤ chain
  registered : b.Registered (.chain chain)
  opened : b.opened = .chain chain :: outer

theorem currentChain_of_opened (h : b.opened = .chain chain :: outer) : currentChain.run b = .ok chain b := by
  rw [currentChain, get_bind, h]
  rfl

theorem extendableChain_of_opened (h : b.opened = .chain chain :: outer) (helse : hasElse b chain = false) :
    extendableChain.run b = .ok chain b := by
  rw [extendableChain, bind_ok (currentChain_of_opened h), get_bind, bind_ok (ensure_run (by simpa using helse) _),
    EStateM.run_pure]

namespace OwnChain

theorem there (h : OwnChain s b chain outer) : chain < b.chains.size := by
  refine Nat.lt_of_not_le fun hge => ?_
  have hregistered := h.registered
  simp [Registered, field?, Array.getElem?_eq_none hge] at hregistered

/-- Steps that open and close nothing and work on other records. -/
theorem next {α : Type} {x : Assembly α} (h : OwnChain s b chain outer)
    (hx : Sure b x b fun _ b' => b'.opened = b.opened) :
    Sure s x b fun _ b' => OwnChain s b' chain outer ∧ hasElse b' chain = hasElse b chain := by
  refine (hx.lift h.spares).mono fun _ b' hspares ⟨hfrom, hopened⟩ => ⟨?_, hfrom.hasElse_eq h.there⟩
  exact ⟨hspares, h.later, h.registered.mono hfrom.fields, hopened.trans h.opened⟩

theorem modify (h : OwnChain s b chain outer) {f : Chain → Chain} (hf : ChainKeeps f) :
    OwnChain s (b.modifyChain chain f) chain outer := by
  refine ⟨h.spares.modifyChain h.later hf, h.later, h.registered.mono fun a ha => ?_, h.opened⟩
  rw [field?_eq] at ha ⊢
  exact ((reshaped_modifyChain chain hf).fields a).isSome ha

theorem await (h : OwnChain s b chain outer) {a : Anchor} (ha : s.Younger b a) :
    OwnChain s { b with pending := b.pending.push a } chain outer :=
  ⟨h.spares.awaitOne ha, h.later, h.registered, h.opened⟩

theorem endBranch (h : OwnChain s b chain outer) :
    Sure s (endBranch chain) b fun _ b' => OwnChain s b' chain outer ∧ hasElse b' chain = hasElse b chain := by
  refine (h.next (sure_jumpOut b)).bind fun skip b' _ ⟨h', helse⟩ => ?_
  have hended := h'.modify (chainKeeps_skip (lastBranch b' chain) skip)
  have hyounger : s.Younger (b'.modifyChain chain fun c =>
      { c with branches := c.branches.modify (lastBranch b' chain) fun br => { br with skip := skip } })
      (.branchNext chain (lastBranch b' chain)) := by
    refine ⟨h.later, ?_⟩
    rw [field?_eq]
    refine ((reshaped_modifyChain chain (chainKeeps_skip _ skip)).fields _).isSome ?_
    rw [← field?_eq]
    exact h'.registered.isSome_lastBranch
  have hown := hended.await hyounger
  refine .of_ok rfl hown.spares ⟨hown, helse ▸ ?_⟩
  simp only [hasElse, modifyChain, Array.getElem?_modify]
  cases b'.chains[chain]? <;> simp

theorem emit_elseIf (h : OwnChain s b chain outer) (helse : hasElse b chain = false) {condition : List Item}
    (hcondition : ∀ b, Sure b (emitAll condition) b fun _ b' => b'.opened = b.opened) (test : Test) :
    Sure s (emit (.elseIf condition test)) b fun _ b' => OwnChain s b' chain outer ∧ hasElse b' chain = false := by
  rw [emit]
  refine .of_run (bind_ok (extendableChain_of_opened h.opened helse) _) ?_
  refine h.endBranch.bind fun _ b₁ _ ⟨h₁, helse₁⟩ => (h₁.next (hcondition b₁)).bind fun _ b₂ _ ⟨h₂, helse₂⟩ => ?_
  refine .of_run (bind_ok (currentChain_of_opened h₂.opened) _) (.of_run (bind_ok (ensure_run rfl _) _) ?_)
  refine (h₂.next (sure_append _ b₂)).bind fun jump b₃ _ ⟨h₃, helse₃⟩ => ?_
  have hown := h₃.modify (chainKeeps_push jump)
  refine .of_ok rfl hown.spares ⟨hown, ?_⟩
  rw [← helse, ← helse₁, ← helse₂, ← helse₃]
  simp only [hasElse, modifyChain, Array.getElem?_modify]
  cases b₃.chains[chain]? <;> simp

theorem emit_beginElse (h : OwnChain s b chain outer) (helse : hasElse b chain = false) :
    Sure s (emit .beginElse) b fun _ b' => OwnChain s b' chain outer := by
  rw [emit]
  refine .of_run (bind_ok (extendableChain_of_opened h.opened helse) _) ?_
  refine h.endBranch.bind fun _ b' _ ⟨h', _⟩ => ?_
  exact .of_ok rfl (h'.modify chainKeeps_else).spares (h'.modify chainKeeps_else)

theorem emit_endIf (h : OwnChain s b chain outer) : Sure s (emit .endIf) b fun _ b' => b'.opened = outer := by
  have hrun : (emit .endIf).run b = (endChain chain).run { b with opened := b.opened.tail } := by
    rw [emit, bind_ok (currentChain_of_opened h.opened), popOpen, modify_bind]
  have hyounger : ∀ a ∈ chainEnd b chain, s.Younger { b with opened := b.opened.tail } a := fun a ha => by
    refine ⟨?_, h.registered.isSome_chainEnd a ha⟩
    unfold chainEnd at ha
    rcases List.mem_append.1 ha with ha | ha
    · split at ha
      · simp at ha
      · rw [List.mem_singleton.1 ha]
        exact h.later
    · split at ha
      · rw [List.mem_singleton.1 ha]
        exact h.later
      · simp at ha
  refine .of_run hrun (.of_ok rfl (h.spares.popped.await hyounger) ?_)
  show b.opened.tail = outer
  rw [h.opened]
  rfl

end OwnChain

theorem sure_beginIf (h : s.Spares b) {condition : List Item}
    (hcondition : ∀ b, Sure b (emitAll condition) b fun _ b' => b'.opened = b.opened) (test : Test) :
    Sure s (emit (.beginIf condition test)) b
      fun _ b' => ∃ chain, OwnChain s b' chain b.opened ∧ hasElse b' chain = false := by
  rw [emit]
  refine ((hcondition b).lift h).bind fun _ b₁ h₁ ⟨_, hopened₁⟩ => ?_
  refine ((sure_append _ b₁).lift h₁).bind fun jump b₂ h₂ ⟨_, hopened₂⟩ => ?_
  have hrun : (openChain jump).run b₂ = .ok () (b₂.withChain jump) := rfl
  refine .of_ok hrun (h₂.withChain jump) ⟨b₂.chains.size, ?_, ?_⟩
  · refine ⟨h₂.withChain jump, h₂.chains, ?_, ?_⟩
    · simp [Registered, field?, withChain, Chain.fresh]
    · rw [← hopened₁, ← hopened₂]
      rfl
  · simp [hasElse, withChain, Chain.fresh]

/-! ### Balanced streams -/

mutual

theorem sure_body (t : Body) (b : Builder) : Sure b (emitAll t.items) b fun _ b' => b'.opened = b.opened := by
  match t with
  | .nil => exact .of_ok rfl (.refl b) rfl
  | .op opcode rest =>
    rw [Body.items, emitAll, emit, bind_assoc]
    refine (sure_append opcode b).bind fun _ b₁ h₁ hopened₁ => ?_
    rw [pure_bind]
    exact ((sure_body rest b₁).lift h₁).mono fun _ _ _ ⟨_, hopened₂⟩ => hopened₂.trans hopened₁
  | .guarded body catches handler more rest =>
    have hitems : (Body.guarded body catches handler more rest).items = .beginTry ::
        (body.items ++ .beginCatch catches :: (handler.items ++ (more.items ++ .endTry :: rest.items))) := by
      simp only [Body.items, List.cons_append, List.append_assoc]
    rw [hitems, emitAll]
    refine (sure_beginTry (.refl b)).bind fun _ b₁ _ h₁ => ?_
    rw [emitAll_append, emitAll]
    refine (h₁.next (sure_body body b₁)).bind fun _ b₂ _ ⟨h₂, _⟩ => ?_
    refine (h₂.emit_beginCatch catches).bind fun _ b₃ _ ⟨h₃, hcount₃⟩ => ?_
    rw [emitAll_append]
    refine (h₃.next (sure_body handler b₃)).bind fun _ b₄ _ ⟨h₄, hcount₄⟩ => ?_
    rw [emitAll_append, emitAll]
    refine (sure_catches more h₄ (hcount₄ ▸ hcount₃)).bind fun _ b₅ _ ⟨h₅, hcount₅⟩ => ?_
    refine (h₅.emit_endTry hcount₅).bind fun _ b₆ h₆ hopened => ?_
    exact ((sure_body rest b₆).lift h₆).mono fun _ _ _ ⟨_, hopened'⟩ => hopened'.trans hopened
  | .chain condition test body more rest =>
    have hitems : (Body.chain condition test body more rest).items =
        .beginIf condition.items test :: (body.items ++ (more.items ++ .endIf :: rest.items)) := by
      simp only [Body.items, List.cons_append, List.append_assoc]
    rw [hitems, emitAll]
    refine (sure_beginIf (.refl b) (sure_body condition) test).bind fun _ b₁ _ ⟨chain, h₁, helse₁⟩ => ?_
    rw [emitAll_append]
    refine (h₁.next (sure_body body b₁)).bind fun _ b₂ _ ⟨h₂, helse₂⟩ => ?_
    rw [emitAll_append, emitAll]
    refine (sure_arms more h₂ (helse₂.trans helse₁)).bind fun _ b₃ _ h₃ => ?_
    refine h₃.emit_endIf.bind fun _ b₄ h₄ hopened => ?_
    exact ((sure_body rest b₄).lift h₄).mono fun _ _ _ ⟨_, hopened'⟩ => hopened'.trans hopened

theorem sure_catches (t : Catches) {s b : Builder} {range : Nat} {outer : List Open} (h : OwnRange s b range outer)
    (hcount : handlerCount b range ≠ 0) :
    Sure s (emitAll t.items) b fun _ b' => OwnRange s b' range outer ∧ handlerCount b' range ≠ 0 := by
  match t with
  | .done => exact .of_ok rfl h.spares ⟨h, hcount⟩
  | .handler catches body more =>
    rw [Catches.items, List.cons_append, emitAll, emitAll_append]
    refine (h.emit_beginCatch catches).bind fun _ b₁ _ ⟨h₁, hcount₁⟩ => ?_
    refine (h₁.next (sure_body body b₁)).bind fun _ b₂ _ ⟨h₂, hcount₂⟩ => ?_
    exact sure_catches more h₂ (hcount₂ ▸ hcount₁)

theorem sure_arms (t : Arms) {s b : Builder} {chain : Nat} {outer : List Open} (h : OwnChain s b chain outer)
    (helse : hasElse b chain = false) : Sure s (emitAll t.items) b fun _ b' => OwnChain s b' chain outer := by
  match t with
  | .done => exact .of_ok rfl h.spares h
  | .otherwise body =>
    rw [Arms.items, emitAll]
    refine (h.emit_beginElse helse).bind fun _ b₁ _ h₁ => ?_
    exact (h₁.next (sure_body body b₁)).mono fun _ _ _ ⟨h₂, _⟩ => h₂
  | .elseIf condition test body more =>
    rw [Arms.items, List.cons_append, emitAll, emitAll_append]
    refine (h.emit_elseIf helse (sure_body condition) test).bind fun _ b₁ _ ⟨h₁, helse₁⟩ => ?_
    refine (h₁.next (sure_body body b₁)).bind fun _ b₂ _ ⟨h₂, helse₂⟩ => ?_
    exact sure_arms more h₂ (helse₂.trans helse₁)

end

theorem sure_balanced {items : List Item} (hitems : Balanced items) (b : Builder) :
    Sure b (emitAll items) b fun _ b' => b'.opened = b.opened := by
  obtain ⟨t, rfl⟩ := hitems
  exact sure_body t b

/-! ### Refused items -/

section
variable {α β : Type} {x y : Assembly α} {f : α → Assembly β} {Q : α → Builder → Prop} {T : β → Builder → Prop}

/-- From `b` the computation ends well and leaves what it should, or it faults. -/
def Certain (x : Assembly α) (b : Builder) (Q : α → Builder → Prop) : Prop :=
  (∃ a b', x.run b = .ok a b' ∧ Q a b') ∨ ∃ fault b', x.run b = .error (.internal fault) b'

namespace Certain

theorem of_run (hrun : x.run b = y.run b') (h : Certain y b' Q) : Certain x b Q := by
  rw [Certain, hrun]
  exact h

theorem bind (hx : Certain x b Q) (hf : ∀ a b', Q a b' → Certain (f a) b' T) : Certain (x >>= f) b T := by
  rcases hx with ⟨a, b', hrun, hQ⟩ | ⟨fault, b', hrun⟩
  · exact (hf a b' hQ).of_run (bind_ok hrun f)
  · exact .inr ⟨fault, b', bind_error hrun f⟩

end Certain

theorem Sure.certain (h : Sure s x b Q) : Certain x b Q := by
  rcases h with ⟨a, b', hrun, -, hQ⟩ | ⟨a, -, -, b', hrun⟩
  · exact .inl ⟨a, b', hrun, hQ⟩
  · exact .inr ⟨.malformedAnchor a, b', hrun⟩

/-- Unless it faults, the computation does all it should from `b` or nothing. -/
def Atomic (x : Assembly α) (b : Builder) : Prop :=
  ∀ e b', x.run b = .error e b' → b' = b ∨ ∃ fault, e = .internal fault

theorem Certain.atomic (h : Certain x b Q) : Atomic x b := by
  intro e b' hrun
  rcases h with ⟨_, _, hok, -⟩ | ⟨fault, _, hfault⟩
  · cases hrun.symm.trans hok
  · cases hrun.symm.trans hfault
    exact .inr ⟨fault, rfl⟩

/-- First something is read off the builder, which may be what refuses the item. -/
theorem Atomic.read {r : Except Malformation α} (hx : x.run b = (lift r).run b)
    (hf : ∀ a, r = .ok a → Atomic (f a) b) : Atomic (x >>= f) b := by
  intro e b' hrun
  cases r with
  | ok a =>
    have hread : x.run b = .ok a b := hx
    rw [bind_ok hread] at hrun
    exact hf a rfl e b' hrun
  | error m =>
    have hread : x.run b = .error (.malformedStructure m) b := hx
    rw [bind_error hread] at hrun
    cases hrun
    exact .inl rfl

end

theorem certain_endGuarded (range : Nat) (b : Builder) : Certain (endGuarded range) b fun _ _ => True := by
  by_cases hcount : handlerCount b range = 0
  · have hbody : Certain (endBody range) b fun _ _ => True :=
      (sure_append _ b).certain.bind fun _ _ _ => .inl ⟨_, _, rfl, trivial⟩
    exact .of_run (endGuarded_of_unhandled hcount) hbody
  · have hhandler : Certain (endHandler range) b fun _ _ => True :=
      (sure_jumpOut b).certain.bind fun _ _ _ => .inl ⟨_, _, rfl, trivial⟩
    exact .of_run (endGuarded_of_handled hcount) hhandler

theorem certain_endBranch (chain : Nat) (b : Builder) :
    Certain (endBranch chain) b fun _ b' => b'.opened = b.opened :=
  (sure_jumpOut b).certain.bind fun _ _ hopened => .inl ⟨_, _, rfl, hopened⟩

theorem certain_elseIf {condition : List Item} (hcondition : Balanced condition) (test : Test)
    (hopened : b.opened = .chain chain :: outer) :
    Certain (do
      endBranch chain
      emitAll condition
      ensure ((← currentChain) = chain) (.malformedStructure .unbalancedCondition)
      let jump ← append (.branch test 0)
      modify (·.modifyChain chain fun c => { c with branches := c.branches.push (.fresh jump) })) b
      fun _ _ => True := by
  refine (certain_endBranch chain b).bind fun _ b₁ hopened₁ => ?_
  refine (sure_balanced hcondition b₁).certain.bind fun _ b₂ hopened₂ => ?_
  -- the condition leaves the chain of the branch open, so the second look finds it
  have hchain := currentChain_of_opened (hopened₂.trans (hopened₁.trans hopened))
  refine .of_run (bind_ok hchain _) (.of_run (bind_ok (ensure_run rfl _) _) ?_)
  exact (sure_append _ b₂).certain.bind fun _ _ _ => .inl ⟨_, _, rfl, trivial⟩

theorem atomic_emit {item : Item} (hitem : item.Conditioned) (b : Builder) : Atomic (emit item) b := by
  cases item with
  | op opcode =>
    rw [emit]
    have h : Certain (append opcode >>= fun _ => pure ()) b fun _ _ => True :=
      (sure_append opcode b).certain.bind fun _ _ _ => .inl ⟨(), _, rfl, trivial⟩
    exact h.atomic
  | beginTry => exact (sure_beginTry (.refl b)).certain.atomic
  | beginCatch className =>
    rw [emit]
    refine .read currentRange_run fun range _ => ?_
    have h : Certain (endGuarded range >>= fun _ => beginHandler range className) b fun _ _ => True :=
      (certain_endGuarded range b).bind fun _ _ _ => .inl ⟨_, _, rfl, trivial⟩
    exact h.atomic
  | endTry =>
    rw [emit]
    refine .read currentRange_run fun range _ e b' hrun => ?_
    rw [get_bind] at hrun
    by_cases hcount : handlerCount b range ≠ 0
    · rw [bind_ok (ensure_run hcount _)] at hrun
      cases hrun
    · rw [bind_error (ensure_run_error hcount _)] at hrun
      cases hrun
      exact .inl rfl
  | beginIf condition test => exact (sure_beginIf (.refl b) (sure_balanced hitem) test).certain.atomic
  | elseIf condition test =>
    rw [emit]
    refine .read extendableChain_run fun chain hchain => ?_
    obtain ⟨⟨outer, hopened⟩, -⟩ := Draft.extendableChain_eq_ok hchain
    exact (certain_elseIf hitem test hopened).atomic
  | beginElse =>
    rw [emit]
    refine .read extendableChain_run fun chain _ => ?_
    have h : Certain (endBranch chain >>= fun _ => modify (·.modifyChain chain fun c => { c with hasElse := true })) b
        fun _ _ => True :=
      (certain_endBranch chain b).bind fun _ _ _ => .inl ⟨_, _, rfl, trivial⟩
    exact h.atomic
  | endIf =>
    rw [emit]
    refine .read currentChain_run fun chain _ e b' hrun => ?_
    cases hrun

/-- From any builder: an item whose condition is balanced is added, or it is refused and the builder
is as it was. A balanced stream is not refused, leaves the same structures open, and spares the
records that were there. A fault may come in between, in a balanced stream only on an anchor that
has waited and names no field. If fields have been asked for only when they were there, no such
anchor waits, and no item faults. -/
theorem emit_atomic (b : Builder) :
    (∀ item : Item, item.Conditioned → ∀ e b', (emit item).run b = .error e b' →
        b' = b ∨ ∃ fault, e = .internal fault) ∧
      (∀ items : List Item, Balanced items →
        (∃ b', (emitAll items).run b = .ok () b' ∧ b'.opened = b.opened ∧ b.Spares b') ∨
          ∃ a ∈ b.pending, b.field? a = none ∧
            ∃ b', (emitAll items).run b = .error (.internal (.malformedAnchor a)) b') ∧
      ∀ calls, ProperAll calls empty → afterAll calls empty = b →
        (∀ a ∈ b.pending, (b.field? a).isSome) ∧
          ∀ (item : Item) (fault : Fault) (b' : Builder), (emit item).run b ≠ .error (.internal fault) b' := by
  refine ⟨fun item hitem => atomic_emit hitem b, fun items hitems => ?_, ?_⟩
  · exact (sure_balanced hitems b).imp_left fun ⟨_, b', hrun, hspares, hopened⟩ => ⟨b', hrun, hopened, hspares⟩
  · rintro calls hcalls rfl
    have hsteady := steady_empty.afterAll hcalls
    refine ⟨hsteady.waits, fun item fault b' hfault => ?_⟩
    rcases emit_steadies item _ _ hsteady with ⟨_, _, hrun, -⟩ | ⟨_, _, hrun, -⟩
    · cases hfault.symm.trans hrun
    · cases hfault.symm.trans hrun

/-- A chain in its final body. -/
def settledChain : List Call := [
  .emit (.beginIf [.op .aconstNull] .ifnull), .append .voidReturn, .emit .beginElse]

/-- Another branch is refused, and the stream of its condition can be added nevertheless. -/
theorem emit_atomic_settledChain :
    let b := afterAll settledChain empty
    let condition : Body := .chain (.op .aconstNull .nil) .ifnull .nil .done .nil
    b.pending = #[.branchNext 0 0] ∧
      (emit (.elseIf condition.items .ifeq)).run b = .error (.malformedStructure .branchAfterElse) b ∧
      ∃ b', (emitAll condition.items).run b = .ok () b' ∧ b'.opened = b.opened ∧ b.Spares b' := by
  intro b condition
  have hpending : b.pending = #[.branchNext 0 0] := by decide +kernel
  obtain ⟨hitem, hbalanced, hproper⟩ := emit_atomic b
  obtain ⟨hwaits, -⟩ := hproper settledChain (by decide +kernel) rfl
  obtain ⟨left, hrefused⟩ : ∃ left, (emit (.elseIf condition.items .ifeq)).run b =
      .error (.malformedStructure .branchAfterElse) left := ⟨_, rfl⟩
  have hleft : left = b := by
    refine (hitem (.elseIf condition.items .ifeq) ⟨condition, rfl⟩ _ _ hrefused).resolve_right ?_
    rintro ⟨fault, heq⟩
    cases heq
  refine ⟨hpending, hleft ▸ hrefused, (hbalanced condition.items ⟨condition, rfl⟩).resolve_right ?_⟩
  rintro ⟨a, ha, hnone, -⟩
  have hfield := hwaits a ha
  rw [hnone] at hfield
  cases hfield

/-- An anchor may be asked for that names no field, and then even a balanced stream can fault. -/
theorem not_always_emitted : ¬ ∀ (calls : List Call) (items : List Item), Faultless calls empty → Balanced items →
    ∃ b', (emitAll items).run (afterAll calls empty) = .ok () b' := by
  intro h
  have hcalls : Faultless [.await (.tryStart 0)] empty := by
    refine ⟨?_, trivial⟩
    rintro ⟨fault, b', hrun⟩
    cases hrun
  obtain ⟨b', hrun⟩ := h [.await (.tryStart 0)] [.op .aconstNull] hcalls ⟨.op .aconstNull .nil, rfl⟩
  have hsome : (emitAll [.op .aconstNull]).run' (afterAll [.await (.tryStart 0)] empty) = some () :=
    run'_eq_some.2 ⟨b', hrun⟩
  have hnone : (emitAll [.op .aconstNull]).run' (afterAll [.await (.tryStart 0)] empty) = none := by decide +kernel
  rw [hnone] at hsome
  cases hsome

end Builder

end BlockAssembler
