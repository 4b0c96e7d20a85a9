import BlockAssembler.Proofs.Draft.Records
import BlockAssembler.Proofs.Run

/-! What the steps of a builder do, whatever has been done to it before. Instructions are put at the
end, and everything that waits points at the first of them; records are changed and added in ways
that move no field. -/

namespace BlockAssembler.Builder

/-- The records as plain lists. -/
def records (b : Builder) : Records := ⟨b.ranges.toList, b.chains.toList⟩

variable {b : Builder}

theorem field?_eq (a : Anchor) : b.field? a = b.records.field? a := by
  cases a <;> simp [field?, Records.field?, records]

theorem handlerCount_records (range : Nat) : handlerCount b range = b.records.handlerCount range := by
  simp [handlerCount, Records.handlerCount, records]

theorem lastBranch_records (chain : Nat) : lastBranch b chain = b.records.lastBranch chain := by
  simp [lastBranch, Records.lastBranch, records]

/-! ### Settling -/

def withJournal (b : Builder) (j : Journal) : Builder := { b with journal := j }

theorem note_bind {α : Type} (e : Event) (f : Unit → Assembly α) :
    (note e >>= f).run b = (f ()).run (b.withJournal (b.journal.push e)) := rfl

theorem noteAll_bind {α : Type} (es : List Event) (f : Unit → Assembly α) :
    (noteAll es >>= f).run b = (f ()).run (b.withJournal (b.journal ++ es)) := rfl

theorem records_setField (h : Handle) (a : Anchor) :
    (b.setField h a).records = b.records.set h a := by
  cases a <;> simp [setField, modifyRange, modifyChain, records, Records.set, Records.modifyRange,
    Records.modifyChain]

theorem setField_eq (h : Handle) (a : Anchor) :
    b.setField h a =
      { b with ranges := (b.setField h a).ranges, chains := (b.setField h a).chains } := by
  cases a <;> rfl

theorem point_run {h : Handle} {a : Anchor} (hf : (b.records.field? a).isSome) :
    (point h a).run b = .ok () ((b.setField h a).addReference h a) := by
  rw [point, get_bind, bind_ok (ensure_run (by rwa [field?_eq]) _), EStateM.run_modify]

/-- Pointing a field adds none and removes none. -/
theorem isSome_field?_pointed (j : Journal) (h : Handle) (a x : Anchor) :
    ((((b.withJournal j).setField h a).addReference h a).field? x).isSome = (b.field? x).isSome := by
  rw [field?_eq, field?_eq]
  show (((b.withJournal j).setField h a).records.field? x).isSome = _
  rw [records_setField, Records.isSome_field?_set]
  rfl

/-- What the anchors that waited leave behind: an instruction that lists them, and
records that name it. -/
structure SettledAt (h : Handle) (as : List Anchor) (b b' : Builder) : Prop where
  records : b'.records = Records.setAll h as b.records
  arena : b'.arena = b.arena.modify h fun c => { c with references := c.references ++ as.toArray }
  code : b'.code = b.code
  opened : b'.opened = b.opened
  pending : b'.pending = b.pending

theorem SettledAt.nil (h : Handle) (b : Builder) : SettledAt h [] b b := by
  refine ⟨rfl, ?_, rfl, rfl, rfl⟩
  apply Array.ext_getElem?
  simp [Array.getElem?_modify]

theorem SettledAt.cons {h : Handle} {a : Anchor} {as : List Anchor} {b' : Builder} (j : Journal)
    (hb : SettledAt h as (((b.withJournal j).setField h a).addReference h a) b') :
    SettledAt h (a :: as) b b' where
  records := by
    rw [hb.records]
    show Records.setAll h as ((b.withJournal j).setField h a).records = _
    rw [records_setField]
    rfl
  arena := by
    rw [hb.arena, addReference, modifyCell, setField_eq]
    apply Array.ext_getElem?
    intro i
    simp only [Array.getElem?_modify, withJournal]
    split <;> simp [Function.comp_def]
  code := by rw [hb.code, addReference, modifyCell, setField_eq]; rfl
  opened := by rw [hb.opened, addReference, modifyCell, setField_eq]; rfl
  pending := by rw [hb.pending, addReference, modifyCell, setField_eq]; rfl

/-- Points anchors at an instruction one after the other, each with its note. -/
theorem settledAt_of_steps {x : List Anchor → Assembly Unit} {e : Anchor → Event} {h : Handle}
    (hnil : x [] = pure ()) (hcons : ∀ a as, x (a :: as) = (do note (e a); point h a; x as))
    (as : List Anchor) (b : Builder) (hf : ∀ a ∈ as, (b.records.field? a).isSome) :
    ∃ b', (x as).run b = .ok () b' ∧ SettledAt h as b b' := by
  induction as generalizing b with
  | nil => exact ⟨b, by rw [hnil, EStateM.run_pure], .nil h b⟩
  | cons a as ih =>
    have hpoint := point_run (b := b.withJournal (b.journal.push (e a))) (h := h) (hf a (by simp))
    obtain ⟨b', hrun, hb'⟩ := ih (((b.withJournal (b.journal.push (e a))).setField h a).addReference h a)
      (fun y hy => by
        rw [← field?_eq, isSome_field?_pointed, field?_eq]
        exact hf y (by simp [hy]))
    refine ⟨b', ?_, hb'.cons⟩
    rw [hcons, note_bind, bind_ok hpoint, hrun]

theorem settleAll_run (h : Handle) (as : List Anchor) (b : Builder)
    (hf : ∀ a ∈ as, (b.records.field? a).isSome) :
    ∃ b', (settleAll h as).run b = .ok () b' ∧ SettledAt h as b b' :=
  settledAt_of_steps rfl (fun _ _ => rfl) as b hf

/-! ### Adding instructions -/

theorem push_run (op : Opcode) : ∃ j, (push op).run b = .ok b.arena.size
    { b with arena := b.arena.push ⟨op, #[], true⟩, code := b.code.push b.arena.size, journal := j } :=
  ⟨_, rfl⟩

/-- Every anchor that waits has a field. -/
def Waits (b : Builder) : Prop := ∀ a ∈ b.pending, (b.field? a).isSome

/-- One or more instructions have been added; everything that waited points at the first of them. -/
structure Added (op : Opcode) (ops : List Opcode) (b b' : Builder) : Prop where
  arena : b'.arena.toList = b.arena.toList ++ ⟨op, b.pending, true⟩ :: ops.map (⟨·, #[], true⟩)
  code : b'.code.toList = b.code.toList ++ List.range' b.arena.size (ops.length + 1)
  records : b'.records = Records.setAll b.arena.size b.pending.toList b.records
  opened : b'.opened = b.opened
  pending : b'.pending = #[]

/-- Instructions have been put at the end; nothing points at them yet. -/
structure Pushed (ops : List Opcode) (b b' : Builder) : Prop where
  arena : b'.arena.toList = b.arena.toList ++ ops.map (⟨·, #[], true⟩)
  code : b'.code.toList = b.code.toList ++ List.range' b.arena.size ops.length
  records : b'.records = b.records
  opened : b'.opened = b.opened
  pending : b'.pending = b.pending

theorem pushAll_run (ops : List Opcode) (b : Builder) : ∃ b', (pushAll ops).run b = .ok () b' ∧ Pushed ops b b' := by
  induction ops generalizing b with
  | nil => exact ⟨b, rfl, by simp, by simp, rfl, rfl, rfl⟩
  | cons op ops ih =>
    obtain ⟨j, hpush⟩ := push_run (b := b) op
    obtain ⟨b', hrun, hb'⟩ := ih
      { b with arena := b.arena.push ⟨op, #[], true⟩, code := b.code.push b.arena.size, journal := j }
    refine ⟨b', by rw [pushAll, bind_ok hpush, hrun], ?_, ?_, hb'.records, hb'.opened, hb'.pending⟩
    · simp [hb'.arena]
    · simp [hb'.code, List.range'_succ]

theorem waits_iff : b.Waits ↔ ∀ a ∈ b.pending, (b.records.field? a).isSome := by simp [Waits, field?_eq]

theorem appendAll_run (hb : b.Waits) (op : Opcode) (ops : List Opcode) :
    ∃ b', (appendAll (op :: ops)).run b = .ok (some b.arena.size) b' ∧ Added op ops b b' := by
  obtain ⟨j, hpush⟩ := push_run (b := b) op
  obtain ⟨pushed, hrun, hpushed⟩ := pushAll_run (op :: ops) b
  rw [pushAll, bind_ok hpush] at hrun
  have hfields : ∀ a ∈ b.pending.toList, (pushed.records.field? a).isSome := fun a ha => by
    rw [hpushed.records]
    exact waits_iff.1 hb a (Array.mem_toList_iff.1 ha)
  obtain ⟨b', hsettle, hb'⟩ := settleAll_run b.arena.size b.pending.toList { pushed with pending := #[] } hfields
  have hsettle' : (settlePending b.arena.size).run pushed = .ok () b' := by
    rw [← hpushed.pending] at hsettle
    exact hsettle
  refine ⟨b', ?_, ?_, by rw [hb'.code, hpushed.code]; rfl, ?_, ?_, hb'.pending⟩
  · rw [appendAll, bind_ok hpush, bind_ok hrun, bind_ok hsettle', EStateM.run_pure]
  · have hlength : b.arena.size = b.arena.toList.length := Array.length_toList.symm
    rw [hb'.arena, Array.toList_modify, hpushed.arena, List.map_cons, hlength, modify_length_append]
    simp
  · rw [← hpushed.records]
    exact hb'.records
  · rw [← hpushed.opened]
    exact hb'.opened

theorem appendAll_singleton (op : Opcode) : appendAll [op] = some <$> append op := by
  simp [appendAll, append, pushAll]

theorem append_added (hb : b.Waits) (op : Opcode) :
    ∃ b', (append op).run b = .ok b.arena.size b' ∧ Added op [] b b' := by
  obtain ⟨b', hrun, hb'⟩ := appendAll_run hb op []
  rw [appendAll_singleton] at hrun
  refine ⟨b', ?_, hb'⟩
  cases h : (append op).run b with
  | ok i b₁ =>
    rw [map_ok h] at hrun
    cases hrun
    rfl
  | error e b₁ =>
    rw [← bind_pure_comp, bind_error h] at hrun
    cases hrun

theorem references_of_le {h : Nat} (hh : b.arena.size ≤ h) : b.references h = #[] := by
  rw [references, Array.getElem?_eq_none hh]
  rfl

theorem lt_of_mem_references {a : Anchor} {h : Nat} (ha : a ∈ b.references h) : h < b.arena.size := by
  refine Nat.lt_of_not_le fun hge => ?_
  rw [references_of_le hge] at ha
  simp at ha

namespace Added

variable {op op' : Opcode} {ops ops' : List Opcode} {b' b'' : Builder}

theorem size (h : Added op ops b b') : b'.arena.size = b.arena.size + (1 + ops.length) := by
  rw [← Array.length_toList, h.arena, List.length_append, List.length_cons, List.length_map, Array.length_toList]
  omega

theorem getElem?_arena (h : Added op ops b b') (i : Nat) : b'.arena[i]? =
    if i < b.arena.size then b.arena[i]?
    else if i = b.arena.size then some ⟨op, b.pending, true⟩
    else ops[i - (b.arena.size + 1)]?.map (⟨·, #[], true⟩) := by
  rw [← Array.getElem?_toList, h.arena, List.getElem?_append, Array.length_toList, Array.getElem?_toList]
  by_cases hlt : i < b.arena.size
  · rw [if_pos hlt, if_pos hlt]
  · rw [if_neg hlt, if_neg hlt]
    by_cases heq : i = b.arena.size
    · subst heq
      simp
    · rw [if_neg heq, List.getElem?_cons, if_neg (by omega), List.getElem?_map, Nat.sub_sub]

/-- The first new instruction lists what waited, and nothing else is listed anew. -/
theorem references (h : Added op ops b b') (i : Nat) :
    b'.references i = if i = b.arena.size then b.pending else b.references i := by
  rw [Builder.references, Builder.references, h.getElem?_arena]
  by_cases hlt : i < b.arena.size
  · rw [if_pos hlt, if_neg (Nat.ne_of_lt hlt)]
  · rw [if_neg hlt, Array.getElem?_eq_none (Nat.le_of_not_lt hlt)]
    by_cases heq : i = b.arena.size
    · rw [if_pos heq, if_pos heq]
      rfl
    · rw [if_neg heq, if_neg heq]
      cases ops[i - (b.arena.size + 1)]? <;> rfl

/-- With nothing left to wait, what is added next is pointed at by nothing. -/
theorem trans (h : Added op ops b b') (h' : Added op' ops' b' b'') : Added op (ops ++ op' :: ops') b b'' where
  arena := by
    rw [h'.arena, h.arena, h.pending]
    simp
  code := by
    rw [h'.code, h.code, h.size, List.append_assoc, Nat.add_comm 1, List.range'_append_1, List.length_append,
      List.length_cons]
    rw [show ops.length + 1 + (ops'.length + 1) = ops.length + (ops'.length + 1) + 1 by omega]
  records := by rw [h'.records, h.records, h.pending]; rfl
  opened := h'.opened.trans h.opened
  pending := h'.pending

end Added

/-! ### Changing records -/

/-- Leaves the fields of a range alone; those it adds are empty. -/
structure RangeKeeps (f : GuardedRange → GuardedRange) : Prop where
  start : ∀ g, (f g).start = g.start
  join : ∀ g, (f g).join = g.join
  handlers : ∀ g (i : Nat), FieldKept ((g.handlers[i]?).map Handler.start) (((f g).handlers[i]?).map Handler.start)

/-- Leaves the fields of a chain alone; those it adds are empty. -/
structure ChainKeeps (f : Chain → Chain) : Prop where
  join : ∀ c, (f c).join = c.join
  branches : ∀ c (i : Nat),
    FieldKept ((c.branches[i]?).map ChainBranch.next) (((f c).branches[i]?).map ChainBranch.next)

theorem field?_modifyRange {r : Records} {range : Nat} {f : GuardedRange → GuardedRange}
    (hf : RangeKeeps f) (a : Anchor) : FieldKept (r.field? a) ((r.modifyRange range f).field? a) := by
  cases a with
  | tryStart i | tryEnd i =>
    refine .inl ?_
    simp only [Records.field?, Records.modifyRange, List.getElem?_modify]
    cases r.ranges[i]? <;> by_cases hi : range = i <;> simp [hi, hf.start, hf.join]
  | handlerStart i handler =>
    simp only [Records.field?, Records.modifyRange, List.getElem?_modify]
    cases r.ranges[i]? with
    | none => exact .inl rfl
    | some g =>
      by_cases hi : range = i
      · simpa [hi] using hf.handlers g handler
      · simp [hi, FieldKept]
  | branchNext chain branch | ifEnd chain => exact .inl rfl

theorem field?_modifyChain {r : Records} {chain : Nat} {f : Chain → Chain} (hf : ChainKeeps f)
    (a : Anchor) : FieldKept (r.field? a) ((r.modifyChain chain f).field? a) := by
  cases a with
  | tryStart range | tryEnd range | handlerStart range handler => exact .inl rfl
  | branchNext i branch =>
    simp only [Records.field?, Records.modifyChain, List.getElem?_modify]
    cases r.chains[i]? with
    | none => exact .inl rfl
    | some c =>
      by_cases hi : chain = i
      · simpa [hi] using hf.branches c branch
      · simp [hi, FieldKept]
  | ifEnd i =>
    refine .inl ?_
    simp only [Records.field?, Records.modifyChain, List.getElem?_modify]
    cases r.chains[i]? <;> by_cases hi : chain = i <;> simp [hi, hf.join]

theorem rangeKeeps_skip (skip : Option Handle) : RangeKeeps fun g => { g with skip := skip } :=
  ⟨fun _ => rfl, fun _ => rfl, fun _ _ => .inl rfl⟩

theorem rangeKeeps_handlerSkip (skip : Option Handle) :
    RangeKeeps fun g =>
      { g with handlers := g.handlers.modify (g.handlers.size - 1) fun k => { k with skip := skip } } := by
  refine ⟨fun _ => rfl, fun _ => rfl, fun g i => .inl ?_⟩
  simp only [Array.getElem?_modify]
  cases g.handlers[i]? <;> split <;> simp

theorem rangeKeeps_push (catches : Option String) :
    RangeKeeps fun g => { g with handlers := g.handlers.push ⟨none, catches, none⟩ } := by
  refine ⟨fun _ => rfl, fun _ => rfl, fun g i => ?_⟩
  simp only [Array.getElem?_push]
  split
  · next hi => exact .inr ⟨by simp [hi], rfl⟩
  · exact .inl rfl

theorem chainKeeps_skip (branch : Nat) (skip : Option Handle) :
    ChainKeeps fun c =>
      { c with branches := c.branches.modify branch fun br => { br with skip := skip } } := by
  refine ⟨fun _ => rfl, fun c i => .inl ?_⟩
  simp only [Array.getElem?_modify]
  cases c.branches[i]? <;> split <;> simp

theorem chainKeeps_push (test : Handle) :
    ChainKeeps fun c => { c with branches := c.branches.push (.fresh test) } := by
  refine ⟨fun _ => rfl, fun c i => ?_⟩
  simp only [Array.getElem?_push]
  split
  · next hi => exact .inr ⟨by simp [hi], rfl⟩
  · exact .inl rfl

theorem chainKeeps_else : ChainKeeps fun c => { c with hasElse := true } := ⟨fun _ => rfl, fun _ _ => .inl rfl⟩

/-- Only records and the structures that are open have been changed; no field has been moved. -/
structure Reshaped (b b' : Builder) : Prop where
  arena : b'.arena = b.arena
  code : b'.code = b.code
  pending : b'.pending = b.pending
  fields : ∀ a, FieldKept (b.records.field? a) (b'.records.field? a)

theorem records_modifyRange (range : Nat) (f : GuardedRange → GuardedRange) :
    (b.modifyRange range f).records = b.records.modifyRange range f := by
  simp [records, modifyRange, Records.modifyRange]

theorem records_modifyChain (chain : Nat) (f : Chain → Chain) :
    (b.modifyChain chain f).records = b.records.modifyChain chain f := by
  simp [records, modifyChain, Records.modifyChain]

theorem reshaped_modifyRange (range : Nat) {f : GuardedRange → GuardedRange} (hf : RangeKeeps f) :
    Reshaped b (b.modifyRange range f) :=
  ⟨rfl, rfl, rfl, fun a => records_modifyRange (b := b) range f ▸ field?_modifyRange hf a⟩

theorem reshaped_modifyChain (chain : Nat) {f : Chain → Chain} (hf : ChainKeeps f) :
    Reshaped b (b.modifyChain chain f) :=
  ⟨rfl, rfl, rfl, fun a => records_modifyChain (b := b) chain f ▸ field?_modifyChain hf a⟩

/-- A record of a range is added to those of the builder, and opened. -/
def withRange (b : Builder) : Builder :=
  { b with ranges := b.ranges.push .fresh, opened := .range b.ranges.size :: b.opened }

theorem records_withRange : b.withRange.records = b.records.addRange := by
  simp [withRange, records, Records.addRange]

theorem reshaped_withRange : Reshaped b b.withRange :=
  ⟨rfl, rfl, rfl, fun a => records_withRange (b := b) ▸ Records.field?_addRange a⟩

/-- A record of a chain is added to those of the builder, and opened. -/
def withChain (b : Builder) (test : Handle) : Builder :=
  { b with chains := b.chains.push (.fresh test), opened := .chain b.chains.size :: b.opened }

theorem records_withChain (test : Handle) : (b.withChain test).records = b.records.addChain test := by
  simp [withChain, records, Records.addChain]

theorem reshaped_withChain (test : Handle) : Reshaped b (b.withChain test) :=
  ⟨rfl, rfl, rfl, fun a => records_withChain (b := b) test ▸ Records.field?_addChain test a⟩

/-! ### Streams -/

/-- The guarded body itself ends where the first handler begins. -/
theorem endGuarded_of_unhandled {range : Nat} (h : handlerCount b range = 0) :
    (endGuarded range).run b = (endBody range).run b := by
  rw [endGuarded, get_bind, if_pos h]

theorem endGuarded_of_handled {range : Nat} (h : handlerCount b range ≠ 0) :
    (endGuarded range).run b = (endHandler range).run b := by
  rw [endGuarded, get_bind, if_neg h]

theorem emitAll_append (items items' : List Item) :
    emitAll (items ++ items') = (do emitAll items; emitAll items') := by
  induction items with
  | nil => rw [emitAll, pure_bind, List.nil_append]
  | cons item items ih =>
    rw [List.cons_append, emitAll, emitAll, bind_assoc]
    exact bind_congr fun _ => ih

end BlockAssembler.Builder
