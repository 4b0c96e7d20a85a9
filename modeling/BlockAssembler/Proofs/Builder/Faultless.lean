import BlockAssembler.Proofs.Builder.Requests

/-! Calls that do not fault. An anchor may be asked for that names no field, and more instructions may
be replaced than there are; the first is a fault when an instruction is added before there is such
a field, the second at once. Up to a fault, whatever a builder is asked for, every instruction in use
stands once in its sequence. -/

namespace BlockAssembler.Builder

/-- Every instruction in use stands once in the sequence, and every anchor that one lists names a
field. -/
structure Tidy (b : Builder) : Prop where
  arranged : b.Arranged
  listed : ∀ h, ∀ a ∈ b.references h, (b.field? a).isSome

variable {α β : Type} {x : Assembly α} {f : α → Assembly β} {b b' : Builder} {op : Opcode} {ops : List Opcode}

theorem tidy_empty : empty.Tidy where
  arranged := coherent_empty.arranged
  listed h a ha := by simp [references, empty] at ha

theorem Tidy.of_arena_eq (hb : b.Tidy) (harena : b'.arena = b.arena) (hcode : b'.code = b.code)
    (hfields : ∀ a, (b.field? a).isSome → (b'.field? a).isSome) : b'.Tidy where
  arranged := by
    refine ⟨hcode ▸ hb.arranged.nodup, fun h => ?_⟩
    rw [isAlive, harena, hcode]
    exact hb.arranged.alive_iff h
  listed h a ha := by
    rw [references, harena] at ha
    exact hfields a (hb.listed h a ha)

theorem Reshaped.tidy (h : Reshaped b b') (hb : b.Tidy) : b'.Tidy := by
  refine hb.of_arena_eq h.arena h.code fun a ha => ?_
  rw [field?_eq] at ha ⊢
  exact (h.fields a).isSome ha

/-! ### Adding instructions -/

theorem Added.tidy (h : Added op ops b b') (hb : b.Tidy) (hw : b.Waits) : b'.Tidy where
  arranged := h.arranged hb.arranged
  listed i a ha := by
    rw [h.references] at ha
    rw [field?_eq, h.records, Records.isSome_field?_setAll, ← field?_eq]
    split at ha
    · exact hw a ha
    · exact hb.listed i a ha

theorem TailReplaced.tidy {count : Nat} (h : TailReplaced count op b b') (hb : b.Tidy) : b'.Tidy where
  arranged := h.arranged hb.arranged
  listed i a ha := by
    obtain ⟨as, hrecords, -⟩ := h.records
    rw [field?_eq, hrecords, Records.isSome_field?_setAll, ← field?_eq]
    by_cases hnew : i = b.arena.size
    · subst hnew
      rw [← Array.mem_toList_iff, h.moved] at ha
      obtain ⟨x, -, hx⟩ := List.mem_flatMap.1 ha
      exact hb.listed x a (by simpa using hx)
    · by_cases hmem : i ∈ b.lastHandles count
      · rw [h.cleared i hmem] at ha
        simp at ha
      · rw [h.references i hmem hnew] at ha
        exact hb.listed i a ha

theorem point_fault {h : Handle} {a : Anchor} (ha : ¬ (b.field? a).isSome) :
    (point h a).run b = .error (.internal (.malformedAnchor a)) b := by
  rw [point, get_bind]
  exact bind_error (ensure_run_error ha _) _

/-- The first anchor without a field is the one that is complained about. -/
theorem settleAll_fault (h : Handle) (as : List Anchor) (b : Builder) (has : ∃ a ∈ as, b.field? a = none) :
    ∃ a ∈ as, b.field? a = none ∧ ∃ b', (settleAll h as).run b = .error (.internal (.malformedAnchor a)) b' := by
  induction as generalizing b with
  | nil => simp at has
  | cons a as ih =>
    rw [settleAll, note_bind]
    by_cases ha : (b.field? a).isSome
    · have hfield : ((b.withJournal (b.journal.push (.resolved a h))).records.field? a).isSome :=
        field?_eq (b := b) a ▸ ha
      rw [bind_ok (point_run hfield)]
      -- the field that is missing is still missing when another one has been pointed
      have hmissing (x : Anchor) : (((b.withJournal (b.journal.push (.resolved a h))).setField h a).addReference h
          a).field? x = none ↔ b.field? x = none := by
        rw [← Option.isNone_iff_eq_none, ← Option.isNone_iff_eq_none, ← Option.not_isSome, ← Option.not_isSome,
          isSome_field?_pointed]
      obtain ⟨x, hx, hmiss⟩ := has
      have hx' : x ∈ as := (List.mem_cons.1 hx).resolve_left fun heq => by
        rw [← heq, hmiss] at ha
        cases ha
      obtain ⟨y, hy, hnone, hrun⟩ := ih _ ⟨x, hx', (hmissing x).2 hmiss⟩
      exact ⟨y, List.mem_cons_of_mem a hy, (hmissing y).1 hnone, hrun⟩
    · have hmiss : ¬ ((b.withJournal (b.journal.push (.resolved a h))).field? a).isSome := by
        rwa [field?_eq] at ha ⊢
      exact ⟨a, List.mem_cons_self, Option.not_isSome_iff_eq_none.1 ha, _, bind_error (point_fault hmiss) _⟩

theorem appendAll_fault (hb : ¬ b.Waits) (op : Opcode) (ops : List Opcode) : ∃ a ∈ b.pending, b.field? a = none ∧
    ∃ b', (appendAll (op :: ops)).run b = .error (.internal (.malformedAnchor a)) b' := by
  obtain ⟨j, hpush⟩ := push_run (b := b) op
  obtain ⟨pushed, hrun, hpushed⟩ := pushAll_run (op :: ops) b
  rw [pushAll, bind_ok hpush] at hrun
  have hfield (a : Anchor) : ({ pushed with pending := #[] } : Builder).field? a = b.field? a := by
    rw [field?_eq, field?_eq]
    exact congrArg (Records.field? · a) hpushed.records
  obtain ⟨a, ha, hmiss⟩ : ∃ a ∈ b.pending, b.field? a = none := by simpa [Waits] using hb
  obtain ⟨x, hx, hnone, b', hfault⟩ := settleAll_fault b.arena.size pushed.pending.toList { pushed with pending := #[] }
    ⟨a, by simpa [hpushed.pending] using ha, (hfield a).trans hmiss⟩
  refine ⟨x, by simpa [hpushed.pending] using hx, (hfield x).symm.trans hnone, b', ?_⟩
  rw [appendAll, bind_ok hpush, bind_ok hrun]
  exact bind_error hfault _

theorem append_fault (hb : ¬ b.Waits) (op : Opcode) : ∃ a ∈ b.pending, b.field? a = none ∧
    ∃ b', (append op).run b = .error (.internal (.malformedAnchor a)) b' := by
  obtain ⟨a, ha, hnone, b', hrun⟩ := appendAll_fault hb op []
  rw [appendAll_singleton] at hrun
  cases h : (append op).run b with
  | ok i b₁ =>
    rw [map_ok h] at hrun
    cases hrun
  | error e b₁ =>
    rw [← bind_pure_comp, bind_error h] at hrun
    cases hrun
    exact ⟨a, ha, hnone, b', rfl⟩

/-! ### What keeps a builder tidy -/

/-- From a tidy builder the computation leaves a tidy one, or it ends with a fault. -/
def Keeps (x : Assembly α) : Prop := ∀ b, b.Tidy → (∃ a b', x.run b = .ok a b' ∧ b'.Tidy) ∨
  ∃ e b', x.run b = .error e b' ∧ ((∃ fault, e = .internal fault) ∨ b'.Tidy)

theorem Keeps.bind (hx : Keeps x) (hf : ∀ a, Keeps (f a)) : Keeps (x >>= f) := fun b hb => by
  rcases hx b hb with ⟨a, b', hrun, hb'⟩ | ⟨e, b', hrun, he⟩
  · rw [bind_ok hrun]
    exact hf a b' hb'
  · exact .inr ⟨e, b', bind_error hrun f, he⟩

theorem Keeps.get_bind {f : Builder → Assembly β} (hf : ∀ b, Keeps (f b)) : Keeps (get >>= f) :=
  fun b hb => hf b b hb

theorem keeps_pure (a : α) : Keeps (pure a) := fun b hb => .inl ⟨a, b, rfl, hb⟩

theorem keeps_throw (e : AssemblyError) : Keeps (throw e : Assembly α) := fun b hb => .inr ⟨e, b, rfl, .inr hb⟩

theorem keeps_ensure (p : Prop) [Decidable p] (e : AssemblyError) : Keeps (ensure p e : Assembly Unit) := by
  rw [ensure]
  split
  · exact keeps_pure ()
  · exact keeps_throw e

theorem keeps_modify {f : Builder → Builder} (hf : ∀ b, b.Tidy → (f b).Tidy) : Keeps (modify f) :=
  fun b hb => .inl ⟨⟨⟩, f b, rfl, hf b hb⟩

theorem keeps_await (f : Builder → Array Anchor) : Keeps (modify fun b => { b with pending := f b }) :=
  keeps_modify fun _ hb => hb.of_arena_eq rfl rfl fun _ ha => ha

theorem keeps_appendAll (ops : List Opcode) : Keeps (appendAll ops) := by
  cases ops with
  | nil => exact keeps_pure none
  | cons op ops =>
    intro b hb
    by_cases hw : b.Waits
    · obtain ⟨b', hrun, h⟩ := appendAll_run hw op ops
      exact .inl ⟨_, b', hrun, h.tidy hb hw⟩
    · obtain ⟨a, -, -, b', hrun⟩ := appendAll_fault hw op ops
      exact .inr ⟨_, b', hrun, .inl ⟨.malformedAnchor a, rfl⟩⟩

theorem keeps_append (op : Opcode) : Keeps (append op) := by
  intro b hb
  have h := keeps_appendAll [op] b hb
  rw [appendAll_singleton] at h
  cases hrun : (append op).run b with
  | ok i b' =>
    rw [map_ok hrun] at h
    rcases h with ⟨_, b'', hrun', hb'⟩ | ⟨e, b'', hrun', -⟩
    · cases hrun'
      exact .inl ⟨i, b', rfl, hb'⟩
    · cases hrun'
  | error e b' =>
    rw [← bind_pure_comp, bind_error hrun] at h
    rcases h with ⟨_, b'', hrun', -⟩ | ⟨e', b'', hrun', he⟩
    · cases hrun'
    · cases hrun'
      exact .inr ⟨e, b', rfl, he⟩

theorem keeps_replaceTail (count : Nat) (op : Opcode) : Keeps (replaceTail count op) := by
  intro b hb
  by_cases hcount : count ≤ b.code.size
  · have hlisted : ∀ h, ∀ a ∈ b.references h, (b.records.field? a).isSome := fun h a ha =>
      field?_eq (b := b) a ▸ hb.listed h a ha
    obtain ⟨b', hrun, h⟩ := hb.arranged.replaceTail_run hlisted hcount op
    exact .inl ⟨_, b', hrun, h.tidy hb⟩
  · refine .inr ⟨_, b, ?_, .inl ⟨.tailOutOfBounds count, rfl⟩⟩
    rw [replaceTail, get_bind]
    exact bind_error (ensure_run_error hcount _) _

/-! ### Items -/

theorem keeps_jumpOut : Keeps jumpOut := .get_bind fun b => by
  split
  · rw [← bind_pure_comp]
    exact (keeps_append _).bind fun _ => keeps_pure _
  · exact keeps_pure none

theorem keeps_modifyRange (range : Nat) {f : GuardedRange → GuardedRange} (hf : RangeKeeps f) :
    Keeps (modify (·.modifyRange range f)) :=
  keeps_modify fun _ hb => (reshaped_modifyRange range hf).tidy hb

theorem keeps_modifyChain (chain : Nat) {f : Chain → Chain} (hf : ChainKeeps f) :
    Keeps (modify (·.modifyChain chain f)) :=
  keeps_modify fun _ hb => (reshaped_modifyChain chain hf).tidy hb

theorem keeps_popOpen : Keeps popOpen := keeps_modify fun _ hb => hb.of_arena_eq rfl rfl fun _ ha => ha

theorem keeps_awaitNext (a : Anchor) : Keeps (awaitNext a) := keeps_await fun b => b.pending.push a

theorem keeps_openRange : Keeps openRange := fun b hb => .inl ⟨_, b.withRange, rfl, reshaped_withRange.tidy hb⟩

theorem keeps_openChain (test : Handle) : Keeps (openChain test) :=
  fun b hb => .inl ⟨(), b.withChain test, rfl, (reshaped_withChain test).tidy hb⟩

theorem keeps_currentRange : Keeps currentRange := .get_bind fun b => by
  split
  · exact keeps_pure _
  · exact keeps_throw _

theorem keeps_currentChain : Keeps currentChain := .get_bind fun b => by
  split
  · exact keeps_pure _
  · exact keeps_throw _

theorem keeps_extendableChain : Keeps extendableChain :=
  keeps_currentChain.bind fun _ => .get_bind fun _ => (keeps_ensure _ _).bind fun _ => keeps_pure _

theorem keeps_endGuarded (range : Nat) : Keeps (endGuarded range) := .get_bind fun b => by
  split
  · exact (keeps_append _).bind fun jump => keeps_modifyRange range (rangeKeeps_skip (some jump))
  · exact keeps_jumpOut.bind fun skip => keeps_modifyRange range (rangeKeeps_handlerSkip skip)

theorem keeps_beginHandler (range : Nat) (catches : Option String) : Keeps (beginHandler range catches) :=
  .get_bind fun _ => (keeps_modifyRange range (rangeKeeps_push catches)).bind fun _ => keeps_awaitNext _

theorem keeps_endBranch (chain : Nat) : Keeps (endBranch chain) :=
  keeps_jumpOut.bind fun skip => .get_bind fun _ =>
    (keeps_modifyChain chain (chainKeeps_skip _ skip)).bind fun _ => keeps_awaitNext _

theorem keeps_endChain (chain : Nat) : Keeps (endChain chain) := keeps_await fun b => b.pending ++ chainEnd b chain

mutual

theorem keeps_emit (item : Item) : Keeps (emit item) := by
  match item with
  | .op opcode =>
    rw [emit]
    exact (keeps_append opcode).bind fun _ => keeps_pure _
  | .beginTry =>
    rw [emit]
    exact keeps_openRange.bind fun _ => keeps_awaitNext _
  | .beginCatch className =>
    rw [emit]
    exact keeps_currentRange.bind fun range => (keeps_endGuarded range).bind fun _ => keeps_beginHandler range className
  | .endTry =>
    rw [emit]
    exact keeps_currentRange.bind fun range => .get_bind fun _ => (keeps_ensure _ _).bind fun _ =>
      keeps_popOpen.bind fun _ => keeps_awaitNext _
  | .beginIf condition test =>
    rw [emit]
    exact (keeps_emitAll condition).bind fun _ => (keeps_append _).bind keeps_openChain
  | .elseIf condition test =>
    rw [emit]
    exact keeps_extendableChain.bind fun chain => (keeps_endBranch chain).bind fun _ =>
      (keeps_emitAll condition).bind fun _ => keeps_currentChain.bind fun _ => (keeps_ensure _ _).bind fun _ =>
        (keeps_append _).bind fun jump => keeps_modifyChain chain (chainKeeps_push jump)
  | .beginElse =>
    rw [emit]
    exact keeps_extendableChain.bind fun chain => (keeps_endBranch chain).bind fun _ =>
      keeps_modifyChain chain chainKeeps_else
  | .endIf =>
    rw [emit]
    exact keeps_currentChain.bind fun chain => keeps_popOpen.bind fun _ => keeps_endChain chain

theorem keeps_emitAll (items : List Item) : Keeps (emitAll items) := by
  match items with
  | [] =>
    rw [emitAll]
    exact keeps_pure ()
  | item :: items =>
    rw [emitAll]
    exact (keeps_emit item).bind fun _ => keeps_emitAll items

end

/-! ### Calls -/

theorem keeps_run (c : Call) : Keeps c.run := by
  cases c with
  | append op => exact (keeps_append op).bind fun _ => keeps_pure _
  | appendAll ops => exact (keeps_appendAll ops).bind fun _ => keeps_pure _
  | await a => exact keeps_awaitNext a
  | emit item => exact keeps_emit item
  | replaceTail count op => exact (keeps_replaceTail count op).bind fun _ => keeps_pure _

/-- The call ends with a fault. -/
def Call.Faults (b : Builder) (c : Call) : Prop := ∃ fault b', c.run.run b = .error (.internal fault) b'

/-- None of the calls faults when its turn comes. -/
def Faultless : List Call → Builder → Prop
  | [], _ => True
  | c :: calls, b => ¬ c.Faults b ∧ Faultless calls (c.after b)

/-- Proper calls do not fault, but others need not fault either. -/
theorem Steady.faultless {asked : List Anchor} {calls : List Call} (hb : b.Steady asked) (hcalls : ProperAll calls b) :
    Faultless calls b := by
  induction calls generalizing b asked with
  | nil => trivial
  | cons c calls ih =>
    have hc := call_steadies hb c hcalls.1
    refine ⟨?_, ih hc.after hcalls.2⟩
    rintro ⟨fault, b', hfault⟩
    rcases hc.ends with ⟨b'', hrun⟩ | ⟨m, b'', hrun⟩
    · cases hfault.symm.trans hrun
    · cases hfault.symm.trans hrun

theorem Tidy.after (hb : b.Tidy) {c : Call} (hc : ¬ c.Faults b) : (c.after b).Tidy := by
  rcases keeps_run c b hb with ⟨_, b', hrun, hb'⟩ | ⟨e, b', hrun, ⟨fault, rfl⟩ | hb'⟩
  · rwa [Call.after, hrun]
  · exact absurd ⟨fault, b', hrun⟩ hc
  · rwa [Call.after, hrun]

theorem Tidy.afterAll {calls : List Call} (hb : b.Tidy) (hcalls : Faultless calls b) : (afterAll calls b).Tidy := by
  induction calls generalizing b with
  | nil => exact hb
  | cons c calls ih => exact ih (hb.after hcalls.1) hcalls.2

end BlockAssembler.Builder
