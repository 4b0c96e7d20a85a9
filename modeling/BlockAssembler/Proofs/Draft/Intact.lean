import BlockAssembler.Proofs.Draft.Sound
import BlockAssembler.Proofs.Builder.Steps

/-! A builder does what its draft does. The draft of a builder points every anchor that
waits at the instruction that is still to come; adding an instruction then only
catches up with its draft, and letting an anchor wait is caught up with at once. A
builder is intact as long as nothing has been replaced in it. On an intact builder
no step of a stream meets a contradiction: a stream is refused exactly when its draft
is refused, with the same cause. -/

namespace BlockAssembler.Builder

def draft (b : Builder) : Draft where
  lines := b.arena.toList.map fun c => ⟨c.opcode, c.isHandlerEntry⟩
  records := Records.setAll b.arena.size b.pending.toList b.records
  opened := b.opened
  entering := b.pending.any Anchor.isHandlerStart
  live := b.fallsThrough

/-- Nothing has been taken out of the sequence, everything that waits waits for a field,
and every instruction lists the fields that point at it. What it lists may by now point
elsewhere, but then at a later instruction. -/
structure Intact (b : Builder) : Prop where
  code_eq : b.code = Array.range b.arena.size
  alive : ∀ c ∈ b.arena, c.alive = true
  waits : ∀ a ∈ b.pending, (b.records.field? a).isSome
  lists : ∀ a h, b.records.field? a = some (some h) → a ∈ b.references h
  listed : ∀ a (h : Nat), a ∈ b.references h → ∃ h', b.records.field? a = some (some h') ∧ h ≤ h'

variable {b : Builder}

/-! ### Adding an instruction -/

theorem intact_empty (j : Journal) : (empty.withJournal j).Intact where
  code_eq := rfl
  alive := by simp [withJournal, empty]
  waits := by simp [withJournal, empty]
  lists := by
    intro a h hf
    cases a <;> simp [withJournal, empty, records, Records.field?] at hf
  listed := by simp [references, withJournal, empty]

theorem draft_empty (j : Journal) : (empty.withJournal j).draft = Draft.empty := by
  simp [draft, empty, withJournal, records, Draft.empty, Records.setAll, fallsThrough, last?]

/-- From `b` the computation ends well, with `a`, an intact builder and the draft `d`. -/
def Does {α : Type} (x : Assembly α) (b : Builder) (a : α) (d : Draft) : Prop :=
  ∃ b', x.run b = .ok a b' ∧ b'.Intact ∧ b'.draft = d

/-- In the end nothing waits. -/
def Settles {α : Type} (x : Assembly α) (b : Builder) (a : α) (d : Draft) : Prop :=
  ∃ b', x.run b = .ok a b' ∧ b'.Intact ∧ b'.draft = d ∧ b'.pending = #[]

theorem Settles.does {α : Type} {x : Assembly α} {a : α} {d : Draft} (h : Settles x b a d) :
    Does x b a d := by
  obtain ⟨b', hrun, hintact, hdraft, -⟩ := h
  exact ⟨b', hrun, hintact, hdraft⟩

theorem Does.bind {α β : Type} {x : Assembly α} {f : α → Assembly β} {a : α} {c : β} {d d' : Draft}
    (hx : Does x b a d) (hf : ∀ b', b'.Intact → b'.draft = d → Does (f a) b' c d') :
    Does (x >>= f) b c d' := by
  obtain ⟨b', hrun, hintact, hdraft⟩ := hx
  obtain ⟨b'', hrun', hend⟩ := hf b' hintact hdraft
  exact ⟨b'', by rw [bind_ok hrun, hrun'], hend⟩

theorem Settles.bind {α β : Type} {x : Assembly α} {f : α → Assembly β} {a : α} {c : β} {d d' : Draft}
    (hx : Settles x b a d)
    (hf : ∀ b', b'.Intact → b'.draft = d → b'.pending = #[] → Does (f a) b' c d') :
    Does (x >>= f) b c d' := by
  obtain ⟨b', hrun, hintact, hdraft, hpending⟩ := hx
  obtain ⟨b'', hrun', hend⟩ := hf b' hintact hdraft hpending
  exact ⟨b'', by rw [bind_ok hrun, hrun'], hend⟩

theorem Settles.settled_bind {α β : Type} {x : Assembly α} {f : α → Assembly β} {a : α} {c : β}
    {d d' : Draft} (hx : Settles x b a d)
    (hf : ∀ b', b'.Intact → b'.draft = d → b'.pending = #[] → Settles (f a) b' c d') :
    Settles (x >>= f) b c d' := by
  obtain ⟨b', hrun, hintact, hdraft, hpending⟩ := hx
  obtain ⟨b'', hrun', hend⟩ := hf b' hintact hdraft hpending
  exact ⟨b'', by rw [bind_ok hrun, hrun'], hend⟩

theorem draft_of_settled (hp : b.pending = #[]) : b.draft.records = b.records := by
  simp [draft, hp, Records.setAll]

theorem size_draft : b.draft.size = b.arena.size := by simp [Draft.size, draft]

/-- An intact builder stays intact when instructions are added. -/
theorem Added.intact {op : Opcode} {ops : List Opcode} {b' : Builder} (h : Added op ops b b') (hb : b.Intact) :
    b'.Intact where
  code_eq := by
    refine Array.toList_inj.1 ?_
    rw [h.code, h.size, hb.code_eq, Array.toList_range, Array.toList_range, Nat.add_comm 1, List.range_eq_range',
      List.range_eq_range', ← List.range'_append_1 (s := 0) (m := b.arena.size), Nat.zero_add]
  alive c hc := by
    rw [← Array.mem_toList_iff, h.arena, List.mem_append, List.mem_cons, List.mem_map] at hc
    rcases hc with hc | rfl | ⟨_, -, rfl⟩
    · exact hb.alive c (by simpa using hc)
    · rfl
    · rfl
  waits := by simp [h.pending]
  lists a x hf := by
    rw [h.records] at hf
    rw [h.references]
    by_cases ha : a ∈ b.pending.toList
    · rw [Records.field?_setAll_of_mem ha (hb.waits a (by simpa using ha))] at hf
      obtain rfl : b.arena.size = x := by simpa using hf
      simpa using ha
    · rw [Records.field?_setAll_of_not_mem ha] at hf
      have hmem := hb.lists a x hf
      rwa [if_neg (Nat.ne_of_lt (lt_of_mem_references hmem))]
  listed a x ha := by
    rw [h.references] at ha
    rw [h.records]
    by_cases hmem : a ∈ b.pending.toList
    · refine ⟨_, Records.field?_setAll_of_mem hmem (hb.waits a (by simpa using hmem)), ?_⟩
      split at ha
      · next heq => exact Nat.le_of_eq heq
      · exact Nat.le_of_lt (lt_of_mem_references ha)
    · rw [Records.field?_setAll_of_not_mem hmem]
      split at ha
      · exact absurd (by simpa using ha) hmem
      · exact hb.listed a x ha

theorem Added.draft_eq {op : Opcode} {b' : Builder} (h : Added op [] b b') (hb : b.Intact) :
    b'.draft = b.draft.append op := by
  have harena : b'.arena = b.arena.push ⟨op, b.pending, true⟩ := Array.toList_inj.1 (by simp [h.arena])
  have hlive : b'.fallsThrough = !op.isTerminal := by
    simp [fallsThrough, h.pending, last?, (h.intact hb).code_eq, harena, Array.range_succ, opcode?]
  rw [draft, hlive, h.pending, h.records, harena, h.opened]
  simp [Draft.append, draft, Cell.isHandlerEntry, Records.setAll]

theorem append_settles (hb : b.Intact) (op : Opcode) :
    Settles (append op) b b.draft.size (b.draft.append op) := by
  obtain ⟨b', hrun, h⟩ := append_added (waits_iff.2 hb.waits) op
  exact ⟨b', by rw [size_draft, hrun], h.intact hb, h.draft_eq hb, h.pending⟩

theorem awaitNext_does (hb : b.Intact) {a : Anchor} (hf : (b.draft.records.field? a).isSome) :
    Does (awaitNext a) b () (b.draft.await a) := by
  refine ⟨_, rfl, ⟨hb.code_eq, hb.alive, ?_, hb.lists, hb.listed⟩, ?_⟩
  · intro x hx
    rcases Array.mem_push.1 hx with hx | rfl
    · exact hb.waits x hx
    · rwa [draft, Records.isSome_field?_setAll] at hf
  · have hlive : (({ b with pending := b.pending.push a } : Builder)).fallsThrough = true := by
      simp [fallsThrough]
    rw [draft, hlive]
    simp [Draft.await, draft, Draft.size, Records.setAll, records]

theorem jumpOut_settles (hb : b.Intact) : Settles jumpOut b b.draft.skip b.draft.jumpOut := by
  have hlive : b.draft.live = b.fallsThrough := rfl
  rw [Draft.skip, Draft.jumpOut, hlive]
  by_cases hfalls : b.fallsThrough = true
  · obtain ⟨b', hrun, hend⟩ := append_settles hb (.goto 0)
    refine ⟨b', ?_, by simpa [hfalls] using hend⟩
    rw [jumpOut, get_bind, if_pos hfalls, if_pos hfalls, map_ok hrun]
  · refine ⟨b, ?_, hb, ?_, ?_⟩
    · rw [jumpOut, get_bind, if_neg hfalls, if_neg hfalls, EStateM.run_pure]
    · rw [if_neg hfalls]
    · simp [fallsThrough] at hfalls
      exact hfalls.1

/-! ### Changing a record -/

theorem Reshaped.intact {b' : Builder} (h : Reshaped b b') (hb : b.Intact) : b'.Intact where
  code_eq := by rw [h.code, h.arena, hb.code_eq]
  alive := by rw [h.arena]; exact hb.alive
  waits a ha := (h.fields a).isSome (hb.waits a (h.pending ▸ ha))
  lists a x ha := by
    rw [references, h.arena]
    exact hb.lists a x (((h.fields a).iff x).1 ha)
  listed a x ha := by
    rw [references, h.arena] at ha
    obtain ⟨y, hfield, hle⟩ := hb.listed a x ha
    exact ⟨y, ((h.fields a).iff y).2 hfield, hle⟩

theorem modifyRange_settles (hb : b.Intact) (hp : b.pending = #[]) (range : Nat)
    {f : GuardedRange → GuardedRange} (hf : RangeKeeps f) :
    Settles (modify (·.modifyRange range f)) b () (b.draft.modifyRange range f) := by
  refine ⟨_, rfl, (reshaped_modifyRange range hf).intact hb, ?_, hp⟩
  have hlive : (b.modifyRange range f).fallsThrough = b.fallsThrough := rfl
  rw [draft, records_modifyRange, hlive]
  simp [draft, Draft.modifyRange, modifyRange, hp, Records.setAll]

theorem modifyChain_settles (hb : b.Intact) (hp : b.pending = #[]) (chain : Nat) {f : Chain → Chain}
    (hf : ChainKeeps f) :
    Settles (modify (·.modifyChain chain f)) b () (b.draft.modifyChain chain f) := by
  refine ⟨_, rfl, (reshaped_modifyChain chain hf).intact hb, ?_, hp⟩
  have hlive : (b.modifyChain chain f).fallsThrough = b.fallsThrough := rfl
  rw [draft, records_modifyChain, hlive]
  simp [draft, Draft.modifyChain, modifyChain, hp, Records.setAll]

end BlockAssembler.Builder
