import BlockAssembler.Block
import BlockAssembler.Proofs.Agreement
import BlockAssembler.Proofs.Builder.Steps

/-! The journal is written and never read. Two builders that differ in their journals stay such
builders whatever is done with both, and a step gives the same value on both or fails on both. -/

namespace BlockAssembler

/-- A builder that differs in the journal at most. -/
def Builder.Twin (b b' : Builder) : Prop := ∃ journal, b' = b.withJournal journal

/-- The steps do the same apart from their notes. -/
abbrev Matches {α : Type} (x y : Assembly α) : Prop := Agree Builder.Twin Eq x y

/-- What the computation does does not depend on the journal. -/
abbrev Blind {α : Type} (x : Assembly α) : Prop := Matches x x

namespace Builder

theorem Twin.refl (b : Builder) : b.Twin b := ⟨b.journal, rfl⟩

theorem Twin.symm {b b' : Builder} (h : b.Twin b') : b'.Twin b := by
  obtain ⟨journal, rfl⟩ := h
  exact ⟨b.journal, rfl⟩

theorem Twin.trans {b b' b'' : Builder} (h : b.Twin b') (h' : b'.Twin b'') : b.Twin b'' := by
  obtain ⟨journal, rfl⟩ := h
  obtain ⟨journal', rfl⟩ := h'
  exact ⟨journal', rfl⟩

end Builder

section
variable {α β : Type} {x y z : Assembly α} {f g : α → Assembly β}

theorem Matches.bind (h : Matches x y) (hf : ∀ a, Matches (f a) (g a)) : Matches (x >>= f) (y >>= g) :=
  Agree.bind h fun a _ hab => hab ▸ hf a

theorem Matches.symm (h : Matches x y) : Matches y x := Agree.symm (fun _ _ => Builder.Twin.symm) h

theorem Matches.trans (h : Matches x y) (h' : Matches y z) : Matches x z :=
  Agree.trans Builder.Twin.refl (fun _ _ _ => Builder.Twin.trans) h h'

theorem blind_pure (a : α) : Blind (pure a) := Agree.pure rfl

/-- A step that reads the builder, but not the journal. -/
theorem blind_get {f : Builder → Assembly α} (hread : ∀ (b : Builder) journal, f (b.withJournal journal) = f b)
    (hf : ∀ b, Blind (f b)) : Blind (get >>= f) := by
  rintro b _ ⟨journal, rfl⟩
  rw [get_bind, get_bind, hread]
  exact hf b b _ ⟨journal, rfl⟩

theorem blind_modify {φ : Builder → Builder} (h : ∀ b journal, (φ b).Twin (φ (b.withJournal journal))) :
    Blind (modify φ) := by
  refine Agree.modify ?_
  rintro b _ ⟨journal, rfl⟩
  exact h b journal

theorem blind_modifyGet {φ : Builder → α × Builder} (hvalue : ∀ b journal, (φ (b.withJournal journal)).1 = (φ b).1)
    (h : ∀ b journal, (φ b).2.Twin (φ (b.withJournal journal)).2) : Blind (modifyGet φ) := by
  rintro b _ ⟨journal, rfl⟩
  exact .ok (hvalue b journal).symm (h b journal)

end

namespace Builder

/-! ### Instructions -/

theorem matches_noteAll (es : List Event) : Matches (noteAll es) (pure ()) := by
  rintro b _ ⟨journal, rfl⟩
  exact .ok rfl ⟨journal, rfl⟩

/-- Notes in front of other steps may be left out. -/
theorem matches_noted {α : Type} (es : List Event) {x : Assembly α} (hx : Blind x) : Matches (do noteAll es; x) x :=
  (matches_noteAll es).bind fun _ => hx

theorem matches_note (e e' : Event) : Matches (note e) (note e') := by
  rintro b _ ⟨journal, rfl⟩
  exact .ok rfl ⟨journal.push e', rfl⟩

theorem blind_note (e : Event) : Blind (note e) := matches_note e e

theorem blind_awaitNext (a : Anchor) : Blind (awaitNext a) := blind_modify fun _ journal => ⟨journal, rfl⟩

theorem blind_allocate (op : Opcode) : Blind (allocate op) :=
  blind_modifyGet (fun _ _ => rfl) fun _ journal => ⟨journal, rfl⟩

theorem blind_push (op : Opcode) : Blind (push op) := by
  refine blind_get (fun _ _ => rfl) fun b => Matches.bind (blind_note _) fun _ => ?_
  refine (blind_allocate op).bind fun h => ?_
  exact Matches.bind (blind_modify fun _ journal => ⟨journal, rfl⟩) fun _ => blind_pure _

theorem twin_setField (b : Builder) (journal : Journal) (h : Handle) (a : Anchor) :
    ((b.setField h a).addReference h a).Twin (((b.withJournal journal).setField h a).addReference h a) := by
  refine ⟨journal, ?_⟩
  cases a <;> rfl

theorem field?_withJournal (b : Builder) (journal : Journal) (a : Anchor) :
    (b.withJournal journal).field? a = b.field? a := by
  cases a <;> rfl

theorem blind_point (h : Handle) (a : Anchor) : Blind (point h a) := by
  refine blind_get (fun b journal => by rw [field?_withJournal]) fun b => ?_
  exact Matches.bind (Agree.ensure _ _) fun _ => blind_modify fun b journal => twin_setField b journal h a

theorem blind_settleAll (h : Handle) (as : List Anchor) : Blind (settleAll h as) := by
  induction as with
  | nil => exact blind_pure ()
  | cons a as ih => exact (blind_note _).bind fun _ => (blind_point h a).bind fun _ => ih

theorem blind_settlePending (h : Handle) : Blind (settlePending h) :=
  Matches.bind (blind_modifyGet (fun _ _ => rfl) fun _ journal => ⟨journal, rfl⟩) fun as => blind_settleAll h as

theorem blind_append (op : Opcode) : Blind (append op) :=
  (blind_push op).bind fun h => (blind_settlePending h).bind fun _ => blind_pure h

theorem blind_redirectAll (removed replacement : Handle) (as : List Anchor) :
    Blind (redirectAll removed replacement as) := by
  induction as with
  | nil => exact blind_pure ()
  | cons a as ih => exact (blind_note _).bind fun _ => (blind_point replacement a).bind fun _ => ih

theorem blind_remove (h : Handle) : Blind (remove h) := by
  refine blind_get (fun _ _ => rfl) fun b => ?_
  exact Matches.bind (Agree.ensure _ _) fun _ => blind_modify fun _ journal => ⟨journal, rfl⟩

theorem blind_removeAll (replacement : Handle) (hs : List Handle) : Blind (removeAll replacement hs) := by
  induction hs with
  | nil => exact blind_pure ()
  | cons h hs ih =>
    refine blind_get (fun _ _ => rfl) fun b => ?_
    refine Matches.bind (blind_modify fun _ journal => ⟨journal, rfl⟩) fun _ => ?_
    exact (blind_redirectAll h replacement _).bind fun _ => (blind_remove h).bind fun _ => ih

theorem blind_replaceTail (count : Nat) (op : Opcode) : Blind (replaceTail count op) := by
  refine blind_get (fun _ _ => rfl) fun b => ?_
  refine Matches.bind (Agree.ensure _ _) fun _ => ?_
  refine (blind_allocate op).bind fun h => ?_
  refine Matches.bind (blind_modify fun _ journal => ⟨journal, rfl⟩) fun _ => ?_
  refine (blind_removeAll h _).bind fun _ => ?_
  exact Matches.bind (blind_modify fun _ journal => ⟨journal, rfl⟩) fun _ => blind_pure h

/-! ### Structures -/

theorem blind_jumpOut : Blind jumpOut := by
  refine blind_get (fun _ _ => rfl) fun b => ?_
  split
  · rw [map_eq_pure_bind]
    exact (blind_append _).bind fun _ => blind_pure _
  · exact blind_pure none

theorem blind_openRange : Blind openRange := blind_modifyGet (fun _ _ => rfl) fun _ journal => ⟨journal, rfl⟩

theorem blind_currentRange : Blind currentRange := by
  refine blind_get (fun _ _ => rfl) fun b => ?_
  split
  · exact blind_pure _
  · exact Agree.throw _ _

theorem blind_endGuarded (range : Nat) : Blind (endGuarded range) := by
  refine blind_get (fun _ _ => rfl) fun b => ?_
  split
  · exact (blind_append _).bind fun _ => blind_modify fun _ journal => ⟨journal, rfl⟩
  · exact blind_jumpOut.bind fun _ => blind_modify fun _ journal => ⟨journal, rfl⟩

theorem blind_beginHandler (range : Nat) (catches : Option String) : Blind (beginHandler range catches) := by
  refine blind_get (fun _ _ => rfl) fun b => ?_
  exact Matches.bind (blind_modify fun _ journal => ⟨journal, rfl⟩) fun _ => blind_awaitNext _

theorem blind_openChain (test : Handle) : Blind (openChain test) := blind_modify fun _ journal => ⟨journal, rfl⟩

theorem blind_currentChain : Blind currentChain := by
  refine blind_get (fun _ _ => rfl) fun b => ?_
  split
  · exact blind_pure _
  · exact Agree.throw _ _

theorem blind_extendableChain : Blind extendableChain :=
  blind_currentChain.bind fun chain => blind_get (fun _ _ => rfl) fun _ =>
    Matches.bind (Agree.ensure _ _) fun _ => blind_pure chain

theorem blind_endBranch (chain : Nat) : Blind (endBranch chain) := by
  refine blind_jumpOut.bind fun skip => blind_get (fun _ _ => rfl) fun b => ?_
  exact Matches.bind (blind_modify fun _ journal => ⟨journal, rfl⟩) fun _ => blind_awaitNext _

theorem blind_endChain (chain : Nat) : Blind (endChain chain) := blind_modify fun _ journal => ⟨journal, rfl⟩

theorem blind_popOpen : Blind popOpen := blind_modify fun _ journal => ⟨journal, rfl⟩

mutual

theorem blind_emit (item : Item) : Blind (emit item) := by
  cases item with
  | op opcode =>
    rw [emit]
    exact (blind_append opcode).bind fun _ => blind_pure _
  | beginTry =>
    rw [emit]
    exact blind_openRange.bind fun range => blind_awaitNext _
  | beginCatch className =>
    rw [emit]
    exact blind_currentRange.bind fun range => (blind_endGuarded range).bind fun _ => blind_beginHandler range className
  | endTry =>
    rw [emit]
    refine blind_currentRange.bind fun range => blind_get (fun _ _ => rfl) fun b => ?_
    exact Matches.bind (Agree.ensure _ _) fun _ => blind_popOpen.bind fun _ => blind_awaitNext _
  | beginIf condition test =>
    rw [emit]
    exact (blind_emitAll condition).bind fun _ => (blind_append _).bind fun jump => blind_openChain jump
  | elseIf condition test =>
    rw [emit]
    refine blind_extendableChain.bind fun chain => (blind_endBranch chain).bind fun _ => ?_
    refine (blind_emitAll condition).bind fun _ => blind_currentChain.bind fun chain' => ?_
    refine Matches.bind (Agree.ensure _ _) fun _ => (blind_append _).bind fun jump => ?_
    exact blind_modify fun _ journal => ⟨journal, rfl⟩
  | beginElse =>
    rw [emit]
    refine blind_extendableChain.bind fun chain => (blind_endBranch chain).bind fun _ => ?_
    exact blind_modify fun _ journal => ⟨journal, rfl⟩
  | endIf =>
    rw [emit]
    exact blind_currentChain.bind fun chain => blind_popOpen.bind fun _ => blind_endChain chain
termination_by structural item

theorem blind_emitAll (items : List Item) : Blind (emitAll items) := by
  cases items with
  | nil =>
    rw [emitAll]
    exact blind_pure ()
  | cons item items =>
    rw [emitAll]
    exact (blind_emit item).bind fun _ => blind_emitAll items
termination_by structural items

end

/-! ### Ends -/

theorem blind_ensureReturn : Blind ensureReturn := by
  refine blind_get (fun _ _ => rfl) fun b => ?_
  split
  · exact (blind_append _).bind fun _ => blind_pure _
  · exact blind_pure _

theorem blind_dropNull : Blind dropNull := by
  refine blind_get (fun _ _ => rfl) fun b => ?_
  split
  · exact (blind_replaceTail _ _).bind fun _ => blind_pure _
  · exact blind_pure _

theorem blind_adjust (kind : BlockKind) : Blind (adjust kind) := by
  cases kind with
  | function => exact blind_pure true
  | module => exact blind_dropNull.bind fun _ => blind_pure true
  | method =>
    refine blind_get (fun _ _ => rfl) fun b => ?_
    split
    · exact (blind_note _).bind fun _ => blind_pure false
    · exact blind_dropNull.bind fun _ => blind_pure true

theorem space_withJournal (b : Builder) (journal : Journal) (l : Layout) (links : List Link) (ops : Array Opcode) :
    (b.withJournal journal).space l links ops = b.space l links ops := by
  induction links generalizing ops with
  | nil => rfl
  | cons link links ih =>
    rw [space, space]
    exact bind_congr fun _ => ih _

theorem patched_withJournal (b : Builder) (journal : Journal) (l : Layout) :
    (b.withJournal journal).patched l = b.patched l := by
  rw [patched, spaced, space_withJournal]
  rfl

theorem blind_assemble (maxLocals : Nat) : Blind (assemble maxLocals) := by
  rintro b _ ⟨journal, rfl⟩
  rw [assemble, get_bind, get_bind]
  dsimp only
  rw [patched_withJournal]
  refine Matches.bind (Agree.ofExcept (b.checkLimits maxLocals)) (fun _ => ?_) b _ ⟨journal, rfl⟩
  refine ((matches_noteAll _).trans (matches_noteAll _).symm).bind fun _ => ?_
  refine Matches.bind (Agree.ofExcept (b.patched b.layout)) fun r => ?_
  exact (matches_note _ _).bind fun _ => Agree.ofExcept (b.finished b.layout maxLocals r.1 r.2)

end Builder

end BlockAssembler
