import BlockAssembler.Proofs.Block.Normalization
import BlockAssembler.Proofs.Body.Parse
import BlockAssembler.Proofs.Linked

/-! Control does not leave the code of a block. Whatever way the markers of a block are nested, if
a code object comes out, its stream does what a balanced one does: every jump has been
listed where the assembly looks for it. So an execution runs forward, from instruction to
instruction, to a return or a throw. -/

namespace BlockAssembler

/-- A sequence with its return ends in one. -/
theorem Draft.ensureReturn_isReturn (d : Draft) :
    d.ensureReturn.opcodes.getLast?.any Opcode.isReturn = true := by
  unfold ensureReturn
  split
  · rw [opcodes_append, List.getLast?_concat]
    rfl
  · next h =>
    rw [Bool.or_eq_true, not_or, Bool.not_eq_true, Bool.not_eq_true, Bool.not_eq_false'] at h
    exact h.2

/-- In what can be assembled no chain is torn. -/
theorem Builder.Placed.not_torn {b : Builder} {maxLocals : Nat} {c : Code} (hplaced : b.Placed maxLocals c)
    (hb : b.Arranged) (hsturdy : b.Sturdy) : ¬ b.records.Torn := by
  rw [← hsturdy.exists_unresolved]
  rintro ⟨link, hlink, hnone⟩
  obtain ⟨ops, hspace, -⟩ := hplaced.instructions
  obtain ⟨⟨h, distance⟩, hdistance⟩ := distance_of_space hspace hlink
  obtain ⟨t, rfl, -⟩ := distance_eq_ok hb hdistance
  cases hnone

namespace Block

variable {b : Block} {c : Code}

/-- A code object is assembled from what the block has been prepared to. -/
theorem exists_prepared (h : b.compile.1 = .ok (.code c)) : ∃ after names left,
    b.prepared = some (after, names) ∧ (Builder.assemble names).run after = .ok c left := by
  rw [compile_fst, assembly_eq] at h
  split at h
  · next result left hrun =>
    obtain rfl := Except.ok.inj h
    obtain ⟨locals, before, hcompletion, hrun⟩ := bind_eq_ok hrun
    obtain ⟨kept, after, hadjust, hrun⟩ := bind_eq_ok hrun
    cases kept with
    | false => cases hrun
    | true =>
      obtain ⟨code, assembled, hassemble, hrun⟩ := bind_eq_ok hrun
      have hcode : code = c := by
        rw [Builder.note_bind, EStateM.run_pure] at hrun
        cases hrun
        rfl
      subst hcode
      refine ⟨after, locals.size, assembled, ?_, hassemble⟩
      rw [prepared, preparation_eq, bind_ok hcompletion, bind_ok hadjust]
      rfl
  · cases h

namespace Kept

variable {d : Draft} {before after : Builder}

theorem records (h : Kept b d before after) : before.records = d.ensureReturn.records := by
  rw [← Builder.draft_of_settled h.pending, h.draft]

theorem arranged (h : Kept b d before after) : after.Arranged := by
  rcases Builder.adjust_cases h.intact h.adjust with ⟨-, rfl⟩ | ⟨-, -, hreplaced⟩
  · exact h.intact.arranged
  · exact hreplaced.arranged

/-- If all structures have been ended, the adjustment tears no chain, and mends none. -/
theorem sturdy (h : Kept b d before after) : after.opened = d.opened ∧
    (d.opened = [] → after.Sturdy ∧ (after.records.Torn ↔ d.Torn)) := by
  obtain ⟨hopened, htorn⟩ := Builder.opened_torn h.draft h.pending
  have hkept : ¬ (b.kind = .method ∧ before.draft.Trivial) := by
    rintro ⟨hkind, htrivial⟩
    obtain ⟨left, hignored⟩ := Builder.adjust_trivial h.intact htrivial
    rw [← hkind, h.adjust] at hignored
    cases hignored
  obtain ⟨after', hadjust, hopened', -, -, hend⟩ := Builder.adjust_run h.intact h.pending h.sound b.kind hkept
  obtain rfl : after = after' := by
    rw [h.adjust] at hadjust
    cases hadjust
    rfl
  refine ⟨hopened'.trans hopened, fun hclosed => ?_⟩
  obtain ⟨hsturdy, htorn'⟩ := hend (hopened.trans hclosed)
  exact ⟨hsturdy, htorn'.trans htorn⟩

/-- A stream that is assembled does what some balanced stream does. -/
theorem exists_stream {names : Nat} (h : Kept b d before after) (hplaced : after.Placed names c) :
    ∃ t : Body, Draft.emitAll t.items .empty = .ok d ∧ (b.Jumpless → t.Jumpless) := by
  obtain ⟨hopened, hend⟩ := h.sturdy
  have hclosed : d.opened = [] := hopened.symm.trans hplaced.opened
  obtain ⟨hsturdy, htorn⟩ := hend hclosed
  have htangled : Item.tangledAll b.stream.1 = false := by
    rw [Bool.eq_false_iff, Ne, ← Draft.torn_iff_tangled h.stream, ← htorn]
    exact hplaced.not_torn h.arranged hsturdy
  obtain ⟨t, hemit, hjump⟩ := Draft.exists_body h.stream hclosed htangled
  exact ⟨t, hemit, fun hb => hjump hb.stream⟩

/-- A sequence that is assembled from a block without jumps of its own is linked. -/
theorem linked {names : Nat} (h : Kept b d before after) (hplaced : after.Placed names c) (hjump : b.Jumpless) :
    after.Arranged ∧ after.Linked := by
  obtain ⟨t, hemit, hjumpless⟩ := h.exists_stream hplaced
  obtain ⟨hops, hrecords⟩ := t.draft_ensureReturn hemit
  have hlinked : before.Linked := Builder.linked_of_body (hjumpless hjump) h.intact
    (by rw [h.draft, hops]) (by rw [h.records, hrecords])
    (by rw [h.draft]; exact d.ensureReturn_isReturn)
  exact hlinked.adjust h.intact h.pending h.sound h.adjust

end Kept

/-- The code of a block without jumps of its own is closed, and every execution of it goes
forward until it returns or throws. -/
theorem compile_closed (hjump : b.Jumpless) (h : b.compile.1 = .ok (.code c)) :
    c.Closed ∧ ∀ pcs, c.Path pcs → c.Orderly pcs := by
  obtain ⟨after, names, left, hprepared, hassemble⟩ := exists_prepared h
  obtain ⟨d, before, -, hkept⟩ := exists_kept hprepared
  have hplaced := Builder.assemble_eq_ok hkept.arranged hassemble
  obtain ⟨harranged, hafter⟩ := hkept.linked hplaced hjump
  have hclosed := hplaced.closed harranged hafter
  exact ⟨hclosed, fun pcs hpcs => hclosed.orderly (hplaced.gapless harranged) hpcs⟩

/-- The code object that the block is turned into, if it is turned into one. -/
def code? (b : Block) : Option Code :=
  match b.compile.1 with
  | .ok (.code c) => some c
  | _ => none

theorem compile_of_code? (h : b.code?.isSome) : ∃ c, b.compile.1 = .ok (.code c) := by
  unfold code? at h
  split at h
  · next c hc => exact ⟨c, hc⟩
  · cases h

/-- A guarded chain, one of whose conditions is a chain itself, in front of a return of `null`. -/
def winding : Block := initializer
  [.beginTry,
    .beginIf [.op (.iconst 1)] .ifeq, .op .aconstNull, .op .athrow,
    .elseIf [.beginIf [.op (.iconst 1)] .ifeq, .op (.iconst 1), .beginElse, .op (.iconst 2), .endIf] .ifeq,
    .beginElse, .op .aconstNull, .op .pop, .endIf,
    .beginCatch none, .op .pop, .endTry,
    .op .aconstNull, .op .areturn]

theorem compile_closed_winding : ∃ c, winding.Jumpless ∧ winding.compile.1 = .ok (.code c) ∧
    c.Closed ∧ ∀ pcs, c.Path pcs → c.Orderly pcs := by
  have hjump : winding.Jumpless := rfl
  obtain ⟨c, h⟩ := compile_of_code? (b := winding) (by decide +kernel)
  exact ⟨c, hjump, h, compile_closed hjump h⟩

end Block

end BlockAssembler
