import BlockAssembler.Proofs.Block.Jumpless
import BlockAssembler.Proofs.Block.Reports
import BlockAssembler.Proofs.Verification

/-! What the kind of a block does to its instructions. A block is assembled from the sequence
that its commands and the final return have left behind, once the kind has adjusted the end of
it. A final return of `null` becomes a plain return, and whatever led to one of the two
instructions leads there. This keeps the code verifiable unless it confuses two depths: a path
that jumped past the `null` had a value on the stack, and a path that ran into it had none. -/

namespace BlockAssembler.Block

/-- The builder of a block with its return, in front of the adjustment of the end. -/
def completed (b : Block) : Option Builder :=
  match b.completion.run b.start with
  | .ok _ builder => some builder
  | .error .. => none

/-- How the builder that a block is assembled from comes about. -/
structure Kept (b : Block) (d : Draft) (before after : Builder) : Prop where
  stream : Draft.emitAll b.stream.1 .empty = .ok d
  intact : before.Intact
  draft : before.draft = d.ensureReturn
  pending : before.pending = #[]
  adjust : (Builder.adjust b.kind).run before = .ok true after

variable {b : Block} {d : Draft} {before after : Builder} {names : Nat}

theorem Kept.sound (h : Kept b d before after) : before.draft.Sound := by
  rw [h.draft]
  exact (Draft.Reaches.sound (Draft.reaches_of_emitAll _ _ _ h.stream) Draft.sound_empty).ensureReturn

/-- A sequence with its return follows the draft of its stream. -/
theorem exists_draft {locals : Locals} (h : b.completion.run b.start = .ok locals before) :
    ∃ d, Draft.emitAll b.stream.1 .empty = .ok d ∧ before.Intact ∧ before.draft = d.ensureReturn ∧
      before.pending = #[] := by
  cases hemit : Draft.emitAll b.stream.1 .empty with
  | error cause =>
    obtain ⟨left, hrun⟩ := completion_refused hemit
    cases hrun.symm.trans h
  | ok d =>
    cases hlocals : b.stream.2 with
    | error e =>
      obtain ⟨left, hrun⟩ := completion_unlowered hemit hlocals
      cases hrun.symm.trans h
    | ok =>
      obtain ⟨builder, hrun, hend⟩ := completion_start hemit hlocals
      cases hrun.symm.trans h
      exact ⟨d, rfl, hend⟩

/-- The steps in front of the assembly, one by one. -/
theorem completion_of_prepared (h : b.prepared = some (after, names)) : ∃ locals before,
    b.completion.run b.start = .ok locals before ∧ (Builder.adjust b.kind).run before = .ok true after ∧
      names = locals.size := by
  rw [prepared, preparation_eq] at h
  split at h
  · next names' after' hrun =>
    obtain ⟨rfl, rfl⟩ : after' = after ∧ names' = names := by simpa using h
    obtain ⟨locals, before, hcompletion, hrun⟩ := bind_eq_ok hrun
    obtain ⟨kept, left, hadjust, hrun⟩ := bind_eq_ok hrun
    cases hrun
    exact ⟨locals, before, hcompletion, hadjust, rfl⟩
  · cases h

theorem exists_kept (h : b.prepared = some (after, names)) :
    ∃ d before, b.completed = some before ∧ Kept b d before after := by
  obtain ⟨locals, before, hcompletion, hadjust, -⟩ := completion_of_prepared h
  obtain ⟨d, hstream, hintact, hdraft, hp⟩ := exists_draft hcompletion
  exact ⟨d, before, by rw [completed, hcompletion], hstream, hintact, hdraft, hp, hadjust⟩

/-- The initializer of a module that takes items over. -/
def initializer (items : List Item) : Block :=
  (new .module ⟨"Main", .standard, .standard⟩).extend [.mk (.raw items) []]

/-- A branch whose end jumps to a return of `null`. -/
def joining : Block := initializer
  [.beginIf [.op (.iconst 1)] .ifeq, .op .aconstNull, .op .pop, .endIf, .op .aconstNull, .op .areturn]

/-- A branch that jumps past the `null` of a return, with a value of its own. -/
def straddling : Block := initializer
  [.beginIf [.op (.iconst 1)] .ifeq, .op (.iconst 2), .beginElse, .op .aconstNull, .endIf, .op .areturn]

end BlockAssembler.Block
