import BlockAssembler.Proofs.Body.Forward
import BlockAssembler.Proofs.Builder.Scan

/-! The depth that a code object asks for. It comes from one scan of the instructions in
their order, as if control went from each to the next, and starts again from one wherever
a handler starts. What a path meets behind a jump is another matter: an instruction that
ends a path lowers the depth for what stands behind it, where control may arrive on
another path. -/

namespace BlockAssembler

/-- The greatest depth that the scan of a sequence meets, in which handlers start at some
instructions. -/
def scanned (starts : List (Option Handle)) (ops : List Opcode) : Nat :=
  ((ops.mapIdx fun i op => (⟨op, decide (some i ∈ starts)⟩ : Line)).foldl Depth.pass .start).greatest.toNat

namespace Builder

variable {b : Builder}

theorem stackDepth_eq (hb : b.Intact) (hflagged : b.draft.Flagged) :
    b.stackDepth = scanned (handlerStarts b.draft.records.ranges) b.draft.opcodes := by
  have hlines : (b.draft.opcodes.mapIdx fun i op =>
      (⟨op, decide (some i ∈ handlerStarts b.draft.records.ranges)⟩ : Line)) = b.draft.lines := by
    apply List.ext_getElem?
    intro i
    rw [List.getElem?_mapIdx, Draft.opcodes, List.getElem?_map]
    cases hi : b.draft.lines[i]? with
    | none => rfl
    | some line =>
      have hflag := hflagged.lines i line hi
      simp [← hflag]
  rw [stackDepth_eq_lines, lines_eq_draft hb, scanned, hlines]

end Builder

namespace Body

theorem maxStack_assembled (t : Body) {maxLocals : Nat} {c : Code}
    (h : assembled t.items maxLocals = .ok c) :
    c.maxStack = scanned (handlerStarts (t.ranges 0)) t.opcodes := by
  obtain ⟨d, b, b', hemit, hb, hdraft, -, hcode⟩ := Builder.of_assembled h
  obtain ⟨hops, hrecords⟩ := t.draft_ensureReturn hemit
  have hflagged := (Draft.reaches_of_emitAll _ _ _ hemit).flagged Draft.sound_empty Draft.flagged_empty
  have hdepth := Builder.stackDepth_eq hb (hdraft ▸ hflagged.ensureReturn)
  rw [hdraft, hops, hrecords] at hdepth
  exact (Builder.assemble_eq_ok hb.arranged hcode).maxStack_eq.trans hdepth

/-- The code object of a stream asks for enough stack exactly if the scan meets the greatest
depth of all paths. -/
theorem stackSafe_iff {t : Body} (ht : t.Jumpless) {maxLocals : Nat} {c : Code}
    (h : assembled t.items maxLocals = .ok c) :
    c.StackSafe ↔ c.peak ≤ scanned (handlerStarts (t.ranges 0)) t.opcodes := by
  rw [((t.assembled_eq_ok h).forward ht).peak_le_iff, Code.StackSafe, t.maxStack_assembled h]

/-- A branch returns, and control goes on behind it with what the branch has not popped. -/
def returning : Body :=
  .op .aconstNull (.chain (.op (.iconst 1) .nil) .ifeq (.op .areturn .nil) .done
    (.op .aconstNull (.op .aconstNull (.op .areturn .nil))))

def returningCode : Code where
  maxStack := 2
  maxLocals := 0
  instructions := #[⟨0, .aconstNull⟩, ⟨1, .iconst 1⟩, ⟨2, .branch .ifeq 4⟩, ⟨5, .areturn⟩,
    ⟨6, .aconstNull⟩, ⟨7, .aconstNull⟩, ⟨8, .areturn⟩]
  exceptions := #[]

theorem stackSafe_returning : returningCode.StackSafe ↔
    returningCode.peak ≤ scanned (handlerStarts (returning.ranges 0)) returning.opcodes := by
  have hjump : returning.Jumpless := by
    simp [returning, Jumpless, Arms.Jumpless, Opcode.isJump, Opcode.distance?]
  have hcode : assembled returning.items 0 = .ok returningCode := by decide +kernel
  exact stackSafe_iff hjump hcode

theorem not_stackSafe_returning :
    ¬ ∀ (t : Body) (maxLocals : Nat) (c : Code), t.Jumpless → assembled t.items maxLocals = .ok c →
      c.StackSafe := by
  intro hsafe
  have hjump : returning.Jumpless := by
    simp [returning, Jumpless, Arms.Jumpless, Opcode.isJump, Opcode.distance?]
  have hcode : assembled returning.items 0 = .ok returningCode := by decide +kernel
  have hforward := (returning.assembled_eq_ok hcode).forward hjump
  have hpeak : ¬ returningCode.peak ≤ returningCode.maxStack := by decide +kernel
  exact hpeak ((hforward.peak_le_iff _).2 (hsafe returning 0 returningCode hjump hcode))

end Body

end BlockAssembler
