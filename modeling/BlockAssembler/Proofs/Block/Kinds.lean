import BlockAssembler.Proofs.Block.ControlFlow
import BlockAssembler.Proofs.Body.Limits
import BlockAssembler.Proofs.Builder.Shortening

/-! The kinds of a block side by side. Up to the adjustment of the end a block does not ask for its kind,
and then the function's sequence is left as it is. So what becomes of a module is told by the code of
the function with the same commands, and what becomes of a method by the code of the module. -/

namespace BlockAssembler

namespace Builder

variable {b : Builder}

theorem adjust_module_kept (hnull : b.returnsNull = false) : (adjust .module).run b = .ok true b := by
  rw [adjust, bind_ok (dropNull_kept hnull), EStateM.run_pure]

theorem adjust_module_replaced (hb : b.Intact) (hnull : b.returnsNull = true) :
    ∃ b', (adjust .module).run b = .ok true b' ∧ TailReplaced 2 .voidReturn b b' := by
  obtain ⟨b', hrun, htail⟩ := dropNull_replaced hb hnull
  exact ⟨b', by rw [adjust, bind_ok hrun, EStateM.run_pure], htail⟩

/-- A method that does something is adjusted as a module is. -/
theorem adjust_method (htrivial : b.isTrivial = false) : (adjust .method).run b = (adjust .module).run b := by
  have hmethod : (adjust .method).run b = (do dropNull; return true : Assembly Bool).run b := by
    rw [adjust, get_bind, if_neg (by simp [htrivial])]
  exact hmethod

end Builder

namespace Block

/-- The same commands, with the same arguments, as the body of another kind of unit. -/
def ofKind (b : Block) (kind : BlockKind) : Block := { b with kind }

variable {b : Block} {c : Code} {d : Draft} {before after left : Builder} {names : Nat}

namespace Kept

/-- The sequence of a function that is assembled, and what is left of it for a module. -/
theorem shortened (h : Kept (b.ofKind .function) d before before) (hjump : b.Jumpless)
    (hplaced : before.Placed names c) (hnull : before.returnsNull = true)
    (hadjust : (Builder.adjust .module).run before = .ok true after)
    (htail : Builder.TailReplaced 2 .voidReturn before after) : ∃ null, Builder.Shortened before after null := by
  have hmodule : Kept (b.ofKind .module) d before after := ⟨h.stream, h.intact, h.draft, h.pending, hadjust⟩
  have hclosed : d.opened = [] := h.sturdy.1.symm.trans hplaced.opened
  obtain ⟨t, hemit, -⟩ := h.exists_stream hplaced
  have hrecords : before.records = ⟨t.ranges 0, t.chains 0⟩ := h.records.trans (t.draft_ensureReturn hemit).2
  have hranges : before.ranges.toList = t.ranges 0 := congrArg Records.ranges hrecords
  have hreaches := Draft.reaches_of_emitAll _ _ _ h.stream
  have hreplaced := htail.replaced h.intact (Builder.two_le_size_of_returnsNull h.intact hnull)
  obtain ⟨null, hdropped⟩ := Builder.NullDropped.of_replaced h.intact h.pending h.sound hnull hreplaced
  refine ⟨null, hdropped, htail, hnull, h.intact.ready h.pending h.sound hplaced.opened hrecords,
    (h.linked hplaced hjump).2, (hmodule.sturdy.2 hclosed).1, ?_, ?_, ?_⟩
  · rw [h.draft]
    exact (hreaches.flagged Draft.sound_empty Draft.flagged_empty).ensureReturn
  · rw [h.draft]
    exact (hreaches.shielded Draft.shielded_empty).ensureReturn
  · rw [hranges]
    exact t.ordered 0

/-- What the adjustment for a module makes of the sequence of a function that is assembled. -/
theorem module_run (h : Kept (b.ofKind .function) d before before) (hjump : b.Jumpless)
    (hrun : (Builder.assemble names).run before = .ok c left) :
    ∃ after c' left', (Builder.adjust .module).run before = .ok true after ∧
      (Builder.assemble names).run after = .ok c' left' ∧
      (¬ [.aconstNull, .areturn] <:+ c.opcodes → c' = c) ∧
      ([.aconstNull, .areturn] <:+ c.opcodes → c.DropsNull c') ∧
      (before.isTrivial = true ↔ c'.opcodes = [.voidReturn]) := by
  have hplaced := Builder.assemble_eq_ok h.arranged hrun
  have hends : [.aconstNull, .areturn] <:+ c.opcodes ↔ before.returnsNull = true := by
    rw [hplaced.suffix_opcodes_iff h.arranged (by decide), h.arranged.returnsNull_iff]
  cases hnull : before.returnsNull with
  | false =>
    have hkept : ¬ [.aconstNull, .areturn] <:+ c.opcodes := by simp [hends, hnull]
    refine ⟨before, c, left, Builder.adjust_module_kept hnull, hrun, fun _ => rfl, fun hs => absurd hs hkept, ?_⟩
    rw [hplaced.opcodes_eq_iff h.arranged (by decide), Builder.isTrivial_iff_opcodes, or_iff_left]
    intro hops
    rw [hplaced.suffix_opcodes_iff h.arranged (by decide), hops] at hkept
    exact hkept (List.suffix_refl _)
  | true =>
    obtain ⟨after, hadjust, htail⟩ := Builder.adjust_module_replaced h.intact hnull
    obtain ⟨null, hshort⟩ := h.shortened hjump hplaced hnull hadjust htail
    obtain ⟨c', left', hrun', hdrops⟩ := hshort.dropsNull hrun
    refine ⟨after, c', left', hadjust, hrun', fun hs => absurd (hends.2 hnull) hs, fun _ => hdrops, ?_⟩
    have hplaced' := Builder.assemble_eq_ok hshort.ready_left.arranged hrun'
    rw [hshort.isTrivial_iff, hplaced'.opcodes_eq_iff hshort.ready_left.arranged (by decide)]

end Kept

/-- What a block becomes as a module and as a method, told by what it becomes as a function. As a module it
stays as it is, unless it ends in a return of `null`: that becomes a plain return. As a method it is what it is as
a module, unless that is a plain return and nothing else: then it is left out. -/
theorem compile_kinds (hjump : b.Jumpless) (h : (b.ofKind .function).compile.1 = .ok (.code c)) :
    ∃ c', (b.ofKind .module).compile.1 = .ok (.code c') ∧
      (¬ [.aconstNull, .areturn] <:+ c.opcodes → c' = c) ∧
      ([.aconstNull, .areturn] <:+ c.opcodes → c.DropsNull c') ∧
      ((b.ofKind .method).compile.1 = .ok .ignored ↔ c'.opcodes = [.voidReturn]) ∧
      (c'.opcodes ≠ [.voidReturn] → (b.ofKind .method).compile.1 = .ok (.code c')) := by
  obtain ⟨after, names, left, hprepared, hrun⟩ := exists_prepared h
  obtain ⟨locals, before, hcompletion, hadjust, rfl⟩ := completion_of_prepared hprepared
  obtain ⟨d, hstream, hintact, hdraft, hp⟩ := exists_draft hcompletion
  have hkept : Kept (b.ofKind .function) d before after := ⟨hstream, hintact, hdraft, hp, hadjust⟩
  obtain rfl : before = after := by
    cases hadjust
    rfl
  obtain ⟨after, c', left', hmodule, hrun', hsame, hdrops, htrivial⟩ := hkept.module_run hjump hrun
  refine ⟨c', compile_code (b := b.ofKind .module) hcompletion hmodule hrun', hsame, hdrops, ?_⟩
  cases hleft : before.isTrivial with
  | true =>
    obtain ⟨last, hmethod⟩ := Builder.adjust_trivial hintact ((Builder.isTrivial_iff hintact).1 hleft)
    obtain ⟨hignored, -⟩ := compile_leftOut (b := b.ofKind .method) hcompletion hmethod
    exact ⟨iff_of_true hignored (htrivial.1 hleft), fun hne => absurd (htrivial.1 hleft) hne⟩
  | false =>
    have hmethod := (Builder.adjust_method hleft).trans hmodule
    have hcode := compile_code (b := b.ofKind .method) hcompletion hmethod hrun'
    have hne : c'.opcodes ≠ [.voidReturn] := fun hops => by
      rw [htrivial.2 hops] at hleft
      cases hleft
    exact ⟨iff_of_false (by simp [hcode]) hne, fun _ => hcode⟩

/-- The jump past the `null` lands on the return, and the `null` is pushed on the greatest depth. -/
def straddlingCode : Code where
  maxStack := 2
  maxLocals := 0
  instructions := #[⟨0, .iconst 1⟩, ⟨1, .branch .ifeq 7⟩, ⟨4, .iconst 2⟩, ⟨5, .goto 4⟩, ⟨8, .aconstNull⟩,
    ⟨9, .areturn⟩]
  exceptions := #[]

theorem compile_kinds_straddling :
    straddling.Jumpless ∧ (straddling.ofKind .function).compile.1 = .ok (.code straddlingCode) ∧
      ∃ c', (straddling.ofKind .module).compile.1 = .ok (.code c') ∧ straddlingCode.DropsNull c' ∧
        c'.opcodes ≠ [.voidReturn] ∧ (straddling.ofKind .method).compile.1 = .ok (.code c') := by
  have hjump : straddling.Jumpless := rfl
  have h : (straddling.ofKind .function).compile.1 = .ok (.code straddlingCode) := by decide +kernel
  obtain ⟨c', hmodule, -, hdrops, -, hmethod⟩ := compile_kinds hjump h
  have hends : [.aconstNull, .areturn] <:+ straddlingCode.opcodes :=
    ⟨[.iconst 1, .branch .ifeq 7, .iconst 2, .goto 4], rfl⟩
  have hdropped := hdrops hends
  obtain ⟨front, null, hfront, hleft⟩ := hdropped.instructions
  have hlength : front.length = 4 := by simpa [straddlingCode] using congrArg List.length hfront
  have hne : c'.opcodes ≠ [.voidReturn] := fun hops => by
    have hone := congrArg List.length hops
    rw [Code.opcodes, hleft, List.length_map, List.length_append, List.length_map, hlength] at hone
    cases hone
  exact ⟨hjump, h, c', hmodule, hdropped, hne, hmethod hne⟩

end Block

end BlockAssembler
