import BlockAssembler.Proofs.Block.Refusal
import BlockAssembler.Proofs.Replacement

/-! The stream of a block. A command is lowered only after the items of those before it have
been added, but what it is lowered to depends on the names bound so far and on nothing else.
So the stream can be read off the commands, and the builder follows the draft of it. -/

namespace BlockAssembler

namespace Block

/-- The items of commands up to the first that cannot be lowered, and the names bound by
them all or the error of that command. -/
def lowerAll (m : Module) : List Command → Locals → List Item × Except AssemblyError Locals
  | [], locals => ([], .ok locals)
  | command :: commands, locals =>
    match Lowering.lower m command #[] ⟨locals, #[]⟩ with
    | .ok items scope =>
      let (rest, result) := lowerAll m commands scope.locals
      (items.toList ++ rest, result)
    | .error e _ => ([], .error e)

def stream (b : Block) : List Item × Except AssemblyError Locals :=
  lowerAll b.module b.commands.toList b.scope.locals

theorem lowerAll_ne_internal (m : Module) (commands : List Command) (locals : Locals) (f : Fault) :
    (lowerAll m commands locals).2 ≠ .error (.internal f) := by
  induction commands generalizing locals with
  | nil => exact fun h => nomatch h
  | cons command commands ih =>
    rw [lowerAll]
    cases hlower : Lowering.lower m command #[] ⟨locals, #[]⟩ with
    | ok items scope => exact ih scope.locals
    | error e scope =>
      intro h
      obtain rfl := Except.error.inj h
      exact Lowering.faultless_lower m command #[] _ f scope hlower

/-! ### Adding the commands -/

/-- The computation ends as the draft of a stream and the lowering of its commands do. -/
def Follows (x : Assembly Locals) (b : Builder) :
    Except Malformation Draft → Except AssemblyError Locals → Prop
  | .error cause, _ => ∃ b', x.run b = .error (.malformedStructure cause) b'
  | .ok _, .error e => ∃ b', x.run b = .error e b'
  | .ok d, .ok locals => Builder.Does x b locals d

theorem Follows.of_run {x y : Assembly Locals} {b b' : Builder} {r : Except Malformation Draft}
    {s : Except AssemblyError Locals} (hrun : x.run b = y.run b') (hy : Follows y b' r s) : Follows x b r s := by
  cases r with
  | error cause =>
    obtain ⟨b'', hy⟩ := hy
    exact ⟨b'', hrun.trans hy⟩
  | ok d =>
    cases s with
    | error e =>
      obtain ⟨b'', hy⟩ := hy
      exact ⟨b'', hrun.trans hy⟩
    | ok locals =>
      obtain ⟨b'', hy, hend⟩ := hy
      exact ⟨b'', hrun.trans hy, hend⟩

theorem addAll_follows (m : Module) (commands : List Command) (locals : Locals) (b : Builder) (hb : b.Intact)
    (hd : b.draft.Sound) :
    Follows (addAll m commands locals) b (Draft.emitAll (lowerAll m commands locals).1 b.draft)
      (lowerAll m commands locals).2 := by
  induction commands generalizing locals b with
  | nil => exact ⟨b, rfl, hb, rfl⟩
  | cons command commands ih =>
    rw [addAll, lowerAll, addCommand]
    cases hlower : Lowering.lower m command #[] ⟨locals, #[]⟩ with
    | error e scope => exact ⟨b.withJournal (b.journal ++ scope.journal.toList), rfl⟩
    | ok items scope =>
      have hfollows := Builder.emitAll_follows items.toList (b.withJournal (b.journal ++ scope.journal.toList))
        ⟨hb.code_eq, hb.alive, hb.waits, hb.lists, hb.listed⟩ hd
      have hdraft : (b.withJournal (b.journal ++ scope.journal.toList)).draft = b.draft := rfl
      rw [hdraft] at hfollows
      have hnoted : (do
            Builder.noteAll scope.journal.toList
            Builder.emitAll items.toList
            return scope.locals : Assembly Locals).run b
          = (do Builder.emitAll items.toList; return scope.locals : Assembly Locals).run
              (b.withJournal (b.journal ++ scope.journal.toList)) := Builder.noteAll_bind _ _
      dsimp only
      rw [Draft.emitAll_append]
      cases hemit : Draft.emitAll items.toList b.draft with
      | error cause =>
        rw [hemit] at hfollows
        obtain ⟨b', hrun⟩ := hfollows
        refine ⟨b', bind_error ?_ _⟩
        rw [hnoted, bind_error hrun]
      | ok d =>
        rw [hemit] at hfollows
        obtain ⟨b', hrun, hb', rfl⟩ := hfollows
        have hsound := Draft.Reaches.sound (Draft.reaches_of_emitAll _ _ _ hemit) hd
        refine .of_run (bind_ok ?_ _) (ih scope.locals b' hb' hsound)
        rw [hnoted, bind_ok hrun, EStateM.run_pure]

end Block

end BlockAssembler
