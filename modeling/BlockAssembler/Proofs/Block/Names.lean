import BlockAssembler.Proofs.Block.ControlFlow
import BlockAssembler.Proofs.Lowering.Mentions
import BlockAssembler.Proofs.Lowering.Standard

/-! The names of a block. Its commands are lowered one after the other with one table of local
variables, so the mentions of the whole block are met in order, and what becomes of each of them is
told by the arguments and the mentions before it. -/

namespace BlockAssembler.Block

open Mention (AllConverted written stored)

variable {kind : BlockKind} {m : Module} {arguments : List String} {b : Block} {commands : List Command}
  {locals : Locals}

/-- The arguments are bound in order. -/
theorem withArguments_eq_ok (h : withArguments kind m arguments = .ok b) :
    b.kind = kind ∧ b.module = m ∧ b.commands = #[] ∧ b.scope.locals.Holds arguments := by
  unfold withArguments at h
  split at h
  · next locals hallocate =>
    cases h
    exact ⟨rfl, rfl, rfl, by simpa using Locals.holds_empty.allocateAll hallocate⟩
  · cases h

@[simp] theorem toList_commands_extend (h : b.commands = #[]) : (b.extend commands).commands.toList = commands := by
  simp [extend, h]

/-- The commands of a block follow the mentions of those before. -/
theorem lowerAll_written {before : List Mention} {start : Locals} (hstart : start.Holds (arguments ++ stored before))
    (h : (lowerAll m commands start).2 = .ok locals) :
    (lowerAll m commands start).1 = Command.itemsAll m (written m arguments) before commands ∧
      locals.Holds (arguments ++ stored (before ++ Command.mentionsAll commands)) ∧
      AllConverted m arguments before (Command.mentionsAll commands) := by
  induction commands generalizing before start with
  | nil =>
    obtain rfl := Except.ok.inj h
    exact ⟨by rw [lowerAll, Command.itemsAll], by rwa [Command.mentionsAll, List.append_nil], trivial⟩
  | cons command commands ih =>
    rw [lowerAll] at h ⊢
    rw [Command.itemsAll, Command.mentionsAll]
    cases hlower : Lowering.lower m command #[] ⟨start, #[]⟩ with
    | ok items scope =>
      rw [hlower] at h
      obtain ⟨hitems, hscope, hmentions⟩ :=
        Lowering.writes_lower m arguments before command #[] _ items scope hstart hlower
      obtain ⟨hrest, hlocals, hmentions'⟩ := ih hscope h
      refine ⟨?_, by rwa [← List.append_assoc], hmentions.append hmentions'⟩
      show items.toList ++ (lowerAll m commands scope.locals).1 = _
      rw [hrest, hitems]
      rfl
    | error e scope =>
      rw [hlower] at h
      cases h

/-- The stream of a block with arguments, and the names that its commands have bound. -/
theorem stream_written (hb : withArguments kind m arguments = .ok b)
    (h : (b.extend commands).stream.2 = .ok locals) :
    (b.extend commands).stream.1 = Command.itemsAll m (written m arguments) [] commands ∧
      locals.Holds (arguments ++ stored (Command.mentionsAll commands)) ∧
      AllConverted m arguments [] (Command.mentionsAll commands) := by
  obtain ⟨-, rfl, hcommands, hlocals⟩ := withArguments_eq_ok hb
  rw [stream, toList_commands_extend hcommands] at h ⊢
  have hstart : b.scope.locals.Holds (arguments ++ stored []) := by simpa [stored] using hlocals
  exact lowerAll_written hstart h

/-- If the commands of a block are lowered, their stream is theirs with something at every mention: the load of
a local variable if the name is read and is an argument or was stored to before, the lookup of the name if it is
read and was not, and the store to a local variable if it is stored to. The variable is numbered by the distinct
names that were bound before the name was first. -/
theorem names_resolved (hb : withArguments kind m arguments = .ok b)
    (h : (b.extend commands).stream.2 = .ok locals) :
    ∃ write : Writer, (b.extend commands).stream.1 = Command.itemsAll m write [] commands ∧
      ∀ before mention after, Command.mentionsAll commands = before ++ mention :: after →
        mention.Converted m (arguments ++ stored before) (write before mention) := by
  obtain ⟨hstream, -, hmentions⟩ := stream_written hb h
  exact ⟨written m arguments, hstream, fun before mention after hsplit => hmentions.mention hsplit⟩

/-- A name is read behind a choice that may store to it, and another one before a handler stores to it and
inside that handler. -/
def rebound : Command := .mk (.guarded
  [.mk (.assign "x") [.mk (.fetch "a") []],
    .mk (.conditional [.mk [.mk (.fetch "f") []] [.mk .returnTop [.mk (.fetch "x") []]]]
      (some [.mk (.assign "y") [.mk (.fetch "e") []]])) []]
  [.mk none (some "e") [.mk .discard [.mk (.fetch "e") []]], .mk none none [.mk .discard [.mk (.fetch "y") []]]]) []

def reboundModule : Module := ⟨"Main", .standard, .standard⟩

def reboundBlock : Block := ⟨.function, reboundModule, #[], ⟨.push "a" .empty, #[]⟩⟩

/-- The arguments, and the names as they are bound. -/
def reboundLocals : Locals := .push "e" (.push "y" (.push "x" (.push "a" .empty)))

theorem withArguments_rebound : withArguments .function reboundModule ["a"] = .ok reboundBlock := by
  have hallocate : Locals.allocateAll ["a"] .empty = .ok () (.push "a" .empty) := by
    simp [Locals.allocateAll, Locals.allocate, Locals.slot?, Locals.empty, Locals.size, Locals.push, bind,
      EStateM.bind, pure, EStateM.pure, UInt16.size]
  rw [withArguments, hallocate]
  rfl

theorem lower_rebound : Lowering.lower reboundModule rebound #[] reboundBlock.scope =
    .ok (rebound.items reboundModule (written reboundModule ["a"]) []).toArray
      ⟨reboundLocals, #[.nonLocalName "f" false, .nonLocalName "e" false]⟩ := by
  obtain ⟨truth, htruth, -⟩ := Runtime.moves_truth
  obtain ⟨f, hf⟩ := Lowering.exists_lookup (m := reboundModule) rfl "f"
  obtain ⟨e, he⟩ := Lowering.exists_lookup (m := reboundModule) rfl "e"
  have hconfig : reboundModule.config = .standard := rfl
  have hget (s : Scope) : (get : Lowering Scope) s = .ok s s := rfl
  have hmodify (f : Scope → Scope) (s : Scope) : (modify f : Lowering Unit) s = .ok () (f s) := rfl
  obtain ⟨items, hrun⟩ : ∃ items, Lowering.lower reboundModule rebound #[] reboundBlock.scope =
      .ok items ⟨reboundLocals, #[.nonLocalName "f" false, .nonLocalName "e" false]⟩ := by
    simp [rebound, reboundBlock, reboundLocals, hconfig, htruth, hf, he, Lowering.lower, Lowering.lowerAll,
      Lowering.lowerOperation, Lowering.lowerClauses, Lowering.lowerHandlers, Lowering.receive, Lowering.assign,
      Lowering.fetch, Lowering.bindName, Lowering.note, Locals.allocate, Locals.slot?, Locals.empty, Locals.size,
      Locals.push, ensure, MonadExcept.ofExcept, bind, EStateM.bind, pure, EStateM.pure, hget, hmodify, UInt16.size]
    decide +kernel
  have hstart : reboundBlock.scope.locals.Holds (["a"] ++ stored []) := by
    simpa [stored] using (withArguments_eq_ok withArguments_rebound).2.2.2
  have hitems := (Lowering.writes_lower reboundModule ["a"] [] rebound #[] _ items _ hstart hrun).1
  rw [hrun, ← items.toArray_toList, hitems]
  rfl

theorem names_resolved_rebound : ∃ locals, withArguments .function reboundModule ["a"] = .ok reboundBlock ∧
    (reboundBlock.extend [rebound]).stream.2 = .ok locals ∧
    ∃ write : Writer, (reboundBlock.extend [rebound]).stream.1 = Command.itemsAll reboundModule write [] [rebound] ∧
      ∀ before mention after, Command.mentionsAll [rebound] = before ++ mention :: after →
        mention.Converted reboundModule (["a"] ++ stored before) (write before mention) := by
  have hlocals : (reboundBlock.extend [rebound]).stream.2 = .ok reboundLocals := by
    show (lowerAll reboundModule [rebound] reboundBlock.scope.locals).2 = _
    rw [lowerAll, show (⟨reboundBlock.scope.locals, #[]⟩ : Scope) = reboundBlock.scope from rfl, lower_rebound]
    rfl
  exact ⟨reboundLocals, withArguments_rebound, hlocals, names_resolved withArguments_rebound hlocals⟩

theorem compile_rebound : ∃ c, (reboundBlock.extend [rebound]).compile.1 = .ok (.code c) := by
  have hall : addAll reboundModule [rebound] reboundBlock.scope.locals = (do
      Builder.noteAll [.nonLocalName "f" false, .nonLocalName "e" false]
      Builder.emitAll (rebound.items reboundModule (Mention.written reboundModule ["a"]) [])
      return reboundLocals) := by
    rw [addAll, addCommand, show (⟨reboundBlock.scope.locals, #[]⟩ : Scope) = reboundBlock.scope from rfl,
      lower_rebound]
    simp [addAll]
  refine compile_of_code? ?_
  unfold code? compile assembly
  simp only [show (reboundBlock.extend [rebound]).commands.toList = [rebound] from rfl,
    show (reboundBlock.extend [rebound]).module = reboundModule from rfl,
    show (reboundBlock.extend [rebound]).scope = reboundBlock.scope from rfl, hall]
  decide +kernel

end BlockAssembler.Block
