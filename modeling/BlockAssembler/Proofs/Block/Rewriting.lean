import BlockAssembler.Proofs.Block.Reports
import BlockAssembler.Proofs.Builder.Journal
import BlockAssembler.Proofs.Lowering.Rewriting

/-! Rewriting the commands of a block. A command of the block is lowered only when the items of those
before it have been added, so if its operands become commands of their own, the two kinds of steps
come in another order. But lowering does not look at the builder, and neither reads what the other
notes. So the block is turned into the same as before whenever it is turned into anything; only
which of several errors comes first may change. Commands that do nothing do not even change that. -/

namespace BlockAssembler

namespace Block

variable {m : Module} {commands commands' : List Command}

/-! ### The same steps -/

theorem addAll_append (commands commands' : List Command) (locals : Locals) :
    addAll m (commands ++ commands') locals = addAll m commands locals >>= addAll m commands' := by
  induction commands generalizing locals with
  | nil => rw [addAll, pure_bind, List.nil_append]
  | cons command commands ih =>
    rw [List.cons_append, addAll, addAll, bind_assoc]
    exact bind_congr fun locals => ih locals

theorem addAll_singleton (command : Command) (locals : Locals) :
    addAll m [command] locals = addCommand m command locals := by
  simp only [addAll, bind_pure]

theorem addCommand_pass (locals : Locals) : addCommand m (.mk .pass []) locals = pure locals := by
  funext b
  rfl

/-- Commands that are lowered to the same are added by the same steps. -/
theorem addAll_singleton_congr {command command' : Command} (h : Lowering.Same m [command] [command'])
    (locals : Locals) : addAll m [command] locals = addAll m [command'] locals := by
  have hlower (out : Array Item) : Lowering.lower m command out = Lowering.lower m command' out := by
    rw [← Lowering.lowerAll_singleton, h, Lowering.lowerAll_singleton]
  rw [addAll_singleton, addAll_singleton, addCommand, addCommand, hlower]

/-- A part that is lowered to the same lies inside one command, which is then added by the same steps,
or it is a part of the list itself. -/
theorem addAll_fill (h : Lowering.Same m commands commands') (place : Command.Place) :
    (∀ locals, addAll m (place.fill commands) locals = addAll m (place.fill commands') locals) ∨
      ∃ front back, place.fill commands = front ++ (commands ++ back) ∧
        place.fill commands' = front ++ (commands' ++ back) := by
  induction place with
  | here => exact .inr ⟨[], [], (List.append_nil _).symm, (List.append_nil _).symm⟩
  | among front inner back ih =>
    rcases ih with heq | ⟨front', back', hfill, hfill'⟩
    · refine .inl fun locals => ?_
      rw [Command.Place.fill, Command.Place.fill, addAll_append, addAll_append]
      refine bind_congr fun locals => ?_
      rw [addAll_append, addAll_append, heq]
    · refine .inr ⟨front ++ front', back' ++ back, ?_, ?_⟩
      · rw [Command.Place.fill, hfill]
        simp only [List.append_assoc]
      · rw [Command.Place.fill, hfill']
        simp only [List.append_assoc]
  | operands operation inner => exact .inl (addAll_singleton_congr (Lowering.same_fill h (.operands operation inner)))
  | test front inner body back otherwise arguments =>
    exact .inl (addAll_singleton_congr (Lowering.same_fill h (.test front inner body back otherwise arguments)))
  | branch front condition inner back otherwise arguments =>
    exact .inl (addAll_singleton_congr (Lowering.same_fill h (.branch front condition inner back otherwise arguments)))
  | final clauses inner arguments =>
    exact .inl (addAll_singleton_congr (Lowering.same_fill h (.final clauses inner arguments)))
  | guarded inner handlers arguments =>
    exact .inl (addAll_singleton_congr (Lowering.same_fill h (.guarded inner handlers arguments)))
  | handler body front className name inner back arguments =>
    exact .inl (addAll_singleton_congr (Lowering.same_fill h (.handler body front className name inner back arguments)))

/-! ### Commands that do nothing -/

theorem addAll_passAdded (h : Command.PassAdded commands commands') (locals : Locals) :
    addAll m commands locals = addAll m commands' locals := by
  obtain ⟨place, rfl, rfl⟩ := h
  rcases addAll_fill (Lowering.same_pass m) place with heq | ⟨front, back, hfill, hfill'⟩
  · exact heq locals
  · rw [hfill, hfill', addAll_append, addAll_append]
    refine bind_congr fun locals => ?_
    rw [List.nil_append, addAll_append, addAll_singleton, addCommand_pass, pure_bind]

/-! ### Operands in front -/

theorem blind_addCommand (m : Module) (command : Command) (locals : Locals) : Blind (addCommand m command locals) := by
  have hnoted {α : Type} (es : List Event) {x : Assembly α} (hx : Blind x) : Blind (do Builder.noteAll es; x) :=
    (Builder.matches_noted es hx).trans (Builder.matches_noted es hx).symm
  unfold addCommand
  split
  · exact hnoted _ ((Builder.blind_emitAll _).bind fun _ => blind_pure _)
  · exact hnoted _ (Agree.throw _ _)

theorem blind_addAll (m : Module) (commands : List Command) (locals : Locals) : Blind (addAll m commands locals) := by
  induction commands generalizing locals with
  | nil => exact blind_pure locals
  | cons command commands ih => exact (blind_addCommand m command locals).bind ih

/-- All commands are lowered before the first item is added. -/
def addTogether (m : Module) (commands : List Command) (locals : Locals) : Assembly Locals :=
  match Lowering.lowerAll m commands #[] ⟨locals, #[]⟩ with
  | .ok items scope => do
    Builder.emitAll items.toList
    return scope.locals
  | .error e _ => throw e

section
variable {locals : Locals} {items : Array Item} {scope : Scope} {e : AssemblyError}

theorem addTogether_ok (h : (Lowering.lowerAll m commands #[]).run ⟨locals, #[]⟩ = .ok items scope) :
    addTogether m commands locals = (do Builder.emitAll items.toList; return scope.locals) := by
  have h' : Lowering.lowerAll m commands #[] ⟨locals, #[]⟩ = .ok items scope := h
  rw [addTogether, h']

theorem addTogether_error (h : (Lowering.lowerAll m commands #[]).run ⟨locals, #[]⟩ = .error e scope) :
    addTogether m commands locals = throw e := by
  have h' : Lowering.lowerAll m commands #[] ⟨locals, #[]⟩ = .error e scope := h
  rw [addTogether, h']

theorem addCommand_ok {command : Command} (h : (Lowering.lower m command #[]).run ⟨locals, #[]⟩ = .ok items scope) :
    Matches (addCommand m command locals) (do Builder.emitAll items.toList; return scope.locals) := by
  have h' : Lowering.lower m command #[] ⟨locals, #[]⟩ = .ok items scope := h
  rw [addCommand, h']
  exact Builder.matches_noted _ ((Builder.blind_emitAll _).bind fun _ => blind_pure _)

theorem addCommand_error {command : Command} (h : (Lowering.lower m command #[]).run ⟨locals, #[]⟩ = .error e scope) :
    Matches (addCommand m command locals) (throw e) := by
  have h' : Lowering.lower m command #[] ⟨locals, #[]⟩ = .error e scope := h
  rw [addCommand, h']
  exact Builder.matches_noted _ (Agree.throw e e)

end

theorem blind_addTogether (m : Module) (commands : List Command) (locals : Locals) :
    Blind (addTogether m commands locals) := by
  unfold addTogether
  split
  · exact (Builder.blind_emitAll _).bind fun _ => blind_pure _
  · exact Agree.throw _ _

/-- A first command that is added before the others are lowered. -/
theorem matches_first (m : Module) (command : Command) (commands : List Command) (locals : Locals) :
    Matches (addCommand m command locals >>= addTogether m commands) (addTogether m (command :: commands) locals) := by
  cases hlower : (Lowering.lower m command #[]).run ⟨locals, #[]⟩ with
  | error e scope =>
    have hall : (Lowering.lowerAll m (command :: commands) #[]).run ⟨locals, #[]⟩ = .error e scope := by
      rw [Lowering.lowerAll, bind_error hlower]
    rw [addTogether_error hall]
    exact ((addCommand_error hlower).bind fun _ => blind_addTogether m commands _).trans (Agree.throw_bind e e _)
  | ok items scope =>
    have hall : (Lowering.lowerAll m (command :: commands) #[]).run ⟨locals, #[]⟩ =
        (Lowering.lowerAll m commands items).run scope := by
      rw [Lowering.lowerAll, bind_ok hlower]
    refine ((addCommand_ok hlower).bind fun _ => blind_addTogether m commands _).trans ?_
    rw [bind_assoc]
    simp only [pure_bind]
    -- the others are lowered behind the items of the first, or apart
    have hbehind : Lowering.Behind items items #[] := (Array.append_empty).symm
    have hrest := Lowering.agree_lowerAll m commands hbehind scope ⟨scope.locals, #[]⟩ rfl
    generalize hrun : (Lowering.lowerAll m commands items).run scope = r at hrest
    generalize hrun' : (Lowering.lowerAll m commands #[]).run ⟨scope.locals, #[]⟩ = r' at hrest
    cases hrest with
    | @ok out more _ _ hout hlocals =>
      rw [addTogether_ok (hall.trans hrun), addTogether_ok hrun', hout, hlocals, Array.toList_append,
        Builder.emitAll_append, bind_assoc]
      exact (Builder.blind_emitAll _).bind fun _ => (Builder.blind_emitAll _).bind fun _ => blind_pure _
    | error e e' =>
      rw [addTogether_error (hall.trans hrun), addTogether_error hrun']
      exact Agree.bind_throw _ e' e

/-- It does not matter whether a command is lowered before or after the items of those in front of it
are added. -/
theorem matches_addTogether (m : Module) (commands : List Command) (locals : Locals) :
    Matches (addAll m commands locals) (addTogether m commands locals) := by
  induction commands generalizing locals with
  | nil => exact blind_pure locals
  | cons command commands ih =>
    exact ((blind_addCommand m command locals).bind ih).trans (matches_first m command commands locals)

theorem matches_hoisted (h : Command.Hoisted commands commands') (locals : Locals) :
    Matches (addAll m commands locals) (addAll m commands' locals) := by
  obtain ⟨place, operation, arguments, rfl, rfl⟩ := h
  have hsame := Lowering.same_hoisted m operation arguments
  rcases addAll_fill hsame place with heq | ⟨front, back, hfill, hfill'⟩
  · rw [heq]
    exact blind_addAll m _ locals
  · have hpart (locals : Locals) :
        Matches (addAll m [.mk operation arguments] locals) (addAll m (arguments ++ [.mk operation []]) locals) := by
      have htogether : addTogether m [.mk operation arguments] locals =
          addTogether m (arguments ++ [.mk operation []]) locals := by
        rw [addTogether, addTogether, hsame]
      exact (matches_addTogether m _ locals).trans (htogether ▸ (matches_addTogether m _ locals).symm)
    rw [hfill, hfill', addAll_append, addAll_append]
    refine (blind_addAll m front locals).bind fun locals => ?_
    rw [addAll_append, addAll_append]
    exact (hpart locals).bind fun locals => blind_addAll m back locals

/-! ### Blocks -/

/-- The block with other commands. -/
def withCommands (b : Block) (commands : List Command) : Block := { b with commands := commands.toArray }

variable {b b' : Block}

/-- How many commands there are shows in a note only. -/
theorem compile_of_completion (hkind : b'.kind = b.kind) (hstart : b'.start = b.start)
    (hcompletion : b'.completion = b.completion) : b'.compile.1 = b.compile.1 := by
  rw [compile_fst, compile_fst, assembly_eq, assembly_eq, hcompletion, hkind, hstart]
  cases hrun : b.completion.run b.start with
  | error e left => rw [bind_error hrun, bind_error hrun]
  | ok locals before =>
    rw [bind_ok hrun, bind_ok hrun]
    cases hadjust : (Builder.adjust b.kind).run before with
    | error e left => rw [bind_error hadjust, bind_error hadjust]
    | ok kept after =>
      rw [bind_ok hadjust, bind_ok hadjust]
      cases kept with
      | false => rfl
      | true =>
        simp only [if_true]
        cases hassemble : (Builder.assemble locals.size).run after with
        | error e left => rw [bind_error hassemble, bind_error hassemble]
        | ok code left =>
          rw [bind_ok hassemble, bind_ok hassemble]
          rfl

theorem compile_of_matches (h : Matches b.assembly b'.assembly) (hstart : b'.start = b.start) (result : Compiled) :
    b'.compile.1 = .ok result ↔ b.compile.1 = .ok result := by
  have hend := h b.start b.start (.refl _)
  rw [compile_fst, compile_fst, hstart]
  generalize b.assembly.run b.start = r at hend
  generalize b'.assembly.run b.start = r' at hend
  cases hend with
  | ok hvalue _ => rw [hvalue]
  | error => exact iff_of_false (fun h => nomatch h) (fun h => nomatch h)

theorem addAll_eqvGen (h : Relation.EqvGen Command.PassAdded commands commands') (locals : Locals) :
    addAll m commands locals = addAll m commands' locals := by
  induction h with
  | rel _ _ h => exact addAll_passAdded h locals
  | refl => rfl
  | symm _ _ _ ih => exact ih.symm
  | trans _ _ _ _ _ ih ih' => exact ih.trans ih'

theorem matches_eqvGen (h : Relation.EqvGen Command.Hoisted commands commands') (locals : Locals) :
    Matches (addAll m commands locals) (addAll m commands' locals) := by
  induction h with
  | rel _ _ h => exact matches_hoisted h locals
  | refl => exact blind_addAll m _ locals
  | symm _ _ _ ih => exact ih.symm
  | trans _ _ _ _ _ ih ih' => exact ih.trans ih'

/-- The commands of a block may be rewritten. Commands that do nothing may be put in and left out
anywhere in the tree: the block is turned into the same, or refused for the same cause. The operands
of commands anywhere in the tree may be put in front of them as commands of their own, and back: the
block is turned into the same, if it is turned into anything. -/
theorem compile_rewritten (b : Block) (commands : List Command) :
    (Relation.EqvGen Command.PassAdded b.commands.toList commands →
        (b.withCommands commands).compile.1 = b.compile.1) ∧
      (Relation.EqvGen Command.Hoisted b.commands.toList commands → ∀ result : Compiled,
        (b.withCommands commands).compile.1 = .ok result ↔ b.compile.1 = .ok result) := by
  constructor
  · intro h
    refine compile_of_completion rfl rfl ?_
    rw [completion, completion]
    exact congrArg (· >>= _) (funext fun b' => congrFun (addAll_eqvGen h b.scope.locals).symm b')
  · intro h result
    have hmatches : Matches b.assembly (b.withCommands commands).assembly := by
      refine Matches.bind (matches_eqvGen h b.scope.locals) fun locals => ?_
      refine Builder.blind_ensureReturn.bind fun _ => (Builder.blind_adjust b.kind).bind fun kept => ?_
      cases kept with
      | false => exact blind_pure _
      | true =>
        refine (Builder.blind_assemble locals.size).bind fun code => ?_
        exact (Builder.matches_note _ _).bind fun _ => blind_pure _
    exact compile_of_matches hmatches rfl result

/-- A command that pushes a constant and uses it. -/
def useNull (operation : Operation) : List Command := [.mk operation [.mk (.constant .null) []]]

/-- A guarded body and a handler, each with a constant that is used. -/
def usesNull : Block :=
  (Block.new .function ⟨"Main", .standard, .standard⟩).extend
    [.mk (.guarded (useNull .discard) [.mk none none (useNull .returnTop)]) []]

def usesNullCode : Code where
  maxStack := 1
  maxLocals := 0
  instructions := #[⟨0, .aconstNull⟩, ⟨1, .pop⟩, ⟨2, .goto 6⟩, ⟨5, .pop⟩, ⟨6, .aconstNull⟩, ⟨7, .areturn⟩,
    ⟨8, .voidReturn⟩]
  exceptions := #[⟨0, 2, 5, none⟩]

/-- The constant of the guarded body is put in front of the command that uses it, and behind the
guarded command comes one that does nothing. -/
theorem compile_rewritten_usesNull :
    let apart : List Command := [.mk (.guarded [.mk (.constant .null) [], .mk .discard []]
      [.mk none none (useNull .returnTop)]) []]
    let padded : List Command := usesNull.commands.toList ++ [.mk .pass []]
    Relation.EqvGen Command.Hoisted usesNull.commands.toList apart ∧
      Relation.EqvGen Command.PassAdded usesNull.commands.toList padded ∧
      (usesNull.withCommands apart).compile.1 = .ok (.code usesNullCode) ∧
      (usesNull.withCommands padded).compile.1 = .ok (.code usesNullCode) := by
  intro apart padded
  have hhoisted : Command.Hoisted usesNull.commands.toList apart :=
    ⟨.guarded .here [.mk none none (useNull .returnTop)] [], .discard, [.mk (.constant .null) []], rfl, rfl⟩
  have hpadded : Command.PassAdded usesNull.commands.toList padded :=
    ⟨.among usesNull.commands.toList .here [], rfl, rfl⟩
  have hcode : usesNull.compile.1 = .ok (.code usesNullCode) := by decide +kernel
  refine ⟨.rel _ _ hhoisted, .rel _ _ hpadded, ?_, ?_⟩
  · exact ((compile_rewritten usesNull apart).2 (.rel _ _ hhoisted) _).2 hcode
  · exact ((compile_rewritten usesNull padded).1 (.rel _ _ hpadded)).trans hcode

end Block

end BlockAssembler
