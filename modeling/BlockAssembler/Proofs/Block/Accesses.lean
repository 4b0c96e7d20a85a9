import BlockAssembler.Proofs.Block.Names
import BlockAssembler.Proofs.Draft.Accesses

/-! The local variables of a code object. If nothing is taken over as it is, every access to a local
variable stands at a mention of a name, so the accesses of a code object are the mentions of its
block, each with the slot of its name; and the slots are counted by the number of local variables. -/

namespace BlockAssembler

/-- The operation is written by lowering. -/
def Operation.isWritten : Operation → Bool
  | .raw _ => false
  | _ => true

namespace Mention

def name : Mention → String
  | read name | store name => name

/-- The mentions that become an access when these names have been bound before: the stores, and the reads of
names that are bound by then. -/
def uses : List String → List Mention → List Mention
  | _, [] => []
  | bound, read name :: mentions =>
    if name ∈ bound then read name :: uses bound mentions else uses bound mentions
  | bound, store name :: mentions => store name :: uses (bound ++ [name]) mentions

/-- The access at a mention, if the names have these slots. -/
def access (slot : String → UInt16) : Mention → Opcode
  | read name => .aload (slot name)
  | store name => .astore (slot name)

theorem local?_access (slot : String → UInt16) (mention : Mention) :
    (mention.access slot).local? = some (slot mention.name) := by
  cases mention <;> rfl

theorem name_mem_of_uses {mentions : List Mention} {bound : List String} :
    ∀ mention ∈ uses bound mentions, mention.name ∈ bound ++ stored mentions := by
  induction mentions generalizing bound with
  | nil => exact fun mention h => nomatch h
  | cons first mentions ih =>
    cases first with
    | read name =>
      have hrest (mention : Mention) (h : mention ∈ uses bound mentions) :
          mention.name ∈ bound ++ stored (read name :: mentions) := ih mention h
      rw [uses]
      split
      · next hname => exact List.forall_mem_cons.2 ⟨List.mem_append_left _ hname, hrest⟩
      · exact hrest
    | store name =>
      refine List.forall_mem_cons.2 ⟨by simp [Mention.name, stored, stored?], fun mention h => ?_⟩
      have hmem := ih mention h
      rwa [List.append_assoc] at hmem

end Mention

/-! ### Accesses at mentions -/

/-- The accesses that stand at mentions. -/
def Writer.accesses (write : Writer) : List Mention → List Mention → List Opcode
  | _, [] => []
  | before, mention :: mentions =>
    Item.accessesAll (write before mention) ++ write.accesses (before ++ [mention]) mentions

theorem Writer.accesses_append (write : Writer) (before xs ys : List Mention) :
    write.accesses before (xs ++ ys) = write.accesses before xs ++ write.accesses (before ++ xs) ys := by
  induction xs generalizing before with
  | nil => rw [List.append_nil]; rfl
  | cons x xs ih =>
    rw [List.cons_append, accesses, accesses, ih, List.append_assoc, List.append_assoc, List.singleton_append]

theorem Constant.accesses_items (config : Runtime) (value : Constant) :
    Item.accessesAll (value.items config) = [] := by
  cases value with
  | null => rfl
  | bool value =>
    rw [items, Lowering.constant]
    cases config.bool value <;> rfl
  | int value =>
    rw [items, Lowering.constant]
    cases config.intMaker <;> rfl
  | str value =>
    rw [items, Lowering.constant]
    cases config.strConstructor <;> rfl

theorem Runtime.accesses_test (config : Runtime) : Item.accessesAll config.test = [] := by
  rw [test]
  cases config.truth <;> rfl

theorem Writer.accesses_receive (write : Writer) (before : List Mention) (name : Option String) :
    Item.accessesAll (write.receive before name) = write.accesses before (Mention.received name) := by
  cases name with
  | some name => exact (List.append_nil _).symm
  | none => rfl

section
variable (m : Module) (write : Writer)

mutual

theorem Command.accesses_items (before : List Mention) (command : Command)
    (h : command.all Operation.isWritten = true) :
    Item.accessesAll (command.items m write before) = write.accesses before command.mentions := by
  match command with
  | .mk operation operands =>
    obtain ⟨hoperation, hoperands⟩ := Bool.and_eq_true_iff.1 h
    rw [Command.items, Command.mentions, Item.accessesAll_append, Writer.accesses_append,
      Command.accesses_itemsAll before operands hoperands, Operation.accesses_items _ operation hoperation]

theorem Operation.accesses_items (before : List Mention) (operation : Operation)
    (h : operation.all Operation.isWritten = true) :
    Item.accessesAll (operation.items m write before) = write.accesses before operation.mentions := by
  match operation with
  | .pass | .discard | .returnTop =>
    rw [Operation.items, Operation.mentions]
    rfl
  | .constant value =>
    rw [Operation.items, Operation.mentions]
    exact value.accesses_items m.config
  | .fetch name | .assign name =>
    rw [Operation.items, Operation.mentions]
    exact (List.append_nil _).symm
  | .conditional clauses none =>
    have hclauses : Clause.allOf Operation.isWritten clauses = true := h
    rw [Operation.items, Operation.mentions, Item.accessesAll_append,
      Clause.accesses_itemsAll .beginIf (fun _ _ => rfl) before clauses hclauses]
    exact List.append_nil _
  | .conditional clauses (some body) =>
    obtain ⟨hclauses, hbody⟩ := Bool.and_eq_true_iff.1 h
    rw [Operation.items, Operation.mentions, Item.accessesAll_append, Item.accessesAll, Item.accessesAll_append,
      Clause.accesses_itemsAll .beginIf (fun _ _ => rfl) before clauses hclauses,
      Command.accesses_itemsAll _ body hbody, Writer.accesses_append]
    exact congrArg _ (List.append_nil _)
  | .guarded body handlers =>
    obtain ⟨hbody, hhandlers⟩ := Bool.and_eq_true_iff.1 h
    rw [Operation.items, Operation.mentions, Item.accessesAll, Item.accessesAll_append, Item.accessesAll_append,
      Command.accesses_itemsAll before body hbody, CatchClause.accesses_itemsAll _ handlers hhandlers,
      Writer.accesses_append]
    exact congrArg (write.accesses before (Command.mentionsAll body) ++ ·) (List.append_nil _)
  | .raw items => cases h

theorem Clause.accesses_itemsAll (opening : List Item → Test → Item)
    (hopening : ∀ condition test, (opening condition test).accesses = Item.accessesAll condition)
    (before : List Mention) (clauses : List Clause) (h : Clause.allOf Operation.isWritten clauses = true) :
    Item.accessesAll (Clause.itemsAll m write opening before clauses) =
      write.accesses before (Clause.mentionsAll clauses) := by
  match clauses with
  | [] =>
    rw [Clause.itemsAll, Clause.mentionsAll]
    rfl
  | .mk condition body :: clauses =>
    obtain ⟨hfirst, hclauses⟩ := Bool.and_eq_true_iff.1 h
    obtain ⟨hcondition, hbody⟩ := Bool.and_eq_true_iff.1 hfirst
    rw [Clause.itemsAll, Clause.mentionsAll, Item.accessesAll, hopening, Item.accessesAll_append,
      Item.accessesAll_append, Runtime.accesses_test, List.append_nil,
      Command.accesses_itemsAll before condition hcondition, Command.accesses_itemsAll _ body hbody,
      Clause.accesses_itemsAll .elseIf (fun _ _ => rfl) _ clauses hclauses, Writer.accesses_append,
      Writer.accesses_append]

theorem CatchClause.accesses_itemsAll (before : List Mention) (handlers : List CatchClause)
    (h : CatchClause.allOf Operation.isWritten handlers = true) :
    Item.accessesAll (CatchClause.itemsAll m write before handlers) =
      write.accesses before (CatchClause.mentionsAll handlers) := by
  match handlers with
  | [] =>
    rw [CatchClause.itemsAll, CatchClause.mentionsAll]
    rfl
  | .mk className name body :: handlers =>
    obtain ⟨hbody, hhandlers⟩ := Bool.and_eq_true_iff.1 h
    rw [CatchClause.itemsAll, CatchClause.mentionsAll, Item.accessesAll, Item.accessesAll_append,
      Item.accessesAll_append, Writer.accesses_receive, Command.accesses_itemsAll _ body hbody,
      CatchClause.accesses_itemsAll _ handlers hhandlers, Writer.accesses_append, Writer.accesses_append]
    rfl

theorem Command.accesses_itemsAll (before : List Mention) (commands : List Command)
    (h : Command.allOf Operation.isWritten commands = true) :
    Item.accessesAll (Command.itemsAll m write before commands) =
      write.accesses before (Command.mentionsAll commands) := by
  match commands with
  | [] =>
    rw [Command.itemsAll, Command.mentionsAll]
    rfl
  | command :: commands =>
    obtain ⟨hcommand, hcommands⟩ := Bool.and_eq_true_iff.1 h
    rw [Command.itemsAll, Command.mentionsAll, Item.accessesAll_append, Writer.accesses_append,
      Command.accesses_items before command hcommand, Command.accesses_itemsAll _ commands hcommands]

end

end

namespace Mention

variable {m : Module} {arguments : List String} {locals : Locals} {before mentions : List Mention}

/-- The slot of a name in a finished table. -/
def slotIn (locals : Locals) (name : String) : UInt16 := (locals.slot? name).getD 0

theorem slotIn_eq {bound : List String} (hlocals : locals.Holds bound) {name : String} (hname : name ∈ bound) :
    locals.slot? name = some (slotIn locals name) ∧ (slotIn locals name).toNat = Locals.slotOf bound name := by
  obtain ⟨slot, hslot⟩ := Option.isSome_iff_exists.1 (hlocals.isSome_iff.2 hname)
  have heq : slotIn locals name = slot := by rw [slotIn, hslot, Option.getD_some]
  exact ⟨by rw [heq, hslot], by rw [heq, hlocals.slot_eq name slot hslot]⟩

/-- The lookup of a name loads no local variable. -/
theorem accesses_lookup {name : String} {items : List Item} (h : Lowering.lookup m name = .ok items) :
    Item.accessesAll items = [] := by
  obtain ⟨get, globals, builtins, -, -, -, rfl⟩ := Lowering.lookup_eq_ok h
  rfl

theorem accesses_converted (hmentions : AllConverted m arguments before mentions)
    (hlocals : locals.Holds (arguments ++ stored (before ++ mentions))) :
    (written m arguments).accesses before mentions =
      (uses (arguments ++ stored before) mentions).map (access (slotIn locals)) := by
  induction mentions generalizing before with
  | nil => rfl
  | cons mention mentions ih =>
    obtain ⟨hfirst, hrest⟩ := hmentions
    have hbound : arguments ++ stored (before ++ [mention] ++ mentions) =
        arguments ++ stored (before ++ mention :: mentions) := by simp
    have hmore := ih hrest (by rwa [hbound])
    rw [Writer.accesses, hmore]
    cases mention with
    | read name =>
      rw [uses]
      rw [Converted] at hfirst
      split at hfirst
      · next hname =>
        obtain ⟨slot, hslot, hitems⟩ := hfirst
        have heq : slotIn locals name = slot := by
          rw [stored_append, ← List.append_assoc] at hlocals
          have hin := slotIn_eq hlocals (List.mem_append_left _ hname)
          rw [← UInt16.toNat_inj, hin.2, hslot, Locals.slotOf_append hname]
        rw [hitems, if_pos hname, List.map_cons, access, heq, stored_append, stored_read, List.append_nil]
        rfl
      · next hname =>
        simp [hname, accesses_lookup hfirst]
    | store name =>
      obtain ⟨slot, hslot, hitems⟩ := hfirst
      have heq : slotIn locals name = slot := by
        have hstored : arguments ++ stored (before ++ store name :: mentions) =
            (arguments ++ stored before) ++ name :: stored mentions := by simp [stored, stored?]
        rw [hstored] at hlocals
        have hmem : name ∈ (arguments ++ stored before) ++ name :: stored mentions := by simp
        have hin := slotIn_eq hlocals hmem
        rw [← UInt16.toNat_inj, hin.2, hslot, Locals.slotOf_next]
      rw [hitems, uses, List.map_cons, access, heq, stored_append, stored_store, List.append_assoc]
      rfl

end Mention

namespace Block

open Mention (stored uses access slotIn)

variable {kind : BlockKind} {m : Module} {arguments : List String} {b : Block} {commands : List Command}
  {c : Code}

/-- A code object has the accesses of the stream it comes from, and as many local variables as have been bound. -/
theorem accesses_compile (h : b.compile.1 = .ok (.code c)) : ∃ locals, b.stream.2 = .ok locals ∧
    c.maxLocals = locals.size ∧ c.accesses = Item.accessesAll b.stream.1 := by
  obtain ⟨after, names, left, hprepared, hassemble⟩ := exists_prepared h
  obtain ⟨locals, before, hcompletion, hadjust, rfl⟩ := completion_of_prepared hprepared
  obtain ⟨d, hstream, hintact, hdraft, hp⟩ := exists_draft hcompletion
  have hkept : Kept b d before after := ⟨hstream, hintact, hdraft, hp, hadjust⟩
  have hplaced := Builder.assemble_eq_ok hkept.arranged hassemble
  have hlocals : b.stream.2 = .ok locals := by
    cases hresult : b.stream.2 with
    | error e =>
      obtain ⟨_, hrun⟩ := completion_unlowered hstream hresult
      cases hrun.symm.trans hcompletion
    | ok locals' =>
      obtain ⟨_, hrun, -⟩ := completion_start hstream hresult
      cases hrun.symm.trans hcompletion
      rfl
  refine ⟨locals, hlocals, hplaced.maxLocals_eq, ?_⟩
  calc c.accesses = accesses after.opcodes.toList := hplaced.accesses_eq hkept.arranged
    _ = accesses before.opcodes.toList := Builder.accesses_adjust hintact hadjust
    _ = d.ensureReturn.accesses := by rw [Builder.opcodes_eq hintact, hdraft, Draft.accesses]
    _ = d.accesses := Draft.accesses_ensureReturn
    _ = Item.accessesAll b.stream.1 := Draft.accesses_emitAll _ _ _ hstream

/-- The local variables of a code object are the distinct names that are arguments or stored to, and its accesses
are those mentions that are stores or read a name that has been bound, each with the slot of its name; different
names have different slots. So it is for any requests to the table of local variables: the names and the
lookup are inverse to each other, a slot that has been given stays with its name, and a request that fails
changes nothing. -/
theorem slots_compiled (hb : withArguments kind m arguments = .ok b)
    (hwritten : Command.allOf Operation.isWritten commands = true)
    (h : (b.extend commands).compile.1 = .ok (.code c)) :
    (c.maxLocals = (arguments ++ stored (Command.mentionsAll commands)).toFinset.card ∧
      ∃ slot : String → UInt16,
        c.accesses = (uses arguments (Command.mentionsAll commands)).map (access slot) ∧
        (∀ op ∈ c.opcodes, ∀ s, op.local? = some s → s.toNat < c.maxLocals) ∧
        ∀ x ∈ uses arguments (Command.mentionsAll commands), ∀ y ∈ uses arguments (Command.mentionsAll commands),
          slot x.name = slot y.name ↔ x.name = y.name) ∧
    ∀ requests : List String, (Locals.afterAll requests .empty).Sound ∧
      (∀ name slot l, Locals.allocate name (Locals.afterAll requests .empty) = .ok slot l →
        ∀ more, (Locals.afterAll more l).slot? name = some slot) ∧
      ∀ name e l, Locals.allocate name (Locals.afterAll requests .empty) = .error e l →
        l = Locals.afterAll requests .empty := by
  refine ⟨?_, fun requests => ⟨Locals.sound_empty.afterAll requests, fun name slot l hl => ?_, fun name e l =>
    Locals.eq_of_allocate_error⟩⟩
  · obtain ⟨locals, hlocals, hcount, haccesses⟩ := accesses_compile h
    obtain ⟨hstream, hholds, hmentions⟩ := stream_written hb hlocals
    have hall : c.accesses = (uses arguments (Command.mentionsAll commands)).map (access (slotIn locals)) := by
      rw [haccesses, hstream, Command.accesses_itemsAll m _ [] commands hwritten,
        Mention.accesses_converted hmentions hholds]
      simp [stored]
    have hslot (mention : Mention) (hmention : mention ∈ uses arguments (Command.mentionsAll commands)) :
        locals.slot? mention.name = some (slotIn locals mention.name) :=
      (Mention.slotIn_eq hholds (Mention.name_mem_of_uses mention hmention)).1
    refine ⟨hcount.trans hholds.size_eq, slotIn locals, hall, fun op hop s hs => ?_, fun x hx y hy => ?_⟩
    · have haccess : op ∈ c.accesses := List.mem_filter.2 ⟨hop, by rw [Opcode.isAccess, hs]; rfl⟩
      rw [hall] at haccess
      obtain ⟨mention, hmention, rfl⟩ := List.mem_map.1 haccess
      obtain rfl := Option.some.inj ((Mention.local?_access _ _).symm.trans hs)
      rw [hcount]
      exact hholds.sound.lt_size (hslot mention hmention)
    · refine ⟨fun heq => hholds.sound.inj (hslot x hx) ?_, congrArg _⟩
      rw [hslot y hy, heq]
  · exact Locals.slot?_afterAll (Locals.slot?_of_allocate hl)

theorem slots_compiled_rebound : ∃ c, withArguments .function reboundModule ["a"] = .ok reboundBlock ∧
    Command.allOf Operation.isWritten [rebound] = true ∧
    (reboundBlock.extend [rebound]).compile.1 = .ok (.code c) ∧ c.maxLocals = 4 ∧
    ∃ slot : String → UInt16, c.accesses = [.aload (slot "a"), .astore (slot "x"), .aload (slot "x"), .astore (slot "y"),
      .astore (slot "e"), .aload (slot "e"), .aload (slot "y")] ∧ slot "x" ≠ slot "e" := by
  have hwritten : Command.allOf Operation.isWritten [rebound] = true := rfl
  have huses : uses ["a"] (Command.mentionsAll [rebound]) =
      [.read "a", .store "x", .read "x", .store "y", .store "e", .read "e", .read "y"] := by decide +kernel
  obtain ⟨c, h⟩ := compile_rebound
  obtain ⟨⟨hcount, slot, haccesses, -, hslots⟩, -⟩ := slots_compiled withArguments_rebound hwritten h
  rw [huses] at haccesses hslots
  have hdistinct := (hslots (.store "x") (by simp) (.read "e") (by simp)).not
  exact ⟨c, withArguments_rebound, hwritten, h, by rw [hcount]; decide +kernel, slot, haccesses,
    hdistinct.2 (by decide)⟩

end Block

end BlockAssembler
