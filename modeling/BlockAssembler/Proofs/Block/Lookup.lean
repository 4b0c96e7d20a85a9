import BlockAssembler.Proofs.Block.Accesses
import BlockAssembler.Proofs.Block.Standing
import BlockAssembler.Proofs.Lowering.Acts
import BlockAssembler.Proofs.Lowering.Lookup

/-! The lookups of a block. Where a command reads a name that is not local, the code object has the
instructions of its lookup, and they do in one piece what a single instruction would: control enters
them at the first one and is behind the last one with the meaning of the name on top of the stack. -/

namespace BlockAssembler

namespace Block

open Mention (stored written)

variable {kind : BlockKind} {m : Module} {arguments : List String} {b : Block} {commands : List Command}
  {before after : List Mention} {name : String} {c : Code} {d front : Draft} {start finish : Builder} {names : Nat}

/-- Wherever the acts of the commands are split, the stream has been emitted up to there. -/
theorem Kept.exists_front (h : Kept (b.extend commands) d start finish) (hb : withArguments kind m arguments = .ok b)
    {locals : Locals} (hlocals : (b.extend commands).stream.2 = .ok locals) {acts acts' : List Act}
    (hacts : Command.statements m [] commands = acts ++ acts') :
    ∃ front, Act.runAll (written m arguments) acts .empty = .ok front ∧
      Act.runAll (written m arguments) acts' front = .ok d := by
  have hemit := h.stream
  rw [(stream_written hb hlocals).1] at hemit
  have hrun := Command.emits_statements m (written m arguments) [] commands _ _ hemit
  rw [hacts, Act.runAll_append] at hrun
  exact except_bind_eq_ok.1 hrun

/-- A lookup comes to lie in the code object as it is. -/
theorem Kept.lookup (h : Kept b d start finish) (hplaced : finish.Placed names c) {get : MethodRef}
    {globals builtins : FieldRef} {back : Draft} (hfront : front.Sound)
    (hemit : Draft.emitAll (Lowering.lookupBody get globals builtins name).items front = .ok back)
    (hbehind : Draft.Reaches back d) :
    c.Spells (offset c.opcodes front.size) (Lowering.lookupCode get globals builtins name) ∧
      offset c.opcodes (front.size + 9) = offset c.opcodes front.size + 23 ∧
      ∃ op, c.at? (offset c.opcodes (front.size + 9)) = some op := by
  have hgapless := hplaced.gapless h.arranged
  have hlast : ((Lowering.lookupBody get globals builtins name).code front.size).getLast? =
      some (.plain (.invoke .virtual get)) := rfl
  have hstanding (i : Nat) (instr : Instr)
      (hi : ((Lowering.lookupBody get globals builtins name).code front.size)[i]? = some instr) :=
    h.standing hplaced (Lowering.receiving_lookupBody ..) (Lowering.jumpless_lookupBody ..) hfront hemit hbehind hlast
      (by simp [Instr.opcode]) hi
  have hops (i : Nat) (op : Opcode) (hi : (((Lowering.lookupBody get globals builtins name).code front.size).mapIdx
      fun i instr => instr.placed c.opcodes (front.size + i))[i]? = some op) : c.opcodes[front.size + i]? = some op := by
    rw [List.getElem?_mapIdx] at hi
    obtain ⟨instr, hinstr, rfl⟩ := Option.map_eq_some_iff.1 hi
    exact (hstanding i instr hinstr).1
  rw [Lowering.code_lookupBody] at hops hstanding
  have hall : offset c.opcodes (front.size + 9) = offset c.opcodes front.size + 23 := offset_add_length hops
  have htested (i : Nat) (op : Opcode)
      (hi : ([.getstatic globals, .ldc (.string name), .invoke .virtual get, .dup] : List Opcode)[i]? = some op) :
      c.opcodes[front.size + i]? = some op :=
    hops i op (List.getElem?_append_left (List.getElem?_eq_some_iff.1 hi).1 ▸ hi)
  have hjump : offset c.opcodes (front.size + 4) = offset c.opcodes front.size + 10 := offset_add_length htested
  have hdistance : (offset c.opcodes (front.size + 9) : Int) - offset c.opcodes (front.size + 4) = 13 := by omega
  obtain ⟨op, hop⟩ := (hstanding 4 _ rfl).2 (front.size + 9) rfl
  refine ⟨hgapless.spells fun i op hi => hops i op ?_, hall, op, hgapless.at?_offset hop⟩
  rw [← hi, Lowering.lookupCode, ← hdistance]
  rfl

/-- If a block becomes a code object, then wherever its commands read a name that is neither an argument nor stored
to before, the code object has the lookup of the name behind what has been emitted by then. Executed from its
first instruction on, whatever the tables hold, the lookup ends at the instruction behind it with one value more
on the stack: the entry of the globals, and only if there is none that of the builtins, which are not asked
otherwise. The rest of the stack and the local variables stay as they are. -/
theorem lookup_compiled (hb : withArguments kind m arguments = .ok b)
    (h : (b.extend commands).compile.1 = .ok (.code c))
    (hmention : Command.mentionsAll commands = before ++ .read name :: after)
    (hfree : name ∉ arguments ++ stored before) :
    ∃ get globals builtins, m.config.tableLookup = .ok get ∧ m.config.globals m.descriptor = .ok globals ∧
      m.config.builtins = .ok builtins ∧ ∃ acts acts' front,
        Command.statements m [] commands = acts ++ .mention before (.read name) :: acts' ∧
        Act.runAll (written m arguments) acts .empty = .ok front ∧
        c.Spells (offset c.opcodes front.size) (Lowering.lookupCode get globals builtins name) ∧
        (∃ op, c.at? (offset c.opcodes (front.size + 9)) = some op) ∧
        ∀ (w : Machine.World) (s : Machine.State), w.get = get → s.pc = offset c.opcodes front.size →
          Machine.Executes w c s { s with
            pc := offset c.opcodes (front.size + 9)
            stack := .reference (w.meaning globals builtins name) :: s.stack
            asked := s.asked ++ w.sources globals builtins name } := by
  obtain ⟨finish, names, left, hprepared, hassemble⟩ := exists_prepared h
  obtain ⟨d, start, -, hkept⟩ := exists_kept hprepared
  have hplaced := Builder.assemble_eq_ok hkept.arranged hassemble
  obtain ⟨locals, hlocals, -⟩ := accesses_compile h
  obtain ⟨-, -, hmentions⟩ := stream_written hb hlocals
  -- what stands at the mention is a lookup
  have hconverted := hmentions.mention hmention
  rw [List.nil_append, Mention.Converted, if_neg hfree] at hconverted
  obtain ⟨get, globals, builtins, hget, hglobals, hbuiltins, hitems⟩ := Lowering.lookup_eq_ok hconverted
  refine ⟨get, globals, builtins, hget, hglobals, hbuiltins, ?_⟩
  -- and it is emitted behind the acts in front of the mention
  obtain ⟨acts, acts', hacts⟩ := Command.exists_mention m hmention
  obtain ⟨front, hfront, hrun⟩ := hkept.exists_front hb hlocals hacts
  obtain ⟨back, hlookup, hback⟩ := except_bind_eq_ok.1 hrun
  have hsound : front.Sound := (Act.reaches_of_runAll hfront).sound Draft.sound_empty
  have hbody : Draft.emitAll (Lowering.lookupBody get globals builtins name).items front = .ok back := by
    rw [← hlookup, Act.run, hitems]
    rfl
  obtain ⟨hspells, hoffset, hnext⟩ := hkept.lookup hplaced hsound hbody (Act.reaches_of_runAll hback)
  refine ⟨acts, acts', front, hacts, hfront, hspells, hnext, fun w s hw hs => ?_⟩
  subst hw
  rw [hoffset, Int.natCast_add, ← hs]
  exact Machine.executes_lookup (hs ▸ hspells)

theorem lookup_compiled_rebound : ∃ c get globals builtins front,
    withArguments .function reboundModule ["a"] = .ok reboundBlock ∧
    (reboundBlock.extend [rebound]).compile.1 = .ok (.code c) ∧
    Command.mentionsAll [rebound] =
      [.read "a", .store "x"] ++ .read "f" :: [.read "x", .read "e", .store "y", .store "e", .read "e", .read "y"] ∧
    "f" ∉ ["a"] ++ stored [.read "a", .store "x"] ∧
    c.Spells (offset c.opcodes front) (Lowering.lookupCode get globals builtins "f") ∧
    ∀ (w : Machine.World) (s : Machine.State), w.get = get → s.pc = offset c.opcodes front →
      Machine.Executes w c s { s with
        pc := offset c.opcodes (front + 9)
        stack := .reference (w.meaning globals builtins "f") :: s.stack
        asked := s.asked ++ w.sources globals builtins "f" } := by
  obtain ⟨c, h⟩ := compile_rebound
  have hmention : Command.mentionsAll [rebound] =
      [.read "a", .store "x"] ++ .read "f" :: [.read "x", .read "e", .store "y", .store "e", .read "e", .read "y"] := by
    decide +kernel
  have hfree : "f" ∉ ["a"] ++ stored [.read "a", .store "x"] := by decide
  obtain ⟨get, globals, builtins, -, -, -, acts, acts', front, -, -, hspells, -, hexecutes⟩ :=
    lookup_compiled withArguments_rebound h hmention hfree
  exact ⟨c, get, globals, builtins, front.size, withArguments_rebound, h, hmention, hfree, hspells, hexecutes⟩

end Block

end BlockAssembler
