import BlockAssembler.Proofs.Block.Lookup
import BlockAssembler.Proofs.Body.Paths
import BlockAssembler.Proofs.Lowering.Boundaries

/-! The depth of the stack in a block of statements. The depth that the code object asks for comes from one scan of
the instructions in their order; if the commands of a function are statements, the scan is exact: whatever path leads
to an instruction, the stack is as deep as the scan has it, and between statements it is empty. -/

namespace BlockAssembler

/-- The code object asks for the depth of the scan. On each of its paths control arrives at instructions only, with
the depth that the scan of the sequence has there, and finds what the instruction takes, so no path breaks off. -/
structure Builder.ScanExact (b : Builder) (c : Code) : Prop where
  maxStack : c.maxStack = b.stackDepth
  arrives : ∀ pc depth, c.DepthAt pc depth → ∃ i p, c.instructions[i]? = some p ∧ (p.offset : Int) = pc ∧
    b.depthBefore i = some depth ∧ p.opcode.pops ≤ depth
  unique : ∀ pc depth depth', c.DepthAt pc depth → c.DepthAt pc depth' → depth = depth'
  bounded : c.StackSafe

/-- Where a front of the sequence leaves the stack empty, the scan finds it empty, unless a handler starts there. -/
theorem Builder.depthBefore_of_prefix {b : Builder} {front : Draft} (hfront : front.lines <+: b.lines)
    (hlevel : front.level = 0) (hentry : (b.cells[front.size]?).any Cell.isHandlerEntry = false) {depth : Int}
    (hdepth : b.depthBefore front.size = some depth) : depth = 0 := by
  obtain ⟨more, hmore⟩ := hfront
  rw [depthBefore_eq, getElem?_levels] at hdepth
  obtain ⟨line, hline, rfl⟩ := Option.map_eq_some_iff.1 hdepth
  rw [lines_eq_cells, List.getElem?_map, Array.getElem?_toList] at hline
  obtain ⟨cell, hcell, rfl⟩ := Option.map_eq_some_iff.1 hline
  rw [hcell, Option.any_some] at hentry
  rw [Line.reset_of_not_entry hentry, ← hmore, Draft.size, List.take_left]
  exact Draft.remains_of_level hlevel

theorem Builder.ScanExact.index {b : Builder} {c : Code} (h : b.ScanExact c) (hcontiguous : c.Contiguous) {i : Nat}
    {depth : Int} (hdepth : c.DepthAt (offset c.opcodes i) depth) : b.depthBefore i = some depth := by
  obtain ⟨j, p, hp, hoffset, hbefore, -⟩ := h.arrives _ _ hdepth
  have hlt : j < c.opcodes.length := by
    simpa [Code.opcodes] using (Array.getElem?_eq_some_iff.1 hp).1
  rw [hcontiguous.offset_eq hp] at hoffset
  obtain rfl : j = i := offset_inj hlt (Int.natCast_inj.1 hoffset)
  exact hbefore

namespace Block

open Mention (written)

variable {m : Module} {arguments : List String} {b : Block} {commands : List Command} {c : Code} {d : Draft}
  {before after : Builder} {names : Nat} {t : Body}

theorem keeping_lowerAll (hconfig : m.config = .standard) (hcommands : Command.areStatements commands = true)
    (locals : Locals) : Keeping 0 0 (lowerAll m commands locals).1 := by
  induction commands generalizing locals with
  | nil => exact .nil 0
  | cons command commands ih =>
    obtain ⟨hcommand, hcommands⟩ := Bool.and_eq_true_iff.1 hcommands
    rw [lowerAll]
    cases hlower : Lowering.lower m command #[] ⟨locals, #[]⟩ with
    | ok items scope =>
      obtain ⟨_, hitems, heq⟩ := Lowering.leaves_lower hconfig command hcommand #[] _ items scope hlower
      obtain rfl : items.toList = _ := heq
      exact hitems.append (ih hcommands scope.locals)
    | error e scope => exact .nil 0

/-- A tame stream is what the scan of the sequence sees. -/
theorem Kept.lines (h : Kept b d before after) (ht : t.Receiving) (hitems : t.items = b.stream.1) :
    before.lines = t.scanLines := by
  rw [Builder.lines_eq_draft h.intact, h.draft]
  exact ht.lines_ensureReturn (hitems ▸ h.stream)

/-- The code object of a function has the stream laid out. -/
theorem Kept.laid (h : Kept b d before before) (hitems : t.items = b.stream.1) {left : Builder}
    (hassemble : (Builder.assemble names).run before = .ok c left) : Laid t.linked (t.ranges 0) c := by
  obtain ⟨hops, hrecords⟩ := t.draft_ensureReturn (hitems ▸ h.stream)
  have hbefore : before.records = ⟨t.ranges 0, t.chains 0⟩ := by rw [h.records, hrecords]
  have hlinks : ∀ link, link ∈ before.links ↔ link ∈ jumps 0 t.linked := by
    rw [t.jumps_linked]
    exact Builder.mem_links_iff hbefore
  have hranges : before.ranges.toList = t.ranges 0 := congrArg Records.ranges hbefore
  exact hranges ▸ Builder.laid_of_assemble h.intact (by rw [h.draft, hops]; rfl) hlinks hassemble

theorem Kept.exact (h : Kept b d before before) (ht : t.Tame 0 0) (hitems : t.items = b.stream.1) {left : Builder}
    (hassemble : (Builder.assemble names).run before = .ok c left) : before.ScanExact c := by
  have hplaced := Builder.assemble_eq_ok h.intact.arranged hassemble
  have hlaid := h.laid hitems hassemble
  have hdepths (i : Nat) : before.depthBefore i = t.scanLevels[i]? := by
    rw [Builder.depthBefore_eq, h.lines ht.receiving hitems, Body.scanLevels]
  have harrives {pc depth : Int} (hdepth : c.DepthAt pc depth) : t.Arrives pc depth :=
    ht.keeps.arrives ht.receiving ht.jumpless hlaid hdepth
  refine ⟨hplaced.maxStack_eq, fun pc depth hdepth => ?_, fun pc depth depth' hdepth hdepth' => ?_,
    fun pc depth hdepth => ?_⟩
  · obtain ⟨i, instr, hi, rfl, hlevel⟩ := harrives hdepth
    refine ⟨i, ⟨offset t.opcodes i, instr.placed t.opcodes i⟩, ?_, rfl, (hdepths i).trans hlevel, ?_⟩
    · rw [← Array.getElem?_toList, hlaid.instructions, List.getElem?_mapIdx, hi]
      rfl
    · rw [Instr.pops_placed]
      exact ht.keeps.pops_le ht.receiving hi hlevel
  · obtain ⟨i, instr, hi, rfl, hlevel⟩ := harrives hdepth
    obtain ⟨j, instr', hj, hoffset, hlevel'⟩ := harrives hdepth'
    have hlt : i < t.opcodes.length := by
      rw [Body.opcodes, List.length_map]
      exact (List.getElem?_eq_some_iff.1 hi).1
    obtain rfl : i = j := offset_inj hlt (Int.natCast_inj.1 hoffset)
    exact Option.some.inj (hlevel.symm.trans hlevel')
  · obtain ⟨i, instr, hi, -, hlevel⟩ := harrives hdepth
    rw [hplaced.maxStack_eq]
    exact Builder.le_stackDepth ((hdepths i).trans hlevel)

/-! ### Boundaries -/

theorem Kept.prefix_lines (h : Kept b d before after) {front : Draft} (hreaches : Draft.Reaches front d) :
    front.lines <+: before.lines := by
  rw [Builder.lines_eq_draft h.intact, h.draft]
  exact hreaches.prefix_lines.trans d.prefix_ensureReturn

/-- If the commands of a function are statements and it becomes a code object, the scan that the code object has its
depth from is exact. On every path each instruction finds what it takes, and the depth is the one that the scan
has there, after the depth has been set where a handler starts; so there is one depth for each instruction, and
none is greater than the depth that the code object asks for. At the boundaries of statements the stack is
empty, unless a handler starts there. -/
theorem depths_of_statements (hconfig : m.config = .standard) (hb : withArguments .function m arguments = .ok b)
    (hcommands : Command.areStatements commands = true) (h : (b.extend commands).compile.1 = .ok (.code c)) :
    ∃ builder names, (b.extend commands).prepared = some (builder, names) ∧ builder.ScanExact c ∧
      ∀ acts acts', Command.statements m [] commands = acts ++ .boundary :: acts' →
        ∃ front, Act.runAll (written m arguments) acts .empty = .ok front ∧ front.lines <+: builder.lines ∧
          ((builder.cells[front.size]?).any Cell.isHandlerEntry = false →
            ∀ depth, c.DepthAt (offset c.opcodes front.size) depth → depth = 0) := by
  obtain ⟨builder, names, left, hprepared, hassemble⟩ := exists_prepared h
  obtain ⟨d, before, -, hkept⟩ := exists_kept hprepared
  obtain ⟨hkind, hmodule, hnone, -⟩ := withArguments_eq_ok hb
  -- the end of a function is not adjusted
  obtain rfl : before = builder := by
    have hadjust := hkept.adjust
    rw [show (b.extend commands).kind = .function from hkind] at hadjust
    cases hadjust
    rfl
  obtain ⟨t, ht, hitems⟩ : Keeping 0 0 (b.extend commands).stream.1 := by
    rw [stream, toList_commands_extend hnone]
    exact keeping_lowerAll (hmodule ▸ hconfig) hcommands _
  have hexact := hkept.exact ht hitems hassemble
  have hplaced := Builder.assemble_eq_ok hkept.arranged hassemble
  refine ⟨before, names, hprepared, hexact, fun acts acts' hacts => ?_⟩
  obtain ⟨locals, hlocals, -⟩ := accesses_compile h
  obtain ⟨front, hfront, hrest⟩ := hkept.exists_front hb hlocals hacts
  have hleads := Command.leads_statements hconfig arguments [] commands hcommands
  rw [hacts] at hleads
  have hlevel : front.level = 0 := hleads.level_boundary (d := .empty) hfront
  have hlines := hkept.prefix_lines (Act.reaches_of_runAll hrest)
  refine ⟨front, hfront, hlines, fun hentry depth hdepth => ?_⟩
  exact Builder.depthBefore_of_prefix hlines hlevel hentry
    (hexact.index (hplaced.gapless hkept.arranged) hdepth)

theorem depths_of_statements_rebound : ∃ c builder names,
    withArguments .function reboundModule ["a"] = .ok reboundBlock ∧
    Command.areStatements [rebound] = true ∧ (reboundBlock.extend [rebound]).compile.1 = .ok (.code c) ∧
    (reboundBlock.extend [rebound]).prepared = some (builder, names) ∧ builder.ScanExact c ∧
    ∀ acts acts', Command.statements reboundModule [] [rebound] = acts ++ .boundary :: acts' →
      ∃ front, Act.runAll (written reboundModule ["a"]) acts .empty = .ok front ∧ front.lines <+: builder.lines ∧
        ((builder.cells[front.size]?).any Cell.isHandlerEntry = false →
          ∀ depth, c.DepthAt (offset c.opcodes front.size) depth → depth = 0) := by
  obtain ⟨c, h⟩ := compile_rebound
  have hcommands : Command.areStatements [rebound] = true := rfl
  obtain ⟨builder, names, hprepared, hexact, hboundaries⟩ :=
    depths_of_statements rfl withArguments_rebound hcommands h
  exact ⟨c, builder, names, withArguments_rebound, hcommands, h, hprepared, hexact, hboundaries⟩

end Block

end BlockAssembler
