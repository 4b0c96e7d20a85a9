import BlockAssembler.Proofs.Body.Fetch
import BlockAssembler.Proofs.Body.Levels
import BlockAssembler.Proofs.Block.ControlFlow

/-! Paths through the code of a balanced stream that keeps the stack. Whatever path leads to an instruction, control
arrives there with the depth that the scan has: the next instruction is one that the scan comes to next, a jump
leads to one with the depth that the jump leaves, and a throw to one where the scan starts again. -/

namespace BlockAssembler

theorem Opcode.isTerminal_of_plain {op : Opcode} (hjump : op.isJump = false) (hend : op.isEnd = false) :
    op.isTerminal = false := by
  cases op <;> first | rfl | simp_all [Opcode.isEnd, Opcode.isJump, Opcode.distance?]

theorem Instr.pops_placed (ops : List Opcode) (i : Nat) (instr : Instr) :
    (instr.placed ops i).pops = instr.opcode.pops := by
  cases instr <;> rfl

theorem Instr.stackEffect_placed (ops : List Opcode) (i : Nat) (instr : Instr) :
    (instr.placed ops i).stackEffect = instr.opcode.stackEffect := by
  cases instr <;> rfl

/-- Control goes on to the next instruction, unless the instruction is terminal, or to where the jump leads. -/
theorem Instr.successor_placed {ops : List Opcode} {i : Nat} {instr : Instr} {passed : Bool} {pc : Int}
    (hop : ops[i]? = some instr.opcode) (hjump : instr.target? = none → instr.opcode.isJump = false)
    (h : (instr.placed ops i).successor (offset ops i) passed = some pc) :
    instr.opcode.isTerminal = false ∧ pc = offset ops (i + 1) ∨
      ∃ target, instr.target? = some target ∧ pc = offset ops target := by
  have hnext : (offset ops i : Int) + instr.opcode.size = offset ops (i + 1) := by
    rw [offset_succ, hop]
    simp
  cases instr with
  | plain opcode =>
    have hplain : opcode.isJump = false := hjump rfl
    cases hend : opcode.isEnd with
    | true =>
      rw [Instr.placed, Opcode.successor_of_isEnd hend] at h
      cases h
    | false =>
      rw [Instr.placed, Opcode.successor_of_plain hplain hend, Option.some.injEq] at h
      exact .inl ⟨Opcode.isTerminal_of_plain hplain hend, by rw [← h, ← hnext]; rfl⟩
  | goto target =>
    refine .inr ⟨target, rfl, ?_⟩
    rw [Instr.placed, Opcode.successor, Option.some.injEq] at h
    omega
  | branch test target =>
    rw [Instr.placed, Opcode.successor, Option.some.injEq] at h
    cases passed with
    | true => exact .inl ⟨rfl, by rw [← h, ← hnext]; rfl⟩
    | false =>
      refine .inr ⟨target, rfl, ?_⟩
      rw [if_neg Bool.false_ne_true] at h
      omega

namespace Body

variable {t : Body} {c : Code}

/-- What the scan sees of a stream with its return. -/
def scanLines (t : Body) : List Line := t.lines ++ t.ending.map Instr.line

theorem opcodes_scanLines (t : Body) : t.scanLines.map Line.opcode = t.opcodes := by
  rw [scanLines, opcodes, linked, List.map_append, List.map_append, t.opcodes_lines 0, List.map_map]
  rfl

theorem getElem?_scanLines {i : Nat} {instr : Instr} (hi : t.linked[i]? = some instr) :
    ∃ line, t.scanLines[i]? = some line ∧ line.opcode = instr.opcode := by
  have hop : (t.scanLines.map Line.opcode)[i]? = some instr.opcode := by
    rw [opcodes_scanLines, opcodes, List.getElem?_map, hi]
    rfl
  rw [List.getElem?_map] at hop
  exact Option.map_eq_some_iff.1 hop

theorem length_scanLines (t : Body) : t.scanLines.length = t.linked.length := by
  rw [← List.length_map Line.opcode, opcodes_scanLines, opcodes, List.length_map]

/-- The draft of the stream with its return. -/
theorem Receiving.exists_draft (ht : t.Receiving) : ∃ d : Draft, d.lines = t.scanLines ∧ d.opcodes = t.opcodes ∧
    d.Shielded ∧ t.opcodes.getLast?.any Opcode.isReturn = true := by
  obtain ⟨d, hemit, -⟩ := Draft.emits_body t (Draft.at_self .empty)
  have hops := (t.draft_ensureReturn hemit).1
  refine ⟨d.ensureReturn, ht.lines_ensureReturn hemit, hops, ?_, hops ▸ d.ensureReturn_isReturn⟩
  exact ((Draft.reaches_of_emitAll _ _ _ hemit).shielded Draft.shielded_empty).ensureReturn

/-- Behind an instruction that goes on there is another one, and no handler starts there. -/
theorem Receiving.exists_next (ht : t.Receiving) {i : Nat} {instr : Instr} (hi : t.linked[i]? = some instr)
    (hterminal : instr.opcode.isTerminal = false) :
    ∃ next line, t.linked[i + 1]? = some next ∧ t.scanLines[i + 1]? = some line ∧ line.entry = false := by
  obtain ⟨d, hlines, hops, hshielded, hlast⟩ := ht.exists_draft
  have hop : t.opcodes[i]? = some instr.opcode := by rw [opcodes, List.getElem?_map, hi, Option.map_some]
  have hlt := (List.getElem?_eq_some_iff.1 hi).1
  have hlength : t.opcodes.length = t.linked.length := by rw [opcodes, List.length_map]
  have hnext : i + 1 < t.linked.length := by
    refine Nat.lt_of_le_of_ne hlt fun heq => ?_
    rw [List.getLast?_eq_getElem?, hlength, ← heq, Nat.add_sub_cancel, hop] at hlast
    cases hopcode : instr.opcode <;> simp_all [Opcode.isReturn, Opcode.isTerminal]
  obtain ⟨line, hline, -⟩ := getElem?_scanLines (List.getElem?_eq_getElem hnext)
  refine ⟨_, line, List.getElem?_eq_getElem hnext, hline, ?_⟩
  exact hshielded.not_entry (hops ▸ hop) hterminal (hlines ▸ hline)

/-- The depths that the scan has of the stream with its return. -/
def scanLevels (t : Body) : List Int := levels 0 t.scanLines

theorem Keeps.steady_linked (h : t.Keeps 0 0) (ht : t.Receiving) : Steady t.scanLevels 0 t.linked := by
  have hlevels : t.scanLevels = levels 0 t.lines ++ levels 0 (t.ending.map Instr.line) := by
    rw [scanLevels, scanLines, levels_append, h.remains ht]
  have hat : LevelsAt t.scanLevels 0 (levels 0 t.lines ++ levels 0 (t.ending.map Instr.line)) := by
    intro i z hi
    rwa [Nat.zero_add, hlevels]
  have hreturn : t.exit true = true → t.ending = [.plain .voidReturn] := fun hexit => by
    rw [ending, hexit, Bool.true_or, if_pos rfl]
  have hbehind := hat.behind (m := 0 + t.size) (by rw [length_levels, t.length_lines])
  refine (h.steady true ht (Int.le_refl 0) hat.front fun hexit => ?_).append (by rw [t.length_code]) ?_
  · rw [hreturn hexit] at hbehind
    exact hbehind.head
  · unfold ending at hbehind ⊢
    split
    · next hcases =>
      rw [if_pos hcases] at hbehind
      exact .cons (.plain .voidReturn) hbehind.head (Int.le_refl 0) (by simp [Instr.target?]) (.nil _ _)
    · exact .nil _ _

/-- What the stream is laid out to, instruction by instruction: control is at an instruction, and has the depth
that the scan has there. -/
def Arrives (t : Body) (pc depth : Int) : Prop :=
  ∃ i instr, t.linked[i]? = some instr ∧ pc = offset t.opcodes i ∧ t.scanLevels[i]? = some depth

theorem Receiving.arrives_start (ht : t.Receiving) : t.Arrives 0 0 := by
  obtain ⟨d, hlines, hops, hshielded, hlast⟩ := ht.exists_draft
  have hpos : 0 < t.linked.length := by
    have hlength : t.opcodes.length = t.linked.length := by rw [opcodes, List.length_map]
    rw [← hlength, List.length_pos_iff]
    rintro hnil
    rw [hnil] at hlast
    cases hlast
  obtain ⟨line, hline, -⟩ := getElem?_scanLines (List.getElem?_eq_getElem hpos)
  refine ⟨0, _, List.getElem?_eq_getElem hpos, by rw [offset_zero]; rfl, ?_⟩
  have hentry : line.entry = false := by
    rw [← Bool.not_eq_true]
    intro hentry
    obtain ⟨j, -, hj, -⟩ := hshielded.lines 0 line (hlines ▸ hline) hentry
    exact absurd hj (Nat.succ_ne_zero j).symm
  rw [scanLevels, getElem?_levels, hline, Option.map_some, Line.reset_of_not_entry hentry]
  rfl

/-- The scan starts again from one where a handler starts. -/
theorem Receiving.arrives_handler (ht : t.Receiving) {i : Nat} (hi : i < t.linked.length)
    (hstart : some i ∈ handlerStarts (t.ranges 0)) : t.Arrives (offset t.opcodes i) 1 := by
  refine ⟨i, _, List.getElem?_eq_getElem hi, rfl, ?_⟩
  obtain ⟨k, line, hk, hentry, rfl⟩ := mem_marks.1 ((ht.mem_handlerStarts 0 i).1 hstart)
  have hline : t.scanLines[0 + k]? = some line := by
    rw [Nat.zero_add, scanLines, List.getElem?_append_left (List.getElem?_eq_some_iff.1 hk).1, hk]
  rw [scanLevels, getElem?_levels, hline, Option.map_some, Line.reset_of_entry hentry]

theorem Keeps.arrives_next (h : t.Keeps 0 0) (ht : t.Receiving) (hjump : t.Jumpless) {i : Nat} {instr : Instr}
    {depth pc : Int} {passed : Bool} (hi : t.linked[i]? = some instr) (hdepth : t.scanLevels[i]? = some depth)
    (hnext : (instr.placed t.opcodes i).successor (offset t.opcodes i) passed = some pc) :
    t.Arrives pc (depth + instr.opcode.stackEffect) := by
  have hop : t.opcodes[i]? = some instr.opcode := by rw [opcodes, List.getElem?_map, hi, Option.map_some]
  rcases Instr.successor_placed hop (hjump.isJump_linked instr (List.mem_of_getElem? hi)) hnext with
    ⟨hterminal, rfl⟩ | ⟨target, htarget, rfl⟩
  · obtain ⟨next, line, hlinked, hline, hentry⟩ := ht.exists_next hi hterminal
    obtain ⟨front, hfront, hopcode⟩ := getElem?_scanLines hi
    refine ⟨i + 1, next, hlinked, rfl, ?_⟩
    rw [scanLevels, getElem?_levels_succ hfront hline hdepth, Line.reset_of_not_entry hentry, hopcode]
  · obtain ⟨z, hz, -, htargets⟩ := h.steady_linked ht i instr hi
    rw [Nat.zero_add, hdepth] at hz
    obtain rfl := Option.some.inj hz
    have hlevel := htargets target htarget
    have hlt : target < t.linked.length := by
      rw [← length_scanLines, ← length_levels 0 t.scanLines]
      exact (List.getElem?_eq_some_iff.1 hlevel).1
    exact ⟨target, _, List.getElem?_eq_getElem hlt, rfl, hlevel⟩

/-- On every path control arrives at instructions only, with the depth that the scan has. -/
theorem Keeps.arrives (h : t.Keeps 0 0) (ht : t.Receiving) (hjump : t.Jumpless) (hlaid : Laid t.linked (t.ranges 0) c)
    {pc depth : Int} (hdepth : c.DepthAt pc depth) : t.Arrives pc depth := by
  have hcode : t.Assembled c := ⟨hlaid.instructions, hlaid.exceptions, hlaid.targets⟩
  induction hdepth with
  | start => exact ht.arrives_start
  | next _ hop _ passed hnext ih =>
    obtain ⟨i, instr, hi, rfl, hlevel⟩ := ih
    obtain rfl := Option.some.inj ((hcode.at?_offset hi).symm.trans hop)
    rw [Instr.stackEffect_placed]
    exact h.arrives_next ht hjump hi hlevel hnext
  | @throw pc depth op e _ hop _ he hcovers ih =>
    have he' : e ∈ c.exceptions.toList := by simpa using he
    rw [hlaid.exceptions, List.mem_flatMap] at he'
    obtain ⟨g, hg, he'⟩ := he'
    unfold GuardedRange.entries at he'
    split at he'
    · next hguards =>
      obtain ⟨k, hk, rfl⟩ := List.mem_map.1 he'
      obtain ⟨i, hi, hstart⟩ := hlaid.handlers g hg hguards k (by simpa using hk)
      have hmem : some i ∈ handlerStarts (t.ranges 0) :=
        List.mem_flatMap.2 ⟨g, hg, List.mem_map.2 ⟨k, hk, hstart⟩⟩
      rw [GuardedRange.entry, hstart]
      exact ht.arrives_handler hi hmem
    · cases he'

/-- Where control arrives, it finds what the instruction takes. -/
theorem Keeps.pops_le (h : t.Keeps 0 0) (ht : t.Receiving) {i : Nat} {instr : Instr} {depth : Int}
    (hi : t.linked[i]? = some instr) (hdepth : t.scanLevels[i]? = some depth) : instr.opcode.pops ≤ depth := by
  obtain ⟨z, hz, hpops, -⟩ := h.steady_linked ht i instr hi
  rw [Nat.zero_add, hdepth] at hz
  rwa [Option.some.inj hz]

end Body

end BlockAssembler
