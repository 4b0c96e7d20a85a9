import BlockAssembler.Proofs.Builder.Scan
import BlockAssembler.Proofs.Limits
import BlockAssembler.Proofs.Linked

/-! A code object that returns `null`, and the one that is assembled when a plain return stands for
that. The plain return lies where the `null` lay. So nothing in front of it moves, and a jump that
landed behind the `null` comes one byte nearer; every limit that has been kept is kept still. -/

namespace BlockAssembler

/-- A jump that landed at an offset lands one byte before it. -/
def PlacedOpcode.nearer (landing : Nat) (p : PlacedOpcode) : PlacedOpcode :=
  match p.opcode.distance? with
  | some d => if (p.offset : Int) + d = landing then { p with opcode := p.opcode.withDistance (d - 1) } else p
  | none => p

/-- The last two instructions, a return of `null`, have become a plain return. -/
structure Code.DropsNull (c c' : Code) : Prop where
  instructions : ∃ (front : List PlacedOpcode) (null : Nat),
    c.instructions.toList = front ++ [⟨null, .aconstNull⟩, ⟨null + 1, .areturn⟩] ∧
      c'.instructions.toList = front.map (PlacedOpcode.nearer (null + 1)) ++ [⟨null, .voidReturn⟩]
  exceptions : c'.exceptions = c.exceptions
  maxLocals : c'.maxLocals = c.maxLocals
  maxStack : c'.maxStack = c.maxStack ∨ c'.maxStack + 1 = c.maxStack

namespace PlacedOpcode

variable {op : Opcode} {o landing : Nat}

theorem nearer_of_not_isJump (hop : op.isJump = false) : (⟨o, op⟩ : PlacedOpcode).nearer landing = ⟨o, op⟩ := by
  have hnone : op.distance? = none := by simpa [Opcode.isJump] using hop
  simp [nearer, hnone]

theorem nearer_withDistance (hop : op.isJump = true) (d : Int) :
    (⟨o, op.withDistance d⟩ : PlacedOpcode).nearer landing =
      ⟨o, op.withDistance (if (o : Int) + d = landing then d - 1 else d)⟩ := by
  simp only [nearer, Opcode.distance?_withDistance hop]
  split
  · rw [Opcode.withDistance_withDistance]
  · rfl

end PlacedOpcode

namespace Builder

/-- A sequence that can be assembled and returns `null`, and what is left of it with a plain return. -/
structure Shortened (b b' : Builder) (null : Nat) : Prop where
  dropped : NullDropped b b' null
  tail : TailReplaced 2 .voidReturn b b'
  returnsNull : b.returnsNull = true
  ready : b.Ready
  linked : b.Linked
  sturdy : b'.Sturdy
  flagged : b.draft.Flagged
  shielded : b.draft.Shielded
  ordered : ∀ g ∈ b.ranges.toList, g.Ordered

namespace Shortened

open NullDropped

variable {b b' : Builder} {null x t i maxLocals : Nat} {c c' : Code} {link : Link}

/-! ### Instructions and offsets -/

theorem exists_front (h : Shortened b b' null) : ∃ front : List Opcode, front.length = null ∧
    b.opcodes.toList = front ++ [.aconstNull, .areturn] ∧ b'.opcodes.toList = front ++ [.voidReturn] := by
  obtain ⟨front, entry, hlines, hlines'⟩ := h.tail.lines_dropNull h.dropped.intact h.shielded h.returnsNull
  have hops : b.opcodes.toList = front.map Line.opcode ++ [.aconstNull, .areturn] := by
    rw [opcodes_eq_lines, hlines, List.map_append]
    rfl
  have hlength := h.ready.arranged.length_opcodes
  rw [hops, List.length_append, h.dropped.intact.code_eq, Array.size_range, h.dropped.size] at hlength
  refine ⟨front.map Line.opcode, Nat.add_right_cancel hlength, hops, ?_⟩
  rw [opcodes_eq_lines, hlines', List.map_append]
  rfl

/-- A sequence that does nothing else is left with its return. -/
theorem isTrivial_iff (h : Shortened b b' null) : b.isTrivial = true ↔ b'.opcodes.toList = [.voidReturn] := by
  obtain ⟨front, -, hops, hops'⟩ := h.exists_front
  rw [isTrivial_iff_opcodes, hops, hops']
  have hnil (last : List Opcode) : front ++ last = last ↔ front = [] := by simp
  have hlonger : front ++ [.aconstNull, .areturn] ≠ [.voidReturn] := fun heq => by
    simpa using congrArg List.length heq
  rw [hnil, hnil, or_iff_right hlonger]

theorem offset_eq (h : Shortened b b' null) (hi : i ≤ null) :
    offset b'.opcodes.toList i = offset b.opcodes.toList i := by
  obtain ⟨front, rfl, hops, hops'⟩ := h.exists_front
  rw [hops, hops', offset_append _ hi, offset_append _ hi]

theorem offset_return (h : Shortened b b' null) :
    offset b.opcodes.toList (null + 1) = offset b.opcodes.toList null + 1 := by
  obtain ⟨front, rfl, hops, -⟩ := h.exists_front
  rw [offset_succ, hops, List.getElem?_append_right (Nat.le_refl _), Nat.sub_self]
  rfl

theorem byteCount_eq (h : Shortened b b' null) : b.byteCount = b'.byteCount + 1 := by
  obtain ⟨front, -, hops, hops'⟩ := h.exists_front
  rw [byteCount, byteCount, hops, hops', List.map_append, List.map_append, List.sum_append, List.sum_append]
  rfl

theorem offsetOf_old (h : Shortened b b' null) (hx : x < null + 2) : b.offsetOf x = offset b.opcodes.toList x := by
  rw [offsetOf, h.dropped.position_old hx]

theorem offsetOf_moved (h : Shortened b b' null) (x : Nat) :
    b'.offsetOf (moved null x) = offset b.opcodes.toList (min x null) := by
  rw [offsetOf, h.dropped.position_moved, h.offset_eq (Nat.min_le_right ..)]

/-- What a handle names lies where it lay, unless it was the return. -/
theorem offsetOf_moved_of_le (h : Shortened b b' null) (hx : x ≤ null) :
    b'.offsetOf (moved null x) = b.offsetOf x := by
  rw [h.offsetOf_moved, Nat.min_eq_left hx, h.offsetOf_old (by omega)]

/-- The return that is left lies one byte before the one that was there. -/
theorem offsetOf_moved_return (h : Shortened b b' null) :
    b.offsetOf (null + 1) = b'.offsetOf (moved null (null + 1)) + 1 := by
  rw [h.offsetOf_moved, Nat.min_eq_right (Nat.le_succ _), h.offsetOf_old (by omega), h.offset_return]

/-! ### Jumps -/

theorem moved_mem (h : Shortened b b' null) (x : Nat) : moved null x ∈ b'.code := by
  rw [h.dropped.replaced.mem_code, h.dropped.size]
  rcases Nat.lt_or_ge x null with hlt | hge
  · rw [moved_of_lt hlt]
    exact .inl (by omega)
  · exact .inr (moved_of_le hge)

/-- The jumps that are listed stay where they are. -/
theorem exists_old (h : Shortened b b' null) (hlink : link ∈ b'.links) : ∃ x t : Nat,
    link = ⟨some x, some (moved null t)⟩ ∧ (⟨some x, some t⟩ : Link) ∈ b.links ∧ x < null ∧ x < t ∧ t < null + 2 := by
  rw [h.dropped.links_eq] at hlink
  obtain ⟨old, hold, rfl⟩ := List.mem_map.1 hlink
  obtain ⟨(x : Nat), (t : Nat), rfl, -, -, hlt⟩ := h.ready.onward old hold
  have hx := h.dropped.jumps _ hold x rfl
  have ht := h.dropped.intact.lt_of_target hold rfl
  rw [h.dropped.size] at ht
  rw [h.dropped.position_old (by omega), h.dropped.position_old ht] at hlt
  refine ⟨x, t, ?_, hold, hx, hlt, ht⟩
  rw [Link.renumber, Option.map_some, Option.map_some, moved_of_lt hx]

theorem mem_links (h : Shortened b b' null) (hlink : (⟨some x, some t⟩ : Link) ∈ b.links) :
    (⟨some x, some (moved null t)⟩ : Link) ∈ b'.links := by
  have hx := h.dropped.jumps _ hlink x rfl
  rw [h.dropped.links_eq]
  exact List.mem_map.2 ⟨_, hlink, by rw [Link.renumber, Option.map_some, Option.map_some, moved_of_lt hx]⟩

/-- Only what landed on the return comes nearer. -/
theorem span_eq (h : Shortened b b' null) (hlink : (⟨some x, some t⟩ : Link) ∈ b.links) :
    b'.span x (moved null t) =
      if (b.offsetOf x : Int) + b.span x t = (b.offsetOf null + 1 : Nat) then b.span x t - 1 else b.span x t := by
  have hx := h.dropped.jumps _ hlink x rfl
  have ht := h.dropped.intact.lt_of_target hlink rfl
  rw [h.dropped.size] at ht
  have hstart := h.offsetOf_moved_of_le (Nat.le_of_lt hx)
  rw [moved_of_lt hx] at hstart
  have hreturn : b.offsetOf (null + 1) = b.offsetOf null + 1 := by
    rw [h.offsetOf_old (by omega), h.offsetOf_old (by omega), h.offset_return]
  rw [span, span, hstart]
  rcases Nat.lt_or_ge null t with hlt | hle
  · obtain rfl : t = null + 1 := by omega
    have hend := h.offsetOf_moved_return
    rw [if_pos (by omega)]
    omega
  · have hend : b.offsetOf t ≤ b.offsetOf null := by
      rw [h.offsetOf_old ht, h.offsetOf_old (by omega)]
      exact offset_mono hle
    rw [h.offsetOf_moved_of_le hle, if_neg (by omega)]

/-! ### Limits -/

theorem ready_left (h : Shortened b b' null) : b'.Ready where
  sturdy := h.sturdy
  arranged := h.dropped.replaced.arranged
  opened := h.tail.opened.trans h.ready.opened
  pending := h.tail.pending.trans h.ready.pending
  onward link hlink := by
    obtain ⟨x, t, rfl, -, hx, hlt, -⟩ := h.exists_old hlink
    have hmem := h.moved_mem x
    have hposition := h.dropped.position_moved x
    rw [moved_of_lt hx] at hmem hposition
    refine ⟨x, moved null t, rfl, hmem, h.moved_mem t, ?_⟩
    rw [h.dropped.position_moved, hposition]
    omega
  landing y s s' hlink hlink' := by
    obtain ⟨x, t, heq, hold, -⟩ := h.exists_old hlink
    obtain ⟨x', t', heq', hold', -⟩ := h.exists_old hlink'
    cases heq
    cases heq'
    rw [h.ready.landing _ t t' hold hold']

/-- A limit that has been kept is kept still. -/
theorem overflow?_eq_none (h : Shortened b b' null) (hlimits : b.overflow? maxLocals = none) :
    b'.overflow? maxLocals = none := by
  rw [h.ready.overflow?_eq_none] at hlimits
  obtain ⟨hstack, hlocals, hbytes, hspans⟩ := hlimits
  have hdepth := h.tail.stackDepth_cases h.dropped.intact h.shielded h.returnsNull
  have hcount := h.byteCount_eq
  refine (h.ready_left.overflow?_eq_none maxLocals).2 ⟨by omega, hlocals, by omega, fun y s hlink => ?_⟩
  obtain ⟨x, t, heq, hold, -⟩ := h.exists_old hlink
  cases heq
  have hspan := hspans _ t hold
  rw [h.span_eq hold]
  split <;> omega

/-! ### The code object -/

/-- No handler starts with the return, for control goes on to it from the `null`. -/
theorem handler_le (h : Shortened b b' null) {g : GuardedRange} (hg : g ∈ b.ranges.toList) {k : Handler}
    (hk : k ∈ g.handlers) {start : Nat} (hstart : k.start = some start) : start ≤ null := by
  have hlt := h.dropped.intact.lt_of_handler (by simpa using hg) hk hstart
  rw [h.dropped.size] at hlt
  have hne : start ≠ null + 1 := by
    rintro rfl
    have hmem : some (null + 1) ∈ handlerStarts b.draft.records.ranges := by
      rw [draft_of_settled h.ready.pending]
      exact List.mem_flatMap.2 ⟨g, hg, List.mem_map.2 ⟨k, by simpa using hk, hstart⟩⟩
    have hsize : null + 1 < b.draft.lines.length := by
      rw [← Draft.size, size_draft, h.dropped.size]
      omega
    have hline := List.getElem?_eq_getElem hsize
    have hnull := h.dropped.pushed
    rw [opcode?_eq] at hnull
    have hentry := h.shielded.not_entry hnull rfl hline
    rw [← Bool.not_eq_true, h.flagged.lines _ _ hline] at hentry
    exact hentry hmem
  omega

theorem entriesAt_eq (h : Shortened b b' null) {g : GuardedRange} (hg : g ∈ b.ranges.toList) :
    (g.renumber (moved null)).entriesAt b'.offsetOf = g.entriesAt b.offsetOf := by
  obtain ⟨start, stop, hstart, hstop, hle, hhandlers⟩ := h.ordered g hg
  have hlt := h.dropped.skip_lt (by simpa using hg) hstop
  have hat {field : Option Handle} {x : Nat} (hfield : field = some x) (hx : x ≤ null) :
      b'.offsetOf ((field.map (moved null)).getD 0) = b.offsetOf (field.getD 0) := by
    rw [hfield]
    exact h.offsetOf_moved_of_le hx
  have hentries : (g.handlers.toList.map fun k => (⟨b.offsetOf (g.start.getD 0), b.offsetOf (g.skip.getD 0),
      b'.offsetOf ((k.start.map (moved null)).getD 0), k.catches⟩ : ExceptionEntry)) =
        g.handlers.toList.map fun k => ⟨b.offsetOf (g.start.getD 0), b.offsetOf (g.skip.getD 0),
          b.offsetOf (k.start.getD 0), k.catches⟩ := List.map_congr_left fun k hk => by
    have hk' : k ∈ g.handlers := by simpa using hk
    obtain ⟨entry, hentry, -⟩ := hhandlers k hk'
    rw [hat hentry (h.handler_le hg hk' hentry)]
  simp only [GuardedRange.entriesAt, GuardedRange.renumber, Array.toList_map, List.map_map]
  rw [hat hstart (by omega), hat hstop (by omega), ← hentries]
  rfl

/-- In front of the `null` the instructions stay, and the jumps to the return come nearer. -/
theorem getElem?_front (h : Shortened b b' null) (hcode : b.Placed maxLocals c) (hcode' : b'.Placed maxLocals c')
    (hexact' : b'.Exact maxLocals c') (hi : i < null) :
    c'.instructions[i]? = c.instructions[i]?.map (PlacedOpcode.nearer (b.offsetOf null + 1)) := by
  have hat : b.code[i]? = some i := by rw [h.dropped.intact.getElem?_code, if_pos (by rw [h.dropped.size]; omega)]
  have hat' : b'.code[i]? = some i := by rw [h.dropped.getElem?_code, if_pos (Nat.le_of_lt hi), moved_of_lt hi]
  have hlinked' := h.dropped.linked h.linked
  obtain ⟨op, placed, hop, hp, hcases⟩ := hcode.getElem?_eq h.ready.arranged h.linked hat
  rw [hp, Option.map_some]
  rcases hcases with ⟨hjump, rfl⟩ | ⟨hjump, t, -, hlink, rfl⟩
  · obtain ⟨op', placed', hop', hp', hcases'⟩ := hcode'.getElem?_eq h.dropped.replaced.arranged hlinked' hat'
    rw [opcode?_of_stored h.tail.stored (by rw [h.dropped.size]; omega), hop] at hop'
    obtain rfl := Option.some.inj hop'
    rw [PlacedOpcode.nearer_of_not_isJump hjump, hp', h.offset_eq (Nat.le_of_lt hi)]
    rcases hcases' with ⟨-, rfl⟩ | ⟨hjump', -⟩
    · rfl
    · cases hjump.symm.trans hjump'
  · obtain ⟨op', hop', hp'⟩ := hexact'.distances i (moved null t) (h.mem_links hlink)
    rw [opcode?_of_stored h.tail.stored (by rw [h.dropped.size]; omega), hop] at hop'
    obtain rfl := Option.some.inj hop'
    have hstart := h.offsetOf_moved_of_le (Nat.le_of_lt hi)
    rw [moved_of_lt hi] at hstart
    rw [h.dropped.position_of_lt hi, hstart, h.span_eq hlink] at hp'
    rw [← h.offsetOf_old (by omega), PlacedOpcode.nearer_withDistance hjump, hp', span]

theorem getElem?_null (h : Shortened b b' null) (hcode : b.Placed maxLocals c) :
    c.instructions[null]? = some ⟨b.offsetOf null, .aconstNull⟩ ∧
      c.instructions[null + 1]? = some ⟨b.offsetOf null + 1, .areturn⟩ := by
  have hat {x : Nat} (hx : x < null + 2) {op : Opcode} (hop : b.opcode? x = some op) (hjump : op.isJump = false) :
      c.instructions[x]? = some ⟨b.offsetOf x, op⟩ := by
    have hcodeAt : b.code[x]? = some x := by rw [h.dropped.intact.getElem?_code, if_pos (by rwa [h.dropped.size])]
    obtain ⟨op', placed, hop', hp, hcases⟩ := hcode.getElem?_eq h.ready.arranged h.linked hcodeAt
    obtain rfl := Option.some.inj (hop.symm.trans hop')
    rw [hp, h.offsetOf_old hx]
    rcases hcases with ⟨-, rfl⟩ | ⟨hjump', -⟩
    · rfl
    · cases hjump.symm.trans hjump'
  have hreturn := hat (Nat.lt_succ_self _) h.dropped.returned rfl
  rw [h.offsetOf_old (Nat.lt_succ_self _), h.offset_return, ← h.offsetOf_old (by omega)] at hreturn
  exact ⟨hat (by omega) h.dropped.pushed rfl, hreturn⟩

theorem getElem?_replacement (h : Shortened b b' null) (hcode' : b'.Placed maxLocals c') :
    c'.instructions[null]? = some ⟨b.offsetOf null, .voidReturn⟩ := by
  have hat : b'.code[null]? = some (null + 2) := by
    rw [h.dropped.getElem?_code, if_pos (Nat.le_refl _), moved_of_le (Nat.le_refl _)]
  have hop := opcode?_size_of_stored h.tail.stored
  rw [h.dropped.size] at hop
  obtain ⟨op, placed, hop', hp, hcases⟩ :=
    hcode'.getElem?_eq h.dropped.replaced.arranged (h.dropped.linked h.linked) hat
  obtain rfl := Option.some.inj (hop.symm.trans hop')
  rw [hp, h.offset_eq (Nat.le_refl _), ← h.offsetOf_old (by omega)]
  rcases hcases with ⟨-, rfl⟩ | ⟨hjump, -⟩
  · rfl
  · cases hjump

/-- Where the code object fits into its limits, the shortened one does. -/
theorem dropsNull (h : Shortened b b' null) {left : Builder} (hrun : (assemble maxLocals).run b = .ok c left) :
    ∃ c' left', (assemble maxLocals).run b' = .ok c' left' ∧ c.DropsNull c' := by
  obtain ⟨c', left', hrun'⟩ := (h.ready_left.assemble_ok_iff maxLocals).2
    (h.overflow?_eq_none ((h.ready.assemble_ok_iff maxLocals).1 ⟨c, left, hrun⟩))
  have hexact := h.ready.exact hrun
  have hexact' := h.ready_left.exact hrun'
  have hcode := assemble_eq_ok h.ready.arranged hrun
  have hcode' := assemble_eq_ok h.dropped.replaced.arranged hrun'
  refine ⟨c', left', hrun', ⟨c.instructions.toList.take null, b.offsetOf null, ?_, ?_⟩, ?_, ?_, ?_⟩
  · obtain ⟨hnull, hreturn⟩ := h.getElem?_null hcode
    have hsize : c.instructions.toList.length = null + 2 := by
      rw [Array.length_toList, hexact.size, h.dropped.intact.code_eq, Array.size_range, h.dropped.size]
    calc c.instructions.toList = c.instructions.toList.take (null + 1 + 1) :=
          (List.take_of_length_le (Nat.le_of_eq hsize)).symm
      _ = c.instructions.toList.take null ++ [⟨b.offsetOf null, .aconstNull⟩, ⟨b.offsetOf null + 1, .areturn⟩] := by
          rw [List.take_add_one, List.take_add_one, Array.getElem?_toList, Array.getElem?_toList, hnull, hreturn,
            List.append_assoc]
          rfl
  · have hsize : c'.instructions.toList.length = null + 1 := by
      have hcodeSize := congrArg List.length h.dropped.replaced.code
      rw [List.length_append, List.length_range, h.dropped.size, Array.length_toList] at hcodeSize
      rw [Array.length_toList, hexact'.size, hcodeSize]
      rfl
    have hfront : c'.instructions.toList.take null =
        (c.instructions.toList.take null).map (PlacedOpcode.nearer (b.offsetOf null + 1)) := by
      apply List.ext_getElem?
      intro i
      rw [List.getElem?_map, List.getElem?_take, List.getElem?_take, Array.getElem?_toList, Array.getElem?_toList]
      by_cases hi : i < null
      · rw [if_pos hi, if_pos hi, h.getElem?_front hcode hcode' hexact' hi]
      · rw [if_neg hi, if_neg hi, Option.map_none]
    calc c'.instructions.toList = c'.instructions.toList.take (null + 1) :=
          (List.take_of_length_le (Nat.le_of_eq hsize)).symm
      _ = c'.instructions.toList.take null ++ [⟨b.offsetOf null, .voidReturn⟩] := by
          rw [List.take_add_one, Array.getElem?_toList, h.getElem?_replacement hcode']
          rfl
      _ = _ := by rw [hfront]
  · rw [← Array.toList_inj, hexact.exceptions, hexact'.exceptions, h.dropped.ranges_eq, List.flatMap_map]
    exact List.flatMap_congr fun g hg => h.entriesAt_eq hg
  · rw [hexact.maxLocals, hexact'.maxLocals]
  · rw [hexact.maxStack, hexact'.maxStack]
    exact h.tail.stackDepth_cases h.dropped.intact h.shielded h.returnsNull

end Shortened

end Builder

end BlockAssembler
