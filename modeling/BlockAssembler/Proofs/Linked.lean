import BlockAssembler.Proofs.Body.Forward
import BlockAssembler.Proofs.Code.Position
import BlockAssembler.Proofs.Verification

/-! Sequences from which control cannot get lost. The records list every jump, each listed
jump lands behind itself, handlers start behind the body they guard, and the last instruction is a
return. Such a sequence is laid out as a code object with closed control flow; the sequence of
a balanced stream is one, and it stays one when a final return of `null` is replaced. -/

namespace BlockAssembler

namespace Builder

structure Linked (b : Builder) : Prop where
  last : ∃ op, b.last? = some op ∧ op.isReturn = true
  listed : ∀ h ∈ b.code, ∀ op, b.opcode? h = some op → op.isJump = true → ∃ link ∈ b.links, link.jump = some h
  onward : ∀ h t, (⟨some h, some t⟩ : Link) ∈ b.links → b.position h < b.position t
  behind : ∀ g ∈ b.ranges, ∀ stop, g.skip = some stop → ∀ k ∈ g.handlers, ∀ start, k.start = some start →
    b.position stop ≤ b.position start

/-! ### The code object -/

namespace Placed

variable {b : Builder} {maxLocals : Nat} {c : Code} {i : Nat} {h : Handle} {p : PlacedOpcode}

/-- An instruction stays as it is, or it is a jump with the distance to what it is linked to. -/
theorem getElem?_eq (hplaced : b.Placed maxLocals c) (hb : b.Arranged) (hlinked : b.Linked)
    (hi : b.code[i]? = some h) : ∃ op placed, b.opcode? h = some op ∧
      c.instructions[i]? = some ⟨offset b.opcodes.toList i, placed⟩ ∧
      (op.isJump = false ∧ placed = op ∨ op.isJump = true ∧ ∃ t ∈ b.code, (⟨some h, some t⟩ : Link) ∈ b.links ∧
        placed = op.withDistance ((b.offsetOf t : Int) - b.offsetOf h)) := by
  obtain ⟨op, placed, hop, hp, ⟨hfree, rfl⟩ | ⟨t, ht, hlink, -, rfl⟩⟩ := hplaced.getElem?_cases hb hi
  · refine ⟨_, _, hop, hp, .inl ⟨?_, rfl⟩⟩
    -- every jump is linked
    by_contra hjump
    obtain ⟨link, hlink, hh⟩ := hlinked.listed h (Array.mem_of_getElem? hi) _ hop (by simpa using hjump)
    exact hfree link hlink hh
  · refine ⟨op, _, hop, hp, ?_⟩
    cases hjump : op.isJump with
    | false => exact .inl ⟨rfl, Opcode.withDistance_of_not_isJump hjump _⟩
    | true => exact .inr ⟨rfl, t, ht, hlink, rfl⟩

/-- What lies behind an instruction lies behind the end of it. -/
theorem offset_add_size_le (hb : b.Arranged) (hi : b.code[i]? = some h) {op : Opcode} (hop : b.opcode? h = some op)
    {j : Nat} (hij : i < j) : offset b.opcodes.toList i + op.size ≤ offset b.opcodes.toList j := by
  calc offset b.opcodes.toList i + op.size = offset b.opcodes.toList (i + 1) := by
        rw [offset_succ, hb.getElem?_opcodes, hi, Option.bind_some, hop, Option.map_some, Option.getD_some]
    _ ≤ offset b.opcodes.toList j := offset_mono hij

theorem last_isReturn (hplaced : b.Placed maxLocals c) (hb : b.Arranged) (hlinked : b.Linked) :
    ∃ p, c.instructions.back? = some p ∧ p.opcode.isReturn = true := by
  obtain ⟨op, hlast, hreturn⟩ := hlinked.last
  obtain ⟨h, hback, hop⟩ := Option.bind_eq_some_iff.1 hlast
  rw [Array.back?_eq_getElem?] at hback
  obtain ⟨op', placed, hop', hp, hplacedOp⟩ := hplaced.getElem?_eq hb hlinked hback
  obtain rfl := Option.some.inj (hop.symm.trans hop')
  refine ⟨_, by rw [Array.back?_eq_getElem?, hplaced.size_instructions hb, hp], ?_⟩
  rcases hplacedOp with ⟨-, rfl⟩ | ⟨hjump, -⟩
  · exact hreturn
  · cases (Opcode.isJump_of_isReturn hreturn).symm.trans hjump

/-- A jump of the code object is one that is linked, and its distance leads to what it is linked to. -/
theorem exists_link (hplaced : b.Placed maxLocals c) (hb : b.Arranged) (hlinked : b.Linked)
    (hp : p ∈ c.instructions) {d : Int} (hd : p.opcode.distance? = some d) :
    ∃ (i : Nat) (h t : Handle) (op : Opcode), (⟨some h, some t⟩ : Link) ∈ b.links ∧ b.code[i]? = some h ∧ t ∈ b.code ∧
      b.opcode? h = some op ∧ op.isJump = true ∧ p.offset = b.offsetOf h ∧ (p.offset : Int) + d = b.offsetOf t := by
  obtain ⟨i, hi⟩ := Array.mem_iff_getElem?.1 hp
  obtain ⟨-, h, hh⟩ := hplaced.offset_eq hi
  obtain ⟨op, placed, hop, hp', hplacedOp⟩ := hplaced.getElem?_eq hb hlinked hh
  obtain rfl := Option.some.inj (hi.symm.trans hp')
  rcases hplacedOp with ⟨hjump, rfl⟩ | ⟨hjump, t, ht, hlink, rfl⟩
  · rw [Opcode.isJump, show placed.distance? = some d from hd] at hjump
    cases hjump
  · obtain rfl := Option.some.inj ((Opcode.distance?_withDistance hjump _).symm.trans hd)
    have hstart : b.offsetOf h = offset b.opcodes.toList i := by rw [offsetOf, hb.position_eq hh]
    refine ⟨i, h, t, op, hlink, hh, ht, hop, hjump, hstart.symm, ?_⟩
    show (offset b.opcodes.toList i : Int) + _ = _
    omega

/-- A jump leads behind itself. -/
theorem jump_forward (hplaced : b.Placed maxLocals c) (hb : b.Arranged) (hlinked : b.Linked)
    (hp : p ∈ c.instructions) {d : Int} (hd : p.opcode.distance? = some d) :
    3 ≤ d ∧ ∃ q ∈ c.instructions, (q.offset : Int) = p.offset + d := by
  obtain ⟨i, h, t, op, hlink, hh, ht, hop, hjump, hoffset, htarget⟩ := hplaced.exists_link hb hlinked hp hd
  have hposition := hb.position_eq hh
  have hbehind := offset_add_size_le hb hh hop (hposition ▸ hlinked.onward h t hlink)
  rw [Opcode.size_of_isJump hjump] at hbehind
  obtain ⟨q, hq, hqoffset⟩ := hplaced.exists_offsetOf hb ht
  have hstart : b.offsetOf h = offset b.opcodes.toList i := by rw [offsetOf, hposition]
  have hend : b.offsetOf t = offset b.opcodes.toList (b.position t) := rfl
  exact ⟨by omega, q, hq, by omega⟩

/-- A handler starts behind what it guards. -/
theorem handler_behind (hplaced : b.Placed maxLocals c) (hb : b.Arranged) (hlinked : b.Linked)
    {e : ExceptionEntry} (he : e ∈ c.exceptions) :
    (∃ q ∈ c.instructions, q.offset = e.handler) ∧ ∀ pc : Int, e.Covers pc → pc < e.handler := by
  obtain ⟨hexceptions, henters⟩ := exceptionTable_eq_ok hb hplaced.exceptions
  have he' : e ∈ c.exceptions.toList := by simpa using he
  rw [hexceptions, List.mem_flatMap] at he'
  obtain ⟨g, hg, he'⟩ := he'
  have hg' : g ∈ b.ranges := by simpa using hg
  unfold GuardedRange.entriesAt at he'
  dsimp only at he'
  split at he'
  · next hguards =>
    obtain ⟨k, hk, rfl⟩ := List.mem_map.1 he'
    have hk' : k ∈ g.handlers := by simpa using hk
    obtain ⟨start, hmem, hstart⟩ := (henters g hg').handlers hguards k hk'
    obtain ⟨stop, -, hstop⟩ := (henters g hg').stop
    have hle := hlinked.behind g hg' stop hstop k hk' start hstart
    rw [hstart, hstop]
    refine ⟨hplaced.exists_offsetOf hb hmem, fun pc hcovers => ?_⟩
    have hstopOffset : b.offsetOf stop ≤ b.offsetOf start := offset_mono hle
    have hlt : pc < (b.offsetOf stop : Int) := hcovers.2
    show pc < (b.offsetOf start : Int)
    omega
  · cases he'

theorem closed (hplaced : b.Placed maxLocals c) (hb : b.Arranged) (hlinked : b.Linked) : c.Closed where
  last := hplaced.last_isReturn hb hlinked
  jumps _ hp _ hd := hplaced.jump_forward hb hlinked hp hd
  handlers _ he := hplaced.handler_behind hb hlinked he

end Placed

/-! ### Balanced streams -/

variable {b b' : Builder}

theorem linked_of_body {t : Body} (ht : t.Jumpless) (hb : b.Intact) (hops : b.draft.opcodes = t.opcodes)
    (hrecords : b.records = ⟨t.ranges 0, t.chains 0⟩) (hlast : b.draft.opcodes.getLast?.any Opcode.isReturn = true) :
    b.Linked where
  last := by
    rw [last?_eq hb]
    exact (Option.any_eq_true _ _).1 hlast
  listed h hh op hop hjump := by
    rw [opcode?_eq, hops, Body.opcodes, List.getElem?_map] at hop
    obtain ⟨instr, hinstr, rfl⟩ := Option.map_eq_some_iff.1 hop
    cases htarget : instr.target? with
    | none =>
      rw [ht.isJump_linked instr (List.mem_of_getElem? hinstr) htarget] at hjump
      cases hjump
    | some target =>
      refine ⟨⟨some h, some target⟩, (mem_links_iff hrecords _).2 ?_, rfl⟩
      rw [← t.jumps_linked]
      exact mem_jumps_of_target hinstr htarget
  onward h t' hlink := by
    have hjump := (mem_links_iff hrecords _).1 hlink
    rw [← t.jumps_linked] at hjump
    obtain ⟨instr, hinstr, htarget⟩ := target_of_mem_jumps hjump
    have hlt := t.onward_linked h instr t' hinstr htarget
    rw [Nat.zero_add] at hlt
    have hsize := hb.lt_of_target hlink rfl
    rw [hb.position_eq (Nat.lt_trans hlt hsize), hb.position_eq hsize]
    exact hlt
  behind g hg stop hstop k hk start hstart := by
    have hranges : b.ranges.toList = t.ranges 0 := congrArg Records.ranges hrecords
    obtain ⟨-, stop', -, hstop', -, hhandlers⟩ := t.ordered 0 g (by rw [← hranges]; simpa using hg)
    obtain ⟨start', hstart', hle⟩ := hhandlers k hk
    obtain rfl := Option.some.inj (hstop.symm.trans hstop')
    obtain rfl := Option.some.inj (hstart.symm.trans hstart')
    have hsize := hb.lt_of_handler hg hk hstart
    rw [hb.position_eq (Nat.lt_of_le_of_lt hle hsize), hb.position_eq hsize]
    exact hle

/-! ### Replacing a return of null -/

theorem NullDropped.linked {null : Nat} (h : NullDropped b b' null) (hlinked : b.Linked) : b'.Linked where
  last := by
    have hop := h.replaced.opcode?_replacement
    have hback : b'.code.back? = some b.arena.size := by
      rw [← Array.getLast?_toList, h.replaced.code, List.getLast?_concat]
    exact ⟨.voidReturn, by rw [last?, hback]; exact hop, rfl⟩
  listed (x : Nat) hx op hop hjump := by
    rcases h.replaced.mem_code.1 hx with hlt | rfl
    · rw [h.size] at hlt
      have hsize : x < b.arena.size := by rw [h.size]; omega
      rw [h.replaced.opcode?_of_lt hsize] at hop
      obtain ⟨link, hlink, hx'⟩ := hlinked.listed x (h.intact.mem_code.2 hsize) op hop hjump
      refine ⟨link.renumber (moved null), ?_, ?_⟩
      · rw [h.links_eq]
        exact List.mem_map_of_mem hlink
      · rw [Link.renumber, hx', Option.map_some, moved_of_lt (by omega)]
    · rw [h.replaced.opcode?_replacement] at hop
      obtain rfl := Option.some.inj hop
      cases hjump
  onward x t hlink := by
    rw [h.links_eq] at hlink
    obtain ⟨⟨jump, target⟩, hold, heq⟩ := List.mem_map.1 hlink
    obtain ⟨hjump, htarget⟩ := Link.mk.inj heq
    obtain ⟨(x : Nat), rfl, rfl⟩ := Option.map_eq_some_iff.1 hjump
    obtain ⟨(t : Nat), rfl, rfl⟩ := Option.map_eq_some_iff.1 htarget
    have ht := h.intact.lt_of_target hold rfl
    have hx := h.jumps _ hold x rfl
    have hlt := hlinked.onward x t hold
    rw [h.position_old (by omega), h.intact.position_eq ht] at hlt
    rw [h.position_moved, h.position_moved]
    omega
  behind g hg stop hstop k hk start hstart := by
    have hg' : g ∈ b'.ranges.toList := by simpa using hg
    rw [h.ranges_eq] at hg'
    obtain ⟨old, hold, rfl⟩ := List.mem_map.1 hg'
    have hmem : old ∈ b.ranges := by simpa using hold
    obtain ⟨(stop : Nat), hstop', rfl⟩ := Option.map_eq_some_iff.1 hstop
    obtain ⟨k, hk', rfl⟩ := Array.mem_map.1 hk
    obtain ⟨(start : Nat), hstart', rfl⟩ := Option.map_eq_some_iff.1 hstart
    have hsize := h.intact.lt_of_handler hmem hk' hstart'
    have hlt := h.skip_lt hmem hstop'
    have hle := hlinked.behind old hmem stop hstop' k hk' start hstart'
    rw [h.position_old (by omega), h.intact.position_eq hsize] at hle
    rw [h.position_moved, h.position_moved]
    omega

theorem Linked.adjust {kind : BlockKind} (hlinked : b.Linked) (hb : b.Intact) (hp : b.pending = #[])
    (hd : b.draft.Sound) (h : (Builder.adjust kind).run b = .ok true b') : b'.Arranged ∧ b'.Linked := by
  rcases adjust_cases hb h with ⟨-, rfl⟩ | ⟨-, hnull, hreplaced⟩
  · exact ⟨hb.arranged, hlinked⟩
  · obtain ⟨null, hdropped⟩ := NullDropped.of_replaced hb hp hd hnull hreplaced
    exact ⟨hreplaced.arranged, hdropped.linked hlinked⟩

end Builder

end BlockAssembler
