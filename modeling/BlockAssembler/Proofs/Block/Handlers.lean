import BlockAssembler.Proofs.Block.ControlFlow
import BlockAssembler.Proofs.Block.Plain
import BlockAssembler.Proofs.Body.Language

/-! Handlers of a block are entered by a throw only. What holds in the linked code of the stream is
carried to the builder that the block is assembled from, where the links name the handles that
jumps land on, through the adjustment of the end, which moves no handler, and to the code object,
where the distances lead to what is linked. -/

namespace BlockAssembler

/-- The handler takes the exception off the stack, the instruction in front of it never goes on to it,
and no jump lands on it. -/
structure Code.EnteredByThrow (c : Code) (l : Landing) : Prop where
  received : ∃ opcode rest p, l.body = .op opcode rest ∧ c.instructions[l.start]? = some p ∧ p.opcode = opcode
  blocked : ∃ i p, l.start = i + 1 ∧ c.instructions[i]? = some p ∧ p.opcode.isTerminal = true
  clear : ∀ p ∈ c.instructions, ∀ d, p.opcode.distance? = some d → ∀ q, c.instructions[l.start]? = some q →
    (p.offset : Int) + d ≠ q.offset

namespace Opcode

theorem isTerminal_withDistance (op : Opcode) (d : Int) : (op.withDistance d).isTerminal = op.isTerminal := by
  cases op <;> rfl

theorem isJump_of_receives {op : Opcode} (h : op.receives = true) : op.isJump = false := by
  cases op <;> first | rfl | cases h

end Opcode

namespace Builder

/-- The handler and everything in front of it stand in the sequence as they have been laid down, the
instruction in front of the handler never goes on to it, and no jump is linked to it. -/
structure EnteredByThrow (b : Builder) (l : Landing) : Prop where
  received : ∃ opcode rest, l.body = .op opcode rest ∧ opcode.receives = true ∧ b.opcode? l.start = some opcode
  blocked : ∃ i op, l.start = i + 1 ∧ b.opcode? i = some op ∧ op.isTerminal = true
  placed : ∀ i ≤ l.start, b.code[i]? = some i
  clear : ∀ link ∈ b.links, link.target ≠ some l.start

variable {b b' : Builder} {l : Landing} {maxLocals : Nat} {c : Code}

/-- In the builder of a stream the links are the jumps of its linked code. -/
theorem Intact.enteredByThrow {t : Body} (hb : b.Intact) (hops : b.draft.opcodes = t.opcodes)
    (hrecords : b.records = ⟨t.ranges 0, t.chains 0⟩) (hl : l.EnteredIn t.linked) : b.EnteredByThrow l := by
  have hop {i : Nat} {instr : Instr} (hi : t.linked[i]? = some instr) : b.opcode? i = some instr.opcode := by
    rw [opcode?_eq, hops, Body.opcodes, List.getElem?_map, hi]
    rfl
  obtain ⟨opcode, rest, hbody, hreceives, hfirst⟩ := hl.received
  obtain ⟨i, instr, hi, hinstr, hterminal⟩ := hl.blocked
  refine ⟨⟨opcode, rest, hbody, hreceives, hop hfirst⟩, ⟨i, _, hi, hop hinstr, hterminal⟩, fun j hj => ?_, ?_⟩
  · have hlt := (List.getElem?_eq_some_iff.1 hfirst).1
    have hsize : b.arena.size = t.linked.length := by
      rw [← size_draft, ← Draft.length_opcodes, hops, Body.opcodes, List.length_map]
    rw [hb.getElem?_code, if_pos (by omega)]
  · rintro ⟨jump, target⟩ hlink rfl
    have hjump := (mem_links_iff hrecords _).1 hlink
    rw [← t.jumps_linked] at hjump
    obtain ⟨j, x, target, hj, htarget, heq⟩ := mem_jumps.1 hjump
    obtain ⟨-, rfl⟩ : jump = some (0 + j) ∧ l.start = target := by simpa using heq
    exact hl.clear x (List.mem_of_getElem? hj) htarget

/-- No handler begins with one of the two instructions that are replaced. -/
theorem NullDropped.enteredByThrow {null : Nat} (h : NullDropped b b' null) (hl : b.EnteredByThrow l) :
    b'.EnteredByThrow l := by
  obtain ⟨opcode, rest, hbody, hreceives, hop⟩ := hl.received
  obtain ⟨i, op, hi, hterminal⟩ := hl.blocked
  have hlt : l.start < null := by
    have hplaced := hl.placed l.start (Nat.le_refl _)
    have hsize := h.intact.mem_code.1 (Array.mem_of_getElem? hplaced)
    rw [h.size] at hsize
    have hnull : l.start ≠ null := fun heq => by
      rw [heq, h.pushed] at hop
      obtain rfl := Option.some.inj hop
      cases hreceives
    have hreturn : l.start ≠ null + 1 := fun heq => by
      rw [heq, h.returned] at hop
      obtain rfl := Option.some.inj hop
      cases hreceives
    omega
  have hkept {x : Nat} (hx : x < null) : b'.opcode? x = b.opcode? x :=
    h.replaced.opcode?_of_lt (by rw [h.size]; omega)
  refine ⟨⟨opcode, rest, hbody, hreceives, by rw [hkept hlt, hop]⟩, ⟨i, op, hi, by rwa [hkept (by omega)]⟩,
    fun j hj => ?_, ?_⟩
  · rw [h.getElem?_code, if_pos (by omega), moved_of_lt (by omega)]
  · intro link hlink htarget
    rw [h.links_eq] at hlink
    obtain ⟨old, hold, rfl⟩ := List.mem_map.1 hlink
    obtain ⟨(x : Nat), hx, hmoved⟩ := Option.map_eq_some_iff.1 htarget
    by_cases hxnull : x < null
    · rw [moved_of_lt hxnull] at hmoved
      exact hl.clear old hold (hmoved ▸ hx)
    · rw [moved_of_le (Nat.le_of_not_lt hxnull)] at hmoved
      have : null + 2 = l.start := hmoved
      omega

theorem Arranged.offsetOf_inj (hb : b.Arranged) {x y : Handle} (hx : x ∈ b.code) (hy : y ∈ b.code)
    (h : b.offsetOf x = b.offsetOf y) : x = y := by
  have hlt {x y : Handle} (hx : x ∈ b.code) (hxy : b.position x < b.position y) : b.offsetOf x < b.offsetOf y :=
    offset_lt hxy (by rw [hb.length_opcodes]; exact position_lt hx)
  have hposition : b.position x = b.position y := by
    rcases Nat.lt_trichotomy (b.position x) (b.position y) with hxy | heq | hyx
    · exact absurd h (Nat.ne_of_lt (hlt hx hxy))
    · exact heq
    · exact absurd h.symm (Nat.ne_of_lt (hlt hy hyx))
  have hat := getElem?_position hx
  rw [hposition, getElem?_position hy] at hat
  exact (Option.some.inj hat).symm

theorem Placed.enteredByThrow (hplaced : b.Placed maxLocals c) (hb : b.Arranged) (hlinked : b.Linked)
    (hl : b.EnteredByThrow l) : c.EnteredByThrow l := by
  obtain ⟨opcode, rest, hbody, hreceives, hop⟩ := hl.received
  obtain ⟨i, op, hi, hopi, hterminal⟩ := hl.blocked
  have hstart := hl.placed l.start (Nat.le_refl _)
  obtain ⟨op', placed, hop', hp, hplacedOp⟩ := hplaced.getElem?_eq hb hlinked hstart
  refine ⟨⟨opcode, rest, _, hbody, hp, ?_⟩, ?_, ?_⟩
  · obtain rfl := Option.some.inj (hop.symm.trans hop')
    rcases hplacedOp with ⟨-, rfl⟩ | ⟨hjump, -⟩
    · rfl
    · cases (Opcode.isJump_of_receives hreceives).symm.trans hjump
  · obtain ⟨op'', placed', hop'', hp', hplacedOp'⟩ := hplaced.getElem?_eq hb hlinked (hl.placed i (by omega))
    obtain rfl := Option.some.inj (hopi.symm.trans hop'')
    refine ⟨i, _, hi, hp', ?_⟩
    rcases hplacedOp' with ⟨-, rfl⟩ | ⟨-, t, -, -, rfl⟩
    · exact hterminal
    · exact (Opcode.isTerminal_withDistance op _).trans hterminal
  · intro p hpmem d hd q hq heq
    obtain ⟨j, h, t, op'', hlink, -, ht, -, -, -, htarget⟩ := hplaced.exists_link hb hlinked hpmem hd
    have hoffset : q.offset = b.offsetOf l.start := by
      rw [(hplaced.offset_eq hq).1, offsetOf, hb.position_eq hstart]
    have htstart : t = l.start := hb.offsetOf_inj ht (Array.mem_of_getElem? hstart) (by omega)
    exact hl.clear _ hlink (congrArg some htstart)

end Builder

namespace Block

variable {b : Block} {c : Code}

/-- The first instruction of every handler of a block, whether or not it guards anything, is reached
by a throw only. The stream of the block has a tree, and only one, that says where its handlers are. -/
theorem handlers_enteredByThrow (hplain : b.Plain) (hjump : b.Jumpless) (h : b.compile.1 = .ok (.code c)) :
    (∃ t : Body, t.items = b.stream.1) ∧
      ∀ t : Body, t.items = b.stream.1 → ∀ s ∈ t.sites 0, ∀ l ∈ s.landings, c.EnteredByThrow l := by
  obtain ⟨t, ht, hitems⟩ : Structured b.stream.1 := structured_lowerAll _ _ hplain _
  refine ⟨⟨t, hitems⟩, fun t' hitems' s hs l hl => ?_⟩
  obtain rfl := Body.items_inj (hitems.trans hitems'.symm)
  obtain ⟨after, names, left, hprepared, hassemble⟩ := exists_prepared h
  obtain ⟨d, before, -, hkept⟩ := exists_kept hprepared
  have hplaced := Builder.assemble_eq_ok hkept.arranged hassemble
  obtain ⟨harranged, hlinked⟩ := hkept.linked hplaced hjump
  have hstream := hkept.stream
  rw [← hitems] at hstream
  obtain ⟨hops, hrecords⟩ := t.draft_ensureReturn hstream
  have hbefore : before.EnteredByThrow l := hkept.intact.enteredByThrow (by rw [hkept.draft, hops])
    (by rw [hkept.records, hrecords]) (ht.enteredIn s hs l hl)
  rcases Builder.adjust_cases hkept.intact hkept.adjust with ⟨-, rfl⟩ | ⟨-, hnull, hreplaced⟩
  · exact hplaced.enteredByThrow harranged hlinked hbefore
  · obtain ⟨null, hdropped⟩ := Builder.NullDropped.of_replaced hkept.intact hkept.pending hkept.sound hnull hreplaced
    exact hplaced.enteredByThrow harranged hlinked (hdropped.enteredByThrow hbefore)

/-- A guarded range at the end of another one, whose first handler returns in front of the second; and
behind it a range that guards nothing. -/
def sheltered : Block := (new .module ⟨"Main", .standard, .standard⟩).extend
  [.mk (.guarded
    [.mk (.guarded [.mk (.raw [.op .aconstNull, .op .pop]) []] [.mk (some "java/lang/Exception") none []]) []]
    [.mk none none [.mk (.raw [.op .aconstNull, .op .areturn]) []], .mk none none []]) [],
    .mk (.guarded [] [.mk none none []]) [],
    .mk (.raw [.op .aconstNull, .op .areturn]) []]

/-- The tree of its stream. -/
def shelteredTree : Body :=
  .guarded (.guarded (.op .aconstNull (.op .pop .nil)) (some "java/lang/Exception") (.op .pop .nil) .done .nil)
    none (.op .pop (.op .aconstNull (.op .areturn .nil))) (.handler none (.op .pop .nil) .done)
    (.guarded .nil none (.op .pop .nil) .done (.op .aconstNull (.op .areturn .nil)))

theorem handlers_enteredByThrow_sheltered : ∃ c, sheltered.Plain ∧ sheltered.Jumpless ∧
    sheltered.compile.1 = .ok (.code c) ∧ shelteredTree.items = sheltered.stream.1 ∧
    Site.entrances (shelteredTree.sites 0) = [5, 8, 3, 10] ∧
    ∀ s ∈ shelteredTree.sites 0, ∀ l ∈ s.landings, c.EnteredByThrow l := by
  obtain ⟨c, h⟩ := compile_of_code? (b := sheltered) (by decide +kernel)
  obtain ⟨-, hall⟩ := handlers_enteredByThrow (b := sheltered) rfl rfl h
  exact ⟨c, rfl, rfl, h, rfl, by decide, hall _ rfl⟩

end Block

end BlockAssembler
