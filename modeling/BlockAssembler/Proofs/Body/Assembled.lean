import BlockAssembler.Proofs.Body.Links
import BlockAssembler.Proofs.Placement

/-! The code object of a balanced stream: its linked code laid out, every jump with the
distance to the instruction it lands on, and the entries of its guarded ranges. -/

namespace BlockAssembler

/-- What a stream is assembled to: its items, a return where one is needed, and the
code object. -/
def Builder.assembleItems (items : List Item) (maxLocals : Nat) : Assembly Code := do
  emitAll items
  ensureReturn
  assemble maxLocals

/-- What a new builder assembles a stream to. -/
def assembled (items : List Item) (maxLocals : Nat) : Except AssemblyError Code :=
  match (Builder.assembleItems items maxLocals).run Builder.empty with
  | .ok code _ => .ok code
  | .error e _ => .error e

/-- What a new builder assembles a stream to if no return is added. -/
def assembledAsIs (items : List Item) (maxLocals : Nat) : Except AssemblyError Code :=
  match (do Builder.emitAll items; Builder.assemble maxLocals : Assembly Code).run Builder.empty with
  | .ok code _ => .ok code
  | .error e _ => .error e

/-- The instruction with its distance, at the index `i` of a sequence. -/
def Instr.placed (ops : List Opcode) (i : Nat) : Instr → Opcode
  | plain opcode => opcode
  | goto target => .goto ((offset ops target : Int) - offset ops i)
  | branch test target => .branch test ((offset ops target : Int) - offset ops i)

/-- The return that is added at the end of a stream. -/
def Body.ending (t : Body) : List Instr :=
  if t.exit true || !((t.code 0).getLast?.any fun instr => instr.opcode.isReturn) then
    [.plain .voidReturn]
  else []

/-- The linked code of a stream with its return. -/
def Body.linked (t : Body) : List Instr := t.code 0 ++ t.ending

def Body.opcodes (t : Body) : List Opcode := t.linked.map Instr.opcode

/-- The instructions of a stream where they come to lie. -/
def Body.instructions (t : Body) : List PlacedOpcode :=
  t.linked.mapIdx fun i instr => ⟨offset t.opcodes i, instr.placed t.opcodes i⟩

structure Body.Assembled (t : Body) (c : Code) : Prop where
  instructions : c.instructions.toList = t.instructions
  exceptions : c.exceptions.toList = (t.ranges 0).flatMap (GuardedRange.entries t.opcodes)
  targets : ∀ (i : Nat) (instr : Instr) (target : Nat), t.linked[i]? = some instr →
    instr.target? = some target → target < t.linked.length

theorem Body.jumps_linked (t : Body) : jumps 0 t.linked = jumps 0 (t.code 0) := by
  rw [linked, jumps_append]
  unfold ending
  split <;> simp [jumps, Instr.target?]

theorem Instr.placed_eq (ops : List Opcode) (i : Nat) (instr : Instr) :
    instr.placed ops i = match instr.target? with
      | some target => instr.opcode.withDistance ((offset ops target : Int) - offset ops i)
      | none => instr.opcode := by
  cases instr <;> rfl

/-- A stream is assembled from an intact builder whose draft is that of the stream with its
return, and in which nothing waits. -/
theorem Builder.of_assembled {items : List Item} {maxLocals : Nat} {c : Code}
    (h : assembled items maxLocals = .ok c) :
    ∃ d b b', Draft.emitAll items .empty = .ok d ∧ b.Intact ∧ b.draft = d.ensureReturn ∧
      b.records = d.ensureReturn.records ∧ (assemble maxLocals).run b = .ok c b' := by
  rw [assembled, assembleItems] at h
  split at h
  · next code b' hcode =>
    obtain rfl := Except.ok.inj h
    obtain ⟨_, b, hrun, hcode⟩ := bind_eq_ok hcode
    obtain ⟨hb, hemit⟩ := emitAll_empty_eq_ok hrun
    obtain ⟨b₁, hrun', hb₁, hdraft, hp⟩ := ensureReturn_settles hb
    rw [bind_ok hrun'] at hcode
    exact ⟨_, b₁, b', hemit, hb₁, hdraft, by rw [← draft_of_settled hp, hdraft], hcode⟩
  · cases h

theorem Builder.of_assembledAsIs {items : List Item} {maxLocals : Nat} {c : Code}
    (h : assembledAsIs items maxLocals = .ok c) :
    ∃ b b', Draft.emitAll items .empty = .ok b.draft ∧ b.Intact ∧ b.draft.records = b.records ∧
      (assemble maxLocals).run b = .ok c b' := by
  rw [assembledAsIs] at h
  split at h
  · next code b' hcode =>
    obtain rfl := Except.ok.inj h
    obtain ⟨_, b, hrun, hcode⟩ := bind_eq_ok hcode
    obtain ⟨hb, hemit⟩ := emitAll_empty_eq_ok hrun
    exact ⟨b, b', hemit, hb, draft_of_settled (assemble_eq_ok hb.arranged hcode).pending, hcode⟩
  · cases h

/-- The draft of a stream. -/
theorem Body.draft_eq (t : Body) {d : Draft} (h : Draft.emitAll t.items .empty = .ok d) :
    d.opcodes = (t.code 0).map Instr.opcode ∧ d.live = t.exit true ∧ d.records = ⟨t.ranges 0, t.chains 0⟩ := by
  obtain ⟨d', hrun, hat, hadds⟩ := Draft.emits_body t (Draft.at_self .empty)
  obtain rfl := Except.ok.inj (h.symm.trans hrun)
  have hranges : d.records.ranges = t.ranges 0 := hadds.ranges
  have hchains : d.records.chains = t.chains 0 := hadds.chains
  exact ⟨hadds.opcodes, hat.live, by rw [← hranges, ← hchains]⟩

/-- The draft of a stream with its return. -/
theorem Body.draft_ensureReturn (t : Body) {d : Draft} (h : Draft.emitAll t.items .empty = .ok d) :
    d.ensureReturn.opcodes = t.opcodes ∧ d.ensureReturn.records = ⟨t.ranges 0, t.chains 0⟩ := by
  obtain ⟨hops, hexit, hrecords⟩ := t.draft_eq h
  have hlast : d.opcodes.getLast?.any Opcode.isReturn
      = (t.code 0).getLast?.any fun instr => instr.opcode.isReturn := by
    rw [hops, List.getLast?_map]
    cases (t.code 0).getLast? <;> rfl
  refine ⟨?_, ?_⟩
  · rw [opcodes, linked, List.map_append, Draft.ensureReturn, hlast, hexit, ending]
    split
    · rw [Draft.opcodes_append, hops]
      rfl
    · rw [hops]
      simp
  · unfold Draft.ensureReturn
    split
    · exact hrecords
    · exact hrecords

/-! ### Linked code -/

section
variable {code : List Instr} {b : Builder}

/-- Where an index is jumped from, the jump is the instruction there. -/
theorem target_of_mem_jumps {i target : Nat} (h : (⟨some i, some target⟩ : Link) ∈ jumps 0 code) :
    ∃ instr, code[i]? = some instr ∧ instr.target? = some target := by
  obtain ⟨j, instr, target', hj, htarget, heq⟩ := mem_jumps.1 h
  obtain ⟨rfl, rfl⟩ : i = j ∧ target = target' := by simpa using heq
  exact ⟨instr, hj, htarget⟩

theorem mem_jumps_of_target {i target : Nat} {instr : Instr} (hi : code[i]? = some instr)
    (htarget : instr.target? = some target) : (⟨some i, some target⟩ : Link) ∈ jumps 0 code :=
  mem_jumps.2 ⟨i, instr, target, hi, htarget, by simp⟩

/-- What a code object holds that linked code and the records of its ranges are turned into. -/
structure Laid (code : List Instr) (ranges : List GuardedRange) (c : Code) : Prop where
  instructions : c.instructions.toList = code.mapIdx fun i instr =>
    ⟨offset (code.map Instr.opcode) i, instr.placed (code.map Instr.opcode) i⟩
  exceptions : c.exceptions.toList = ranges.flatMap (GuardedRange.entries (code.map Instr.opcode))
  targets : ∀ (i : Nat) (instr : Instr) (target : Nat), code[i]? = some instr →
    instr.target? = some target → target < code.length
  handlers : ∀ g ∈ ranges, offset (code.map Instr.opcode) (g.start.getD 0) <
    offset (code.map Instr.opcode) (g.skip.getD 0) → ∀ k ∈ g.handlers, ∃ i < code.length, k.start = some i

/-- The instructions are the linked code with the distances. -/
theorem Builder.placed_of_space (hb : b.Intact) (hops : b.draft.opcodes = code.map Instr.opcode)
    (hlinks : ∀ link, link ∈ b.links ↔ link ∈ jumps 0 code) {ops : Array Opcode}
    (hspace : b.space b.layout b.links (b.arena.map Cell.opcode) = .ok ops) (i : Nat) :
    ops[i]? = code[i]?.map fun instr => instr.placed (code.map Instr.opcode) i := by
  have hopcode : (b.arena.map Cell.opcode)[i]? = code[i]?.map Instr.opcode := by
    rw [Array.getElem?_map, ← List.getElem?_map, ← hops, ← opcode?_eq]
    rfl
  rcases space_cases hspace i with ⟨hnone, heq⟩ | ⟨link, hlink, d, hd, heq⟩
  · rw [heq, hopcode]
    refine Option.map_congr fun instr hi => ?_
    cases htarget : instr.target? with
    | none => rw [Instr.placed_eq, htarget]
    | some target =>
      have hlink := (hlinks _).2 (mem_jumps_of_target hi htarget)
      obtain ⟨⟨j, d⟩, hd⟩ := distance_of_space hspace hlink
      obtain ⟨t, hlink', -⟩ := distance_eq_ok hb.arranged hd
      cases hlink'
      exact absurd hd (hnone _ hlink d)
  · obtain ⟨t, rfl, hmem, htmem, rfl⟩ := distance_eq_ok hb.arranged hd
    obtain ⟨instr, hi, htarget⟩ := target_of_mem_jumps ((hlinks _).1 hlink)
    rw [heq, hopcode, hi, offsetOf_eq hb (hb.mem_code.1 hmem), offsetOf_eq hb (hb.mem_code.1 htmem), hops]
    simp [Instr.placed_eq, htarget]

theorem Builder.laid_of_assemble (hb : b.Intact) (hops : b.draft.opcodes = code.map Instr.opcode)
    (hlinks : ∀ link, link ∈ b.links ↔ link ∈ jumps 0 code) {maxLocals : Nat} {c : Code} {b' : Builder}
    (h : (assemble maxLocals).run b = .ok c b') : Laid code b.ranges.toList c := by
  have hplaced := assemble_eq_ok hb.arranged h
  obtain ⟨hexceptions, henters⟩ := exceptionTable_eq_ok hb.arranged hplaced.exceptions
  obtain ⟨ops, hspace, hinstructions⟩ := hplaced.instructions
  have hlength : b.arena.size = code.length := by
    rw [← size_draft, ← Draft.length_opcodes, hops, List.length_map]
  have hlt {h : Nat} (hh : h ∈ b.code) : h < code.length := by rwa [← hlength, ← hb.mem_code]
  refine ⟨?_, ?_, fun i instr target hi htarget => ?_, fun g hg hguards k hk => ?_⟩
  · apply List.ext_getElem?
    intro i
    rw [Array.getElem?_toList, hinstructions, hb.getElem?_code, List.getElem?_mapIdx, opcodes_eq hb, hops]
    by_cases hi : i < b.arena.size
    · rw [if_pos hi, Option.bind_some, placed_of_space hb hops hlinks hspace, Option.map_map]
      rfl
    · rw [if_neg hi, List.getElem?_eq_none (by omega)]
      rfl
  · rw [hexceptions, ← hops]
    exact List.flatMap_congr fun g hg => entriesAt_eq hb (henters g (by simpa using hg))
  · obtain ⟨⟨j, d⟩, hd⟩ := distance_of_space hspace ((hlinks _).2 (mem_jumps_of_target hi htarget))
    obtain ⟨t, hlink, -, ht, -⟩ := distance_eq_ok hb.arranged hd
    cases hlink
    exact hlt ht
  · have hg' := henters g (by simpa using hg)
    have hat {field : Option Handle} (hfield : ∃ h ∈ b.code, field = some h) :
        b.offsetOf (field.getD 0) = offset (code.map Instr.opcode) (field.getD 0) := by
      obtain ⟨h, hh, rfl⟩ := hfield
      rw [← hops]
      exact offsetOf_eq hb (hb.mem_code.1 hh)
    rw [← hat hg'.start, ← hat hg'.stop] at hguards
    obtain ⟨h, hh, hstart⟩ := hg'.handlers hguards k hk
    exact ⟨h, hlt hh, hstart⟩

/-- The links of the records are the jumps of the code. -/
theorem Builder.mem_links_iff {t : Body} (hrecords : b.records = ⟨t.ranges 0, t.chains 0⟩) (link : Link) :
    link ∈ b.links ↔ link ∈ jumps 0 (t.code 0) := by
  have hranges : b.ranges.toList = t.ranges 0 := congrArg Records.ranges hrecords
  have hchains : b.chains.toList = t.chains 0 := congrArg Records.chains hrecords
  rw [← t.listed_iff, links, hranges, hchains, List.mem_append]
  rfl

end

theorem Body.laid_assembled (t : Body) {maxLocals : Nat} {c : Code}
    (h : assembled t.items maxLocals = .ok c) : Laid t.linked (t.ranges 0) c := by
  obtain ⟨d, b, b', hemit, hb, hdraft, hrecords, hcode⟩ := Builder.of_assembled h
  obtain ⟨hops, hd⟩ := t.draft_ensureReturn hemit
  rw [← hdraft] at hops
  rw [hd] at hrecords
  have hlinks : ∀ link, link ∈ b.links ↔ link ∈ jumps 0 t.linked := by
    rw [t.jumps_linked]
    exact Builder.mem_links_iff hrecords
  have hranges : b.ranges.toList = t.ranges 0 := congrArg Records.ranges hrecords
  exact hranges ▸ Builder.laid_of_assemble hb hops hlinks hcode

theorem Body.laid_assembledAsIs (t : Body) {maxLocals : Nat} {c : Code}
    (h : assembledAsIs t.items maxLocals = .ok c) : Laid (t.code 0) (t.ranges 0) c := by
  obtain ⟨b, b', hemit, hb, hrecords, hcode⟩ := Builder.of_assembledAsIs h
  obtain ⟨hops, -, hd⟩ := t.draft_eq hemit
  rw [hrecords] at hd
  have hranges : b.ranges.toList = t.ranges 0 := congrArg Records.ranges hd
  exact hranges ▸ Builder.laid_of_assemble hb hops (Builder.mem_links_iff hd) hcode

theorem Body.assembled_eq_ok (t : Body) {maxLocals : Nat} {c : Code}
    (h : assembled t.items maxLocals = .ok c) : t.Assembled c := by
  have hlaid := t.laid_assembled h
  exact ⟨hlaid.instructions, hlaid.exceptions, hlaid.targets⟩

end BlockAssembler
