import BlockAssembler.Proofs.Block.ControlFlow
import BlockAssembler.Proofs.Block.Rejection
import BlockAssembler.Proofs.Body.Handlers
import BlockAssembler.Proofs.Body.Standing

/-! A balanced stream inside the stream of a block. Its instructions come to lie in the code object as
they are, each jump with the distance to the instruction of the tree it lands on, wherever the stream
stands; the adjustment of the end does not reach it unless it ends in what is adjusted. -/

namespace BlockAssembler

namespace Builder

/-- Every jump is listed with one target. -/
def Single (b : Builder) : Prop :=
  ∀ h t t', (⟨some h, some t⟩ : Link) ∈ b.links → (⟨some h, some t'⟩ : Link) ∈ b.links → t = t'

/-- What the adjustment of the end of a body leaves of the first `limit` instructions: they stay, and what they
lead to is found at the index it had. -/
structure Carried (limit : Nat) (b b' : Builder) : Prop where
  code : ∀ i < limit, b'.code[i]? = some i ∧ b'.opcode? i = b.opcode? i
  links : ∀ i t : Nat, t ≤ limit → (⟨some i, some t⟩ : Link) ∈ b.links →
    ∃ t', (⟨some i, some t'⟩ : Link) ∈ b'.links ∧ b'.position t' = t
  single : b.Single → b'.Single
  rest : ∀ i op, limit ≤ i → b.opcode? i = some op → op = .aconstNull ∨ op = .areturn

variable {b b' : Builder}

theorem single_of_body {t : Body} (hrecords : b.records = ⟨t.ranges 0, t.chains 0⟩) : b.Single := by
  intro h x y hx hy
  obtain ⟨instr, hinstr, htarget⟩ := target_of_mem_jumps ((mem_links_iff hrecords _).1 hx)
  obtain ⟨instr', hinstr', htarget'⟩ := target_of_mem_jumps ((mem_links_iff hrecords _).1 hy)
  obtain rfl := Option.some.inj (hinstr.symm.trans hinstr')
  exact Option.some.inj (htarget.symm.trans htarget')

theorem carried_refl (hb : b.Intact) : Carried b.arena.size b b where
  code i hi := ⟨by rw [hb.getElem?_code, if_pos hi], rfl⟩
  links i t ht hlink := ⟨t, hlink, hb.position_eq (hb.lt_of_target hlink rfl)⟩
  single h := h
  rest i op hi hop := by
    rw [opcode?, Array.getElem?_eq_none hi] at hop
    cases hop

theorem NullDropped.carried {null : Nat} (h : NullDropped b b' null) : Carried null b b' where
  code i hi := by
    refine ⟨?_, h.replaced.opcode?_of_lt (by rw [h.size]; omega)⟩
    rw [h.getElem?_code, if_pos (Nat.le_of_lt hi), moved_of_lt hi]
  links i t ht hlink := by
    refine ⟨moved null t, ?_, by rw [h.position_moved, Nat.min_eq_left ht]⟩
    rw [h.links_eq]
    refine List.mem_map.2 ⟨_, hlink, ?_⟩
    rw [Link.renumber, Option.map_some, Option.map_some, moved_of_lt (h.jumps _ hlink i rfl)]
  single hsingle := by
    have hold {x t : Handle} (hlink : (⟨some x, some t⟩ : Link) ∈ b'.links) :
        ∃ t₀, (⟨some x, some t₀⟩ : Link) ∈ b.links ∧ moved null t₀ = t := by
      rw [h.links_eq] at hlink
      obtain ⟨⟨jump, target⟩, hmem, heq⟩ := List.mem_map.1 hlink
      obtain ⟨hjump, htarget⟩ := Link.mk.inj heq
      obtain ⟨x₀, rfl, rfl⟩ := Option.map_eq_some_iff.1 hjump
      obtain ⟨t₀, rfl, rfl⟩ := Option.map_eq_some_iff.1 htarget
      refine ⟨t₀, ?_, rfl⟩
      rwa [moved_of_lt (h.jumps _ hmem x₀ rfl)]
    intro x t t' hlink hlink'
    obtain ⟨t₀, hmem, rfl⟩ := hold hlink
    obtain ⟨t₀', hmem', rfl⟩ := hold hlink'
    rw [hsingle x t₀ t₀' hmem hmem']
  rest i op hi hop := by
    have hlt : i < b.arena.size := by
      obtain ⟨cell, hcell, -⟩ := Option.map_eq_some_iff.1 hop
      exact (Array.getElem?_eq_some_iff.1 hcell).1
    rcases Nat.eq_or_lt_of_le hi with rfl | hgt
    · exact .inl (Option.some.inj (hop.symm.trans h.pushed))
    · obtain rfl : i = null + 1 := by rw [h.size] at hlt; omega
      exact .inr (Option.some.inj (hop.symm.trans h.returned))

/-! ### The code object -/

namespace Placed

variable {maxLocals : Nat} {c : Code}

theorem offset_opcodes (hplaced : b.Placed maxLocals c) (hb : b.Arranged) (i : Nat) :
    offset c.opcodes i = offset b.opcodes.toList i := by
  have hsizes (ops : List Opcode) : offset (ops.map (Opcode.withDistance 0)) i = offset ops i := by
    rw [offset, offset, ← List.map_take, List.map_map]
    simp [Function.comp_def, Opcode.size_withDistance]
  rw [← hsizes, hplaced.map_withDistance hb, hsizes]

/-- A jump with one target leads to where the target is. -/
theorem opcode_of_link (hplaced : b.Placed maxLocals c) (hb : b.Arranged) (hsingle : b.Single) {i : Nat} {h t : Handle}
    {op : Opcode} (hi : b.code[i]? = some h) (hop : b.opcode? h = some op) (hlink : (⟨some h, some t⟩ : Link) ∈ b.links) :
    c.opcodes[i]? = some (op.withDistance ((offset c.opcodes (b.position t) : Int) - offset c.opcodes i)) ∧
      ∃ target, c.opcodes[b.position t]? = some target := by
  obtain ⟨op', placed, hop', hp, hcases⟩ := hplaced.getElem?_cases hb hi
  obtain rfl := Option.some.inj (hop.symm.trans hop')
  rcases hcases with ⟨hfree, -⟩ | ⟨t', ht', hlink', -, rfl⟩
  · exact absurd rfl (hfree _ hlink)
  · obtain rfl := hsingle h t t' hlink hlink'
    obtain ⟨_, target, -, hq, -⟩ := hplaced.getElem?_cases hb (Arranged.getElem?_position ht')
    refine ⟨?_, target, by rw [Code.getElem?_opcodes, hq]; rfl⟩
    rw [Code.getElem?_opcodes, hp, hplaced.offset_opcodes hb, hplaced.offset_opcodes hb, offsetOf, offsetOf,
      hb.position_eq hi]
    rfl

/-- What is no jump stays as it is. -/
theorem opcode_of_not_isJump (hplaced : b.Placed maxLocals c) (hb : b.Arranged) {i : Nat} {h : Handle}
    {op : Opcode} (hi : b.code[i]? = some h) (hop : b.opcode? h = some op) (hjump : op.isJump = false) :
    c.opcodes[i]? = some op := by
  obtain ⟨op', placed, hop', hp, hcases⟩ := hplaced.getElem?_cases hb hi
  obtain rfl := Option.some.inj (hop.symm.trans hop')
  rw [Code.getElem?_opcodes, hp]
  rcases hcases with ⟨-, rfl⟩ | ⟨_, -, -, -, rfl⟩
  · rfl
  · rw [Option.map_some, Opcode.withDistance_of_not_isJump hjump]

end Placed

end Builder

namespace Block.Kept

variable {b : Block} {d : Draft} {before after : Builder} {names : Nat} {c : Code}

theorem single (h : Kept b d before after) (hplaced : after.Placed names c) : before.Single := by
  obtain ⟨t, hemit, -⟩ := h.exists_stream hplaced
  obtain ⟨-, hrecords⟩ := t.draft_ensureReturn hemit
  exact Builder.single_of_body (by rw [h.records, hrecords])

theorem exists_carried (h : Kept b d before after) : ∃ limit, Builder.Carried limit before after := by
  rcases Builder.adjust_cases h.intact h.adjust with ⟨-, rfl⟩ | ⟨-, hnull, hreplaced⟩
  · exact ⟨_, Builder.carried_refl h.intact⟩
  · obtain ⟨null, hdropped⟩ := Builder.NullDropped.of_replaced h.intact h.pending h.sound hnull hreplaced
    exact ⟨null, hdropped.carried⟩

/-- A balanced stream is found in the code object instruction by instruction, unless its end is what the
adjustment replaces. -/
theorem standing (h : Kept b d before after) (hplaced : after.Placed names c) {t : Body} (ht : t.Receiving)
    (hjump : t.Jumpless) {front back : Draft} (hfront : front.Sound) (hemit : Draft.emitAll t.items front = .ok back)
    (hbehind : Draft.Reaches back d) {last : Instr} (hlast : (t.code front.size).getLast? = some last)
    (hkept : last.opcode ≠ .aconstNull ∧ last.opcode ≠ .areturn) {i : Nat} {instr : Instr}
    (hi : (t.code front.size)[i]? = some instr) :
    c.opcodes[front.size + i]? = some (instr.placed c.opcodes (front.size + i)) ∧
      ∀ target, instr.target? = some target → ∃ op, c.opcodes[target]? = some op := by
  obtain ⟨limit, hcarried⟩ := h.exists_carried
  have hops (j : Nat) (x : Instr) (hx : (t.code front.size)[j]? = some x) :
      before.opcode? (front.size + j) = some x.opcode := by
    obtain ⟨back', hrun, -, hadds⟩ := Draft.emits_body t (Draft.at_self front)
    obtain rfl : back' = back := Except.ok.inj (hrun.symm.trans hemit)
    obtain ⟨more, hmore⟩ := Draft.prefix_opcodes (hbehind.prefix_lines.trans d.prefix_ensureReturn)
    rw [Builder.opcode?_eq, h.draft, ← hmore, hadds.opcodes, List.append_assoc,
      List.getElem?_append_right (by rw [Draft.length_opcodes]; omega), Draft.length_opcodes, Nat.add_sub_cancel_left,
      List.getElem?_append_left, List.getElem?_map, hx, Option.map_some]
    rw [List.length_map]
    exact (List.getElem?_eq_some_iff.1 hx).1
  have hlimit : front.size + t.size ≤ limit := by
    rw [List.getLast?_eq_getElem?, Body.length_code] at hlast
    have hpos : t.size - 1 < t.size := by
      rw [← t.length_code front.size]
      have := (List.getElem?_eq_some_iff.1 hlast).1
      omega
    by_contra hgt
    rcases hcarried.rest _ _ (by omega) (hops _ last hlast) with hnull | hreturn
    · exact hkept.1 hnull
    · exact hkept.2 hreturn
  have hlt : i < t.size := by
    rw [← t.length_code front.size]
    exact (List.getElem?_eq_some_iff.1 hi).1
  obtain ⟨hcode, hopcode⟩ := hcarried.code (front.size + i) (by omega)
  rw [hops i instr hi] at hopcode
  rw [Instr.placed_eq]
  cases htarget : instr.target? with
  | none =>
    refine ⟨?_, by simp⟩
    exact hplaced.opcode_of_not_isJump h.arranged hcode hopcode
      (hjump.isJump front.size instr (List.mem_of_getElem? hi) htarget)
  | some target =>
    have hle : target ≤ front.size + t.size := by
      rcases (ht.sealed front.size true).targets instr (List.mem_of_getElem? hi) target htarget with hlt | ⟨rfl, -⟩
      · exact Nat.le_of_lt hlt
      · exact Nat.le_refl _
    have hlink : (⟨some (front.size + i), some target⟩ : Link) ∈ before.links := by
      rw [Builder.links_eq, h.records, Draft.records_ensureReturn]
      exact Draft.links_of_body hfront hemit hbehind (mem_jumps.2 ⟨i, instr, target, hi, htarget, rfl⟩)
    obtain ⟨t', hlink', hposition⟩ := hcarried.links _ _ (by omega) hlink
    obtain ⟨hplacedOp, hexists⟩ := hplaced.opcode_of_link h.arranged (hcarried.single (h.single hplaced)) hcode hopcode
      hlink'
    rw [hposition] at hplacedOp hexists
    refine ⟨hplacedOp, fun x hx => ?_⟩
    obtain rfl := Option.some.inj hx
    exact hexists

end Block.Kept

end BlockAssembler
