import BlockAssembler.Proofs.ClosedFlow
import BlockAssembler.Proofs.Placement

/-! Instructions by their offsets. In a contiguous code object the offset of an instruction is the
sum of the sizes before it, so offsets grow strictly, and the bisection that looks for an offset
finds the one instruction that has it. What is assembled from a builder is contiguous. -/

namespace BlockAssembler

namespace Code

variable {c : Code} {i j : Nat} {x y : PlacedOpcode}

theorem getElem?_opcodes (c : Code) (i : Nat) : c.opcodes[i]? = c.instructions[i]?.map PlacedOpcode.opcode := by
  rw [opcodes, List.getElem?_map, Array.getElem?_toList]

namespace Contiguous

theorem offset_eq (hc : c.Contiguous) (hx : c.instructions[i]? = some x) : x.offset = offset c.opcodes i := by
  induction i generalizing x with
  | zero => rw [hc.first x hx, offset_zero]
  | succ i ih =>
    have hlt := (Array.getElem?_eq_some_iff.1 hx).1
    have hy : c.instructions[i]? = some c.instructions[i] := Array.getElem?_eq_getElem (by omega)
    rw [hc.next i _ x hy hx, ih hy, offset_succ, getElem?_opcodes, hy]
    rfl

theorem offset_lt (hc : c.Contiguous) (hij : i < j) (hx : c.instructions[i]? = some x)
    (hy : c.instructions[j]? = some y) : x.offset < y.offset := by
  have hlt := (Array.getElem?_eq_some_iff.1 hx).1
  rw [hc.offset_eq hx, hc.offset_eq hy]
  exact BlockAssembler.offset_lt hij (by simpa [opcodes] using hlt)

/-- The code ends where all sizes end. -/
theorem length_eq (hc : c.Contiguous) : c.length = (c.opcodes.map Opcode.size).sum := by
  unfold length
  split
  · next last hlast =>
    rw [Array.back?_eq_getElem?] at hlast
    have hlt := (Array.getElem?_eq_some_iff.1 hlast).1
    have hall : offset c.opcodes (c.instructions.size - 1 + 1) = (c.opcodes.map Opcode.size).sum := by
      rw [Nat.sub_add_cancel (by omega), offset, List.take_of_length_le (by simp [opcodes])]
    rw [← hall, offset_succ, getElem?_opcodes, hlast, hc.offset_eq hlast]
    rfl
  · next hnone =>
    have hempty : c.instructions = #[] := by simpa using hnone
    simp [opcodes, hempty]

/-- Every byte is one of an instruction. -/
theorem exists_covering (hc : c.Contiguous) {k : Nat} (hk : k < c.length) :
    ∃ (i : Nat) (x : PlacedOpcode), c.instructions[i]? = some x ∧ x.offset ≤ k ∧ k < x.offset + x.opcode.size := by
  have hbefore (n : Nat) (hn : k < offset c.opcodes n) :
      ∃ (i : Nat) (x : PlacedOpcode), c.instructions[i]? = some x ∧ x.offset ≤ k ∧ k < x.offset + x.opcode.size := by
    induction n with
    | zero => simp [offset_zero] at hn
    | succ n ih =>
      by_cases hlt : k < offset c.opcodes n
      · exact ih hlt
      · rw [offset_succ, getElem?_opcodes] at hn
        cases hx : c.instructions[n]? with
        | none =>
          rw [hx] at hn
          exact absurd hn hlt
        | some x =>
          rw [hx] at hn
          rw [← hc.offset_eq hx] at hn hlt
          exact ⟨n, x, hx, Nat.le_of_not_lt hlt, hn⟩
  refine hbefore c.opcodes.length ?_
  rwa [offset, List.take_length, ← hc.length_eq]

end Contiguous

/-! ### Bisection -/

/-- The half that is kept is the one with the instruction that is looked for. -/
theorem Contiguous.bisect_eq (hc : c.Contiguous) (hx : c.instructions[i]? = some x) {base size : Nat}
    (hsize : base + size ≤ c.instructions.size) (hle : base ≤ i) (hlt : i < base + size) :
    bisect c.instructions x.offset base size = i := by
  induction base, size using bisect.induct c.instructions x.offset with
  | case1 base size hmore half middle kept ih =>
    have hhalf : half = size / 2 := rfl
    have hmiddle : middle = base + half := rfl
    have hy : c.instructions[middle]? = some c.instructions[middle] := Array.getElem?_eq_getElem (by omega)
    rw [bisect, dif_pos hmore]
    -- the offsets grow, so the comparison tells on which side of the middle the index lies
    by_cases hbefore : x.offset < c.instructions[middle].offset
    · have hi : i < middle := Nat.lt_of_not_le fun hge => by
        rcases Nat.eq_or_lt_of_le hge with rfl | hgt
        · obtain rfl := Option.some.inj (hx.symm.trans hy)
          exact Nat.lt_irrefl _ hbefore
        · exact Nat.lt_asymm hbefore (hc.offset_lt hgt hy hx)
      have hkept : kept = base := dif_pos (by simpa [hy] using hbefore)
      exact ih (by omega) (by omega) (by omega)
    · have hi : middle ≤ i := Nat.le_of_not_lt fun hgt => hbefore (hc.offset_lt hgt hx hy)
      have hkept : kept = middle := dif_neg (by simpa [hy] using hbefore)
      exact ih (by omega) (by omega) (by omega)
  | case2 base size hmore =>
    rw [bisect, dif_neg hmore]
    omega

/-- An offset has a position if an instruction starts there, which is the one at that position. -/
theorem Contiguous.position?_eq_some (hc : c.Contiguous) {o : Nat} :
    c.position? o = some i ↔ ∃ x, c.instructions[i]? = some x ∧ x.offset = o := by
  unfold position?
  dsimp only
  constructor
  · intro h
    split at h
    · next hfound =>
      obtain rfl := Option.some.inj h
      simpa [Option.any_eq_true] using hfound
    · cases h
  · rintro ⟨x, hx, rfl⟩
    have hlt := (Array.getElem?_eq_some_iff.1 hx).1
    rw [hc.bisect_eq hx (by omega) (Nat.zero_le i) (by omega), hx]
    simp

end Code

/-! ### What is assembled -/

namespace Builder.Placed

variable {b : Builder} {maxLocals i : Nat} {c : Code} {p : PlacedOpcode} {h : Handle} {ops : List Opcode}

/-- The instructions lie where the sizes in front of them end. -/
theorem offset_eq (hplaced : b.Placed maxLocals c) (hp : c.instructions[i]? = some p) :
    p.offset = offset b.opcodes.toList i ∧ ∃ h, b.code[i]? = some h := by
  obtain ⟨ops, -, hinstructions⟩ := hplaced.instructions
  rw [hinstructions] at hp
  obtain ⟨h, hh, hp⟩ := Option.bind_eq_some_iff.1 hp
  obtain ⟨op, -, rfl⟩ := Option.map_eq_some_iff.1 hp
  exact ⟨rfl, h, hh⟩

/-- An instruction of the code object is one of the sequence, perhaps with another distance. -/
theorem exists_opcode (hplaced : b.Placed maxLocals c) (hb : b.Arranged) (hp : c.instructions[i]? = some p) :
    ∃ h op, b.code[i]? = some h ∧ b.opcode? h = some op ∧
      ((∀ link ∈ b.links, link.jump ≠ some h) ∧ p.opcode = op ∨
        ∃ d, Opcode.fitsJump d ∧ p.opcode = op.withDistance d) := by
  obtain ⟨-, h, hh⟩ := hplaced.offset_eq hp
  obtain ⟨op, placed, hop, hp', hcases⟩ := hplaced.getElem?_cases hb hh
  obtain rfl := Option.some.inj (hp.symm.trans hp')
  rcases hcases with hfree | ⟨t, -, -, hfits, heq⟩
  · exact ⟨h, op, hh, hop, .inl hfree⟩
  · exact ⟨h, op, hh, hop, .inr ⟨_, hfits, heq⟩⟩

/-- The layout leaves no gaps, whatever the records name. -/
theorem gapless (hplaced : b.Placed maxLocals c) (hb : b.Arranged) : c.Contiguous where
  first p hp := by rw [(hplaced.offset_eq hp).1, offset_zero]
  next i p q hp hq := by
    obtain ⟨h, op, hh, hop, hplacedOp⟩ := hplaced.exists_opcode hb hp
    have hsize : p.opcode.size = op.size := by
      rcases hplacedOp with ⟨-, heq⟩ | ⟨d, -, heq⟩
      · rw [heq]
      · rw [heq, Opcode.size_withDistance]
    rw [(hplaced.offset_eq hq).1, (hplaced.offset_eq hp).1, offset_succ, hb.getElem?_opcodes, hh, Option.bind_some,
      hop, hsize]
    rfl

theorem size_instructions (hplaced : b.Placed maxLocals c) (hb : b.Arranged) : c.instructions.size = b.code.size := by
  refine Nat.le_antisymm ?_ ?_
  · refine Nat.le_of_not_lt fun hlt => ?_
    obtain ⟨-, h, hh⟩ := hplaced.offset_eq (Array.getElem?_eq_getElem hlt)
    exact Nat.lt_irrefl _ (Array.getElem?_eq_some_iff.1 hh).1
  · refine Nat.le_of_not_lt fun hlt => ?_
    obtain ⟨op, placed, hop, hp, -⟩ := hplaced.getElem?_cases hb (Array.getElem?_eq_getElem hlt)
    exact Nat.lt_irrefl _ (Array.getElem?_eq_some_iff.1 hp).1

/-- Apart from distances the instructions are those of the sequence. -/
theorem map_withDistance (hplaced : b.Placed maxLocals c) (hb : b.Arranged) :
    c.opcodes.map (Opcode.withDistance 0) = b.opcodes.toList.map (Opcode.withDistance 0) := by
  apply List.ext_getElem?
  intro i
  rw [List.getElem?_map, List.getElem?_map, hb.getElem?_opcodes, Code.getElem?_opcodes]
  cases hh : b.code[i]? with
  | none =>
    have hge : b.code.size ≤ i := Array.getElem?_eq_none_iff.1 hh
    rw [Array.getElem?_eq_none (by rwa [hplaced.size_instructions hb])]
    rfl
  | some h =>
    obtain ⟨op, placed, hop, hp, hcases⟩ := hplaced.getElem?_cases hb hh
    rw [hp, Option.bind_some, hop]
    rcases hcases with ⟨-, rfl⟩ | ⟨t, -, -, -, rfl⟩
    · rfl
    · simp [Opcode.withDistance_withDistance]

/-- As far as no jumps are concerned, the code object is what the sequence is. -/
theorem opcodes_eq_iff (hplaced : b.Placed maxLocals c) (hb : b.Arranged) (hops : ∀ op ∈ ops, op.isJump = false) :
    c.opcodes = ops ↔ b.opcodes.toList = ops := by
  rw [← Opcode.map_withDistance_eq_iff hops 0, hplaced.map_withDistance hb, Opcode.map_withDistance_eq_iff hops]

theorem suffix_opcodes_iff (hplaced : b.Placed maxLocals c) (hb : b.Arranged)
    (hops : ∀ op ∈ ops, op.isJump = false) : ops <:+ c.opcodes ↔ ops <:+ b.opcodes.toList := by
  rw [← Opcode.suffix_map_withDistance_iff hops 0, hplaced.map_withDistance hb,
    Opcode.suffix_map_withDistance_iff hops]

/-- The code takes as many bytes as the sequence. -/
theorem length_eq (hplaced : b.Placed maxLocals c) (hb : b.Arranged) :
    c.length = (b.opcodes.toList.map Opcode.size).sum := by
  have hsizes (ops : List Opcode) : (ops.map (Opcode.withDistance 0)).map Opcode.size = ops.map Opcode.size := by
    simp [Function.comp_def, Opcode.size_withDistance]
  rw [(hplaced.gapless hb).length_eq, ← hsizes, hplaced.map_withDistance hb, hsizes]

/-- There is an instruction where a handle of the sequence comes to lie. -/
theorem exists_offsetOf (hplaced : b.Placed maxLocals c) (hb : b.Arranged) (hh : h ∈ b.code) :
    ∃ p ∈ c.instructions, p.offset = b.offsetOf h := by
  obtain ⟨op, placed, hop, hp, -⟩ := hplaced.getElem?_cases hb (Arranged.getElem?_position hh)
  exact ⟨_, Array.mem_of_getElem? hp, rfl⟩

end Builder.Placed

end BlockAssembler
