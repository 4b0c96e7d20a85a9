import BlockAssembler.Proofs.Body.Assembled
import BlockAssembler.Proofs.Execution

/-! Finding the linked code of a stream in its code object. -/

namespace BlockAssembler

/-- The piece stands at the index `n` of the code. -/
def CodeAt (code : List Instr) (n : Nat) (piece : List Instr) : Prop :=
  ∀ i instr, piece[i]? = some instr → code[n + i]? = some instr

namespace CodeAt

variable {code piece piece' : List Instr} {n : Nat} {instr : Instr}

theorem head (h : CodeAt code n (instr :: piece)) : code[n]? = some instr := h 0 instr rfl

theorem tail (h : CodeAt code n (instr :: piece)) : CodeAt code (n + 1) piece := by
  intro i x hi
  have := h (i + 1) x (by simpa using hi)
  rwa [Nat.add_right_comm, Nat.add_assoc]

theorem left (h : CodeAt code n (piece ++ piece')) : CodeAt code n piece := by
  intro i x hi
  refine h i x ?_
  rwa [List.getElem?_append_left (List.getElem?_eq_some_iff.1 hi).1]

theorem right (h : CodeAt code n (piece ++ piece')) : CodeAt code (n + piece.length) piece' := by
  intro i x hi
  have := h (piece.length + i) x (by rwa [List.getElem?_append_right (by omega), Nat.add_sub_cancel_left])
  rwa [Nat.add_assoc]

end CodeAt

theorem codeAt_linked (t : Body) : CodeAt t.linked 0 (t.code 0) := by
  intro i instr hi
  rw [Nat.zero_add, Body.linked, List.getElem?_append_left (List.getElem?_eq_some_iff.1 hi).1, hi]

namespace Body.Assembled

variable {t : Body} {c : Code}

/-- At the offset of an index stands the instruction with that index. -/
theorem at?_offset (h : t.Assembled c) {i : Nat} {instr : Instr} (hi : t.linked[i]? = some instr) :
    c.at? (offset t.opcodes i) = some (instr.placed t.opcodes i) := by
  obtain ⟨hlt, rfl⟩ := List.getElem?_eq_some_iff.1 hi
  have hlength : t.opcodes.length = t.linked.length := by simp [opcodes]
  have hfind : (c.instructions.toList.find? fun p => decide ((p.offset : Int) = offset t.opcodes i)) =
      some ⟨offset t.opcodes i, t.linked[i].placed t.opcodes i⟩ := by
    rw [h.instructions, Body.instructions, List.find?_eq_some_iff_getElem]
    refine ⟨by simp, i, by simpa using hlt, by simp, fun j hj => ?_⟩
    have hne : offset t.opcodes j < offset t.opcodes i := offset_lt hj (by omega)
    simp
    omega
  rw [Code.at?, ← Array.find?_toList, hfind]
  rfl

end Body.Assembled

end BlockAssembler
