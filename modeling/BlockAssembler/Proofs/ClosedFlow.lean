import BlockAssembler.Proofs.Depths
import Mathlib.Data.List.Chain
import Mathlib.Data.List.Perm.Subperm

/-! Code objects that control cannot leave. The first instruction lies at zero, each of the others
where the one before it ends, and the last one is a return; every jump and every handler leads
forward to an instruction. So an execution moves from instruction to instruction, each
behind the one before, and ends after as many steps as there are instructions at most, at a
return or a throw. -/

namespace BlockAssembler

namespace Code

/-- The instructions follow each other without gaps. -/
structure Contiguous (c : Code) : Prop where
  first : ∀ p, c.instructions[0]? = some p → p.offset = 0
  next : ∀ (i : Nat) p q, c.instructions[i]? = some p → c.instructions[i + 1]? = some q →
    q.offset = p.offset + p.opcode.size

/-- Every way out of an instruction leads to an instruction further on. A jump takes three bytes. -/
structure Closed (c : Code) : Prop where
  last : ∃ p, c.instructions.back? = some p ∧ p.opcode.isReturn = true
  jumps : ∀ p ∈ c.instructions, ∀ d, p.opcode.distance? = some d →
    3 ≤ d ∧ ∃ q ∈ c.instructions, (q.offset : Int) = p.offset + d
  handlers : ∀ e ∈ c.exceptions, (∃ q ∈ c.instructions, q.offset = e.handler) ∧
    ∀ pc : Int, e.Covers pc → pc < e.handler

/-- Control gets from an offset to another: to the next instruction, along a jump, or by a throw. -/
inductive Edge (c : Code) : Int → Int → Prop
  | next {pc pc' : Int} {op : Opcode} (hop : c.at? pc = some op) (passed : Bool)
      (hnext : op.successor pc passed = some pc') : Edge c pc pc'
  | throw {pc : Int} {op : Opcode} {e : ExceptionEntry} (hop : c.at? pc = some op) (he : e ∈ c.exceptions)
      (hcovers : e.Covers pc) : Edge c pc e.handler

/-- The offsets that an execution visits one after the other, from the first instruction on. -/
def Path (c : Code) (pcs : List Int) : Prop := pcs.head? = some 0 ∧ pcs.IsChain c.Edge

/-- An execution visits instructions only, each behind the one before, and it comes to an end at a
return or a throw only. -/
structure Orderly (c : Code) (pcs : List Int) : Prop where
  increasing : pcs.Pairwise (· < ·)
  inside : ∀ pc ∈ pcs, ∃ p ∈ c.instructions, (p.offset : Int) = pc
  bounded : pcs.length ≤ c.instructions.size
  ended : ∀ pc, pcs.getLast? = some pc → (∀ pc', ¬ c.Edge pc pc') → ∃ op, c.at? pc = some op ∧ op.isEnd = true

variable {c : Code} {pc pc' : Int} {pcs : List Int}

theorem Closed.lt_handler (hc : c.Closed) {e : ExceptionEntry} (he : e ∈ c.exceptions) (hcovers : e.Covers pc) :
    pc < e.handler := (hc.handlers e he).2 pc hcovers

/-- The instruction at an offset. -/
theorem exists_of_at? {op : Opcode} (hop : c.at? pc = some op) :
    ∃ p ∈ c.instructions, (p.offset : Int) = pc ∧ p.opcode = op := by
  rw [at?, ← Array.find?_toList] at hop
  obtain ⟨p, hfind, rfl⟩ := Option.map_eq_some_iff.1 hop
  have hoffset := List.find?_some hfind
  exact ⟨p, by simpa using List.mem_of_find?_eq_some hfind, by simpa using hoffset, rfl⟩

/-- There is an instruction at the offset of an instruction. -/
theorem exists_at? {p : PlacedOpcode} (hp : p ∈ c.instructions) : ∃ op, c.at? p.offset = some op := by
  cases hop : c.at? p.offset with
  | some op => exact ⟨op, rfl⟩
  | none =>
    rw [at?, Option.map_eq_none_iff, ← Array.find?_toList, List.find?_eq_none] at hop
    simpa using hop p (by simpa using hp)

/-! ### Edges -/

/-- The instruction at the end of the code is a return, so behind every other one there is another. -/
theorem Closed.exists_next (hc : c.Closed) (hgaps : c.Contiguous) {p : PlacedOpcode} (hp : p ∈ c.instructions)
    (hreturn : p.opcode.isReturn = false) : ∃ q ∈ c.instructions, (q.offset : Int) = p.offset + p.opcode.size := by
  obtain ⟨i, hi⟩ := Array.mem_iff_getElem?.1 hp
  obtain ⟨last, hlast, hlastReturn⟩ := hc.last
  have hlt := (Array.getElem?_eq_some_iff.1 hi).1
  have hnext : i + 1 < c.instructions.size := by
    refine Nat.lt_of_le_of_ne hlt fun heq => ?_
    rw [Array.back?_eq_getElem?, ← heq, Nat.add_sub_cancel, hi] at hlast
    obtain rfl := Option.some.inj hlast
    rw [hreturn] at hlastReturn
    cases hlastReturn
  refine ⟨c.instructions[i + 1], Array.getElem_mem hnext, ?_⟩
  rw [hgaps.next i p _ hi (Array.getElem?_eq_getElem hnext)]
  omega

/-- An edge leads to an instruction further on. -/
theorem Closed.forward (hc : c.Closed) (hgaps : c.Contiguous) (h : c.Edge pc pc') :
    pc < pc' ∧ ∃ q ∈ c.instructions, (q.offset : Int) = pc' := by
  cases h with
  | next hop passed hnext =>
    obtain ⟨p, hp, rfl, rfl⟩ := exists_of_at? hop
    rcases Opcode.eq_or_eq_of_successor hnext with rfl | ⟨d, hd, rfl⟩
    · have hpos := p.opcode.size_pos
      have hreturn : p.opcode.isReturn = false := by
        cases hop' : p.opcode with
        | voidReturn | areturn =>
          rw [hop'] at hnext
          cases hnext
        | _ => rfl
      exact ⟨by omega, hc.exists_next hgaps hp hreturn⟩
    · obtain ⟨hle, htarget⟩ := hc.jumps p hp d hd
      exact ⟨by omega, htarget⟩
  | throw hop he hcovers =>
    obtain ⟨q, hq, hoffset⟩ := (hc.handlers _ he).1
    exact ⟨hc.lt_handler he hcovers, q, hq, by rw [hoffset]⟩

/-- Control goes on from every instruction that is neither a return nor a throw. -/
theorem exists_edge {op : Opcode} (hop : c.at? pc = some op) (hend : op.isEnd = false) :
    ∃ pc', c.Edge pc pc' := by
  cases hnext : op.successor pc false with
  | some pc' => exact ⟨pc', .next hop false hnext⟩
  | none =>
    cases op with
    | voidReturn | areturn | athrow => cases hend
    | _ => cases hnext

/-! ### Executions -/

theorem Closed.exists_first (hc : c.Closed) (hgaps : c.Contiguous) : ∃ p ∈ c.instructions, p.offset = 0 := by
  obtain ⟨last, hlast, -⟩ := hc.last
  have hpos : 0 < c.instructions.size := by
    rw [Array.back?_eq_getElem?] at hlast
    have hlt := (Array.getElem?_eq_some_iff.1 hlast).1
    omega
  exact ⟨c.instructions[0], Array.getElem_mem hpos, hgaps.first _ (Array.getElem?_eq_getElem hpos)⟩

/-- What one step keeps, the whole execution keeps. -/
theorem Closed.inside (hc : c.Closed) (hgaps : c.Contiguous) (h : (pc :: pcs).IsChain c.Edge)
    (hpc : ∃ p ∈ c.instructions, (p.offset : Int) = pc) :
    (pc :: pcs).Pairwise (· < ·) ∧ ∀ x ∈ pc :: pcs, ∃ p ∈ c.instructions, (p.offset : Int) = x := by
  induction pcs generalizing pc with
  | nil => exact ⟨List.pairwise_singleton .., by simpa using hpc⟩
  | cons x pcs ih =>
    obtain ⟨hedge, hrest⟩ := List.isChain_cons_cons.1 h
    obtain ⟨hlt, hx⟩ := hc.forward hgaps hedge
    obtain ⟨hincreasing, hinside⟩ := ih hrest hx
    refine ⟨List.pairwise_cons.2 ⟨fun y hy => ?_, hincreasing⟩, List.forall_mem_cons.2 ⟨hpc, hinside⟩⟩
    rcases List.mem_cons.1 hy with rfl | hy
    · exact hlt
    · exact Int.lt_trans hlt ((List.pairwise_cons.1 hincreasing).1 y hy)

theorem Closed.orderly (hc : c.Closed) (hgaps : c.Contiguous) (h : c.Path pcs) : c.Orderly pcs := by
  obtain ⟨hhead, hchain⟩ := h
  obtain ⟨rest, rfl⟩ := List.head?_eq_some_iff.1 hhead
  obtain ⟨first, hfirst, hzero⟩ := hc.exists_first hgaps
  obtain ⟨hincreasing, hinside⟩ := hc.inside hgaps hchain ⟨first, hfirst, by rw [hzero]; rfl⟩
  refine ⟨hincreasing, hinside, ?_, fun pc hpc hstuck => ?_⟩
  · -- the offsets differ, so there are no more of them than instructions
    have hnodup : (0 :: rest).Nodup := hincreasing.imp fun hlt => Int.ne_of_lt hlt
    have hsubset : (0 :: rest) ⊆ c.instructions.toList.map fun p => (p.offset : Int) := fun x hx => by
      obtain ⟨p, hp, hoffset⟩ := hinside x hx
      exact List.mem_map.2 ⟨p, by simpa using hp, hoffset⟩
    simpa using (hnodup.subperm hsubset).length_le
  · obtain ⟨p, hp, rfl⟩ := hinside pc (List.mem_of_getLast? hpc)
    obtain ⟨op, hop⟩ := exists_at? hp
    refine ⟨op, hop, ?_⟩
    by_contra hend
    obtain ⟨pc', hedge⟩ := exists_edge hop (by simpa using hend)
    exact hstuck pc' hedge

end Code

end BlockAssembler
