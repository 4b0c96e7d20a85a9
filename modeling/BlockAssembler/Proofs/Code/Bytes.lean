import BlockAssembler.Proofs.Builder.Faultless
import BlockAssembler.Proofs.Code.Writing
import BlockAssembler.Proofs.Linked
import BlockAssembler.Proofs.Pool.Invariant
import Mathlib.Algebra.BigOperators.Group.List.Lemmas

/-! The bytes of assembled code. The layout is made from sizes and the bytes from encodings, and the
two agree: the bytes of an instruction are found at its offset, one instruction after the other,
and nothing else is there. Writing fails for lack of room in the pool or for a call that takes too
many slots only, because every jump that a record names has got a distance that fits. -/

namespace BlockAssembler

open ConstantPool

namespace Code

/-- The bytes of a code object with the pool behind them. At the offset of an instruction is what the
instruction is written as into that pool, which has all constants by then. -/
structure Written (c : Code) (bytes : Array UInt8) (q : ConstantPool) : Prop where
  size : bytes.size = c.length
  slice : ∀ (i : Nat) x, c.instructions[i]? = some x →
    x.opcode.encode.run q = .ok (bytes.extract x.offset (x.offset + x.opcode.size)).toList q

/-- How writing a code object can end: with its bytes, with a pool that is full, or at a call of an
interface method whose arguments take too many slots. -/
def Outcome (c : Code) : EStateM.Result AssemblyError ConstantPool (Array UInt8) → Prop
  | .ok bytes q => c.Written bytes q
  | .error e _ => e = .poolOverflow ∨ ∃ x ∈ c.instructions, ∃ m, x.opcode = .invoke .interface m ∧
      254 < m.argSlots ∧ e = .malformedDescriptor m.descriptor

variable {c : Code} {bytes : Array UInt8} {q : ConstantPool} {xs : List PlacedOpcode} {chunks : List (List UInt8)}

theorem Chunks.map_length (h : Chunks q xs chunks) : chunks.map List.length = xs.map fun x => x.opcode.size := by
  induction h with
  | nil => rfl
  | cons hbytes _ ih => rw [List.map_cons, List.map_cons, Opcode.length_encode hbytes, ih]

theorem Contiguous.written (hc : c.Contiguous) (hall : Chunks q c.instructions.toList chunks)
    (hbytes : bytes.toList = chunks.flatten) : c.Written bytes q := by
  have hlengths : chunks.map List.length = c.opcodes.map Opcode.size := by
    rw [hall.map_length, opcodes, List.map_map]
    rfl
  refine ⟨?_, fun i x hx => ?_⟩
  · rw [← Array.length_toList, hbytes, List.length_flatten, hlengths, hc.length_eq]
  · obtain ⟨hlt, rfl⟩ := Array.getElem?_eq_some_iff.1 hx
    have hlength : i < chunks.length := by
      rw [← List.Forall₂.length_eq hall]
      exact hlt
    have hchunk : c.instructions[i].opcode.encode.run q = .ok chunks[i] q :=
      List.Forall₂.get hall (by exact hlt) hlength
    have hstart : ((chunks.map List.length).take i).sum = c.instructions[i].offset := by
      rw [hlengths, ← List.map_take, hc.offset_eq hx, offset]
    have hstop : ((chunks.map List.length).take (i + 1)).sum =
        c.instructions[i].offset + c.instructions[i].opcode.size := by
      rw [List.take_add_one, List.sum_append, hstart, ← Opcode.length_encode hchunk]
      simp [hlength]
    rw [hchunk, Array.toList_extract, hbytes, List.extract_eq_take_drop, ← List.drop_take, ← hstop, ← hstart,
      List.drop_take_succ_flatten_eq_getElem]

end Code

namespace Builder

variable {b b' : Builder} {maxLocals i : Nat} {c : Code} {p : PlacedOpcode} {h : Handle} {d : Int}

/-- The jumps that no record names keep the distances they came with, and these fit. -/
def RawFits (b : Builder) : Prop := ∀ h ∈ b.code, (∀ link ∈ b.links, link.jump ≠ some h) →
  ∀ d ∈ (b.opcode? h).bind Opcode.distance?, Opcode.fitsJump d

instance decidableRawFits (b : Builder) : Decidable b.RawFits :=
  inferInstanceAs (Decidable (∀ h ∈ b.code, (∀ link ∈ b.links, link.jump ≠ some h) →
    ∀ d ∈ (b.opcode? h).bind Opcode.distance?, Opcode.fitsJump d))

namespace Placed

theorem fitsJump (hplaced : b.Placed maxLocals c) (hb : b.Arranged) (hraw : b.RawFits) (hp : p ∈ c.instructions)
    (hd : p.opcode.distance? = some d) : Opcode.fitsJump d := by
  obtain ⟨i, hi⟩ := Array.mem_iff_getElem?.1 hp
  obtain ⟨h, op, hh, hop, ⟨hfree, heq⟩ | ⟨d', hfits, heq⟩⟩ := hplaced.exists_opcode hb hi
  · exact hraw h (Array.mem_of_getElem? hh) hfree d (by rw [hop, ← heq]; exact hd)
  · rw [heq] at hd
    cases op <;> cases hd <;> exact hfits

end Placed

/-- Whatever calls a code object is assembled from, if none of them faults and the jumps that belong to
no structure fit: its instructions lie one behind the other, each is found by its offset, and into
every pool it is written as it is laid out, as far as there is room and no call takes too many slots. -/
theorem encode_assembled (calls : List Call) (hcalls : Faultless calls empty) (hb : afterAll calls empty = b)
    (hraw : b.RawFits) (hc : (assemble maxLocals).run b = .ok c b') (requests : List Symbol) :
    c.Contiguous ∧ (∀ o (i : Nat), c.position? o = some i ↔ ∃ x, c.instructions[i]? = some x ∧ x.offset = o) ∧
      c.Outcome (c.encode.run (ConstantPool.afterAll requests ConstantPool.empty)) := by
  have harranged : b.Arranged := hb ▸ (tidy_empty.afterAll hcalls).arranged
  have hplaced := assemble_eq_ok harranged hc
  have hgapless := hplaced.gapless harranged
  refine ⟨hgapless, fun o i => hgapless.position?_eq_some, ?_⟩
  have hp := (formed_afterAll .empty requests).1
  cases hrun : c.encode.run (ConstantPool.afterAll requests ConstantPool.empty) with
  | ok bytes q =>
    obtain ⟨hq, -, chunks, hbytes, hall⟩ := Code.exists_chunks hp hrun
    exact hgapless.written (hall q hq (.refl q)) hbytes
  | error e q =>
    obtain ⟨x, hx, hrefuses⟩ := Code.exists_refuses hp hrun
    generalize hop : x.opcode = op at hrefuses
    cases hrefuses with
    | full => exact .inl rfl
    | slots hm => exact .inr ⟨x, hx, _, hop, hm, rfl⟩
    | distance hd hfar => exact absurd (hplaced.fitsJump harranged hraw hx (hop ▸ hd)) hfar

/-- A chain around a wide number and a static field, a call of an interface method, and a jump that
belongs to no structure. -/
def branching : List Call := [
  .emit (.beginIf [.op (.aload 300)] .ifnull), .appendAll [.iconst 70000, .pop], .emit .beginElse,
  .append (.getstatic (FieldRef.mk "a/B" "x" (.primitive .int))), .append .pop, .emit .endIf,
  .append (.invoke .interface (MethodRef.mk "a/C" "run" ⟨[.primitive .long], none⟩)), .append (.goto 3),
  .append .voidReturn]

theorem encode_branching : Faultless branching empty ∧ (afterAll branching empty).RawFits ∧
    ∃ c b', (assemble 301).run (afterAll branching empty) = .ok c b' ∧ c.length = 27 ∧ c.Contiguous ∧
      c.Outcome (c.encode.run ConstantPool.empty) := by
  have hcalls : Faultless branching empty := steady_empty.faultless (by decide +kernel)
  have hraw : (afterAll branching empty).RawFits := by decide +kernel
  have hlength : ((assemble 301).run' (afterAll branching empty)).map Code.length = some 27 := by decide +kernel
  obtain ⟨c, hrun, hc⟩ := Option.map_eq_some_iff.1 hlength
  obtain ⟨b', hrun⟩ := run'_eq_some.1 hrun
  obtain ⟨hgapless, -, houtcome⟩ := encode_assembled branching hcalls rfl hraw hrun []
  exact ⟨hcalls, hraw, c, b', hrun, hc, hgapless, houtcome⟩

end Builder

end BlockAssembler
