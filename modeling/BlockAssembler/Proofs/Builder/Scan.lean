import BlockAssembler.Proofs.Draft.Entries
import BlockAssembler.Proofs.Replacement
import Mathlib.Data.List.Induction

/-! The scan for the depth of the stack, when the end of the sequence is replaced. The scan sees of
an instruction only what it does and whether a handler starts there. A replacement is a handler
entry if one of the instructions is that it stands for. If a return stands for a return of `null`,
the scan misses one value that was pushed, and that value can only matter if it was pushed on top of
the greatest depth so far. -/

namespace BlockAssembler

/-- What the scan sees of an instruction. -/
def Cell.line (c : Cell) : Line := ⟨c.opcode, c.isHandlerEntry⟩

/-- The depth behind an instruction of a draft. -/
def Depth.pass (d : Depth) (line : Line) : Depth := (if line.entry then d.enterHandler else d).apply line.opcode

namespace Builder

def line? (b : Builder) (h : Handle) : Option Line := b.arena[h]?.map Cell.line

/-- What the scan sees of the sequence. -/
def lines (b : Builder) : List Line := b.code.toList.filterMap b.line?

variable {b b' : Builder} {count n : Nat} {op : Opcode}

theorem lines_eq_cells (b : Builder) : b.lines = b.cells.toList.map Cell.line := by
  rw [cells, Array.toList_filterMap, List.map_filterMap]
  rfl

theorem opcodes_eq_lines (b : Builder) : b.opcodes.toList = b.lines.map Line.opcode := by
  rw [lines_eq_cells, opcodes, Array.toList_map, List.map_map]
  rfl

theorem stackDepth_eq_lines (b : Builder) :
    b.stackDepth = (b.lines.foldl Depth.pass .start).greatest.toNat := by
  rw [stackDepth, lines_eq_cells, List.foldl_map, Array.foldl_toList]
  rfl

theorem lines_eq_draft (hb : b.Intact) : b.lines = b.draft.lines := by
  rw [lines_eq_cells, cells_eq hb]
  rfl

theorem line?_eq (b : Builder) (h : Handle) :
    b.line? h = (b.opcode? h).map fun op => ⟨op, (b.references h).any Anchor.isHandlerStart⟩ := by
  rw [line?, opcode?, references]
  cases b.arena[h]? <;> rfl

theorem Arranged.isSome_line? (hb : b.Arranged) : ∀ h ∈ b.code.toList, (b.line? h).isSome := by
  intro h hh
  rw [line?, Option.isSome_map]
  exact hb.isSome_cell h hh

/-- The sequence may be cut before or after it is scanned. -/
theorem Arranged.cut_lines (hb : b.Arranged) (hn : n ≤ b.code.size) :
    b.lines.take n = (b.code.toList.take n).filterMap b.line? ∧
      b.lines.drop n = (b.code.toList.drop n).filterMap b.line? := by
  have hlines : b.lines = (b.code.toList.take n).filterMap b.line? ++ (b.code.toList.drop n).filterMap b.line? := by
    rw [lines, ← List.filterMap_append, List.take_append_drop]
  have hlength : ((b.code.toList.take n).filterMap b.line?).length = n := by
    rw [length_filterMap_of_isSome fun h hh => hb.isSome_line? h (List.mem_of_mem_take hh), List.length_take,
      Array.length_toList, Nat.min_eq_left hn]
  exact ⟨by rw [hlines, List.take_left' hlength], by rw [hlines, List.drop_left' hlength]⟩

/-- The replacement is a handler entry if one of the replaced instructions is. -/
theorem TailReplaced.lines_eq (h : TailReplaced count op b b') (hb : b.Arranged) :
    b'.lines = b.lines.take (b.code.size - count) ++
      [⟨op, (b.lines.drop (b.code.size - count)).any Line.entry⟩] := by
  obtain ⟨htake, hdrop⟩ := hb.cut_lines (n := b.code.size - count) (Nat.sub_le ..)
  have hfront : (b.code.toList.take (b.code.size - count)).filterMap b'.line? =
      (b.code.toList.take (b.code.size - count)).filterMap b.line? := by
    refine List.filterMap_congr fun x hx => ?_
    have hlt : x < b.arena.size := hb.lt_size (by simpa using List.mem_of_mem_take hx)
    have hkept : x ∉ b.lastHandles count := fun hmem => by
      have hnodup := hb.nodup
      rw [← List.take_append_drop (b.code.size - count) b.code.toList] at hnodup
      exact (List.nodup_append.1 hnodup).2.2 x hx x hmem rfl
    rw [line?_eq, line?_eq, opcode?_of_stored h.stored hlt, h.references x hkept (Nat.ne_of_lt hlt)]
  have hentry : (b'.references b.arena.size).any Anchor.isHandlerStart =
      (b.lines.drop (b.code.size - count)).any Line.entry := by
    rw [hdrop, ← Array.any_toList, h.moved, List.any_flatMap, List.any_filterMap, ← lastHandles]
    refine List.any_congr rfl fun x => ?_
    rw [line?, Builder.references]
    cases b.arena[x]? <;> simp [Cell.line, Cell.isHandlerEntry]
  rw [htake, ← hfront, ← hentry, lines, h.code, List.filterMap_append, List.filterMap_cons, line?_eq b' b.arena.size,
    opcode?_size_of_stored h.stored]
  rfl

end Builder

/-! ### A return of null -/

namespace Depth

/-- The greatest depth is no smaller than the current one, and not below zero. -/
structure Bounded (d : Depth) : Prop where
  current_le : d.current ≤ d.greatest
  nonneg : 0 ≤ d.greatest

theorem bounded_start : start.Bounded := ⟨Int.le_refl 0, Int.le_refl 0⟩

theorem Bounded.enter {d : Depth} (hd : d.Bounded) (entry : Bool) : (if entry then d.enterHandler else d).Bounded := by
  cases entry with
  | false => exact hd
  | true =>
    have hnonneg := hd.nonneg
    exact ⟨Int.le_max_right .., by show 0 ≤ max d.greatest 1; omega⟩

theorem Bounded.pass {d : Depth} (hd : d.Bounded) (line : Line) : (d.pass line).Bounded := by
  have hnonneg := (hd.enter line.entry).nonneg
  exact ⟨Int.le_max_right .., by show 0 ≤ max _ _; omega⟩

theorem bounded_foldl (lines : List Line) : (lines.foldl Depth.pass start).Bounded := by
  induction lines using List.reverseRecOn with
  | nil => exact bounded_start
  | append_singleton lines line ih =>
    rw [List.foldl_append]
    exact ih.pass line

/-- Nothing but the `null` itself can make the scan find more. -/
theorem foldl_dropNull (front : List Line) (entry : Bool) {old new : Nat}
    (hold : old = ((front ++ [(⟨.aconstNull, entry⟩ : Line), ⟨.areturn, false⟩]).foldl pass start).greatest.toNat)
    (hnew : new = ((front ++ [(⟨.voidReturn, entry⟩ : Line)]).foldl pass start).greatest.toNat) :
    new = old ∨ new + 1 = old := by
  have hbounded := (bounded_foldl front).enter entry
  have hcurrent := hbounded.current_le
  have hnonneg := hbounded.nonneg
  rw [List.foldl_append] at hold hnew
  generalize hd : (if entry then (front.foldl pass start).enterHandler else front.foldl pass start) = d
    at hcurrent hnonneg
  have hpushed : (List.foldl pass (front.foldl pass start) [⟨.aconstNull, entry⟩, ⟨.areturn, false⟩]).greatest =
      max (max d.greatest (d.current + 1)) (d.current + 1 + -1) := by
    rw [← hd]
    rfl
  have hreturned : (List.foldl pass (front.foldl pass start) [⟨.voidReturn, entry⟩]).greatest =
      max d.greatest (d.current + 0) := by
    rw [← hd]
    rfl
  rw [hpushed] at hold
  rw [hreturned] at hnew
  omega

end Depth

namespace Builder

variable {b b' : Builder}

/-- The return of the `null` is no handler entry, for control goes on to it from the `null`. -/
theorem lines_of_returnsNull (hb : b.Intact) (hshielded : b.draft.Shielded) (hnull : b.returnsNull = true) :
    ∃ front entry, b.lines = front ++ [⟨.aconstNull, entry⟩, ⟨.areturn, false⟩] := by
  obtain ⟨ops, hops⟩ := stored_of_returnsNull hb hnull
  rw [stored_eq, Draft.opcodes, List.map_eq_append_iff] at hops
  obtain ⟨front, last, hlines, -, hlast⟩ := hops
  obtain ⟨⟨_, entry⟩, rest, rfl, rfl, hrest⟩ := List.map_eq_cons_iff.1 hlast
  obtain ⟨⟨_, entry'⟩, ends, rfl, rfl, hends⟩ := List.map_eq_cons_iff.1 hrest
  obtain rfl := List.map_eq_nil_iff.1 hends
  have hfront : b.draft.opcodes[front.length]? = some .aconstNull := by simp [Draft.opcodes, hlines]
  have hline : b.draft.lines[front.length + 1]? = some ⟨.areturn, entry'⟩ := by simp [hlines]
  have hentry : entry' = false := hshielded.not_entry hfront rfl hline
  exact ⟨front, entry, by rw [lines_eq_draft hb, hlines, hentry]⟩

/-- What the scan sees before and after a plain return stands for the return of `null`. -/
theorem TailReplaced.lines_dropNull (h : TailReplaced 2 .voidReturn b b') (hb : b.Intact)
    (hshielded : b.draft.Shielded) (hnull : b.returnsNull = true) :
    ∃ front entry, b.lines = front ++ [⟨.aconstNull, entry⟩, ⟨.areturn, false⟩] ∧
      b'.lines = front ++ [⟨.voidReturn, entry⟩] := by
  obtain ⟨front, entry, hlines⟩ := lines_of_returnsNull hb hshielded hnull
  have hsize : b.code.size - 2 = front.length := by
    have hlength : b.lines.length = b.code.size := length_filterMap_of_isSome hb.arranged.isSome_line?
    rw [← hlength, hlines, List.length_append]
    rfl
  refine ⟨front, entry, hlines, ?_⟩
  rw [h.lines_eq hb.arranged, hsize, hlines, List.take_left, List.drop_left]
  simp

/-- The depth of the stack stays as it is, or it is one less. -/
theorem TailReplaced.stackDepth_cases (h : TailReplaced 2 .voidReturn b b') (hb : b.Intact)
    (hshielded : b.draft.Shielded) (hnull : b.returnsNull = true) :
    b'.stackDepth = b.stackDepth ∨ b'.stackDepth + 1 = b.stackDepth := by
  obtain ⟨front, entry, hlines, hlines'⟩ := h.lines_dropNull hb hshielded hnull
  refine Depth.foldl_dropNull front entry ?_ ?_
  · rw [stackDepth_eq_lines, hlines]
  · rw [stackDepth_eq_lines, hlines']

end Builder

end BlockAssembler
