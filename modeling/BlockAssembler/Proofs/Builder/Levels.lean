import BlockAssembler.Proofs.Builder.Scan

/-! The depth that the scan has in front of each instruction. It is what the instruction in front leaves, or
one if a handler starts there, so it follows from the instructions before it alone, and it can be read off a
piece of the sequence if the depth is known with which the piece begins. -/

namespace BlockAssembler

/-- The depth in front of an instruction that is arrived at with the depth `z`. -/
def Line.reset (line : Line) (z : Int) : Int := if line.entry then 1 else z

/-- The depth behind it. -/
def Line.leaves (line : Line) (z : Int) : Int := line.reset z + line.opcode.stackEffect

theorem Line.reset_of_not_entry {line : Line} (h : line.entry = false) (z : Int) : line.reset z = z := by
  rw [reset, h]
  rfl

theorem Line.reset_of_entry {line : Line} (h : line.entry = true) (z : Int) : line.reset z = 1 := by rw [reset, if_pos h]

/-- The depth behind instructions. -/
def remains (z : Int) (lines : List Line) : Int := lines.foldl (fun z line => line.leaves z) z

/-- The depths in front of instructions. -/
def levels : Int → List Line → List Int
  | _, [] => []
  | z, line :: lines => line.reset z :: levels (line.leaves z) lines

section
variable {z x : Int} {lines lines' : List Line} {line next : Line} {i : Nat}

@[simp] theorem remains_nil (z : Int) : remains z [] = z := rfl

@[simp] theorem remains_cons (z : Int) (line : Line) (lines : List Line) :
    remains z (line :: lines) = remains (line.leaves z) lines := rfl

@[simp] theorem remains_append (z : Int) (lines lines' : List Line) :
    remains z (lines ++ lines') = remains (remains z lines) lines' := List.foldl_append

theorem levels_append (z : Int) (lines lines' : List Line) :
    levels z (lines ++ lines') = levels z lines ++ levels (remains z lines) lines' := by
  induction lines generalizing z with
  | nil => rfl
  | cons line lines ih => rw [List.cons_append, levels, levels, ih, remains_cons, List.cons_append]

@[simp] theorem length_levels (z : Int) (lines : List Line) : (levels z lines).length = lines.length := by
  induction lines generalizing z with
  | nil => rfl
  | cons line lines ih => rw [levels, List.length_cons, ih, List.length_cons]

theorem getElem?_levels (z : Int) (lines : List Line) (i : Nat) :
    (levels z lines)[i]? = lines[i]?.map fun line => line.reset (remains z (lines.take i)) := by
  induction lines generalizing z i with
  | nil => simp [levels]
  | cons line lines ih =>
    cases i with
    | zero => rfl
    | succ i =>
      rw [levels, List.getElem?_cons_succ, ih, List.getElem?_cons_succ]
      rfl

/-- From one instruction to the next. -/
theorem getElem?_levels_succ (hline : lines[i]? = some line) (hnext : lines[i + 1]? = some next)
    (hx : (levels z lines)[i]? = some x) :
    (levels z lines)[i + 1]? = some (next.reset (x + line.opcode.stackEffect)) := by
  rw [getElem?_levels, hline, Option.map_some, Option.some.injEq] at hx
  rw [getElem?_levels, hnext, Option.map_some, List.take_add_one, hline, remains_append, ← hx]
  rfl

end

/-! ### The scan -/

namespace Depth

theorem current_pass (d : Depth) (line : Line) : (d.pass line).current = line.leaves d.current := by
  rw [pass, Line.leaves, Line.reset]
  cases line.entry <;> rfl

theorem current_foldl (d : Depth) (lines : List Line) : (lines.foldl pass d).current = remains d.current lines := by
  induction lines generalizing d with
  | nil => rfl
  | cons line lines ih => rw [List.foldl_cons, ih, current_pass, remains_cons]

theorem greatest_le_foldl (d : Depth) (lines : List Line) : d.greatest ≤ (lines.foldl pass d).greatest := by
  induction lines generalizing d with
  | nil => exact Int.le_refl _
  | cons line lines ih =>
    refine Int.le_trans ?_ (ih (d.pass line))
    rw [pass]
    cases line.entry with
    | false => exact Int.le_max_left ..
    | true => exact Int.le_trans (Int.le_max_left ..) (Int.le_max_left ..)

/-- The scan meets no greater depth than the one that it ends with. -/
theorem le_of_mem_levels {d : Depth} (hd : d.Bounded) {lines : List Line} {z : Int} (hz : z ∈ levels d.current lines) :
    z ≤ (lines.foldl pass d).greatest := by
  induction lines generalizing d with
  | nil => simp [levels] at hz
  | cons line lines ih =>
    rw [levels, List.mem_cons] at hz
    rcases hz with rfl | hz
    · refine Int.le_trans ?_ (greatest_le_foldl (d.pass line) lines)
      have hcurrent := hd.current_le
      rw [Line.reset, pass]
      cases line.entry with
      | false => exact Int.le_trans hcurrent (Int.le_max_left ..)
      | true => exact Int.le_trans (Int.le_max_right ..) (Int.le_max_left ..)
    · rw [← current_pass] at hz
      exact ih (hd.pass line) hz

end Depth

namespace Builder

/-- The depth that the scan has in front of an instruction of the sequence, which is one where a handler starts. -/
def depthBefore (b : Builder) (i : Nat) : Option Int :=
  b.cells[i]?.map fun cell =>
    let d := (b.cells.toList.take i).foldl Depth.step .start
    (if cell.isHandlerEntry then d.enterHandler else d).current

variable {b : Builder}

theorem depthBefore_eq (b : Builder) (i : Nat) : b.depthBefore i = (levels 0 b.lines)[i]? := by
  rw [depthBefore, getElem?_levels, lines_eq_cells, List.getElem?_map, Array.getElem?_toList, Option.map_map]
  refine Option.map_congr fun cell _ => ?_
  have hfold : (b.cells.toList.take i).foldl Depth.step .start =
      ((b.cells.toList.map Cell.line).take i).foldl Depth.pass .start := by
    rw [← List.map_take, List.foldl_map]
    rfl
  show Depth.current (if cell.isHandlerEntry then _ else _) = _
  rw [hfold, Function.comp_apply, Line.reset, Cell.line]
  cases cell.isHandlerEntry with
  | false => exact Depth.current_foldl ..
  | true => rfl

theorem le_stackDepth {i : Nat} {z : Int} (h : b.depthBefore i = some z) : z ≤ b.stackDepth := by
  rw [depthBefore_eq] at h
  have hle := Depth.le_of_mem_levels Depth.bounded_start (List.mem_of_getElem? h)
  rw [stackDepth_eq_lines]
  omega

end Builder

end BlockAssembler
