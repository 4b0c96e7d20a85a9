import BlockAssembler.Proofs.Body.Assembled
import BlockAssembler.Proofs.Body.Handlers
import BlockAssembler.Proofs.Draft.Entries

/-! What the scan for the depth of the stack sees of a balanced stream: its instructions, and which of them start a
handler. If every handler has an instruction to start with, this follows from the tree piece by piece. -/

namespace BlockAssembler

/-! ### Marked instructions -/

/-- The indices of the instructions that start a handler, if the first one has the index `n`. -/
def marks : Nat → List Line → List Nat
  | _, [] => []
  | n, line :: lines => (if line.entry then [n] else []) ++ marks (n + 1) lines

/-- Lets a handler start at the first instruction. -/
def entered : List Line → List Line
  | [] => []
  | line :: lines => { line with entry := true } :: lines

section
variable {n i : Nat} {lines lines' : List Line}

theorem marks_append (n : Nat) (lines lines' : List Line) :
    marks n (lines ++ lines') = marks n lines ++ marks (n + lines.length) lines' := by
  induction lines generalizing n with
  | nil => rfl
  | cons line lines ih =>
    rw [List.cons_append, marks, marks, ih, List.append_assoc, List.length_cons, Nat.add_right_comm, Nat.add_assoc n]

theorem mem_marks : i ∈ marks n lines ↔ ∃ k line, lines[k]? = some line ∧ line.entry = true ∧ i = n + k := by
  induction lines generalizing n with
  | nil => simp [marks]
  | cons line lines ih =>
    rw [marks, List.mem_append, ih]
    constructor
    · rintro (hhead | ⟨k, next, hk, hentry, rfl⟩)
      · split at hhead
        · next hentry => exact ⟨0, line, rfl, hentry, by simpa using hhead⟩
        · cases hhead
      · exact ⟨k + 1, next, hk, hentry, by omega⟩
    · rintro ⟨k, next, hk, hentry, rfl⟩
      cases k with
      | zero =>
        obtain rfl := Option.some.inj hk
        exact .inl (by simp [hentry])
      | succ k => exact .inr ⟨k, next, hk, hentry, by omega⟩

/-- Instructions are told apart by what they do and by where handlers start. -/
theorem lines_ext (hops : lines.map Line.opcode = lines'.map Line.opcode)
    (hmarks : ∀ i, i ∈ marks 0 lines ↔ i ∈ marks 0 lines') : lines = lines' := by
  have hentry (l : List Line) (i : Nat) (line : Line) (hi : l[i]? = some line) :
      line.entry = true ↔ i ∈ marks 0 l := by
    rw [mem_marks]
    constructor
    · exact fun h => ⟨i, line, hi, h, (Nat.zero_add i).symm⟩
    · rintro ⟨k, line', hk, h, rfl⟩
      rw [Nat.zero_add, hk] at hi
      rwa [← Option.some.inj hi]
  have hlength : lines.length = lines'.length := by simpa using congrArg List.length hops
  apply List.ext_getElem hlength
  intro i hi hi'
  have hop : lines[i].opcode = lines'[i].opcode := by
    have hsame : (lines.map Line.opcode)[i]? = (lines'.map Line.opcode)[i]? := by rw [hops]
    simpa [List.getElem?_eq_getElem hi, List.getElem?_eq_getElem hi'] using hsame
  have hflag : lines[i].entry = lines'[i].entry := by
    rw [Bool.eq_iff_iff, hentry lines i _ (List.getElem?_eq_getElem hi), hmarks,
      hentry lines' i _ (List.getElem?_eq_getElem hi')]
  generalize lines[i] = line at hop hflag
  generalize lines'[i] = line' at hop hflag
  cases line
  cases hop
  cases hflag
  rfl

@[simp] theorem length_entered (lines : List Line) : (entered lines).length = lines.length := by cases lines <;> rfl

@[simp] theorem opcodes_entered (lines : List Line) :
    (entered lines).map Line.opcode = lines.map Line.opcode := by cases lines <;> rfl

theorem mem_marks_entered (hlines : lines ≠ []) (n i : Nat) :
    i ∈ marks n (entered lines) ↔ i = n ∨ i ∈ marks n lines := by
  cases lines with
  | nil => exact absurd rfl hlines
  | cons line lines =>
    rw [entered, marks, marks]
    cases line.entry <;> simp

end

/-! ### Trees -/

/-- The jump that ends what control can reach the end of when `live`. -/
def skipLines (live : Bool) : List Line := if live then [⟨.goto 0, false⟩] else []

mutual

def Body.lines : Body → List Line
  | .nil => []
  | .op opcode rest => ⟨opcode, false⟩ :: rest.lines
  | .guarded body _ handler more rest =>
    body.lines ++ ⟨.goto 0, false⟩ :: (entered handler.lines ++ (more.lines (handler.exit true) ++ rest.lines))
  | .chain condition test body more rest =>
    condition.lines ++ ⟨.branch test 0, false⟩ :: (body.lines ++ (more.lines (body.exit true) ++ rest.lines))

def Catches.lines : Catches → Bool → List Line
  | .done, _ => []
  | .handler _ body more, live => skipLines live ++ (entered body.lines ++ more.lines (body.exit true))

def Arms.lines : Arms → Bool → List Line
  | .done, _ => []
  | .otherwise body, live => skipLines live ++ body.lines
  | .elseIf condition test body more, live =>
    skipLines live ++ (condition.lines ++ ⟨.branch test 0, false⟩ :: (body.lines ++ more.lines (body.exit true)))

end

@[simp] theorem length_skipLines (live : Bool) : (skipLines live).length = skipSize live := by cases live <;> rfl

@[simp] theorem marks_skipLines (n : Nat) (live : Bool) : marks n (skipLines live) = [] := by cases live <;> rfl

@[simp] theorem opcodes_skipLines (live : Bool) (join : Nat) :
    (skipLines live).map Line.opcode = (skipCode live join).map Instr.opcode := by cases live <;> rfl

mutual

theorem Body.opcodes_lines (t : Body) (n : Nat) : t.lines.map Line.opcode = (t.code n).map Instr.opcode := by
  match t with
  | .nil => rfl
  | .op opcode rest => simp [Body.lines, Body.code, rest.opcodes_lines (n + 1), Instr.opcode]
  | .guarded body catches handler more rest =>
    simp [Body.lines, Body.code, body.opcodes_lines n, handler.opcodes_lines (n + body.size + 1),
      more.opcodes_lines (n + body.size + 1 + handler.size) _
        (n + body.size + 1 + handler.size + more.size (handler.exit true)),
      rest.opcodes_lines (n + body.size + 1 + handler.size + more.size (handler.exit true)), Instr.opcode]
  | .chain condition test body more rest =>
    simp [Body.lines, Body.code, condition.opcodes_lines n, body.opcodes_lines (n + condition.size + 1),
      more.opcodes_lines (n + condition.size + 1 + body.size) _
        (n + condition.size + 1 + body.size + more.size (body.exit true)),
      rest.opcodes_lines (n + condition.size + 1 + body.size + more.size (body.exit true)), Instr.opcode]

theorem Catches.opcodes_lines (t : Catches) (n : Nat) (live : Bool) (join : Nat) :
    (t.lines live).map Line.opcode = (t.code n live join).map Instr.opcode := by
  match t with
  | .done => rfl
  | .handler catches body more =>
    simp [Catches.lines, Catches.code, opcodes_skipLines live join, body.opcodes_lines (n + skipSize live),
      more.opcodes_lines (n + skipSize live + body.size) _ join]

theorem Arms.opcodes_lines (t : Arms) (n : Nat) (live : Bool) (join : Nat) :
    (t.lines live).map Line.opcode = (t.code n live join).map Instr.opcode := by
  match t with
  | .done => rfl
  | .otherwise body =>
    simp [Arms.lines, Arms.code, opcodes_skipLines live join, body.opcodes_lines (n + skipSize live)]
  | .elseIf condition test body more =>
    simp [Arms.lines, Arms.code, opcodes_skipLines live join, condition.opcodes_lines (n + skipSize live),
      body.opcodes_lines (n + skipSize live + condition.size + 1),
      more.opcodes_lines (n + skipSize live + condition.size + 1 + body.size) _ join, Instr.opcode]

end

@[simp] theorem Body.length_lines (t : Body) : t.lines.length = t.size := by
  rw [← t.length_code 0, ← List.length_map Line.opcode, t.opcodes_lines 0, List.length_map]

@[simp] theorem Catches.length_lines (t : Catches) (live : Bool) : (t.lines live).length = t.size live := by
  rw [← t.length_code 0 live 0, ← List.length_map Line.opcode, t.opcodes_lines 0 live 0, List.length_map]

@[simp] theorem Arms.length_lines (t : Arms) (live : Bool) : (t.lines live).length = t.size live := by
  rw [← t.length_code 0 live 0, ← List.length_map Line.opcode, t.opcodes_lines 0 live 0, List.length_map]

theorem Body.lines_ne_nil {t : Body} (h : t.receives = true) : t.lines ≠ [] := by
  cases t with
  | op opcode rest => exact List.cons_ne_nil _ _
  | nil | guarded | chain => cases h

/-! ### Handlers -/

theorem handlerStarts_append (ranges ranges' : List GuardedRange) :
    handlerStarts (ranges ++ ranges') = handlerStarts ranges ++ handlerStarts ranges' := List.flatMap_append

theorem handlerStarts_cons (g : GuardedRange) (ranges : List GuardedRange) :
    handlerStarts (g :: ranges) = g.handlers.toList.map Handler.start ++ handlerStarts ranges := List.flatMap_cons

mutual

/-- The records name exactly the instructions that start a handler. -/
theorem Body.Receiving.mem_handlerStarts {t : Body} (ht : t.Receiving) (n i : Nat) :
    some i ∈ handlerStarts (t.ranges n) ↔ i ∈ marks n t.lines := by
  match t with
  | .nil => simp [Body.ranges, handlerStarts, Body.lines, marks]
  | .op opcode rest =>
    have hrest := Body.Receiving.mem_handlerStarts (t := rest) ht (n + 1) i
    simpa [Body.ranges, Body.lines, marks] using hrest
  | .guarded body catches handler more rest =>
    obtain ⟨hbody, ⟨hreceives, hhandler⟩, hmore, hrest⟩ := ht
    have hfirst := mem_marks_entered (Body.lines_ne_nil hreceives)
    simp only [Body.ranges, Body.lines, handlerStarts_cons, handlerStarts_append, marks_append, marks, List.mem_append,
      GuardedRange.record, List.map_cons, List.mem_cons, hbody.mem_handlerStarts, hhandler.mem_handlerStarts,
      ← hmore.mem_handlerStarts, hrest.mem_handlerStarts, hfirst, Body.length_lines, Catches.length_lines,
      length_entered, Option.some.injEq, Bool.false_eq_true, if_false, List.nil_append]
    exact iff_of_eq (by ac_rfl)
  | .chain condition test body more rest =>
    obtain ⟨hcondition, hbody, hmore, hrest⟩ := ht
    simp only [Body.ranges, Body.lines, handlerStarts_append, marks_append, marks, List.mem_append,
      hcondition.mem_handlerStarts, hbody.mem_handlerStarts, hmore.mem_handlerStarts, hrest.mem_handlerStarts,
      Body.length_lines, Arms.length_lines, Bool.false_eq_true, if_false, List.nil_append]

theorem Catches.Receiving.mem_handlerStarts {t : Catches} (ht : t.Receiving) (n : Nat) (live : Bool) (i : Nat) :
    some i ∈ (t.handlers n live).map Handler.start ∨ some i ∈ handlerStarts (t.ranges n live) ↔
      i ∈ marks n (t.lines live) := by
  match t with
  | .done => simp [Catches.handlers, Catches.ranges, handlerStarts, Catches.lines, marks]
  | .handler catches body more =>
    obtain ⟨⟨hreceives, hbody⟩, hmore⟩ := ht
    have hfirst := mem_marks_entered (Body.lines_ne_nil hreceives)
    simp only [Catches.handlers, Catches.ranges, Catches.lines, handlerStarts_append, marks_append, List.mem_append,
      List.map_cons, List.mem_cons, hbody.mem_handlerStarts, ← hmore.mem_handlerStarts, hfirst, Body.length_lines,
      length_entered, length_skipLines, marks_skipLines, List.not_mem_nil, false_or, Option.some.injEq]
    exact iff_of_eq (by ac_rfl)

theorem Arms.Receiving.mem_handlerStarts {t : Arms} (ht : t.Receiving) (n : Nat) (live : Bool) (i : Nat) :
    some i ∈ handlerStarts (t.ranges n live) ↔ i ∈ marks n (t.lines live) := by
  match t with
  | .done => simp [Arms.ranges, handlerStarts, Arms.lines, marks]
  | .otherwise body =>
    have hbody := Body.Receiving.mem_handlerStarts (t := body) ht (n + skipSize live) i
    simpa [Arms.ranges, Arms.lines, marks_append] using hbody
  | .elseIf condition test body more =>
    obtain ⟨hcondition, hbody, hmore⟩ := ht
    simp only [Arms.ranges, Arms.lines, handlerStarts_append, marks_append, marks, List.mem_append,
      hcondition.mem_handlerStarts, hbody.mem_handlerStarts, hmore.mem_handlerStarts, Body.length_lines,
      length_skipLines, marks_skipLines, Bool.false_eq_true, if_false, List.nil_append]

end

/-! ### Drafts -/

/-- The instruction as the scan sees it, if no handler starts there. -/
def Instr.line (instr : Instr) : Line := ⟨instr.opcode, false⟩

theorem marks_line (n : Nat) (code : List Instr) : marks n (code.map Instr.line) = [] := by
  induction code generalizing n with
  | nil => rfl
  | cons instr code ih => exact ih (n + 1)

/-- The sequence of a stream with its return. -/
theorem Body.Receiving.lines_ensureReturn {t : Body} (ht : t.Receiving) {d : Draft}
    (h : Draft.emitAll t.items .empty = .ok d) : d.ensureReturn.lines = t.lines ++ t.ending.map Instr.line := by
  obtain ⟨hops, hrecords⟩ := t.draft_ensureReturn h
  have hflagged := ((Draft.reaches_of_emitAll _ _ _ h).flagged Draft.sound_empty Draft.flagged_empty).ensureReturn
  refine lines_ext ?_ fun i => ?_
  · show d.ensureReturn.opcodes = _
    rw [hops, Body.opcodes, Body.linked, List.map_append, List.map_append, t.opcodes_lines 0, List.map_map]
    rfl
  · have hstarts : handlerStarts d.ensureReturn.records.ranges = handlerStarts (t.ranges 0) := by rw [hrecords]
    rw [marks_append, marks_line, List.append_nil, ← ht.mem_handlerStarts, mem_marks]
    constructor
    · rintro ⟨k, line, hk, hentry, rfl⟩
      rw [Nat.zero_add, ← hstarts]
      exact (hflagged.lines k line hk).1 hentry
    · intro hi
      rw [← hstarts] at hi
      have hlt : i < t.lines.length := by
        obtain ⟨k, line, hk, -, rfl⟩ := mem_marks.1 ((ht.mem_handlerStarts 0 i).1 (hstarts ▸ hi))
        rw [Nat.zero_add]
        exact (List.getElem?_eq_some_iff.1 hk).1
      have hlength : d.ensureReturn.lines.length = t.opcodes.length := by rw [← hops, Draft.opcodes, List.length_map]
      have hle : t.lines.length ≤ d.ensureReturn.lines.length := by
        rw [hlength, Body.opcodes, Body.linked, List.length_map, List.length_append, t.length_code, t.length_lines]
        exact Nat.le_add_right ..
      obtain ⟨line, hline⟩ : ∃ line, d.ensureReturn.lines[i]? = some line :=
        ⟨_, List.getElem?_eq_getElem (Nat.lt_of_lt_of_le hlt hle)⟩
      exact ⟨i, line, hline, (hflagged.lines i line hline).2 hi, (Nat.zero_add i).symm⟩

end BlockAssembler
