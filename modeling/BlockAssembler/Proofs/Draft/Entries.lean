import BlockAssembler.Proofs.Draft.Sound

/-! Which instructions of a draft start a handler: exactly those that a handler of its
records names. Control never goes on to such an instruction from the one in front of it: what ends
before a handler ends in a jump, unless control cannot reach its end anyway. -/

namespace BlockAssembler

/-- Where the handlers of ranges start. -/
def handlerStarts (ranges : List GuardedRange) : List (Option Handle) :=
  ranges.flatMap fun g => g.handlers.toList.map Handler.start

section
variable {ranges : List GuardedRange} {n : Nat}

/-- A change of a record that leaves the starts of its handlers alone. -/
theorem handlerStarts_modify {f : GuardedRange → GuardedRange}
    (hf : ∀ g, (f g).handlers.toList.map Handler.start = g.handlers.toList.map Handler.start) :
    handlerStarts (ranges.modify n f) = handlerStarts ranges := by
  rw [handlerStarts, handlerStarts, List.flatMap_def, List.flatMap_def]
  congr 1
  apply List.ext_getElem?
  intro i
  rw [List.getElem?_map, List.getElem?_map, List.getElem?_modify]
  cases ranges[i]? with
  | none => rfl
  | some g =>
    by_cases hi : n = i
    · simp [hi, hf g]
    · simp [hi]

theorem mem_handlerStarts_addHandler {start i : Handle} {catches : Option String} (hn : n < ranges.length) :
    some i ∈ handlerStarts (ranges.modify n (GuardedRange.addHandler start catches)) ↔
      some i ∈ handlerStarts ranges ∨ i = start := by
  simp only [handlerStarts, List.mem_flatMap]
  constructor
  · rintro ⟨g, hg, hi⟩
    obtain ⟨j, hj⟩ := List.mem_iff_getElem?.1 hg
    rw [List.getElem?_modify] at hj
    obtain ⟨g', hg', rfl⟩ := Option.map_eq_some_iff.1 hj
    have hmem := List.mem_of_getElem? hg'
    split at hi
    · simp only [GuardedRange.addHandler, Array.toList_push, List.map_append, List.mem_append] at hi
      rcases hi with hi | hi
      · exact .inl ⟨g', hmem, hi⟩
      · exact .inr (by simpa using hi)
    · exact .inl ⟨g', hmem, hi⟩
  · have hset (j : Nat) : (ranges.modify n (GuardedRange.addHandler start catches))[j]? =
        (fun g => if n = j then g.addHandler start catches else g) <$> ranges[j]? := List.getElem?_modify ..
    rintro (⟨g, hg, hi⟩ | rfl)
    · obtain ⟨j, hj⟩ := List.mem_iff_getElem?.1 hg
      have hj' := hset j
      rw [hj] at hj'
      refine ⟨_, List.mem_of_getElem? hj', ?_⟩
      split
      · simp only [GuardedRange.addHandler, Array.toList_push, List.map_append, List.mem_append]
        exact .inl hi
      · exact hi
    · have hj' := hset n
      rw [List.getElem?_eq_getElem hn] at hj'
      refine ⟨_, List.mem_of_getElem? hj', ?_⟩
      simp [GuardedRange.addHandler]

end

namespace Draft

/-- The flags of the instructions, and the flag of the one to come, agree with the records. -/
structure Flagged (d : Draft) : Prop where
  lines : ∀ (i : Nat) line, d.lines[i]? = some line →
    (line.entry = true ↔ some i ∈ handlerStarts d.records.ranges)
  entering : d.entering = true ↔ some d.size ∈ handlerStarts d.records.ranges
  le : ∀ i : Nat, some i ∈ handlerStarts d.records.ranges → i ≤ d.size

theorem flagged_empty : empty.Flagged := by
  refine ⟨?_, ?_, ?_⟩ <;> simp [empty, handlerStarts]

variable {d d' : Draft}

theorem Flagged.append (hd : d.Flagged) (op : Opcode) : (d.append op).Flagged where
  lines i line hi := by
    have hlines : (d.append op).lines = d.lines ++ [⟨op, d.entering⟩] := rfl
    rw [hlines, List.getElem?_append] at hi
    split at hi
    · exact hd.lines i line hi
    · next hge =>
      obtain ⟨hlt, rfl⟩ := List.getElem?_eq_some_iff.1 hi
      have hlast : i = d.size := by
        simp only [List.length_singleton] at hlt
        show i = d.lines.length
        omega
      simpa [hlast] using hd.entering
  entering := by
    rw [records_append, size_append]
    constructor
    · intro h
      exact nomatch h
    · intro h
      exact absurd (hd.le _ h) (Nat.not_succ_le_self d.size)
  le i hi := by
    rw [size_append]
    exact Nat.le_succ_of_le (hd.le i hi)

/-- A step that adds no instruction and no handler. -/
theorem Flagged.of_eq (hd : d.Flagged) (hlines : d'.lines = d.lines) (hentering : d'.entering = d.entering)
    (hstarts : handlerStarts d'.records.ranges = handlerStarts d.records.ranges) : d'.Flagged where
  lines i line hi := by
    rw [hlines] at hi
    rw [hstarts]
    exact hd.lines i line hi
  entering := by
    rw [hentering, hstarts, size, hlines]
    exact hd.entering
  le i hi := by
    rw [hstarts] at hi
    rw [size, hlines]
    exact hd.le i hi

theorem Flagged.jumpOut (hd : d.Flagged) : d.jumpOut.Flagged := by
  unfold Draft.jumpOut
  split
  · exact hd.append _
  · exact hd

theorem Flagged.endGuarded (hd : d.Flagged) (range : Nat) : (d.endGuarded range).Flagged := by
  unfold Draft.endGuarded
  split
  · refine (hd.append (.goto 0)).of_eq rfl rfl ?_
    exact handlerStarts_modify fun g => rfl
  · refine hd.jumpOut.of_eq rfl rfl ?_
    refine handlerStarts_modify fun g => ?_
    apply List.ext_getElem?
    intro i
    simp only [List.getElem?_map, Array.toList_modify, List.getElem?_modify]
    cases g.handlers.toList[i]? with
    | none => rfl
    | some k => by_cases hi : g.handlers.size - 1 = i <;> simp [hi]

theorem Flagged.beginHandler (hd : d.Flagged) {range : Nat} (hrange : range < d.records.ranges.length)
    (catches : Option String) : (d.beginHandler range catches).Flagged := by
  have hstarts (i : Handle) : some i ∈ handlerStarts (d.beginHandler range catches).records.ranges ↔
      some i ∈ handlerStarts d.records.ranges ∨ i = d.size := by
    rw [ranges_beginHandler]
    exact mem_handlerStarts_addHandler hrange
  refine ⟨fun i line hi => ?_, ?_, fun i hi => ?_⟩
  · have hlt : i < d.size := (List.getElem?_eq_some_iff.1 hi).1
    rw [hstarts, hd.lines i line hi]
    constructor
    · exact .inl
    · rintro (h | heq)
      · exact h
      · exact absurd heq (Nat.ne_of_lt hlt)
  · exact ⟨fun _ => (hstarts _).2 (.inr rfl), fun _ => by simp [Draft.beginHandler, await, Anchor.isHandlerStart]⟩
  · rcases (hstarts i).1 hi with h | rfl
    · exact hd.le i h
    · exact Nat.le_refl _

theorem Flagged.endBranch (hd : d.Flagged) (chain : Nat) : (d.endBranch chain).Flagged := by
  refine hd.jumpOut.of_eq rfl (by simp [Draft.endBranch, Draft.await, Draft.modifyChain, Anchor.isHandlerStart]) ?_
  rw [ranges_endBranch, records_jumpOut]

theorem entering_endChain (chain : Nat) : (d.endChain chain).entering = d.entering := by
  rw [endChain, Records.chainEnd]
  cases d.records.hasElse chain <;> cases d.records.hasSkips chain <;>
    simp [awaitAll, await, Anchor.isHandlerStart]

theorem Step.flagged (h : Step d d') (hs : d.Sound) (hd : d.Flagged) : d'.Flagged := by
  cases h with
  | append op => exact hd.append op
  | beginRange =>
    refine hd.of_eq rfl (by simp [Draft.beginRange, Draft.await, Anchor.isHandlerStart]) ?_
    rw [ranges_beginRange]
    simp [handlerStarts]
  | @beginHandler range outer catches hopened =>
    refine (hd.endGuarded range).beginHandler ?_ catches
    refine (hs.endGuarded range).range_lt range ?_
    simp [hopened]
  | endRange hopened hhandlers =>
    refine hd.of_eq rfl (by simp [Draft.await, Draft.popOpen, Anchor.isHandlerStart]) ?_
    exact handlerStarts_modify fun g => rfl
  | beginChain test => exact (hd.append _).of_eq rfl rfl rfl
  | endBranch hopened helse => exact hd.endBranch _
  | addBranch test hopened => exact (hd.append _).of_eq rfl rfl rfl
  | @beginElse chain outer hopened helse => exact (hd.endBranch chain).of_eq rfl rfl rfl
  | @endChain chain outer hopened =>
    refine hd.of_eq (lines_endChain ..) (entering_endChain ..) ?_
    rw [ranges_endChain]
    rfl

theorem Reaches.flagged (h : Reaches d d') (hs : d.Sound) (hd : d.Flagged) : d'.Flagged := by
  induction h with
  | refl => exact hd
  | tail hreach hlast ih => exact hlast.flagged (Reaches.sound hreach hs) ih

/-- The return at the end of a draft starts a handler if one waits for it. -/
theorem Flagged.ensureReturn (hd : d.Flagged) : d.ensureReturn.Flagged := by
  unfold Draft.ensureReturn
  split
  · exact hd.append _
  · exact hd

/-! ### In front of a handler -/

/-- The last instruction never goes on to the next. -/
def Halted (d : Draft) : Prop := ∃ line, d.lines.getLast? = some line ∧ line.opcode.isTerminal = true

/-- Where control cannot reach the next instruction, and wherever a handler starts, the instruction in
front never goes on. -/
structure Shielded (d : Draft) : Prop where
  dead : d.live = false → d.Halted
  entering : d.entering = true → d.Halted
  lines : ∀ (i : Nat) line, d.lines[i]? = some line → line.entry = true →
    ∃ (j : Nat) (front : Line), i = j + 1 ∧ d.lines[j]? = some front ∧ front.opcode.isTerminal = true

/-- Behind an instruction that goes on to the next no handler starts. -/
theorem Shielded.not_entry (hd : d.Shielded) {i : Nat} {op : Opcode} {line : Line} (hfront : d.opcodes[i]? = some op)
    (hop : op.isTerminal = false) (hline : d.lines[i + 1]? = some line) : line.entry = false := by
  rw [← Bool.not_eq_true]
  intro hentry
  obtain ⟨j, front, hij, hj, hterminal⟩ := hd.lines (i + 1) line hline hentry
  obtain rfl : i = j := Nat.succ.inj hij
  rw [opcodes, List.getElem?_map, hj, Option.map_some, Option.some.injEq] at hfront
  rw [hfront, hop] at hterminal
  cases hterminal

theorem shielded_empty : empty.Shielded := by
  refine ⟨?_, ?_, ?_⟩ <;> simp [empty]

theorem halted_append {op : Opcode} (hop : op.isTerminal = true) : (d.append op).Halted :=
  ⟨_, List.getLast?_concat, hop⟩

theorem Shielded.append (hd : d.Shielded) (op : Opcode) : (d.append op).Shielded where
  dead h := halted_append (by simpa [Draft.append] using h)
  entering h := nomatch h
  lines i line hi hentry := by
    have hlines : (d.append op).lines = d.lines ++ [⟨op, d.entering⟩] := rfl
    rw [hlines, List.getElem?_append] at hi
    rw [hlines]
    split at hi
    · obtain ⟨j, front, rfl, hj, hterminal⟩ := hd.lines i line hi hentry
      exact ⟨j, front, rfl, by rw [List.getElem?_append_left (by omega), hj], hterminal⟩
    · next hge =>
      obtain ⟨hlt, rfl⟩ := List.getElem?_eq_some_iff.1 hi
      obtain ⟨front, hlast, hterminal⟩ := hd.entering (by simpa using hentry)
      rw [List.getLast?_eq_getElem?] at hlast
      have hpos := (List.getElem?_eq_some_iff.1 hlast).1
      simp only [List.length_singleton] at hlt
      exact ⟨d.lines.length - 1, front, by omega, by rw [List.getElem?_append_left hpos, hlast], hterminal⟩

/-- A step that adds no instruction. A handler may only be begun behind an instruction that never goes on. -/
theorem Shielded.of_lines_eq (hd : d.Shielded) (hlines : d'.lines = d.lines) (hlive : d.live = true → d'.live = true)
    (hentering : d'.entering = true → d.entering = true ∨ d.Halted) : d'.Shielded where
  dead h := by
    rw [Halted, hlines]
    refine hd.dead (Bool.eq_false_iff.2 fun hold => ?_)
    rw [hlive hold] at h
    cases h
  entering h := by
    rw [Halted, hlines]
    exact (hentering h).elim hd.entering id
  lines := by
    rw [hlines]
    exact hd.lines

theorem Shielded.jumpOut (hd : d.Shielded) : d.jumpOut.Shielded ∧ d.jumpOut.Halted := by
  unfold Draft.jumpOut
  split
  · exact ⟨hd.append _, halted_append rfl⟩
  · next hlive => exact ⟨hd, hd.dead (by simpa using hlive)⟩

theorem Shielded.endGuarded (hd : d.Shielded) (range : Nat) :
    (d.endGuarded range).Shielded ∧ (d.endGuarded range).Halted := by
  unfold Draft.endGuarded
  split
  · exact ⟨(hd.append (.goto 0)).of_lines_eq rfl id .inl, halted_append rfl⟩
  · obtain ⟨hjump, hhalted⟩ := hd.jumpOut
    exact ⟨hjump.of_lines_eq rfl id .inl, hhalted⟩

theorem Shielded.endBranch (hd : d.Shielded) (chain : Nat) : (d.endBranch chain).Shielded := by
  refine hd.jumpOut.1.of_lines_eq rfl (fun _ => rfl) fun h => .inl ?_
  simpa [Draft.endBranch, await, Draft.modifyChain, Anchor.isHandlerStart] using h

theorem live_endChain (chain : Nat) (h : d.live = true) : (d.endChain chain).live = true := by
  rw [endChain, Records.chainEnd]
  cases d.records.hasElse chain <;> cases d.records.hasSkips chain <;> simp [awaitAll, await, h]

theorem Step.shielded (h : Step d d') (hd : d.Shielded) : d'.Shielded := by
  cases h with
  | append op => exact hd.append op
  | beginRange =>
    refine hd.of_lines_eq rfl (fun _ => rfl) fun h => .inl ?_
    simpa [Draft.beginRange, await, Anchor.isHandlerStart] using h
  | beginHandler catches hopened =>
    obtain ⟨hend, hhalted⟩ := hd.endGuarded _
    exact hend.of_lines_eq rfl (fun _ => rfl) fun _ => .inr hhalted
  | endRange hopened hhandlers =>
    refine hd.of_lines_eq rfl (fun _ => rfl) fun h => .inl ?_
    simpa [await, popOpen, Anchor.isHandlerStart] using h
  | beginChain test => exact (hd.append _).of_lines_eq rfl id .inl
  | endBranch hopened helse => exact hd.endBranch _
  | addBranch test hopened => exact (hd.append _).of_lines_eq rfl id .inl
  | @beginElse chain outer hopened helse => exact (hd.endBranch chain).of_lines_eq rfl id .inl
  | endChain hopened =>
    refine hd.of_lines_eq (lines_endChain _) (live_endChain (d := d.popOpen) _) fun h => .inl ?_
    rw [entering_endChain] at h
    exact h

theorem Reaches.shielded (h : Reaches d d') (hd : d.Shielded) : d'.Shielded := h.keeps Step.shielded hd

theorem Shielded.ensureReturn (hd : d.Shielded) : d.ensureReturn.Shielded := by
  unfold Draft.ensureReturn
  split
  · exact hd.append _
  · exact hd

end Draft

end BlockAssembler
