import BlockAssembler.Proofs.Block.Reports

/-! Which malformed streams are refused for every kind of block. A function and a module are
asked about their open structures whatever is in them. A method is asked first whether it
does anything; so guarded ranges that are begun and never ended go unnoticed in it, if
nothing comes in or in front of them but a return of nothing at the very end. -/

namespace BlockAssembler

namespace Item

/-- Begins guarded ranges, one in the other. -/
def begins (n : Nat) : List Item := List.replicate n .beginTry

/-- The instructions of a stream without markers other than those that begin guarded ranges. -/
def straight : List Item → Option (List Opcode)
  | [] => some []
  | .op opcode :: items => (straight items).map (opcode :: ·)
  | .beginTry :: items => straight items
  | _ => none

/-- The stream does no more than begin guarded ranges and return nothing at the very end. -/
def Idle (items : List Item) : Prop :=
  ∃ m n, items = begins m ∨ items = begins m ++ [.op .voidReturn] ∨
    items = begins m ++ .op .aconstNull :: (begins n ++ [.op .areturn])

theorem straight_begins_append (n : Nat) (items : List Item) : straight (begins n ++ items) = straight items := by
  induction n with
  | zero => rfl
  | succ n ih => exact ih

theorem eq_begins_of_straight {items : List Item} (h : straight items = some []) : ∃ n, items = begins n := by
  fun_induction straight items with
  | case1 => exact ⟨0, rfl⟩
  | case2 opcode items ih => simp at h
  | case3 items ih =>
    obtain ⟨n, rfl⟩ := ih h
    exact ⟨n + 1, rfl⟩
  | case4 => cases h

theorem eq_op_of_straight {items : List Item} {opcode : Opcode} {opcodes : List Opcode}
    (h : straight items = some (opcode :: opcodes)) :
    ∃ n rest, items = begins n ++ .op opcode :: rest ∧ straight rest = some opcodes := by
  fun_induction straight items with
  | case1 => cases h
  | case2 opcode items ih =>
    obtain ⟨opcodes, hrest, heq⟩ := Option.map_eq_some_iff.1 h
    cases heq
    exact ⟨0, items, rfl, hrest⟩
  | case3 items ih =>
    obtain ⟨n, rest, rfl, hrest⟩ := ih h
    exact ⟨n + 1, rest, rfl, hrest⟩
  | case4 => cases h

end Item

open Item

namespace Draft

variable {d d' : Draft} {items : List Item}

/-- No chain is open, and no guarded range has a handler. -/
structure Bare (d : Draft) : Prop where
  opened : ∀ chain, .chain chain ∉ d.opened
  handlers : ∀ range, d.records.handlerCount range = 0

theorem bare_empty : empty.Bare := ⟨by simp [empty], by simp [empty, Records.handlerCount]⟩

theorem Bare.append (hd : d.Bare) (op : Opcode) : (d.append op).Bare := ⟨hd.opened, hd.handlers⟩

theorem Bare.beginRange (hd : d.Bare) : (d.beginRange.await (.tryStart d.records.ranges.length)).Bare where
  opened chain h := by
    rcases List.mem_cons.1 h with h | h
    · cases h
    · exact hd.opened chain h
  handlers range := by
    have hold := hd.handlers range
    rw [Records.handlerCount] at hold ⊢
    rw [ranges_beginRange, List.getElem?_append]
    split
    · exact hold
    · cases (range - d.records.ranges.length) <;> simp

/-! ### Streams without jumps -/

/-- Every marker but the one that begins a guarded range needs a jump, a handler or a chain. -/
theorem Bare.emit_cases (hd : d.Bare) {item : Item} (h : emit item d = .ok d')
    (hplain : ∀ op ∈ d'.opcodes, op.isJump = false) :
    (∃ op, item = .op op ∧ d' = d.append op) ∨
      item = .beginTry ∧ d' = d.beginRange.await (.tryStart d.records.ranges.length) := by
  have hclosed {chain : Nat} {outer : List Open} : d.opened ≠ .chain chain :: outer :=
    fun hopened => hd.opened chain (by simp [hopened])
  cases item with
  | op opcode => exact .inl ⟨opcode, rfl, emit_op_eq_ok h⟩
  | beginTry => exact .inr ⟨rfl, emit_beginTry_eq_ok h⟩
  | beginCatch catches =>
    obtain ⟨range, outer, -, rfl⟩ := emit_beginCatch_eq_ok h
    have hjump : Opcode.goto 0 ∈ ((d.endGuarded range).beginHandler range catches).opcodes := by
      rw [opcodes_beginHandler, endGuarded, if_pos (hd.handlers range)]
      show _ ∈ (d.append (.goto 0)).opcodes
      simp
    cases hplain _ hjump
  | endTry =>
    obtain ⟨range, -, -, hhandlers, -⟩ := emit_endTry_eq_ok h
    exact absurd (hd.handlers range) hhandlers
  | beginIf condition test =>
    obtain ⟨d₁, -, rfl⟩ := emit_beginIf_eq_ok h
    have hjump : Opcode.branch test 0 ∈ ((d₁.append (.branch test 0)).beginChain d₁.size).opcodes := by
      show _ ∈ (d₁.append (.branch test 0)).opcodes
      simp
    cases hplain _ hjump
  | elseIf condition test =>
    obtain ⟨chain, outer, outer', d₁, hopened, -⟩ := emit_elseIf_eq_ok h
    exact absurd hopened hclosed
  | beginElse =>
    obtain ⟨chain, outer, hopened, -⟩ := emit_beginElse_eq_ok h
    exact absurd hopened hclosed
  | endIf =>
    obtain ⟨chain, outer, hopened, -⟩ := emit_endIf_eq_ok h
    exact absurd hopened hclosed

theorem Bare.straight_of_emitAll (hd : d.Bare) (h : emitAll items d = .ok d')
    (hplain : ∀ op ∈ d'.opcodes, op.isJump = false) :
    ∃ ops, straight items = some ops ∧ d'.opcodes = d.opcodes ++ ops := by
  induction items generalizing d with
  | nil =>
    obtain rfl := emitAll_nil_eq_ok h
    exact ⟨[], rfl, by simp⟩
  | cons item items ih =>
    obtain ⟨d₁, hitem, hitems⟩ := emitAll_cons_eq_ok h
    have hgrows := prefix_opcodes (reaches_of_emitAll items d₁ d' hitems).prefix_lines
    rcases hd.emit_cases hitem fun op hop => hplain op (hgrows.subset hop) with ⟨op, rfl, rfl⟩ | ⟨rfl, rfl⟩
    · obtain ⟨ops, hstraight, hops⟩ := ih (hd.append op) hitems
      refine ⟨op :: ops, by simp [straight, hstraight], ?_⟩
      rw [hops, opcodes_append, List.append_assoc]
      rfl
    · obtain ⟨ops, hstraight, hops⟩ := ih hd.beginRange hitems
      exact ⟨ops, hstraight, hops⟩

theorem emitAll_straight {ops : List Opcode} (hstraight : straight items = some ops) (d : Draft) :
    ∃ d', emitAll items d = .ok d' ∧ d'.opcodes = d.opcodes ++ ops := by
  fun_induction straight items generalizing d ops with
  | case1 =>
    cases hstraight
    exact ⟨d, rfl, by simp⟩
  | case2 opcode items ih =>
    obtain ⟨ops, hrest, rfl⟩ := Option.map_eq_some_iff.1 hstraight
    obtain ⟨d', hitems, hops⟩ := ih hrest (d.append opcode)
    refine ⟨d', hitems, ?_⟩
    rw [hops, opcodes_append, List.append_assoc]
    rfl
  | case3 items ih => exact ih hstraight (d.beginRange.await (.tryStart d.records.ranges.length))
  | case4 => cases hstraight

/-- Behind an instruction control goes on as that instruction says. -/
theorem live_of_emitAll_op {op : Opcode} (h : emitAll (items ++ [.op op]) d = .ok d') :
    d'.live = !op.isTerminal := by
  rw [emitAll_append, except_bind_eq_ok] at h
  obtain ⟨d₁, -, h⟩ := h
  obtain ⟨d₂, hop, hnil⟩ := emitAll_cons_eq_ok h
  obtain rfl := emit_op_eq_ok hop
  obtain rfl := emitAll_nil_eq_ok hnil
  rfl

/-- The beginning of a guarded range waits for an instruction. -/
theorem live_of_emitAll_begins {n : Nat} (hn : n ≠ 0) (h : emitAll (items ++ begins n) d = .ok d') :
    d'.live = true := by
  obtain ⟨n, rfl⟩ := Nat.exists_eq_succ_of_ne_zero hn
  rw [begins, List.replicate_succ', ← List.append_assoc, emitAll_append, except_bind_eq_ok] at h
  obtain ⟨d₁, -, h⟩ := h
  obtain ⟨d₂, hbegin, hnil⟩ := emitAll_cons_eq_ok h
  obtain rfl := emit_beginTry_eq_ok hbegin
  obtain rfl := emitAll_nil_eq_ok hnil
  rfl

/-! ### Streams that seem to do nothing -/

/-- Where control cannot go on, a stream does not end by beginning guarded ranges. -/
theorem eq_op_last (before : List Item) {op : Opcode} {rest : List Item} (hlive : d.live = false)
    (hrest : straight rest = some []) (h : emitAll (before ++ .op op :: rest) .empty = .ok d) : rest = [] := by
  obtain ⟨n, rfl⟩ := eq_begins_of_straight hrest
  have hn : n = 0 := by
    by_contra hn
    rw [List.append_cons] at h
    rw [live_of_emitAll_begins hn h] at hlive
    cases hlive
  subst hn
  rfl

theorem idle_of_trivial (h : emitAll items .empty = .ok d) (htrivial : d.ensureReturn.Trivial) :
    Idle items := by
  have hgrows : d.opcodes <+: d.ensureReturn.opcodes := by
    unfold ensureReturn
    split
    · exact ⟨_, (opcodes_append _).symm⟩
    · exact List.prefix_rfl
  have hplain : ∀ op ∈ d.opcodes, op.isJump = false := by
    intro op hop
    have hmem := hgrows.subset hop
    rcases htrivial with h | h <;> rw [h] at hmem
    · obtain rfl : op = .voidReturn := by simpa using hmem
      rfl
    · obtain rfl | rfl : op = .aconstNull ∨ op = .areturn := by simpa using hmem
      · rfl
      · rfl
  obtain ⟨ops, hstraight, hops⟩ := bare_empty.straight_of_emitAll h hplain
  obtain rfl : d.opcodes = ops := hops
  rw [Trivial, ensureReturn] at htrivial
  split at htrivial
  · -- the return is the one that has been added
    rw [opcodes_append] at htrivial
    have hempty : d.opcodes = [] := by
      rcases htrivial with h | h
      · simpa using h
      · simpa using congrArg List.getLast? h
    rw [hempty] at hstraight
    obtain ⟨n, rfl⟩ := eq_begins_of_straight hstraight
    exact ⟨n, 0, .inl rfl⟩
  · next hneeded =>
    have hlive : d.live = false := by simp_all
    rcases htrivial with hvoid | hnull
    · rw [hvoid] at hstraight
      obtain ⟨m, rest, rfl, hrest⟩ := eq_op_of_straight hstraight
      obtain rfl := eq_op_last (begins m) hlive hrest h
      exact ⟨m, 0, .inr (.inl rfl)⟩
    · rw [hnull] at hstraight
      obtain ⟨m, rest, rfl, hrest⟩ := eq_op_of_straight hstraight
      obtain ⟨n, rest', rfl, hrest'⟩ := eq_op_of_straight hrest
      obtain rfl := eq_op_last (begins m ++ .op .aconstNull :: begins n) hlive hrest' (by simpa using h)
      exact ⟨m, n, .inr (.inr rfl)⟩

/-- A stream that does no more than begin guarded ranges and return nothing is accepted. -/
theorem exists_of_idle (hidle : Idle items) : ∃ d, emitAll items .empty = .ok d ∧ d.ensureReturn.Trivial := by
  have hreturns (before : List Item) (ops : List Opcode) (last : Opcode) (hlast : last.isReturn = true)
      (hstraight : straight (before ++ [.op last]) = some (ops ++ [last])) :
      ∃ d, emitAll (before ++ [.op last]) .empty = .ok d ∧ d.ensureReturn.opcodes = ops ++ [last] := by
    obtain ⟨d, h, hops⟩ := emitAll_straight hstraight .empty
    have hlive := live_of_emitAll_op h
    refine ⟨d, h, ?_⟩
    rw [ensureReturn, if_neg, hops]
    · rfl
    · cases last <;> simp_all [Opcode.isReturn, Opcode.isTerminal]
  obtain ⟨m, n, rfl | rfl | rfl⟩ := hidle
  · have hstraight : straight (begins m) = some [] := by simpa [straight] using straight_begins_append m []
    obtain ⟨d, h, hops⟩ := emitAll_straight hstraight .empty
    have hempty : d.opcodes = [] := hops
    refine ⟨d, h, .inl ?_⟩
    rw [ensureReturn, if_pos (by simp [hempty]), opcodes_append, hempty]
    rfl
  · obtain ⟨d, h, hops⟩ := hreturns (begins m) [] .voidReturn rfl (straight_begins_append m _)
    exact ⟨d, h, .inl hops⟩
  · obtain ⟨d, h, hops⟩ := hreturns (begins m ++ .op .aconstNull :: begins n) [.aconstNull]
      .areturn rfl (by
        rw [List.append_assoc, straight_begins_append, List.cons_append, straight, straight_begins_append]
        rfl)
    exact ⟨d, by simpa using h, .inr hops⟩

theorem trivial_iff_idle (h : emitAll items .empty = .ok d) : d.ensureReturn.Trivial ↔ Idle items := by
  refine ⟨idle_of_trivial h, fun hidle => ?_⟩
  obtain ⟨d', h', htrivial⟩ := exists_of_idle hidle
  obtain rfl := Except.ok.inj (h.symm.trans h')
  exact htrivial

end Draft

namespace Block

variable {b : Block}

/-- The same commands as the body of a unit of another kind. -/
def withKind (b : Block) (kind : BlockKind) : Block := { b with kind := kind }

/-- A malformed block is refused with one and the same cause whatever unit it is the body of. Only as
a method it is left out instead, exactly if it does no more than begin guarded ranges and return
nothing. -/
theorem refused_iff_not_idle (b : Block) {locals : Locals} (hlocals : b.stream.2 = .ok locals)
    (hmalformed : b.Malformed) : ∃ cause, ∀ kind,
      (¬ (kind = .method ∧ Idle b.stream.1) →
        (b.withKind kind).compile.1 = .error (.malformedStructure cause)) ∧
      (kind = .method ∧ Idle b.stream.1 → (b.withKind kind).compile.1 = .ok .ignored) := by
  rw [malformed_iff, hlocals] at hmalformed
  cases h : Draft.emitAll b.stream.1 .empty with
  | error cause =>
    refine ⟨cause, fun kind => ⟨fun _ => (compile_refused (b := b.withKind kind) h).1, ?_⟩⟩
    rintro ⟨-, hidle⟩
    obtain ⟨d, h', -⟩ := Draft.exists_of_idle hidle
    cases h.symm.trans h'
  | ok d =>
    rw [h] at hmalformed
    rw [← Draft.trivial_iff_idle h]
    refine ⟨.unterminated, fun kind => ⟨fun hkept => ?_, fun hleft => ?_⟩⟩
    · exact compile_open (b := b.withKind kind) h hlocals hmalformed hkept
    · exact (compile_ignored (b := b.withKind kind) h hlocals hleft.1 hleft.2).1

/-- A guarded range that is begun and not ended. -/
def unended : Block := (new .method ⟨"Main", .standard, .standard⟩).extend [.mk (.raw [.beginTry]) []]

theorem malformed_unended : unended.Malformed := by
  rw [malformed_iff]
  exact List.cons_ne_nil _ _

theorem refused_unended : ∃ cause, ∀ kind,
    (¬ (kind = .method ∧ Idle unended.stream.1) →
      (unended.withKind kind).compile.1 = .error (.malformedStructure cause)) ∧
    (kind = .method ∧ Idle unended.stream.1 → (unended.withKind kind).compile.1 = .ok .ignored) :=
  refused_iff_not_idle unended rfl malformed_unended

theorem not_refused_as_method : ¬ ∀ (b : Block) (locals : Locals), b.stream.2 = .ok locals → b.Malformed →
    ∃ cause, ∀ kind, (b.withKind kind).compile.1 = .error (.malformedStructure cause) := by
  intro hrefused
  obtain ⟨cause, hcause⟩ := hrefused unended _ rfl malformed_unended
  have hignored : (unended.withKind .method).compile.1 = .ok .ignored := by decide +kernel
  cases hignored.symm.trans (hcause .method)

end Block

end BlockAssembler
