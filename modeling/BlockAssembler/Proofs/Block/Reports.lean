import BlockAssembler.Proofs.Block.Stream

/-! What becomes of every block. A block is turned into a code object, left out, or refused
for a cause. Two slips keep malformed streams from being refused as such: a chain that is
torn goes unnoticed until a jump has nowhere to land, and a method that seems to do
nothing is left out before anyone asks which structures are still open. -/

namespace BlockAssembler

/-- A stream tears a chain of its records exactly if it is tangled. -/
theorem Draft.torn_iff_tangled {items : List Item} {d : Draft} (h : emitAll items .empty = .ok d) :
    d.Torn ↔ Item.tangledAll items = true := by
  have hempty : ¬ Draft.empty.Torn := by simp [Torn, empty]
  rw [torn_of_emitAll items .empty d sound_empty h]
  simp [hempty]

theorem Draft.records_ensureReturn (d : Draft) : d.ensureReturn.records = d.records := by
  unfold ensureReturn
  split <;> rfl

theorem Draft.opened_ensureReturn (d : Draft) : d.ensureReturn.opened = d.opened := by
  unfold ensureReturn
  split <;> rfl

theorem Draft.Sound.ensureReturn {d : Draft} (hd : d.Sound) : d.ensureReturn.Sound := by
  unfold Draft.ensureReturn
  split
  · exact hd.append _
  · exact hd

/-- With the return of a stream, the same is open and the same is torn. -/
theorem Builder.opened_torn {b : Builder} {d : Draft} (hdraft : b.draft = d.ensureReturn) (hp : b.pending = #[]) :
    b.opened = d.opened ∧ (b.records.Torn ↔ d.Torn) := by
  constructor
  · rw [← Draft.opened_ensureReturn, ← hdraft]
    rfl
  · rw [← draft_of_settled hp, hdraft, Draft.records_ensureReturn]
    exact Iff.rfl

namespace Block

/-- A marker of the stream does not fit, a command has no branches or no handlers, or a
structure is left open. -/
def Malformed (b : Block) : Prop :=
  match (Builder.emitAll b.stream.1).run Builder.empty, b.stream.2 with
  | .error .., _ => True
  | .ok .., .error e => ∃ cause, e = .malformedStructure cause
  | .ok _ builder, .ok _ => builder.opened ≠ []

/-- The block meets no contradiction, and is refused as malformed if it is. -/
structure Reported (b : Block) : Prop where
  faultless : ∀ f, b.compile.1 ≠ .error (.internal f)
  malformed : b.Malformed → ∃ cause, b.compile.1 = .error (.malformedStructure cause)

/-- The steps in front of the adjustment of the end. -/
def completion (b : Block) : Assembly Locals := do
  let locals ← addAll b.module b.commands.toList b.scope.locals
  Builder.ensureReturn
  return locals

/-- The steps in front of the assembly: whether the block is kept, and the number of names. -/
def preparation (b : Block) : Assembly (Bool × Nat) := do
  let locals ← addAll b.module b.commands.toList b.scope.locals
  Builder.ensureReturn
  let kept ← Builder.adjust b.kind
  return (kept, locals.size)

def start (b : Block) : Builder := { Builder.empty with journal := b.scope.journal }

/-- What a block that is kept is assembled from. -/
def prepared (b : Block) : Option (Builder × Nat) :=
  match b.preparation.run b.start with
  | .ok (true, names) builder => some (builder, names)
  | _ => none

/-- A condition continues the chain of its own branch, and no check fails before a jump of that
chain is asked where it lands. -/
def Torn (b : Block) : Prop :=
  Item.tangledAll b.stream.1 = true ∧ ∃ builder names, b.prepared = some (builder, names) ∧
    builder.checkLimits names = .ok () ∧ ∀ link ∈ Builder.resolved builder.links, builder.Fits link

/-- A method seems to do nothing, but leaves a structure open. -/
def Overlooked (b : Block) : Prop :=
  b.kind = .method ∧ ∃ builder builder' locals, (Builder.emitAll b.stream.1).run Builder.empty = .ok () builder ∧
    b.stream.2 = .ok locals ∧ builder.opened ≠ [] ∧ Builder.ensureReturn.run builder = .ok () builder' ∧
    builder'.isTrivial = true

variable {b : Block}

theorem compile_fst (b : Block) : b.compile.1 =
    match b.assembly.run b.start with
    | .ok result _ => .ok result
    | .error e _ => .error e := by
  rw [compile]
  show (match b.assembly.run b.start with
    | .ok result builder => ((.ok result, builder.journal) : Except AssemblyError Compiled × Journal)
    | .error e builder => (.error e, builder.journal)).1 = _
  cases b.assembly.run b.start <;> rfl

/-- The end is adjusted, and a sequence that is kept is assembled. -/
theorem assembly_eq (b : Block) : b.assembly = (do
    let locals ← b.completion
    if ← Builder.adjust b.kind then
      let code ← Builder.assemble locals.size
      Builder.note (.compiled b.kind b.module.descriptor b.commands.size code.length)
      return .code code
    else return .ignored) := by
  simp only [assembly, completion, bind_assoc, pure_bind]

theorem preparation_eq (b : Block) : b.preparation = (do
    let locals ← b.completion
    let kept ← Builder.adjust b.kind
    return (kept, locals.size)) := by
  simp only [preparation, completion, bind_assoc, pure_bind]

theorem intact_start (b : Block) : b.start.Intact := Builder.intact_empty b.scope.journal

theorem draft_start (b : Block) : b.start.draft = Draft.empty := Builder.draft_empty b.scope.journal

theorem addAll_start (b : Block) :
    Follows (addAll b.module b.commands.toList b.scope.locals) b.start (Draft.emitAll b.stream.1 .empty)
      b.stream.2 := by
  have hfollows := addAll_follows b.module b.commands.toList b.scope.locals b.start b.intact_start
    (b.draft_start ▸ Draft.sound_empty)
  rwa [draft_start] at hfollows

/-- The markers of a stream are followed by the draft of the stream, too. -/
theorem malformed_iff (b : Block) : b.Malformed ↔
    match Draft.emitAll b.stream.1 .empty, b.stream.2 with
    | .error _, _ => True
    | .ok _, .error e => ∃ cause, e = .malformedStructure cause
    | .ok d, .ok _ => d.opened ≠ [] := by
  have hfollows := Builder.emitAll_empty_follows b.stream.1
  rw [Malformed]
  cases h : Draft.emitAll b.stream.1 .empty with
  | error cause =>
    rw [h] at hfollows
    obtain ⟨builder, hrun⟩ := hfollows
    rw [hrun]
  | ok d =>
    rw [h] at hfollows
    obtain ⟨builder, hrun, -, rfl⟩ := hfollows
    rw [hrun]
    cases b.stream.2 <;> exact Iff.rfl

theorem overlooked_iff (b : Block) : b.Overlooked ↔ b.kind = .method ∧
    ∃ d locals, Draft.emitAll b.stream.1 .empty = .ok d ∧ b.stream.2 = .ok locals ∧ d.opened ≠ [] ∧
      d.ensureReturn.Trivial := by
  have hfollows := Builder.emitAll_empty_follows b.stream.1
  refine and_congr_right fun _ => ?_
  cases h : Draft.emitAll b.stream.1 .empty with
  | error cause =>
    rw [h] at hfollows
    obtain ⟨builder, hrun⟩ := hfollows
    constructor
    · rintro ⟨_, _, _, hrun', -⟩
      rw [hrun] at hrun'
      cases hrun'
    · rintro ⟨_, _, hd, -⟩
      cases hd
  | ok d =>
    rw [h] at hfollows
    obtain ⟨builder, hrun, hintact, rfl⟩ := hfollows
    obtain ⟨left, hreturn, hintact', hdraft, -⟩ := Builder.ensureReturn_settles hintact
    have htrivial : left.isTrivial = true ↔ builder.draft.ensureReturn.Trivial := by
      rw [← hdraft, Builder.isTrivial_iff hintact']
    constructor
    · rintro ⟨x, y, locals, hx, hlocals, hopened, hy, htrivial'⟩
      rw [hrun] at hx
      cases hx
      rw [hreturn] at hy
      cases hy
      exact ⟨_, locals, rfl, hlocals, hopened, htrivial.1 htrivial'⟩
    · rintro ⟨d, locals, hd, hlocals, hopened, htrivial'⟩
      obtain rfl := Except.ok.inj hd
      exact ⟨builder, left, locals, hrun, hlocals, hopened, hreturn, htrivial.2 htrivial'⟩

/-! ### The ways of a block -/

theorem compile_stopped {e : AssemblyError} {left : Builder} (h : b.completion.run b.start = .error e left) :
    b.compile.1 = .error e ∧ b.prepared = none := by
  refine ⟨?_, ?_⟩
  · rw [compile_fst, assembly_eq, bind_error h]
  · rw [prepared, preparation_eq, bind_error h]

theorem completion_refused {cause : Malformation} (h : Draft.emitAll b.stream.1 .empty = .error cause) :
    ∃ left, b.completion.run b.start = .error (.malformedStructure cause) left := by
  have hfollows := b.addAll_start
  rw [h] at hfollows
  obtain ⟨left, hrun⟩ := hfollows
  exact ⟨left, by rw [completion, bind_error hrun]⟩

theorem compile_refused {cause : Malformation} (h : Draft.emitAll b.stream.1 .empty = .error cause) :
    b.compile.1 = .error (.malformedStructure cause) ∧ b.prepared = none := by
  obtain ⟨left, hrun⟩ := completion_refused h
  exact compile_stopped hrun

section
variable {d : Draft} {locals : Locals}

theorem completion_unlowered {e : AssemblyError} (h : Draft.emitAll b.stream.1 .empty = .ok d)
    (he : b.stream.2 = .error e) : ∃ left, b.completion.run b.start = .error e left := by
  have hfollows := b.addAll_start
  rw [h, he] at hfollows
  obtain ⟨left, hrun⟩ := hfollows
  exact ⟨left, by rw [completion, bind_error hrun]⟩

theorem compile_unlowered {e : AssemblyError} (h : Draft.emitAll b.stream.1 .empty = .ok d)
    (he : b.stream.2 = .error e) : b.compile.1 = .error e ∧ b.prepared = none := by
  obtain ⟨left, hrun⟩ := completion_unlowered h he
  exact compile_stopped hrun

/-- The builder of a block whose commands have all been added, with its return. -/
theorem completion_start (h : Draft.emitAll b.stream.1 .empty = .ok d) (hlocals : b.stream.2 = .ok locals) :
    ∃ builder, b.completion.run b.start = .ok locals builder ∧ builder.Intact ∧ builder.draft = d.ensureReturn ∧
      builder.pending = #[] := by
  have hfollows := b.addAll_start
  rw [h, hlocals] at hfollows
  obtain ⟨builder, hrun, hintact, rfl⟩ := hfollows
  obtain ⟨builder', hrun', hend⟩ := Builder.ensureReturn_settles hintact
  exact ⟨builder', by rw [completion, bind_ok hrun, bind_ok hrun', EStateM.run_pure], hend⟩

section
variable {before after left : Builder} {c : Code}

theorem compile_code (hcompletion : b.completion.run b.start = .ok locals before)
    (hadjust : (Builder.adjust b.kind).run before = .ok true after)
    (hcode : (Builder.assemble locals.size).run after = .ok c left) : b.compile.1 = .ok (.code c) := by
  rw [compile_fst, assembly_eq, bind_ok hcompletion, bind_ok hadjust, if_pos rfl, bind_ok hcode, Builder.note_bind]
  rfl

theorem compile_leftOut (hcompletion : b.completion.run b.start = .ok locals before)
    (hadjust : (Builder.adjust b.kind).run before = .ok false after) :
    b.compile.1 = .ok .ignored ∧ b.prepared = none := by
  refine ⟨?_, ?_⟩
  · rw [compile_fst, assembly_eq, bind_ok hcompletion, bind_ok hadjust]
    rfl
  · rw [prepared, preparation_eq, bind_ok hcompletion, bind_ok hadjust]
    rfl

end

theorem compile_ignored (h : Draft.emitAll b.stream.1 .empty = .ok d) (hlocals : b.stream.2 = .ok locals)
    (hkind : b.kind = .method) (htrivial : d.ensureReturn.Trivial) :
    b.compile.1 = .ok .ignored ∧ b.prepared = none := by
  obtain ⟨builder, hcompletion, hintact, hdraft, -⟩ := completion_start h hlocals
  obtain ⟨left, hadjust⟩ := Builder.adjust_trivial hintact (hdraft ▸ htrivial)
  exact compile_leftOut hcompletion (hkind ▸ hadjust)

/-- A block that is kept is assembled, with the structures open that its stream leaves open. -/
theorem compile_kept (h : Draft.emitAll b.stream.1 .empty = .ok d) (hlocals : b.stream.2 = .ok locals)
    (hkept : ¬ (b.kind = .method ∧ d.ensureReturn.Trivial)) :
    ∃ builder, b.prepared = some (builder, locals.size) ∧ builder.opened = d.opened ∧ builder.pending = #[] ∧
      builder.Arranged ∧ (d.opened = [] → builder.Sturdy ∧ (builder.records.Torn ↔ d.Torn)) ∧
      ∀ e, b.compile.1 = .error e ↔ ∃ left, (Builder.assemble locals.size).run builder = .error e left := by
  obtain ⟨returned, hcompletion, hintact, hdraft, hp⟩ := completion_start h hlocals
  have hsound : returned.draft.Sound := by
    rw [hdraft]
    exact (Draft.Reaches.sound (Draft.reaches_of_emitAll _ _ _ h) Draft.sound_empty).ensureReturn
  obtain ⟨hopened, htorn⟩ := Builder.opened_torn hdraft hp
  obtain ⟨builder, hadjust, hopened', hp', harranged, hend⟩ :=
    Builder.adjust_run hintact hp hsound b.kind (by rwa [hdraft])
  refine ⟨builder, ?_, hopened'.trans hopened, hp', harranged, fun hclosed => ?_, fun e => ?_⟩
  · rw [prepared, preparation_eq, bind_ok hcompletion, bind_ok hadjust]
    rfl
  · obtain ⟨hsturdy, htorn'⟩ := hend (hopened.trans hclosed)
    exact ⟨hsturdy, htorn'.trans htorn⟩
  · rw [compile_fst, assembly_eq, bind_ok hcompletion, bind_ok hadjust, if_pos rfl]
    cases hcode : (Builder.assemble locals.size).run builder with
    | ok code left =>
      rw [bind_ok hcode]
      exact ⟨fun h => (nomatch h), fun ⟨_, h⟩ => (nomatch h)⟩
    | error e' left =>
      rw [bind_error hcode]
      constructor
      · intro heq
        obtain rfl := Except.error.inj heq
        exact ⟨left, rfl⟩
      · rintro ⟨_, heq⟩
        cases heq
        rfl

theorem compile_open (h : Draft.emitAll b.stream.1 .empty = .ok d) (hlocals : b.stream.2 = .ok locals)
    (hopened : d.opened ≠ []) (hkept : ¬ (b.kind = .method ∧ d.ensureReturn.Trivial)) :
    b.compile.1 = .error (.malformedStructure .unterminated) := by
  obtain ⟨builder, -, hopened', -, -, -, herror⟩ := compile_kept h hlocals hkept
  have hopen : builder.opened ≠ [] := by rwa [hopened']
  exact (herror _).2 ⟨builder, Builder.assemble_of_open hopen _⟩

end

/-- The only contradiction that a block can meet is a torn chain. -/
theorem fault_iff (b : Block) (f : Fault) :
    b.compile.1 = .error (.internal f) ↔ f = .unresolved ∧ b.Torn := by
  have hunprepared (hnone : b.prepared = none) : ¬ b.Torn := by
    rintro ⟨-, builder, names, hprepared, -⟩
    rw [hnone] at hprepared
    cases hprepared
  cases h : Draft.emitAll b.stream.1 .empty with
  | error cause =>
    obtain ⟨hcompile, hnone⟩ := compile_refused h
    simp [hcompile, hunprepared hnone]
  | ok d =>
    cases hlocals : b.stream.2 with
    | error e =>
      obtain ⟨hcompile, hnone⟩ := compile_unlowered h hlocals
      have hne : e ≠ .internal f := by
        rintro rfl
        exact lowerAll_ne_internal _ _ _ f hlocals
      simp [hcompile, hunprepared hnone, hne]
    | ok locals =>
      by_cases hleft : b.kind = .method ∧ d.ensureReturn.Trivial
      · obtain ⟨hcompile, hnone⟩ := compile_ignored h hlocals hleft.1 hleft.2
        simp [hcompile, hunprepared hnone]
      · obtain ⟨builder, hprepared, hopened, hp, harranged, hend, herror⟩ := compile_kept h hlocals hleft
        have htorn : b.Torn ↔ builder.checkLimits locals.size = .ok () ∧ d.Torn ∧
            ∀ link ∈ Builder.resolved builder.links, builder.Fits link := by
          rw [Draft.torn_iff_tangled h, Torn, hprepared]
          constructor
          · rintro ⟨htangled, _, _, heq, hlimits, hfits⟩
            cases heq
            exact ⟨hlimits, htangled, hfits⟩
          · rintro ⟨hlimits, htangled, hfits⟩
            exact ⟨htangled, builder, locals.size, rfl, hlimits, hfits⟩
        rw [herror, htorn]
        by_cases hclosed : d.opened = []
        · obtain ⟨hsturdy, hrecords⟩ := hend hclosed
          rw [hsturdy.assemble_internal_iff harranged hp, hrecords]
        · have hopen : builder.opened ≠ [] := by rwa [hopened]
          rw [Builder.assemble_of_open hopen, Builder.checkLimits_of_open hopen]
          simp

/-- A malformed stream is refused as such, unless it is overlooked. -/
theorem malformed_reported (hmalformed : b.Malformed) (hoverlooked : ¬ b.Overlooked) :
    ∃ cause, b.compile.1 = .error (.malformedStructure cause) := by
  rw [malformed_iff] at hmalformed
  rw [overlooked_iff] at hoverlooked
  cases h : Draft.emitAll b.stream.1 .empty with
  | error cause => exact ⟨cause, (compile_refused h).1⟩
  | ok d =>
    cases hlocals : b.stream.2 with
    | error e =>
      rw [h, hlocals] at hmalformed
      obtain ⟨cause, rfl⟩ := hmalformed
      exact ⟨cause, (compile_unlowered h hlocals).1⟩
    | ok locals =>
      rw [h, hlocals] at hmalformed
      have hkept : ¬ (b.kind = .method ∧ d.ensureReturn.Trivial) := fun hleft =>
        hoverlooked ⟨hleft.1, d, locals, h, hlocals, hmalformed, hleft.2⟩
      exact ⟨.unterminated, compile_open h hlocals hmalformed hkept⟩

theorem overlooked_ignored (hoverlooked : b.Overlooked) : b.Malformed ∧ b.compile.1 = .ok .ignored := by
  rw [overlooked_iff] at hoverlooked
  obtain ⟨hkind, d, locals, h, hlocals, hopened, htrivial⟩ := hoverlooked
  refine ⟨?_, (compile_ignored h hlocals hkind htrivial).1⟩
  rw [malformed_iff, h, hlocals]
  exact hopened

/-- Every block is turned into a code object, left out or refused for a cause, and as malformed
if it is, unless one of its chains is torn or an open structure is overlooked. -/
theorem reported_iff (b : Block) :
    (b.Reported ↔ ¬ b.Torn ∧ ¬ b.Overlooked) ∧
      ∀ f, b.compile.1 = .error (.internal f) → f = .unresolved := by
  refine ⟨⟨fun hreported => ⟨fun htorn => ?_, fun hoverlooked => ?_⟩, fun ⟨htorn, hoverlooked⟩ => ?_⟩, ?_⟩
  · exact hreported.faultless .unresolved ((b.fault_iff _).2 ⟨rfl, htorn⟩)
  · obtain ⟨hmalformed, hignored⟩ := overlooked_ignored hoverlooked
    obtain ⟨cause, hcause⟩ := hreported.malformed hmalformed
    rw [hignored] at hcause
    cases hcause
  · exact ⟨fun f hf => htorn ((b.fault_iff f).1 hf).2, fun hmalformed => malformed_reported hmalformed hoverlooked⟩
  · exact fun f hf => ((b.fault_iff f).1 hf).1

/-- A chain whose second condition announces the final body. -/
def tangled : Block :=
  (new .function ⟨"Main", .standard, .standard⟩).extend
    [.mk (.raw [.beginIf [] .ifeq, .elseIf [.beginElse] .ifeq, .endIf]) []]

theorem not_reported_tangled : ¬ ∀ b : Block, b.Reported := by
  intro hreported
  have hfault : tangled.compile.1 = .error (.internal .unresolved) := by decide +kernel
  exact (hreported tangled).faultless .unresolved hfault

end Block

end BlockAssembler
