import BlockAssembler.Proofs.Block.Plain
import BlockAssembler.Proofs.Block.Reports
import BlockAssembler.Proofs.Body.Language
import BlockAssembler.Proofs.Body.Links

/-! Blocks whose raw items are plain instructions are never malformed. Once the commands have been
lowered, the markers fit, every structure is ended by the command that began it, and only a limit
of the format is left to fail. A command alone is malformed only where it has a chain without
branches or a guarded range without handlers. -/

namespace BlockAssembler

/-- Every test of a balanced stream lands somewhere. -/
theorem Draft.not_torn_of_body (t : Body) {d : Draft} (h : emitAll t.items .empty = .ok d) : ¬ d.Torn := by
  obtain ⟨d', h', -, -, hchains⟩ := exists_emitAll t
  obtain rfl := Except.ok.inj (h.symm.trans h')
  rintro ⟨c, hc, i, br, hi, hnone, -⟩
  rw [hchains] at hc
  have hlink : (⟨some br.test, br.next⟩ : Link) ∈ c.links := by
    rw [Chain.links, List.mem_flatMap]
    exact ⟨br, by simpa using Array.mem_of_getElem? hi, by simp [ChainBranch.links]⟩
  have hlisted : Listed (t.ranges 0) (t.chains 0) ⟨some br.test, br.next⟩ :=
    .inr (List.mem_flatMap.2 ⟨c, hc, hlink⟩)
  obtain ⟨j, instr, target, -, -, heq⟩ := mem_jumps.1 ((t.listed_iff 0 _).1 hlisted)
  cases hnone.symm.trans (congrArg Link.target heq)

namespace Block

/-! ### The first commands of a block -/

/-- If all commands are lowered, so are the first ones. -/
theorem exists_lowerAll_take {m : Module} {commands : List Command} {locals locals' : Locals}
    (h : (lowerAll m commands locals).2 = .ok locals') (k : Nat) :
    ∃ locals'', (lowerAll m (commands.take k) locals).2 = .ok locals'' := by
  induction commands generalizing locals k with
  | nil => exact ⟨locals, by rw [List.take_nil, lowerAll]⟩
  | cons command commands ih =>
    cases k with
    | zero => exact ⟨locals, rfl⟩
    | succ k =>
      rw [List.take_succ_cons, lowerAll]
      rw [lowerAll] at h
      cases hlower : Lowering.lower m command #[] ⟨locals, #[]⟩ with
      | ok items scope =>
        rw [hlower] at h
        exact ih h k
      | error e scope =>
        rw [hlower] at h
        cases h

theorem allOf_take {p : Operation → Bool} {commands : List Command} (h : Command.allOf p commands = true)
    (k : Nat) : Command.allOf p (commands.take k) = true := by
  induction commands generalizing k with
  | nil => rw [List.take_nil, Command.allOf]
  | cons command commands ih =>
    obtain ⟨hcommand, hcommands⟩ := Bool.and_eq_true_iff.1 h
    cases k with
    | zero => rfl
    | succ k => exact Bool.and_eq_true_iff.2 ⟨hcommand, ih hcommands k⟩

variable {b : Block} {locals : Locals}

/-- The markers of each command fit, and leave nothing open. -/
theorem Plain.addAll_take (hplain : b.Plain) (hlocals : b.stream.2 = .ok locals) (k : Nat) :
    ∃ locals' builder, (addAll b.module (b.commands.toList.take k) b.scope.locals).run b.start
      = .ok locals' builder ∧ builder.opened = [] := by
  obtain ⟨locals', hlocals'⟩ := exists_lowerAll_take hlocals k
  obtain ⟨t, -, ht⟩ := structured_lowerAll b.module _ (allOf_take hplain k) b.scope.locals
  obtain ⟨d, hemit, hopened, -⟩ := Draft.exists_emitAll t
  have hfollows := addAll_follows b.module (b.commands.toList.take k) b.scope.locals b.start b.intact_start
    (b.draft_start ▸ Draft.sound_empty)
  rw [draft_start, ← ht, hemit, hlocals'] at hfollows
  obtain ⟨builder, hrun, -, rfl⟩ := hfollows
  exact ⟨locals', builder, hrun, hopened⟩

/-! ### The whole block -/

theorem Plain.compile_errors (hplain : b.Plain) (hlocals : b.stream.2 = .ok locals) {e : AssemblyError}
    (he : b.compile.1 = .error e) : e.IsLimit := by
  obtain ⟨t, -, ht⟩ := structured_lowerAll b.module _ hplain b.scope.locals
  obtain ⟨d, hemit, hopened, -⟩ := Draft.exists_emitAll t
  have hwhole : ¬ b.Torn := by
    rintro ⟨htangled, -⟩
    rw [stream, ← ht] at htangled
    exact Draft.not_torn_of_body t hemit ((Draft.torn_iff_tangled hemit).2 htangled)
  rw [ht] at hemit
  by_cases hleft : b.kind = .method ∧ d.ensureReturn.Trivial
  · rw [(compile_ignored hemit hlocals hleft.1 hleft.2).1] at he
    cases he
  · obtain ⟨builder, -, hopened', hp, -, hend, herror⟩ := compile_kept hemit hlocals hleft
    obtain ⟨left, hassemble⟩ := (herror e).1 he
    rcases (hend hopened).1.assemble_errors hp (hopened'.trans hopened) hassemble with hlimit | ⟨f, rfl⟩
    · exact hlimit
    · exact absurd ((b.fault_iff f).1 he).2 hwhole

/-- If the commands of a block are lowered and none takes over more than plain instructions, every
marker fits and nothing is left open behind any command; the block can exceed a limit of the format
and fail for nothing else. A command is malformed only if one of its structures is hollow. -/
theorem well_structured :
    (∀ (b : Block) (locals : Locals), b.Plain → b.stream.2 = .ok locals →
      (∀ k, ∃ locals' builder, (addAll b.module (b.commands.toList.take k) b.scope.locals).run b.start
        = .ok locals' builder ∧ builder.opened = []) ∧
      ∀ e, b.compile.1 = .error e → e.IsLimit) ∧
    ∀ (m : Module) (command : Command) (out : Array Item) (scope scope' : Scope) (cause : Malformation),
      (Lowering.lower m command out).run scope = .error (.malformedStructure cause) scope' →
        command.all Operation.isWhole = false := by
  refine ⟨fun b locals hplain hlocals => ⟨hplain.addAll_take hlocals, fun e => hplain.compile_errors hlocals⟩, ?_⟩
  intro m command out scope scope' cause h
  cases Lowering.fails_lower m command out scope _ scope' h with
  | hollow _ hwhole => exact hwhole

/-- A test of a constant, in a guarded range whose handler drops the exception. -/
def rescued : Block := (new .function ⟨"Main", .standard, .standard⟩).extend
  [.mk (.guarded
    [.mk (.conditional [.mk [.mk (.constant (.bool true)) []] [.mk (.raw [.op .voidReturn]) []]]
      (some [.mk .pass []])) []]
    [.mk (some "java/lang/Exception") none []]) []]

/-- A chain without branches. -/
def hollow : Command := .mk (.conditional [] none) []

theorem well_structured_rescued :
    (∃ locals, rescued.Plain ∧ rescued.stream.2 = .ok locals ∧
      (∃ locals' builder, (addAll rescued.module (rescued.commands.toList.take 1) rescued.scope.locals).run
        rescued.start = .ok locals' builder ∧ builder.opened = []) ∧
      ∀ e, rescued.compile.1 = .error e → e.IsLimit) ∧
    (Lowering.lower rescued.module hollow #[]).run rescued.scope
        = .error (.malformedStructure .chainWithoutBranches) rescued.scope ∧
      hollow.all Operation.isWhole = false := by
  have hlocals : rescued.stream.2.toBool = true := by decide +kernel
  have hhollow : (Lowering.lower rescued.module hollow #[]).run rescued.scope
      = .error (.malformedStructure .chainWithoutBranches) rescued.scope := rfl
  refine ⟨?_, hhollow, well_structured.2 _ _ _ _ _ _ hhollow⟩
  cases hstream : rescued.stream.2 with
  | ok locals =>
    obtain ⟨htake, herrors⟩ := well_structured.1 rescued locals rfl hstream
    exact ⟨locals, rfl, rfl, htake 1, herrors⟩
  | error e =>
    rw [hstream] at hlocals
    cases hlocals

end Block

end BlockAssembler
