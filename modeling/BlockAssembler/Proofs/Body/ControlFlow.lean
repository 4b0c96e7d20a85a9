import BlockAssembler.Proofs.Body.Fetch
import BlockAssembler.Proofs.Body.Interpreter

/-! The code object of a balanced stream does what the stream says. A piece of code is
followed from its first index to where it leads; what comes after is a run that is given,
so pieces are put together without looking at what surrounds them. -/

namespace BlockAssembler

namespace Body.Assembled

variable {t : Body} {c : Code} (passes : Nat → Bool)

/-- From the index `n` the code executes what `r` shows, and then, unless the run has
ended, whatever is executed from the index `m` on. -/
def Leads (t : Body) (c : Code) (passes : Nat → Bool) (n k : Nat) (r : Ran) (m : Nat) : Prop :=
  if r.ended then
    ∃ ops, c.Run passes (offset t.opcodes n) k ops ∧ visible ops = r.shown
  else
    ∀ rest, c.Run passes (offset t.opcodes m) r.tests rest →
      ∃ ops, c.Run passes (offset t.opcodes n) k ops ∧ visible ops = r.shown ++ visible rest

variable {passes} {n m k : Nat} {r : Ran}

theorem Leads.idle (n k : Nat) : Leads t c passes n k (.idle k) n := by
  intro rest hrest
  exact ⟨rest, hrest, rfl⟩

theorem Leads.andThen {next : Nat → Ran} {l : Nat} (h : Leads t c passes n k r m)
    (hnext : r.ended = false → Leads t c passes m r.tests (next r.tests) l) :
    Leads t c passes n k (r.andThen next) l := by
  unfold Ran.andThen
  cases hended : r.ended with
  | true =>
    unfold Leads at h ⊢
    simpa [hended] using h
  | false =>
    have hnext := hnext hended
    unfold Leads at h hnext ⊢
    simp only [hended, Bool.false_eq_true, if_false] at h ⊢
    split
    · next hend =>
      rw [if_pos hend] at hnext
      obtain ⟨rest, hrest, hshown⟩ := hnext
      obtain ⟨ops, hrun, hops⟩ := h rest hrest
      exact ⟨ops, hrun, by rw [hops, hshown]⟩
    · next hend =>
      rw [if_neg hend] at hnext
      intro rest hrest
      obtain ⟨rest', hrest', hshown⟩ := hnext rest hrest
      obtain ⟨ops, hrun, hops⟩ := h rest' hrest'
      exact ⟨ops, hrun, by rw [hops, hshown, List.append_assoc]⟩

/-! ### Single instructions -/

theorem offset_opcode_succ {instr : Instr} (hi : t.linked[n]? = some instr) :
    (offset t.opcodes (n + 1) : Int) = offset t.opcodes n + (instr.placed t.opcodes n).size := by
  have hop : t.opcodes[n]? = some instr.opcode := by simp [opcodes, hi]
  have hsize : (instr.placed t.opcodes n).size = instr.opcode.size := by cases instr <;> rfl
  rw [offset_succ, hop, hsize]
  simp

theorem leads_plain (h : t.Assembled c) {op : Opcode} (hi : t.linked[n]? = some (.plain op))
    (hjump : op.isJump = false) : Leads t c passes n k (op.ran k) (n + 1) := by
  have hop : c.at? (offset t.opcodes n) = some op := h.at?_offset hi
  have hvisible := visible_of_plain hjump
  unfold Leads Opcode.ran
  cases hend : op.isEnd with
  | true => exact ⟨[op], .last hop (Opcode.successor_of_isEnd hend _ _), hvisible⟩
  | false =>
    intro rest hrest
    refine ⟨op :: rest, .step hop ?_ hrest, ?_⟩
    · rw [offset_opcode_succ hi]
      exact Opcode.successor_of_plain hjump hend _ _
    · rw [← List.singleton_append, visible_append, hvisible]

theorem leads_goto (h : t.Assembled c) {target : Nat} (hi : t.linked[n]? = some (.goto target)) :
    Leads t c passes n k (.idle k) target := by
  intro rest hrest
  refine ⟨.goto _ :: rest, .step (h.at?_offset hi) ?_ hrest, rfl⟩
  simp only [Opcode.successor, Option.some.injEq]
  omega

/-- A test that passes goes on to the next instruction, any other one to its target. -/
theorem leads_branch (h : t.Assembled c) {test : Test} {target : Nat}
    (hi : t.linked[n]? = some (.branch test target)) :
    Leads t c passes n k ((Opcode.branch test 0).ran k) (if passes k then n + 1 else target) := by
  intro rest hrest
  refine ⟨.branch test _ :: rest, .step (h.at?_offset hi) ?_ hrest, rfl⟩
  have hsucc := offset_opcode_succ hi
  simp only [Instr.placed, Opcode.successor, Option.some.injEq] at hsucc ⊢
  split
  · exact hsucc.symm
  · omega

theorem Leads.trans_idle {l : Nat} (h : Leads t c passes n k r m)
    (hidle : r.ended = false → Leads t c passes m r.tests (.idle r.tests) l) :
    Leads t c passes n k r l := by
  rw [← r.andThen_idle]
  exact h.andThen hidle

/-! ### Trees -/

/-- The end of a body from which control goes on leads to the join point. -/
theorem leads_skip (h : t.Assembled c) (arms : Arms) (n k : Nat)
    (hcode : CodeAt t.linked n (arms.code n true (n + arms.size true))) :
    Leads t c passes n k (.idle k) (n + arms.size true) := by
  cases arms with
  | done => exact .idle n k
  | otherwise body => exact leads_goto h hcode.head
  | elseIf condition test body more => exact leads_goto h hcode.head

/-- After the body of a branch the run goes on behind the chain. -/
theorem leads_behind (h : t.Assembled c) {body : Body} (hjump : body.Jumpless) (more : Arms)
    (hbody : Leads t c passes n k (body.run passes k) m)
    (hcode : CodeAt t.linked m (more.code m (body.exit true) (m + more.size (body.exit true)))) :
    Leads t c passes n k (body.run passes k) (m + more.size (body.exit true)) := by
  refine hbody.trans_idle fun hended => ?_
  rw [body.exit_of_run passes hjump k hended] at hcode ⊢
  exact leads_skip h more m _ hcode

/-- A test and the two ways to go on from it. -/
theorem leads_decision (h : t.Assembled c) {test : Test} {target l : Nat} {pass fail : Nat → Ran}
    (hi : t.linked[n]? = some (.branch test target))
    (hpass : ∀ k, Leads t c passes (n + 1) k (pass k) l)
    (hfail : ∀ k, Leads t c passes target k (fail k) l) :
    Leads t c passes n k
      (((Opcode.branch test 0).ran k).andThen fun k' => if passes k then pass k' else fail k') l := by
  refine (leads_branch h hi).andThen fun _ => ?_
  split
  · exact hpass _
  · exact hfail _

mutual

theorem leads_body (h : t.Assembled c) (s : Body) (hjump : s.Jumpless) (n k : Nat)
    (hcode : CodeAt t.linked n (s.code n)) : Leads t c passes n k (s.run passes k) (n + s.size) := by
  match s with
  | .nil => exact .idle n k
  | .op opcode rest =>
    rw [Body.code] at hcode
    rw [Body.size, ← Nat.add_assoc]
    refine (leads_plain h hcode.head hjump.1).andThen fun _ => ?_
    exact leads_body h rest hjump.2 _ _ hcode.tail
  | .guarded body catches handler more rest =>
    rw [Body.code] at hcode
    have hjumpAt := hcode.right.head
    have hrest := hcode.right.tail.right.right
    simp only [Body.length_code, Catches.length_code] at hjumpAt hrest
    rw [Body.size]
    have hsize : n + (body.size + (1 + (handler.size + (more.size (handler.exit true) + rest.size))))
        = n + body.size + 1 + handler.size + more.size (handler.exit true) + rest.size := by omega
    rw [hsize]
    refine ((leads_body h body hjump.1 n k hcode.left).trans_idle fun _ => leads_goto h hjumpAt).andThen
      fun _ => leads_body h rest hjump.2.2.2 _ _ hrest
  | .chain condition test body more rest =>
    rw [Body.code] at hcode
    have hbranch := hcode.right.head
    have hbody := hcode.right.tail.left
    have hmore := hcode.right.tail.right.left
    have hrest := hcode.right.tail.right.right
    simp only [Body.length_code, Arms.length_code] at hbranch hbody hmore hrest
    have hsize : n + (Body.chain condition test body more rest).size
        = n + condition.size + 1 + body.size + more.size (body.exit true) + rest.size := by
      rw [Body.size]
      omega
    rw [hsize]
    refine (leads_body h condition hjump.1 n k hcode.left).andThen fun _ => ?_
    refine (leads_decision h hbranch (fun k => ?_) fun k => ?_).andThen fun _ =>
      leads_body h rest hjump.2.2.2 _ _ hrest
    · exact leads_behind h hjump.2.1 more (leads_body h body hjump.2.1 _ k hbody) hmore
    · exact leads_arms h more hjump.2.2.1 _ k _ hmore

theorem leads_arms (h : t.Assembled c) (s : Arms) (hjump : s.Jumpless) (n k : Nat) (live : Bool)
    (hcode : CodeAt t.linked n (s.code n live (n + s.size live))) :
    Leads t c passes (s.next n live) k (s.run passes k) (n + s.size live) := by
  match s with
  | .done => exact .idle n k
  | .otherwise body =>
    have hbody := hcode.right
    rw [length_skipCode] at hbody
    rw [Arms.size, ← Nat.add_assoc]
    exact leads_body h body hjump _ k hbody
  | .elseIf condition test body more =>
    have hcondition := hcode.right.left
    have hbranch := hcode.right.right.head
    have hbody := hcode.right.right.tail.left
    have hmore := hcode.right.right.tail.right
    have hsize : n + (Arms.elseIf condition test body more).size live
        = n + skipSize live + condition.size + 1 + body.size + more.size (body.exit true) := by
      rw [Arms.size]
      omega
    simp only [length_skipCode, Body.length_code] at hcondition hbranch hbody hmore
    rw [hsize] at hmore ⊢
    refine (leads_body h condition hjump.1 _ k hcondition).andThen fun _ => ?_
    refine leads_decision h hbranch (fun k => ?_) fun k => ?_
    · exact leads_behind h hjump.2.1 more (leads_body h body hjump.2.1 _ k hbody) hmore
    · exact leads_arms h more hjump.2.2 _ k _ hmore

end

/-- What runs off the end of the stream returns. -/
theorem leads_ending (h : t.Assembled c) (hexit : t.exit true = true) (k : Nat) :
    Leads t c passes t.size k (Opcode.voidReturn.ran k) (t.size + 1) := by
  refine leads_plain h ?_ rfl
  rw [linked, ending, hexit, List.getElem?_append_right (by simp)]
  simp

end Body.Assembled

/-- Whatever the outcomes of the tests, the code object of a balanced stream has exactly one
run from its beginning, and without the gotos it executes what the stream says. -/
theorem Body.run_assembled {t : Body} (hjump : t.Jumpless) {maxLocals : Nat} {c : Code}
    (h : assembled t.items maxLocals = .ok c) (passes : Nat → Bool) :
    ∃ ops, (∀ ops', c.Run passes 0 0 ops' ↔ ops' = ops) ∧ visible ops = t.trace passes := by
  have hc := t.assembled_eq_ok h
  have hbody : Assembled.Leads t c passes 0 0 (t.run passes 0) (0 + t.size) :=
    Assembled.leads_body hc t hjump 0 0 (codeAt_linked t)
  rw [Nat.zero_add] at hbody
  have hall := hbody.andThen fun hended =>
    Assembled.leads_ending hc (t.exit_of_run passes hjump 0 hended) _
  have hended : ((t.run passes 0).andThen fun k => Opcode.voidReturn.ran k).ended = true := by
    cases hended : (t.run passes 0).ended <;> simp [Ran.andThen, hended, Opcode.ran, Opcode.isEnd]
  rw [Assembled.Leads, if_pos hended, offset_zero] at hall
  obtain ⟨ops, hrun, hshown⟩ := hall
  exact ⟨ops, fun ops' => ⟨fun hrun' => hrun'.unique hrun, fun heq => heq ▸ hrun⟩, hshown⟩

/-- A choice between a body and a guarded return. -/
def Body.choice : Body :=
  .chain (.op (.iconst 1) .nil) .ifeq (.op .aconstNull (.op .pop .nil))
    (.otherwise (.guarded (.op .aconstNull (.op .areturn .nil)) none (.op .pop .nil) .done .nil)) .nil

def Body.choiceCode : Code where
  maxStack := 1
  maxLocals := 0
  instructions := #[⟨0, .iconst 1⟩, ⟨1, .branch .ifeq 8⟩, ⟨4, .aconstNull⟩, ⟨5, .pop⟩, ⟨6, .goto 9⟩,
    ⟨9, .aconstNull⟩, ⟨10, .areturn⟩, ⟨11, .goto 4⟩, ⟨14, .pop⟩, ⟨15, .voidReturn⟩]
  exceptions := #[⟨9, 11, 14, none⟩]

theorem Body.run_choice : ∃ ops, (∀ ops', Body.choiceCode.Run (fun _ => true) 0 0 ops' ↔ ops' = ops) ∧
    visible ops = [.iconst 1, .branch .ifeq 0, .aconstNull, .pop, .voidReturn] := by
  have hjump : Body.choice.Jumpless := by
    simp [choice, Jumpless, Catches.Jumpless, Arms.Jumpless, Opcode.isJump, Opcode.distance?]
  have hcode : assembled Body.choice.items 0 = .ok Body.choiceCode := by decide +kernel
  exact Body.run_assembled hjump hcode fun _ => true

end BlockAssembler
