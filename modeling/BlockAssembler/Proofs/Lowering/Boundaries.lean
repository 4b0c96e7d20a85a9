import BlockAssembler.Proofs.Draft.Level
import BlockAssembler.Proofs.Lowering.Acts
import BlockAssembler.Proofs.Lowering.Statements

/-! The ends of statements. Of each act of a stream it is known how it changes the depth of the stack, whatever has
been emitted before. The acts of statements start with an empty stack and end with one, and so does every statement
among them. -/

namespace BlockAssembler

/-! ### Streams -/

mutual

/-- The depth behind a stream is what the stream leaves. -/
theorem Body.Keeps.after {t : Body} {x y : Int} (h : t.Keeps x y) : Item.afterAll t.items x = y := by
  match t with
  | .nil => exact h
  | .op opcode rest => exact Body.Keeps.after (t := rest) h.2
  | .guarded body catches handler more rest =>
    obtain ⟨hbody, hhandler, hmore, hrest⟩ := h
    simp [Body.items, Item.afterAll, Item.after, hhandler.after, hmore.after, hrest.after]
  | .chain condition test body more rest =>
    obtain ⟨hcondition, hbody, hmore, hrest⟩ := h
    simp [Body.items, Item.afterAll, Item.after, hcondition.after, hbody.after, hmore.after, hrest.after]

theorem Catches.Keeps.after {t : Catches} {x : Int} (h : t.Keeps x) : Item.afterAll t.items x = x := by
  match t with
  | .done => rfl
  | .handler catches body more =>
    obtain ⟨hbody, hmore⟩ := h
    simp [Catches.items, Item.afterAll, Item.after, hbody.after, hmore.after]

theorem Arms.Keeps.after {t : Arms} {x : Int} (h : t.Keeps x) : Item.afterAll t.items x = x := by
  match t with
  | .done => rfl
  | .otherwise body =>
    rw [Arms.items, Item.afterAll, Item.after]
    exact Body.Keeps.after (t := body) h
  | .elseIf condition test body more =>
    obtain ⟨hcondition, hbody, hmore⟩ := h
    simp [Arms.items, Item.afterAll, Item.after, hcondition.after, hbody.after, hmore.after]

end

theorem Keeping.after {items : List Item} {x y : Int} (h : Keeping x y items) : Item.afterAll items x = y := by
  obtain ⟨t, ht, rfl⟩ := h
  exact ht.keeps.after

/-! ### Acts -/

namespace Act

/-- The depth behind an act. -/
def after (write : Writer) : Act → Int → Int
  | item i, z => i.after z
  | mention before x, z => Item.afterAll (write before x) z
  | boundary, z | endBranch, z => z
  | beginIf _, z | elseIf _, z => z - 1

/-- The acts lead from the depth `x` to the depth `y`, and at every boundary the stack is empty. -/
def Leads (write : Writer) : List Act → Int → Int → Prop
  | [], x, y => x = y
  | act :: acts, x, y => (act = .boundary → x = 0) ∧ Leads write acts (act.after write x) y

variable {write : Writer} {acts acts' : List Act} {x y z : Int} {d d' : Draft}

namespace Leads

theorem append (h : Leads write acts x y) (h' : Leads write acts' y z) : Leads write (acts ++ acts') x z := by
  induction acts generalizing x with
  | nil =>
    obtain rfl : x = y := h
    exact h'
  | cons act acts ih => exact ⟨h.1, ih h.2⟩

theorem item (i : Item) (h : Leads write acts (i.after x) y) : Leads write (.item i :: acts) x y := ⟨nofun, h⟩

theorem map_item {items : List Item} (h : Keeping x y items) : Leads write (items.map .item) x y := by
  rw [← h.after]
  clear h
  induction items generalizing x with
  | nil => rfl
  | cons i items ih => exact item i ih

theorem mention {before : List Mention} {mention : Mention} (h : Keeping x y (write before mention)) :
    Leads write [.mention before mention] x y := ⟨nofun, h.after⟩

theorem boundary (h : Leads write acts 0 y) : Leads write (.boundary :: acts) 0 y := ⟨fun _ => rfl, h⟩

end Leads

theorem level_run {act : Act} (h : act.run write d = .ok d') : d'.level = act.after write d.level := by
  cases act with
  | item i => exact Draft.level_emit i d d' h
  | mention before x => exact Draft.level_emitAll _ d d' h
  | boundary =>
    obtain rfl := Except.ok.inj h
    rfl
  | beginIf test =>
    obtain rfl := Except.ok.inj h
    exact Draft.level_append (.branch test 0)
  | endBranch =>
    obtain ⟨chain, -, h⟩ := except_bind_eq_ok.1 h
    obtain rfl := Except.ok.inj h
    exact Draft.level_endBranch d chain
  | elseIf test =>
    obtain ⟨chain, -, h⟩ := except_bind_eq_ok.1 h
    obtain rfl := Except.ok.inj h
    exact Draft.level_append (.branch test 0)

/-- What has been emitted at a boundary leaves the stack empty. -/
theorem Leads.level_boundary (h : Leads write (acts ++ .boundary :: acts') d.level y)
    (hrun : runAll write acts d = .ok d') : d'.level = 0 := by
  induction acts generalizing d with
  | nil =>
    obtain rfl := Except.ok.inj hrun
    exact h.1 rfl
  | cons act acts ih =>
    obtain ⟨d₁, hact, hacts⟩ := except_bind_eq_ok.1 hrun
    refine ih ?_ hacts
    rw [level_run hact]
    exact h.2

end Act

/-! ### Statements -/

namespace Lowering

theorem exists_constant {m : Module} (hconfig : m.config = .standard) (value : Constant) :
    ∃ items, constant m.config value = .ok items := by
  rw [hconfig]
  cases value with
  | null => exact ⟨_, rfl⟩
  | bool value =>
    obtain ⟨field, hfield, -⟩ := Runtime.hasField_bool value
    exact ⟨_, by rw [constant, hfield]; rfl⟩
  | int value =>
    obtain ⟨maker, hmaker, -⟩ := Runtime.moves_intMaker
    exact ⟨_, by rw [constant, hmaker]; rfl⟩
  | str value =>
    obtain ⟨constructor, hconstructor, -⟩ := Runtime.moves_strConstructor
    exact ⟨_, by rw [constant, hconstructor]; rfl⟩

end Lowering

section
variable {m : Module} {x : Int}

open Mention (written)

theorem Constant.keeping_items (hconfig : m.config = .standard) (hx : 0 ≤ x) (value : Constant) :
    Keeping x (x + 1) (value.items m.config) := by
  obtain ⟨items, hitems⟩ := Lowering.exists_constant hconfig value
  rw [Constant.items, hitems]
  exact Lowering.keeping_constant hconfig hx value items hitems

theorem Runtime.keeping_test : Keeping 1 1 Runtime.standard.test := by
  obtain ⟨truth, htruth, -⟩ := Runtime.moves_truth
  rw [Runtime.test, htruth]
  exact Lowering.keeping_truth htruth

theorem keeping_read (hconfig : m.config = .standard) (hx : 0 ≤ x) (arguments : List String) (before : List Mention)
    (name : String) : Keeping x (x + 1) (written m arguments before (.read name)) := by
  rw [written]
  split
  · exact .push rfl hx rfl
  · obtain ⟨items, hitems⟩ := Lowering.exists_lookup hconfig name
    rw [hitems]
    exact Lowering.keeping_lookup hconfig hx hitems

theorem keeping_store (m : Module) (arguments : List String) (before : List Mention) (name : String) :
    Keeping 1 0 (written m arguments before (.store name)) := .take rfl (Int.le_refl 1) rfl

theorem Command.leads_value (hconfig : m.config = .standard) (hx : 0 ≤ x) (arguments : List String)
    (before : List Mention) {value : Command} (hvalue : value.isValue = true) :
    Act.Leads (written m arguments) (value.acts m before) x (x + 1) := by
  unfold Command.isValue at hvalue
  split at hvalue
  · rw [Command.acts, Command.actsAll, List.nil_append, Operation.acts]
    exact .map_item (Constant.keeping_items hconfig hx _)
  · rw [Command.acts, Command.actsAll, List.nil_append, Operation.acts]
    exact .mention (keeping_read hconfig hx arguments _ _)
  · cases hvalue

theorem Command.leads_values (hconfig : m.config = .standard) (hx : 0 ≤ x) (arguments : List String)
    (before : List Mention) {values : List Command} (hvalues : values.all Command.isValue = true) :
    Act.Leads (written m arguments) (Command.actsAll m before values) x (x + values.length) := by
  induction values generalizing x before with
  | nil =>
    rw [Command.actsAll, List.length_nil, Int.natCast_zero, Int.add_zero]
    rfl
  | cons value values ih =>
    obtain ⟨hvalue, hvalues⟩ := Bool.and_eq_true_iff.1 hvalues
    rw [Command.actsAll]
    have hrest := (Command.leads_value hconfig hx arguments before hvalue).append
      (ih (by omega) (before ++ value.mentions) hvalues)
    rwa [Int.add_assoc, Int.add_comm 1, ← Int.natCast_succ] at hrest

theorem Command.leads_operands (hconfig : m.config = .standard) (arguments : List String) (before : List Mention)
    {count : Nat} {values : List Command} (h : Command.areValues count values = true) :
    Act.Leads (written m arguments) (Command.actsAll m before values) 0 count := by
  obtain ⟨hlength, hvalues⟩ := Bool.and_eq_true_iff.1 h
  have hall := Command.leads_values hconfig (Int.le_refl 0) arguments before hvalues
  rwa [beq_iff_eq.1 hlength, Int.zero_add] at hall

theorem leads_receive (m : Module) (arguments : List String) (before : List Mention) (name : Option String) :
    Act.Leads (written m arguments) (Act.receive before name) 1 0 := by
  cases name with
  | some name => exact .mention (keeping_store m arguments before name)
  | none => exact .item _ rfl

mutual

theorem Command.leads_acts (hconfig : m.config = .standard) (arguments : List String) (before : List Mention)
    (command : Command) (hcommand : command.isStatement = true) :
    Act.Leads (written m arguments) (command.acts m before) 0 0 := by
  match command with
  | .mk operation operands =>
    obtain ⟨hoperation, hoperands⟩ := Bool.and_eq_true_iff.1 hcommand
    rw [Command.acts]
    exact (Command.leads_operands hconfig arguments before hoperands).append
      (Operation.leads_acts hconfig arguments _ operation hoperation)

theorem Operation.leads_acts (hconfig : m.config = .standard) (arguments : List String) (before : List Mention)
    (operation : Operation) (hoperation : operation.isStatement = true) :
    Act.Leads (written m arguments) (operation.acts m before) operation.operands 0 := by
  match operation with
  | .pass =>
    rw [Operation.acts]
    rfl
  | .assign name =>
    rw [Operation.acts]
    exact .mention (keeping_store m arguments before name)
  | .discard | .returnTop =>
    rw [Operation.acts]
    exact .item _ rfl
  | .conditional clauses none =>
    rw [Operation.acts]
    exact (Clause.leads_actsAll hconfig arguments [] .beginIf rfl (fun _ => ⟨nofun, rfl⟩) before clauses
      hoperation).append (.item _ rfl)
  | .conditional clauses (some body) =>
    obtain ⟨hclauses, hbody⟩ := Bool.and_eq_true_iff.1 hoperation
    rw [Operation.acts]
    exact (Clause.leads_actsAll hconfig arguments [] .beginIf rfl (fun _ => ⟨nofun, rfl⟩) before clauses
      hclauses).append (.item _ ((Command.leads_statements hconfig arguments _ body hbody).append (.item _ rfl)))
  | .guarded body handlers =>
    obtain ⟨hbody, hhandlers⟩ := Bool.and_eq_true_iff.1 hoperation
    rw [Operation.acts]
    exact .item _ ((Command.leads_statements hconfig arguments before body hbody).append
      ((CatchClause.leads_actsAll hconfig arguments _ handlers hhandlers).append (.item _ rfl)))

theorem Clause.leads_actsAll (hconfig : m.config = .standard) (arguments : List String) (front : List Act)
    (jump : Test → Act) (hfront : Act.Leads (written m arguments) front 0 0)
    (hjump : ∀ test, Act.Leads (written m arguments) [jump test] 1 0) (before : List Mention) (clauses : List Clause)
    (hclauses : Clause.areStatements clauses = true) :
    Act.Leads (written m arguments) (Clause.actsAll m front jump before clauses) 0 0 := by
  match clauses with
  | [] =>
    rw [Clause.actsAll]
    rfl
  | .mk condition body :: clauses =>
    obtain ⟨hcondition, hrest⟩ := Bool.and_eq_true_iff.1 hclauses
    obtain ⟨hbody, hclauses⟩ := Bool.and_eq_true_iff.1 hrest
    rw [Clause.actsAll]
    have htest : Act.Leads (written m arguments) (m.config.test.map .item) 1 1 :=
      .map_item (hconfig ▸ Runtime.keeping_test)
    refine hfront.append ((Command.leads_operands hconfig arguments before hcondition).append (htest.append ?_))
    refine (hjump .ifeq).append ((Command.leads_statements hconfig arguments _ body hbody).append ?_)
    exact Clause.leads_actsAll hconfig arguments [.endBranch] .elseIf ⟨nofun, rfl⟩ (fun _ => ⟨nofun, rfl⟩) _ clauses
      hclauses

theorem CatchClause.leads_actsAll (hconfig : m.config = .standard) (arguments : List String) (before : List Mention)
    (handlers : List CatchClause) (hhandlers : CatchClause.areStatements handlers = true) :
    Act.Leads (written m arguments) (CatchClause.actsAll m before handlers) 0 0 := by
  match handlers with
  | [] =>
    rw [CatchClause.actsAll]
    rfl
  | .mk className name body :: handlers =>
    obtain ⟨hbody, hhandlers⟩ := Bool.and_eq_true_iff.1 hhandlers
    rw [CatchClause.actsAll]
    exact .item _ ((leads_receive m arguments before name).append
      ((Command.leads_statements hconfig arguments _ body hbody).append
        (CatchClause.leads_actsAll hconfig arguments _ handlers hhandlers)))

theorem Command.leads_statements (hconfig : m.config = .standard) (arguments : List String) (before : List Mention)
    (commands : List Command) (hcommands : Command.areStatements commands = true) :
    Act.Leads (written m arguments) (Command.statements m before commands) 0 0 := by
  match commands with
  | [] =>
    rw [Command.statements]
    exact .boundary rfl
  | command :: commands =>
    obtain ⟨hcommand, hcommands⟩ := Bool.and_eq_true_iff.1 hcommands
    rw [Command.statements]
    exact .boundary ((Command.leads_acts hconfig arguments before command hcommand).append
      (Command.leads_statements hconfig arguments _ commands hcommands))

end

end

end BlockAssembler
