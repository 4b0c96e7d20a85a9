import BlockAssembler.Proofs.Block.Stream
import BlockAssembler.Proofs.Body

/-! Blocks without jumps of their own. Lowering writes no jump; so the only jumps of a
stream that are not laid down by a structure are those that a command takes over as
they are. -/

namespace BlockAssembler

mutual

/-- No command takes a jump over. -/
def Command.jumpless : Command → Bool
  | .mk operation arguments => operation.jumpless && Command.jumplessAll arguments

def Operation.jumpless : Operation → Bool
  | .pass | .constant _ | .fetch _ | .assign _ | .discard | .returnTop => true
  | .conditional clauses none => Clause.jumplessAll clauses
  | .conditional clauses (some body) => Clause.jumplessAll clauses && Command.jumplessAll body
  | .guarded body handlers => Command.jumplessAll body && CatchClause.jumplessAll handlers
  | .raw items => Item.jumplessAll items

def Clause.jumplessAll : List Clause → Bool
  | [] => true
  | .mk condition body :: clauses =>
    Command.jumplessAll condition && Command.jumplessAll body && Clause.jumplessAll clauses

def CatchClause.jumplessAll : List CatchClause → Bool
  | [] => true
  | .mk _ _ body :: handlers => Command.jumplessAll body && CatchClause.jumplessAll handlers

def Command.jumplessAll : List Command → Bool
  | [] => true
  | command :: commands => command.jumpless && Command.jumplessAll commands

end

/-! ### Lowering -/

namespace Lowering

/-- Every result of the computation satisfies the predicate. -/
def Yields {α : Type} (P : α → Prop) (x : Lowering α) : Prop := ∀ s a s', x.run s = .ok a s' → P a

namespace Yields

variable {α β : Type} {P : α → Prop} {Q : β → Prop}

theorem pure {a : α} (ha : P a) : Yields P (Pure.pure a : Lowering α) := by
  intro s a' s' h
  cases h
  exact ha

theorem bind {x : Lowering α} {g : α → Lowering β} (hx : Yields P x) (hg : ∀ a, P a → Yields Q (g a)) :
    Yields Q (x >>= g) := by
  intro s c s' h
  obtain ⟨a, s₁, hrun, h⟩ := bind_eq_ok h
  exact hg a (hx s a s₁ hrun) s₁ c s' h

/-- Whatever the first computation results in. -/
theorem after {x : Lowering α} {g : α → Lowering β} (hg : ∀ a, Yields Q (g a)) : Yields Q (x >>= g) :=
  bind (P := fun _ => True) (fun _ _ _ _ => trivial) fun a _ => hg a

theorem ofExcept {r : Except AssemblyError α} (hr : ∀ a, r = .ok a → P a) :
    Yields P (MonadExcept.ofExcept r : Lowering α) := by
  intro s a s' h
  cases r with
  | ok a' =>
    cases h
    exact hr a rfl
  | error e => cases h

end Yields

/-- No item is a jump. -/
abbrev Clean (items : List Item) : Prop := Item.jumplessAll items = true

theorem clean_lookup (m : Module) (name : String) (items : List Item) (h : lookup m name = .ok items) :
    Clean items := by
  obtain ⟨get, -, h⟩ := except_bind_eq_ok.1 h
  obtain ⟨globals, -, h⟩ := except_bind_eq_ok.1 h
  obtain ⟨builtins, -, h⟩ := except_bind_eq_ok.1 h
  obtain rfl := Except.ok.inj h
  rfl

theorem clean_constant (config : Runtime) (value : Constant) (items : List Item)
    (h : constant config value = .ok items) : Clean items := by
  cases value with
  | null =>
    cases h
    rfl
  | bool value | int value | str value =>
    obtain ⟨_, -, h⟩ := except_bind_eq_ok.1 h
    obtain rfl := Except.ok.inj h
    rfl

theorem clean_assign (name : String) : Yields Clean (assign name) := .after fun _ => .pure rfl

theorem clean_fetch (m : Module) (name : String) : Yields Clean (fetch m name) := by
  unfold fetch
  refine .after fun s => ?_
  split
  · exact .pure rfl
  · exact .after fun _ => .ofExcept (clean_lookup m name)

theorem clean_receive (name : Option String) : Yields Clean (receive name) := by
  cases name with
  | none => exact .pure rfl
  | some name => exact clean_assign name

/-- What has been lowered so far. -/
abbrev CleanArray (out : Array Item) : Prop := Clean out.toList

theorem CleanArray.append {out : Array Item} {items : List Item} (hout : CleanArray out) (hitems : Clean items) :
    CleanArray (out ++ items) := by simp [CleanArray, Clean, hout, hitems]

theorem CleanArray.push {out : Array Item} {item : Item} (hout : CleanArray out) (hitem : item.jumpless = true) :
    CleanArray (out.push item) := by simp [CleanArray, Clean, Item.jumplessAll, hout, hitem]

mutual

theorem clean_lower (m : Module) (command : Command) (hcommand : command.jumpless = true) (out : Array Item)
    (hout : CleanArray out) : Yields CleanArray (lower m command out) := by
  match command with
  | .mk operation arguments =>
    obtain ⟨hoperation, harguments⟩ := Bool.and_eq_true_iff.1 hcommand
    rw [lower]
    exact (clean_lowerAll m arguments harguments out hout).bind fun out hout =>
      clean_lowerOperation m operation hoperation out hout

theorem clean_lowerOperation (m : Module) (operation : Operation) (hoperation : operation.jumpless = true)
    (out : Array Item) (hout : CleanArray out) : Yields CleanArray (lowerOperation m operation out) := by
  match operation with
  | .pass =>
    rw [lowerOperation]
    exact .pure hout
  | .discard | .returnTop =>
    rw [lowerOperation]
    exact .pure (hout.push rfl)
  | .raw items =>
    rw [lowerOperation]
    exact .pure (hout.append hoperation)
  | .constant value =>
    rw [lowerOperation]
    exact (Yields.ofExcept (clean_constant m.config value)).bind fun _ hitems => .pure (hout.append hitems)
  | .fetch name =>
    rw [lowerOperation]
    exact (clean_fetch m name).bind fun _ hitems => .pure (hout.append hitems)
  | .assign name =>
    rw [lowerOperation]
    exact (clean_assign name).bind fun _ hitems => .pure (hout.append hitems)
  | .conditional clauses none =>
    rw [lowerOperation]
    refine .after fun _ => .after fun truth => ?_
    refine (clean_lowerClauses m truth .beginIf (fun _ _ h => h) clauses hoperation out hout).bind fun out hout => ?_
    exact .pure (hout.push rfl)
  | .conditional clauses (some body) =>
    obtain ⟨hclauses, hbody⟩ := Bool.and_eq_true_iff.1 hoperation
    rw [lowerOperation]
    refine .after fun _ => .after fun truth => ?_
    refine (clean_lowerClauses m truth .beginIf (fun _ _ h => h) clauses hclauses out hout).bind fun out hout => ?_
    exact (clean_lowerAll m body hbody _ (hout.push rfl)).bind fun out hout => .pure (hout.push rfl)
  | .guarded body handlers =>
    obtain ⟨hbody, hhandlers⟩ := Bool.and_eq_true_iff.1 hoperation
    rw [lowerOperation]
    refine .after fun _ => ?_
    refine (clean_lowerAll m body hbody _ (hout.push rfl)).bind fun out hout => ?_
    exact (clean_lowerHandlers m handlers hhandlers out hout).bind fun out hout => .pure (hout.push rfl)

theorem clean_lowerClauses (m : Module) (truth : MethodRef) (opening : List Item → Test → Item)
    (hopening : ∀ condition test, Clean condition → (opening condition test).jumpless = true)
    (clauses : List Clause) (hclauses : Clause.jumplessAll clauses = true) (out : Array Item)
    (hout : CleanArray out) : Yields CleanArray (lowerClauses m truth opening clauses out) := by
  match clauses with
  | [] =>
    rw [lowerClauses]
    exact .pure hout
  | .mk condition body :: clauses =>
    obtain ⟨hfirst, hclauses⟩ := Bool.and_eq_true_iff.1 hclauses
    obtain ⟨hcondition, hbody⟩ := Bool.and_eq_true_iff.1 hfirst
    rw [lowerClauses]
    refine (clean_lowerAll m condition hcondition #[] rfl).bind fun condition hcondition => ?_
    have htested : CleanArray (condition.push (.op (.invoke .interface truth))) := hcondition.push rfl
    refine (clean_lowerAll m body hbody _ (hout.push (hopening _ _ htested))).bind fun out hout => ?_
    exact clean_lowerClauses m truth .elseIf (fun _ _ h => h) clauses hclauses out hout

theorem clean_lowerHandlers (m : Module) (handlers : List CatchClause)
    (hhandlers : CatchClause.jumplessAll handlers = true) (out : Array Item) (hout : CleanArray out) :
    Yields CleanArray (lowerHandlers m handlers out) := by
  match handlers with
  | [] =>
    rw [lowerHandlers]
    exact .pure hout
  | .mk className name body :: handlers =>
    obtain ⟨hbody, hhandlers⟩ := Bool.and_eq_true_iff.1 hhandlers
    rw [lowerHandlers]
    refine (clean_receive name).bind fun received hreceived => ?_
    refine (clean_lowerAll m body hbody _ ((hout.push rfl).append hreceived)).bind fun out hout => ?_
    exact clean_lowerHandlers m handlers hhandlers out hout

theorem clean_lowerAll (m : Module) (commands : List Command) (hcommands : Command.jumplessAll commands = true)
    (out : Array Item) (hout : CleanArray out) : Yields CleanArray (lowerAll m commands out) := by
  match commands with
  | [] =>
    rw [lowerAll]
    exact .pure hout
  | command :: commands =>
    obtain ⟨hcommand, hcommands⟩ := Bool.and_eq_true_iff.1 hcommands
    rw [lowerAll]
    exact (clean_lower m command hcommand out hout).bind fun out hout =>
      clean_lowerAll m commands hcommands out hout

end

end Lowering

namespace Block

theorem jumplessAll_lowerAll (m : Module) (commands : List Command)
    (hcommands : Command.jumplessAll commands = true) (locals : Locals) :
    Item.jumplessAll (lowerAll m commands locals).1 = true := by
  induction commands generalizing locals with
  | nil => rfl
  | cons command commands ih =>
    obtain ⟨hcommand, hcommands⟩ := Bool.and_eq_true_iff.1 hcommands
    rw [lowerAll]
    cases hlower : Lowering.lower m command #[] ⟨locals, #[]⟩ with
    | ok items scope =>
      have hitems := Lowering.clean_lower m command hcommand #[] rfl _ items scope hlower
      simp only [Item.jumplessAll_append, Bool.and_eq_true]
      exact ⟨hitems, ih hcommands scope.locals⟩
    | error e scope => rfl

/-- No command of the block takes a jump over. -/
def Jumpless (b : Block) : Prop := Command.jumplessAll b.commands.toList = true

/-- The stream of a block has no jumps but those of its structures. -/
theorem Jumpless.stream {b : Block} (h : b.Jumpless) : Item.jumplessAll b.stream.1 = true :=
  jumplessAll_lowerAll b.module b.commands.toList h b.scope.locals

end Block

end BlockAssembler
