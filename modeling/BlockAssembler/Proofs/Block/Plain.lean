import BlockAssembler.Proofs.Block.Jumpless
import BlockAssembler.Proofs.Body.Handlers

/-! Blocks whose raw items are plain instructions. All markers of such a block are written by
lowering, so its stream is balanced from the start: a command appends the stream of a tree. Clauses
and handlers are appended one at a time, so what they are turned into is the part of a tree that
still takes what follows. Every handler starts with the instruction that takes the exception off
the stack. -/

namespace BlockAssembler

/-! ### Trees -/

def Body.append : Body → Body → Body
  | .nil, t => t
  | .op opcode rest, t => .op opcode (rest.append t)
  | .guarded body catches handler more rest, t => .guarded body catches handler more (rest.append t)
  | .chain condition test body more rest, t => .chain condition test body more (rest.append t)

@[simp] theorem Body.items_append (s t : Body) : (s.append t).items = s.items ++ t.items := by
  cases s with
  | nil => rfl
  | op _ rest | guarded _ _ _ _ rest | chain _ _ _ _ rest =>
    simp [Body.append, Body.items, rest.items_append t]

theorem Body.Receiving.append {s t : Body} (hs : s.Receiving) (ht : t.Receiving) : (s.append t).Receiving := by
  cases s with
  | nil => exact ht
  | op opcode rest => exact Body.Receiving.append (s := rest) hs ht
  | guarded body catches handler more rest =>
    obtain ⟨hbody, hhandler, hmore, hrest⟩ := hs
    exact ⟨hbody, hhandler, hmore, hrest.append ht⟩
  | chain condition test body more rest =>
    obtain ⟨hcondition, hbody, hmore, hrest⟩ := hs
    exact ⟨hcondition, hbody, hmore, hrest.append ht⟩

/-- The stream of a tree whose handlers take the exception. -/
def Structured (items : List Item) : Prop := ∃ t : Body, t.Receiving ∧ t.items = items

namespace Structured

variable {items items' : List Item}

theorem nil : Structured [] := ⟨.nil, trivial, rfl⟩

theorem append (h : Structured items) (h' : Structured items') : Structured (items ++ items') := by
  obtain ⟨s, hs, rfl⟩ := h
  obtain ⟨t, ht, rfl⟩ := h'
  exact ⟨s.append t, hs.append ht, s.items_append t⟩

theorem cons_op (opcode : Opcode) (h : Structured items) : Structured (.op opcode :: items) := by
  obtain ⟨t, ht, rfl⟩ := h
  exact ⟨.op opcode t, ht, rfl⟩

theorem op (opcode : Opcode) : Structured [.op opcode] := cons_op opcode nil

end Structured

/-! ### Commands -/

def Item.isOp : Item → Bool
  | .op _ => true
  | _ => false

/-- Only plain instructions are taken over as they are. -/
def Operation.isPlain : Operation → Bool
  | .raw items => items.all Item.isOp
  | _ => true

theorem structured_of_ops {items : List Item} (h : items.all Item.isOp = true) : Structured items := by
  induction items with
  | nil => exact .nil
  | cons item items ih =>
    rw [List.all_cons, Bool.and_eq_true] at h
    obtain ⟨hitem, hitems⟩ := h
    cases item with
    | op opcode => exact (ih hitems).cons_op opcode
    | beginTry | beginCatch | endTry | beginIf | elseIf | beginElse | endIf => cases hitem

/-! ### Lowering -/

namespace Lowering

/-- Goes on only if the condition holds. -/
theorem Yields.ensure {β : Type} {Q : β → Prop} {p : Prop} [Decidable p] {e : AssemblyError}
    {g : Unit → Lowering β} (hg : p → Yields Q (g ())) : Yields Q (BlockAssembler.ensure p e >>= g) := by
  intro s b s' h
  by_cases hp : p
  · rw [bind_ok (ensure_run hp e)] at h
    exact hg hp s b s' h
  · rw [bind_error (ensure_run_error hp e)] at h
    cases h

theorem structured_lookup (m : Module) (name : String) (items : List Item) (h : lookup m name = .ok items) :
    Structured items := by
  obtain ⟨get, -, h⟩ := except_bind_eq_ok.1 h
  obtain ⟨globals, -, h⟩ := except_bind_eq_ok.1 h
  obtain ⟨builtins, -, h⟩ := except_bind_eq_ok.1 h
  obtain rfl := Except.ok.inj h
  let fallback : Body :=
    .op .pop (.op (.getstatic builtins) (.op (.ldc (.string name)) (.op (.invoke .virtual get) .nil)))
  let found : Body := .chain (.op .dup .nil) .ifnonnull fallback .done .nil
  exact ⟨.op (.getstatic globals) (.op (.ldc (.string name)) (.op (.invoke .virtual get) found)),
    ⟨trivial, trivial, trivial, trivial⟩, rfl⟩

theorem structured_constant (config : Runtime) (value : Constant) (items : List Item)
    (h : constant config value = .ok items) : Structured items := by
  refine structured_of_ops ?_
  cases value with
  | null =>
    cases h
    rfl
  | bool value | int value | str value =>
    obtain ⟨_, -, h⟩ := except_bind_eq_ok.1 h
    obtain rfl := Except.ok.inj h
    rfl

theorem structured_assign (name : String) : Yields Structured (assign name) :=
  .after fun slot => .pure (.op (.astore slot))

theorem structured_fetch (m : Module) (name : String) : Yields Structured (fetch m name) := by
  unfold fetch
  refine .after fun s => ?_
  split
  · exact .pure (.op _)
  · exact .after fun _ => .ofExcept (structured_lookup m name)

theorem yields_receive (name : Option String) :
    Yields (fun items => ∃ opcode : Opcode, opcode.receives = true ∧ items = [.op opcode]) (receive name) := by
  cases name with
  | none => exact .pure ⟨.pop, rfl, rfl⟩
  | some name => exact .after fun slot => .pure ⟨.astore slot, rfl, rfl⟩

/-- The stream of a tree has been appended. -/
def Grows (out out' : Array Item) : Prop := ∃ items, Structured items ∧ out'.toList = out.toList ++ items

/-- Handlers have been appended. -/
def GrowsHandlers (out out' : Array Item) (handlers : Catches) : Prop :=
  handlers.Receiving ∧ out'.toList = out.toList ++ handlers.items

/-- Further branches have been appended, which take whatever branches follow. -/
def GrowsBranches (out out' : Array Item) : Prop :=
  ∀ rest : Arms, rest.Receiving → ∃ arms : Arms, arms.Receiving ∧
    out'.toList ++ rest.items = out.toList ++ arms.items

namespace Grows

variable {out out' out'' : Array Item} {items : List Item}

theorem refl (out : Array Item) : Grows out out := ⟨[], .nil, (List.append_nil _).symm⟩

theorem trans (h : Grows out out') (h' : Grows out' out'') : Grows out out'' := by
  obtain ⟨items, hitems, heq⟩ := h
  obtain ⟨items', hitems', heq'⟩ := h'
  exact ⟨items ++ items', hitems.append hitems', by rw [heq', heq, List.append_assoc]⟩

theorem append (out : Array Item) (hitems : Structured items) : Grows out (out ++ items) := ⟨items, hitems, by simp⟩

theorem op (out : Array Item) (opcode : Opcode) : Grows out (out.push (.op opcode)) := ⟨_, .op opcode, by simp⟩

end Grows

section
variable {m : Module} {truth : MethodRef} {condition body : List Command} {clauses : List Clause}
  {handlers : List CatchClause} {out : Array Item}

/-- A clause appends the marker with its condition, its body and the clauses behind it. -/
theorem yields_clause (hcondition : Yields (Grows #[]) (lowerAll m condition #[]))
    (hbody : ∀ out, Yields (Grows out) (lowerAll m body out))
    (hclauses : ∀ out, Yields (GrowsBranches out) (lowerClauses m truth .elseIf clauses out))
    (opening : List Item → Test → Item) :
    Yields (fun out' => ∃ c b : Body, c.Receiving ∧ b.Receiving ∧ ∀ rest : Arms, rest.Receiving →
        ∃ arms : Arms, arms.Receiving ∧
          out'.toList ++ rest.items = out.toList ++ opening c.items .ifeq :: (b.items ++ arms.items))
      (lowerClauses m truth opening (.mk condition body :: clauses) out) := by
  rw [lowerClauses]
  refine hcondition.bind fun tested htested => ?_
  refine (hbody _).bind fun out₁ hout₁ s out' s' hrun => ?_
  obtain ⟨_, ⟨c, hc, rfl⟩, htested⟩ := htested.trans (.op _ (.invoke .interface truth))
  obtain ⟨_, ⟨b, hb, rfl⟩, hout₁⟩ := hout₁
  have hbranches := hclauses out₁ s out' s' hrun
  refine ⟨c, b, hc, hb, fun rest hrest => ?_⟩
  obtain ⟨arms, harms, heq⟩ := hbranches rest hrest
  refine ⟨arms, harms, ?_⟩
  rw [heq, hout₁, htested]
  simp

/-- A handler appends its marker, the instruction that takes the exception, and its body. -/
theorem yields_handler (name className : Option String) (hbody : ∀ out, Yields (Grows out) (lowerAll m body out))
    (hhandlers : ∀ out, Yields (fun out' => ∃ more, GrowsHandlers out out' more) (lowerHandlers m handlers out)) :
    Yields (fun out' => ∃ b : Body, b.receives = true ∧ b.Receiving ∧ ∃ more : Catches, more.Receiving ∧
        out'.toList = out.toList ++ .beginCatch className :: (b.items ++ more.items))
      (lowerHandlers m (.mk className name body :: handlers) out) := by
  rw [lowerHandlers]
  refine (yields_receive name).bind fun received hreceived => ?_
  refine (hbody _).bind fun out₁ hout₁ s out' s' hrun => ?_
  obtain ⟨opcode, hopcode, rfl⟩ := hreceived
  obtain ⟨_, ⟨b, hb, rfl⟩, hout₁⟩ := hout₁
  obtain ⟨more, hmore, heq⟩ := hhandlers out₁ s out' s' hrun
  refine ⟨.op opcode b, hopcode, hb, more, hmore, ?_⟩
  rw [heq, hout₁]
  simp [Body.items]

end

mutual

theorem grows_lower (m : Module) (command : Command) (hcommand : command.all Operation.isPlain = true)
    (out : Array Item) : Yields (Grows out) (lower m command out) := by
  match command with
  | .mk operation arguments =>
    obtain ⟨hoperation, harguments⟩ := Bool.and_eq_true_iff.1 hcommand
    rw [lower]
    refine (grows_lowerAll m arguments harguments out).bind fun out₁ hout₁ s out' s' hrun => ?_
    exact hout₁.trans (grows_lowerOperation m operation hoperation out₁ s out' s' hrun)

theorem grows_lowerOperation (m : Module) (operation : Operation)
    (hoperation : operation.all Operation.isPlain = true) (out : Array Item) :
    Yields (Grows out) (lowerOperation m operation out) := by
  match operation with
  | .pass =>
    rw [lowerOperation]
    exact .pure (.refl out)
  | .discard | .returnTop =>
    rw [lowerOperation]
    exact .pure (.op out _)
  | .raw items =>
    rw [lowerOperation]
    exact .pure (.append out (structured_of_ops hoperation))
  | .constant value =>
    rw [lowerOperation]
    exact (Yields.ofExcept (structured_constant m.config value)).bind fun _ hitems => .pure (.append out hitems)
  | .fetch name =>
    rw [lowerOperation]
    exact (structured_fetch m name).bind fun _ hitems => .pure (.append out hitems)
  | .assign name =>
    rw [lowerOperation]
    exact (structured_assign name).bind fun _ hitems => .pure (.append out hitems)
  | .conditional [] otherwise =>
    rw [lowerOperation]
    exact .ensure fun hclauses => by simp at hclauses
  | .conditional (.mk condition body :: clauses) none =>
    obtain ⟨hfirst, hclauses⟩ := Bool.and_eq_true_iff.1 hoperation
    obtain ⟨hcondition, hbody⟩ := Bool.and_eq_true_iff.1 hfirst
    rw [lowerOperation]
    refine .ensure fun _ => .after fun truth => ?_
    refine (yields_clause (grows_lowerAll m condition hcondition #[]) (grows_lowerAll m body hbody)
      (grows_lowerClauses m truth clauses hclauses) .beginIf).bind fun out₁ hout₁ => .pure ?_
    obtain ⟨c, b, hc, hb, hbranches⟩ := hout₁
    obtain ⟨arms, harms, heq⟩ := hbranches .done trivial
    refine ⟨_, ⟨.chain c .ifeq b arms .nil, ⟨hc, hb, harms, trivial⟩, rfl⟩, ?_⟩
    rw [Arms.items, List.append_nil] at heq
    simp [heq, Body.items]
  | .conditional (.mk condition body :: clauses) (some last) =>
    obtain ⟨hclauses, hlast⟩ := Bool.and_eq_true_iff.1 hoperation
    obtain ⟨hfirst, hclauses⟩ := Bool.and_eq_true_iff.1 hclauses
    obtain ⟨hcondition, hbody⟩ := Bool.and_eq_true_iff.1 hfirst
    rw [lowerOperation]
    refine .ensure fun _ => .after fun truth => ?_
    refine (yields_clause (grows_lowerAll m condition hcondition #[]) (grows_lowerAll m body hbody)
      (grows_lowerClauses m truth clauses hclauses) .beginIf).bind fun out₁ hout₁ => ?_
    refine (grows_lowerAll m last hlast _).bind fun out₂ hout₂ => .pure ?_
    obtain ⟨c, b, hc, hb, hbranches⟩ := hout₁
    obtain ⟨_, ⟨t, ht, rfl⟩, heq₂⟩ := hout₂
    obtain ⟨arms, harms, heq⟩ := hbranches (.otherwise t) ht
    refine ⟨_, ⟨.chain c .ifeq b arms .nil, ⟨hc, hb, harms, trivial⟩, rfl⟩, ?_⟩
    have hout₂ : out₂.toList = out₁.toList ++ (Arms.otherwise t).items := by simp [heq₂, Arms.items]
    rw [Array.toList_push, hout₂, heq]
    simp [Body.items]
  | .guarded body [] =>
    rw [lowerOperation]
    exact .ensure fun hhandlers => by simp at hhandlers
  | .guarded body (.mk className name received :: handlers) =>
    obtain ⟨hbody, hhandlers⟩ := Bool.and_eq_true_iff.1 hoperation
    obtain ⟨hreceived, hhandlers⟩ := Bool.and_eq_true_iff.1 hhandlers
    rw [lowerOperation]
    refine .ensure fun _ => ?_
    refine (grows_lowerAll m body hbody _).bind fun out₁ hout₁ => ?_
    refine (yields_handler name className (grows_lowerAll m received hreceived)
      (grows_lowerHandlers m handlers hhandlers)).bind fun out₂ hout₂ => .pure ?_
    obtain ⟨_, ⟨t, ht, rfl⟩, heq₁⟩ := hout₁
    obtain ⟨b, hb, hb', more, hmore, heq₂⟩ := hout₂
    refine ⟨_, ⟨.guarded t className b more .nil, ⟨ht, ⟨hb, hb'⟩, hmore, trivial⟩, rfl⟩, ?_⟩
    simp [heq₂, heq₁, Body.items]

theorem grows_lowerClauses (m : Module) (truth : MethodRef) (clauses : List Clause)
    (hclauses : Clause.allOf Operation.isPlain clauses = true) (out : Array Item) :
    Yields (GrowsBranches out) (lowerClauses m truth .elseIf clauses out) := by
  match clauses with
  | [] =>
    rw [lowerClauses]
    exact .pure fun rest hrest => ⟨rest, hrest, rfl⟩
  | .mk condition body :: clauses =>
    obtain ⟨hfirst, hclauses⟩ := Bool.and_eq_true_iff.1 hclauses
    obtain ⟨hcondition, hbody⟩ := Bool.and_eq_true_iff.1 hfirst
    intro s out' s' hrun
    obtain ⟨c, b, hc, hb, hbranches⟩ :=
      yields_clause (grows_lowerAll m condition hcondition #[]) (grows_lowerAll m body hbody)
        (grows_lowerClauses m truth clauses hclauses) .elseIf s out' s' hrun
    intro rest hrest
    obtain ⟨arms, harms, heq⟩ := hbranches rest hrest
    exact ⟨.elseIf c .ifeq b arms, ⟨hc, hb, harms⟩, by simp [heq, Arms.items]⟩

theorem grows_lowerHandlers (m : Module) (handlers : List CatchClause)
    (hhandlers : CatchClause.allOf Operation.isPlain handlers = true) (out : Array Item) :
    Yields (fun out' => ∃ more, GrowsHandlers out out' more) (lowerHandlers m handlers out) := by
  match handlers with
  | [] =>
    rw [lowerHandlers]
    exact .pure ⟨.done, trivial, (List.append_nil _).symm⟩
  | .mk className name body :: handlers =>
    obtain ⟨hbody, hhandlers⟩ := Bool.and_eq_true_iff.1 hhandlers
    intro s out' s' hrun
    obtain ⟨b, hb, hb', more, hmore, heq⟩ :=
      yields_handler name className (grows_lowerAll m body hbody) (grows_lowerHandlers m handlers hhandlers)
        s out' s' hrun
    exact ⟨.handler className b more, ⟨⟨hb, hb'⟩, hmore⟩, by simp [heq, Catches.items]⟩

theorem grows_lowerAll (m : Module) (commands : List Command)
    (hcommands : Command.allOf Operation.isPlain commands = true) (out : Array Item) :
    Yields (Grows out) (lowerAll m commands out) := by
  match commands with
  | [] =>
    rw [lowerAll]
    exact .pure (.refl out)
  | command :: commands =>
    obtain ⟨hcommand, hcommands⟩ := Bool.and_eq_true_iff.1 hcommands
    rw [lowerAll]
    refine (grows_lower m command hcommand out).bind fun out₁ hout₁ s out' s' hrun => ?_
    exact hout₁.trans (grows_lowerAll m commands hcommands out₁ s out' s' hrun)

end

end Lowering

namespace Block

theorem structured_lowerAll (m : Module) (commands : List Command)
    (hcommands : Command.allOf Operation.isPlain commands = true) (locals : Locals) :
    Structured (lowerAll m commands locals).1 := by
  induction commands generalizing locals with
  | nil => exact .nil
  | cons command commands ih =>
    obtain ⟨hcommand, hcommands⟩ := Bool.and_eq_true_iff.1 hcommands
    rw [lowerAll]
    cases hlower : Lowering.lower m command #[] ⟨locals, #[]⟩ with
    | ok items scope =>
      obtain ⟨_, hitems, heq⟩ := Lowering.grows_lower m command hcommand #[] _ items scope hlower
      obtain rfl : items.toList = _ := heq
      exact hitems.append (ih hcommands scope.locals)
    | error e scope => exact .nil

/-- The block takes over nothing but plain instructions. -/
def Plain (b : Block) : Prop := Command.allOf Operation.isPlain b.commands.toList = true

end Block

end BlockAssembler
