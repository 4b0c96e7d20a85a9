import BlockAssembler.Proofs.Block.Jumpless
import BlockAssembler.Proofs.Locals

/-! The places where commands mention a name, in the order in which the names are bound: the
operands of a command before the command, the condition of a clause before its body, the body of a
guarded range before its handlers, and the name of a handler before its body. Lowering meets them in
this order, so what it makes of one of them follows from those before it. All the rest of a
stream follows from the commands alone. -/

namespace BlockAssembler

/-- A place where a name is read or stored to. -/
inductive Mention
  | read (name : String)
  | store (name : String)
  deriving DecidableEq

namespace Mention

def stored? : Mention → Option String
  | read _ => none
  | store name => some name

/-- The names stored to, in order. -/
def stored (mentions : List Mention) : List String := mentions.filterMap stored?

@[simp] theorem stored_append (xs ys : List Mention) : stored (xs ++ ys) = stored xs ++ stored ys :=
  List.filterMap_append

@[simp] theorem stored_read (name : String) : stored [read name] = [] := rfl

@[simp] theorem stored_store (name : String) : stored [store name] = [name] := rfl

/-- The mention of a handler's name. -/
def received : Option String → List Mention
  | some name => [store name]
  | none => []

/-- What a mention becomes when these names have been bound before. -/
def Converted (m : Module) (bound : List String) : Mention → List Item → Prop
  | read name, items =>
    if name ∈ bound then ∃ slot : UInt16, slot.toNat = Locals.slotOf bound name ∧ items = [.op (.aload slot)]
    else Lowering.lookup m name = .ok items
  | store name, items => ∃ slot : UInt16, slot.toNat = Locals.slotOf bound name ∧ items = [.op (.astore slot)]

end Mention

/-! ### The order of mentions -/

mutual

def Command.mentions : Command → List Mention
  | .mk operation arguments => Command.mentionsAll arguments ++ operation.mentions

def Operation.mentions : Operation → List Mention
  | .pass | .constant _ | .discard | .returnTop | .raw _ => []
  | .fetch name => [.read name]
  | .assign name => [.store name]
  | .conditional clauses none => Clause.mentionsAll clauses
  | .conditional clauses (some body) => Clause.mentionsAll clauses ++ Command.mentionsAll body
  | .guarded body handlers => Command.mentionsAll body ++ CatchClause.mentionsAll handlers

def Clause.mentionsAll : List Clause → List Mention
  | [] => []
  | .mk condition body :: clauses =>
    Command.mentionsAll condition ++ (Command.mentionsAll body ++ Clause.mentionsAll clauses)

def CatchClause.mentionsAll : List CatchClause → List Mention
  | [] => []
  | .mk _ name body :: handlers =>
    Mention.received name ++ (Command.mentionsAll body ++ CatchClause.mentionsAll handlers)

def Command.mentionsAll : List Command → List Mention
  | [] => []
  | command :: commands => command.mentions ++ Command.mentionsAll commands

end

/-! ### Streams with the mentions left open -/

/-- The items of a constant, none if a part of them cannot be made. -/
def Constant.items (config : Runtime) (value : Constant) : List Item :=
  (Lowering.constant config value).toOption.getD []

/-- The test of a condition, left out if it cannot be made. -/
def Runtime.test (config : Runtime) : List Item :=
  config.truth.toOption.toList.map fun truth => .op (.invoke .interface truth)

/-- What stands at a mention, which is told by those before it. -/
abbrev Writer := List Mention → Mention → List Item

/-- What a handler starts with. -/
def Writer.receive (write : Writer) (before : List Mention) : Option String → List Item
  | some name => write before (.store name)
  | none => [.op .pop]

section
variable (m : Module) (write : Writer)

mutual

/-- The stream of a command behind mentions. -/
def Command.items : List Mention → Command → List Item
  | before, .mk operation arguments =>
    Command.itemsAll before arguments ++ Operation.items (before ++ Command.mentionsAll arguments) operation

def Operation.items : List Mention → Operation → List Item
  | _, .pass => []
  | _, .constant value => value.items m.config
  | before, .fetch name => write before (.read name)
  | before, .assign name => write before (.store name)
  | _, .discard => [.op .pop]
  | _, .returnTop => [.op .areturn]
  | before, .conditional clauses none => Clause.itemsAll .beginIf before clauses ++ [.endIf]
  | before, .conditional clauses (some body) =>
    Clause.itemsAll .beginIf before clauses ++
      .beginElse :: (Command.itemsAll (before ++ Clause.mentionsAll clauses) body ++ [.endIf])
  | before, .guarded body handlers =>
    .beginTry :: (Command.itemsAll before body ++
      (CatchClause.itemsAll (before ++ Command.mentionsAll body) handlers ++ [.endTry]))
  | _, .raw items => items

def Clause.itemsAll (opening : List Item → Test → Item) : List Mention → List Clause → List Item
  | _, [] => []
  | before, .mk condition body :: clauses =>
    let inside := before ++ Command.mentionsAll condition
    opening (Command.itemsAll before condition ++ m.config.test) .ifeq ::
      (Command.itemsAll inside body ++ Clause.itemsAll .elseIf (inside ++ Command.mentionsAll body) clauses)

def CatchClause.itemsAll : List Mention → List CatchClause → List Item
  | _, [] => []
  | before, .mk className name body :: handlers =>
    let inside := before ++ Mention.received name
    .beginCatch className :: (write.receive before name ++
      (Command.itemsAll inside body ++ CatchClause.itemsAll (inside ++ Command.mentionsAll body) handlers))

def Command.itemsAll : List Mention → List Command → List Item
  | _, [] => []
  | before, command :: commands =>
    Command.items before command ++ Command.itemsAll (before ++ command.mentions) commands

end

end

/-! ### Lowering -/

namespace Mention

/-- What lowering writes at a mention. -/
def written (m : Module) (arguments : List String) : Writer
  | before, read name =>
    let bound := arguments ++ stored before
    if name ∈ bound then [.op (.aload (.ofNat (Locals.slotOf bound name)))]
    else (Lowering.lookup m name).toOption.getD []
  | before, store name => [.op (.astore (.ofNat (Locals.slotOf (arguments ++ stored before) name)))]

/-- Behind these mentions, each of those is converted. -/
def AllConverted (m : Module) (arguments : List String) : List Mention → List Mention → Prop
  | _, [] => True
  | before, mention :: mentions =>
    mention.Converted m (arguments ++ stored before) (written m arguments before mention) ∧
      AllConverted m arguments (before ++ [mention]) mentions

theorem AllConverted.append {m : Module} {arguments : List String} {before xs ys : List Mention}
    (hxs : AllConverted m arguments before xs) (hys : AllConverted m arguments (before ++ xs) ys) :
    AllConverted m arguments before (xs ++ ys) := by
  induction xs generalizing before with
  | nil => rwa [List.append_nil] at hys
  | cons x xs ih =>
    refine ⟨hxs.1, ih hxs.2 ?_⟩
    rwa [List.append_assoc, List.singleton_append]

theorem AllConverted.mention {m : Module} {arguments : List String} {before mentions : List Mention}
    (h : AllConverted m arguments before mentions) {xs ys : List Mention} {mention : Mention}
    (hmentions : mentions = xs ++ mention :: ys) :
    mention.Converted m (arguments ++ stored (before ++ xs)) (written m arguments (before ++ xs) mention) := by
  subst hmentions
  induction xs generalizing before with
  | nil =>
    rw [List.append_nil]
    exact h.1
  | cons x xs ih =>
    have hrest := ih h.2
    rwa [List.append_assoc, List.singleton_append] at hrest

end Mention

namespace Lowering

open Mention (AllConverted written stored)

variable {m : Module} {arguments : List String} {before mentions mentions' : List Mention}

/-- Behind these mentions, the computation appends items to what there is, and meets mentions on the way. -/
def Writes (m : Module) (arguments : List String) (before : List Mention) (out : Array Item)
    (x : Lowering (Array Item)) (items : List Item) (mentions : List Mention) : Prop :=
  ∀ s out' s', s.locals.Holds (arguments ++ stored before) → x.run s = .ok out' s' →
    out'.toList = out.toList ++ items ∧ s'.locals.Holds (arguments ++ stored (before ++ mentions)) ∧
      AllConverted m arguments before mentions

namespace Writes

variable {out : Array Item} {x : Lowering (Array Item)} {items items' : List Item}

theorem pure {out' : Array Item} (hitems : out'.toList = out.toList ++ items) :
    Writes m arguments before out (Pure.pure out') items [] := by
  intro s out'' s' hs h
  cases h
  exact ⟨hitems, by rwa [List.append_nil], trivial⟩

theorem bind {g : Array Item → Lowering (Array Item)} (hx : Writes m arguments before out x items mentions)
    (hg : ∀ out, Writes m arguments (before ++ mentions) out (g out) items' mentions') :
    Writes m arguments before out (x >>= g) (items ++ items') (mentions ++ mentions') := by
  intro s out' s' hs h
  obtain ⟨out₁, s₁, hrun, h⟩ := bind_eq_ok h
  obtain ⟨hout₁, hs₁, hmentions⟩ := hx s out₁ s₁ hs hrun
  obtain ⟨hout', hs', hmentions'⟩ := hg out₁ s₁ out' s' hs₁ h
  refine ⟨by rw [hout', hout₁, List.append_assoc], ?_, hmentions.append hmentions'⟩
  rwa [← List.append_assoc]

/-- Ends with one item more. -/
theorem push (hx : Writes m arguments before out x items mentions) (item : Item) :
    Writes m arguments before out (do let out ← x; return out.push item) (items ++ [item]) mentions := by
  have h := hx.bind (g := fun out => Pure.pure (out.push item)) fun out =>
    (.pure (by simp) : Writes m arguments (before ++ mentions) out _ [item] [])
  rwa [List.append_nil] at h

/-- Starts with items more. -/
theorem behind {out' : Array Item} (hx : Writes m arguments before out' x items mentions)
    (hout : out'.toList = out.toList ++ items') : Writes m arguments before out x (items' ++ items) mentions := by
  intro s out'' s' hs h
  obtain ⟨hitems, hrest⟩ := hx s out'' s' hs h
  exact ⟨by rw [hitems, hout, List.append_assoc], hrest⟩

theorem ensure {p : Prop} [Decidable p] {e : AssemblyError} (hx : Writes m arguments before out x items mentions) :
    Writes m arguments before out (do BlockAssembler.ensure p e; x) items mentions := by
  intro s out' s' hs h
  obtain ⟨_, s₁, hrun, h⟩ := bind_eq_ok h
  by_cases hp : p
  · rw [ensure_run hp e] at hrun
    cases hrun
    exact hx _ out' s' hs h
  · rw [ensure_run_error hp e] at hrun
    cases hrun

/-- What is needed from outside has been made. -/
theorem ofExcept {α : Type} {r : Except AssemblyError α} {g : α → Lowering (Array Item)}
    (hg : ∀ a, r = .ok a → Writes m arguments before out (g a) items mentions) :
    Writes m arguments before out (do let a ← MonadExcept.ofExcept r; g a) items mentions := by
  intro s out' s' hs h
  cases r with
  | ok a => exact hg a rfl s out' s' hs h
  | error e => cases h

end Writes

/-! ### One mention -/

theorem Holds.of_bindName {s s' : Scope} {name : String} {slot : UInt16} {bound : List String}
    (hs : s.locals.Holds bound) (h : (bindName name).run s = .ok slot s') :
    s'.locals.Holds (bound ++ [name]) ∧ slot.toNat = Locals.slotOf bound name := by
  rw [EStateM.run, bindName] at h
  split at h
  · next slot' locals hallocate =>
    cases h
    have hlocals := hs.allocate hallocate
    exact ⟨hlocals, by rw [hlocals.slot_eq name slot (Locals.slot?_of_allocate hallocate), Locals.slotOf_next]⟩
  · cases h

theorem writes_assign (m : Module) (arguments : List String) (before : List Mention) (name : String)
    (out : Array Item) :
    Writes m arguments before out (do let items ← assign name; return out ++ items)
      (written m arguments before (.store name)) [.store name] := by
  intro s out' s' hs h
  obtain ⟨items, s₁, hassign, h⟩ := bind_eq_ok h
  obtain ⟨slot, s₂, hbind, hassign⟩ := bind_eq_ok hassign
  cases h
  cases hassign
  obtain ⟨hlocals, hslot⟩ := Holds.of_bindName hs hbind
  have hitems : written m arguments before (.store name) = [.op (.astore slot)] := by
    rw [written, ← hslot, UInt16.ofNat_toNat]
  refine ⟨by simp [hitems], by simpa using hlocals, ?_, trivial⟩
  rw [hitems]
  exact ⟨slot, hslot, rfl⟩

theorem writes_fetch (m : Module) (arguments : List String) (before : List Mention) (name : String)
    (out : Array Item) :
    Writes m arguments before out (do let items ← fetch m name; return out ++ items)
      (written m arguments before (.read name)) [.read name] := by
  intro s out' s' hs h
  obtain ⟨items, s₁, hfetch, h⟩ := bind_eq_ok h
  cases h
  suffices hmade : s'.locals = s.locals ∧ written m arguments before (.read name) = items ∧
      Mention.Converted m (arguments ++ stored before) (.read name) items by
    obtain ⟨hlocals, hitems, hconverted⟩ := hmade
    refine ⟨by simp [hitems], ?_, by rwa [hitems], trivial⟩
    simpa [hlocals] using hs
  rw [fetch, get_bind] at hfetch
  rw [written, Mention.Converted]
  cases hslot : s.locals.slot? name with
  | some slot =>
    rw [hslot] at hfetch
    cases hfetch
    have hname := hs.isSome_iff.1 (Option.isSome_of_eq_some hslot)
    have hnumber := hs.slot_eq name slot hslot
    rw [if_pos hname, if_pos hname, ← hnumber, UInt16.ofNat_toNat]
    exact ⟨rfl, rfl, slot, rfl, rfl⟩
  | none =>
    rw [hslot] at hfetch
    obtain ⟨_, s₂, hnote, hfetch⟩ := bind_eq_ok hfetch
    cases hnote
    have hname : name ∉ arguments ++ stored before := by
      rw [← hs.isSome_iff, hslot]
      exact Bool.false_ne_true
    rw [if_neg hname, if_neg hname]
    cases hlookup : lookup m name with
    | ok made =>
      rw [hlookup] at hfetch
      cases hfetch
      exact ⟨rfl, rfl, rfl⟩
    | error e =>
      rw [hlookup] at hfetch
      cases hfetch

theorem writes_receive (m : Module) (arguments : List String) (before : List Mention) (name : Option String)
    (out : Array Item) :
    Writes m arguments before out (do let items ← receive name; return out ++ items)
      ((written m arguments).receive before name) (Mention.received name) := by
  cases name with
  | some name => exact writes_assign m arguments before name out
  | none => exact .pure (by simp [Writer.receive])

/-! ### Commands -/

mutual

theorem writes_lower (m : Module) (arguments : List String) (before : List Mention) (command : Command)
    (out : Array Item) :
    Writes m arguments before out (lower m command out) (command.items m (written m arguments) before)
      command.mentions := by
  match command with
  | .mk operation operands =>
    rw [lower, Command.items, Command.mentions]
    exact (writes_lowerAll m arguments before operands out).bind fun out =>
      writes_lowerOperation m arguments _ operation out

theorem writes_lowerOperation (m : Module) (arguments : List String) (before : List Mention) (operation : Operation)
    (out : Array Item) :
    Writes m arguments before out (lowerOperation m operation out)
      (operation.items m (written m arguments) before) operation.mentions := by
  match operation with
  | .pass =>
    rw [lowerOperation, Operation.items, Operation.mentions]
    exact .pure (by simp)
  | .discard | .returnTop =>
    rw [lowerOperation, Operation.items, Operation.mentions]
    exact .pure (by simp)
  | .raw items =>
    rw [lowerOperation, Operation.items, Operation.mentions]
    exact .pure (by simp)
  | .constant value =>
    rw [lowerOperation, Operation.items, Operation.mentions]
    exact .ofExcept fun items hitems => .pure (by simp [Constant.items, hitems, Except.toOption])
  | .fetch name =>
    rw [lowerOperation, Operation.items, Operation.mentions]
    exact writes_fetch m arguments before name out
  | .assign name =>
    rw [lowerOperation, Operation.items, Operation.mentions]
    exact writes_assign m arguments before name out
  | .conditional clauses none =>
    rw [lowerOperation, Operation.items, Operation.mentions]
    refine .ensure (.ofExcept fun truth htruth => ?_)
    exact (writes_lowerClauses m arguments before truth htruth .beginIf clauses out).push .endIf
  | .conditional clauses (some body) =>
    rw [lowerOperation, Operation.items, Operation.mentions]
    refine .ensure (.ofExcept fun truth htruth => ?_)
    refine (writes_lowerClauses m arguments before truth htruth .beginIf clauses out).bind fun out => ?_
    have hbody := (writes_lowerAll m arguments (before ++ Clause.mentionsAll clauses) body (out.push .beginElse)).push
      .endIf
    have hpushed : (out.push .beginElse).toList = out.toList ++ [.beginElse] := by simp
    exact hbody.behind hpushed
  | .guarded body handlers =>
    rw [lowerOperation, Operation.items, Operation.mentions]
    refine .ensure ?_
    have hall := (writes_lowerAll m arguments before body (out.push .beginTry)).bind fun out =>
      (writes_lowerHandlers m arguments (before ++ Command.mentionsAll body) handlers out).push .endTry
    have hpushed : (out.push .beginTry).toList = out.toList ++ [.beginTry] := by simp
    exact hall.behind hpushed

theorem writes_lowerClauses (m : Module) (arguments : List String) (before : List Mention) (truth : MethodRef)
    (htruth : m.config.truth = .ok truth) (opening : List Item → Test → Item) (clauses : List Clause)
    (out : Array Item) :
    Writes m arguments before out (lowerClauses m truth opening clauses out)
      (Clause.itemsAll m (written m arguments) opening before clauses) (Clause.mentionsAll clauses) := by
  match clauses with
  | [] =>
    rw [lowerClauses, Clause.itemsAll, Clause.mentionsAll]
    exact .pure (by simp)
  | .mk condition body :: clauses =>
    rw [lowerClauses, Clause.itemsAll, Clause.mentionsAll]
    intro s out' s' hs h
    obtain ⟨tested, s₁, hcondition, h⟩ := bind_eq_ok h
    obtain ⟨htested, hs₁, hmentions⟩ := writes_lowerAll m arguments before condition #[] s tested s₁ hs hcondition
    have hrest := (writes_lowerAll m arguments (before ++ Command.mentionsAll condition) body
      (out.push (opening (tested.push (.op (.invoke .interface truth))).toList .ifeq))).bind fun out =>
        writes_lowerClauses m arguments _ truth htruth .elseIf clauses out
    obtain ⟨hout', hs', hmentions'⟩ := hrest s₁ out' s' hs₁ h
    refine ⟨?_, by rwa [← List.append_assoc], hmentions.append hmentions'⟩
    rw [hout']
    simp [htested, Runtime.test, htruth, Except.toOption]

theorem writes_lowerHandlers (m : Module) (arguments : List String) (before : List Mention)
    (handlers : List CatchClause) (out : Array Item) :
    Writes m arguments before out (lowerHandlers m handlers out)
      (CatchClause.itemsAll m (written m arguments) before handlers) (CatchClause.mentionsAll handlers) := by
  match handlers with
  | [] =>
    rw [lowerHandlers, CatchClause.itemsAll, CatchClause.mentionsAll]
    exact .pure (by simp)
  | .mk className name body :: handlers =>
    rw [lowerHandlers, CatchClause.itemsAll, CatchClause.mentionsAll]
    have hall := (writes_receive m arguments before name (out.push (.beginCatch className))).bind fun out =>
      (writes_lowerAll m arguments (before ++ Mention.received name) body out).bind fun out =>
        writes_lowerHandlers m arguments _ handlers out
    have hpushed : (out.push (.beginCatch className)).toList = out.toList ++ [.beginCatch className] := by simp
    have hbehind := hall.behind hpushed
    simpa only [bind_assoc, pure_bind, List.singleton_append] using hbehind

theorem writes_lowerAll (m : Module) (arguments : List String) (before : List Mention) (commands : List Command)
    (out : Array Item) :
    Writes m arguments before out (lowerAll m commands out)
      (Command.itemsAll m (written m arguments) before commands) (Command.mentionsAll commands) := by
  match commands with
  | [] =>
    rw [lowerAll, Command.itemsAll, Command.mentionsAll]
    exact .pure (by simp)
  | command :: commands =>
    rw [lowerAll, Command.itemsAll, Command.mentionsAll]
    exact (writes_lower m arguments before command out).bind fun out => writes_lowerAll m arguments _ commands out

end

end Lowering

end BlockAssembler
