import BlockAssembler.Proofs.Draft.Steps
import BlockAssembler.Proofs.Lowering.Mentions

/-! Streams in the order in which they are emitted. A condition stands inside the marker of its
branch, and what ends the branch before is emitted in front of it; as a list of acts a stream has no
such nesting. The mentions and the ends of statements are marks among the acts, so a place in the
commands is a place in the sequence: what has been emitted by then. -/

namespace BlockAssembler

inductive Act
  | item (item : Item)
  /-- what stands at a mention behind others -/
  | mention (before : List Mention) (mention : Mention)
  /-- the beginning or the end of a statement -/
  | boundary
  /-- the jump behind the condition of a first branch -/
  | beginIf (test : Test)
  /-- the end of a branch in front of the condition of the next -/
  | endBranch
  /-- the jump behind the condition of another branch -/
  | elseIf (test : Test)

/-- What a handler starts with. -/
def Act.receive (before : List Mention) : Option String → List Act
  | some name => [.mention before (.store name)]
  | none => [.item (.op .pop)]

/-! ### The acts of commands -/

section
variable (m : Module)

mutual

def Command.acts : List Mention → Command → List Act
  | before, .mk operation arguments =>
    Command.actsAll before arguments ++ Operation.acts (before ++ Command.mentionsAll arguments) operation

def Operation.acts : List Mention → Operation → List Act
  | _, .pass => []
  | _, .constant value => (value.items m.config).map .item
  | before, .fetch name => [.mention before (.read name)]
  | before, .assign name => [.mention before (.store name)]
  | _, .discard => [.item (.op .pop)]
  | _, .returnTop => [.item (.op .areturn)]
  | before, .conditional clauses none => Clause.actsAll [] .beginIf before clauses ++ [.item .endIf]
  | before, .conditional clauses (some body) =>
    Clause.actsAll [] .beginIf before clauses ++
      .item .beginElse :: (Command.statements (before ++ Clause.mentionsAll clauses) body ++ [.item .endIf])
  | before, .guarded body handlers =>
    .item .beginTry :: (Command.statements before body ++
      (CatchClause.actsAll (before ++ Command.mentionsAll body) handlers ++ [.item .endTry]))
  | _, .raw items => items.map .item

/-- What comes in front of the condition and which jump comes behind it differ between the first clause and the
others. -/
def Clause.actsAll (front : List Act) (jump : Test → Act) : List Mention → List Clause → List Act
  | _, [] => []
  | before, .mk condition body :: clauses =>
    let inside := before ++ Command.mentionsAll condition
    front ++ (Command.actsAll before condition ++ (m.config.test.map .item ++ jump .ifeq ::
      (Command.statements inside body ++
        Clause.actsAll [.endBranch] .elseIf (inside ++ Command.mentionsAll body) clauses)))

def CatchClause.actsAll : List Mention → List CatchClause → List Act
  | _, [] => []
  | before, .mk className name body :: handlers =>
    let inside := before ++ Mention.received name
    .item (.beginCatch className) :: (Act.receive before name ++
      (Command.statements inside body ++ CatchClause.actsAll (inside ++ Command.mentionsAll body) handlers))

/-- Commands one behind the other. -/
def Command.actsAll : List Mention → List Command → List Act
  | _, [] => []
  | before, command :: commands =>
    Command.acts before command ++ Command.actsAll (before ++ command.mentions) commands

/-- Commands as statements. -/
def Command.statements : List Mention → List Command → List Act
  | _, [] => [.boundary]
  | before, command :: commands =>
    .boundary :: (Command.acts before command ++ Command.statements (before ++ command.mentions) commands)

end

end

/-! ### Emission -/

namespace Act

variable (write : Writer)

def run : Act → Draft → Except Malformation Draft
  | item i, d => d.emit i
  | mention before x, d => d.emitAll (write before x)
  | boundary, d => .ok d
  | beginIf test, d => .ok ((d.append (.branch test 0)).beginChain d.size)
  | endBranch, d => do
    let chain ← d.extendableChain
    return d.endBranch chain
  | elseIf test, d => do
    let chain ← d.currentChain
    return d.addBranch chain test

def runAll : List Act → Draft → Except Malformation Draft
  | [], d => .ok d
  | act :: acts, d => do
    let d ← act.run write d
    runAll acts d

variable {write : Writer} {acts acts' : List Act} {d d' : Draft}

theorem runAll_append (acts acts' : List Act) (d : Draft) :
    runAll write (acts ++ acts') d = runAll write acts d >>= runAll write acts' := by
  induction acts generalizing d with
  | nil => rfl
  | cons act acts ih =>
    rw [List.cons_append, runAll, runAll, bind_assoc]
    exact bind_congr fun d => ih d

theorem reaches_of_run {act : Act} (h : act.run write d = .ok d') : Draft.Reaches d d' := by
  cases act with
  | item i => exact Draft.reaches_of_emit i d d' h
  | mention before x => exact Draft.reaches_of_emitAll _ d d' h
  | boundary =>
    obtain rfl := Except.ok.inj h
    exact .refl
  | beginIf test =>
    obtain rfl := Except.ok.inj h
    exact .single (.beginChain d test)
  | endBranch =>
    obtain ⟨chain, hchain, h⟩ := except_bind_eq_ok.1 h
    obtain ⟨⟨outer, hopened⟩, helse⟩ := Draft.extendableChain_eq_ok hchain
    obtain rfl := Except.ok.inj h
    exact .single (.endBranch hopened helse)
  | elseIf test =>
    obtain ⟨chain, hchain, h⟩ := except_bind_eq_ok.1 h
    obtain ⟨outer, hopened⟩ := Draft.currentChain_eq_ok hchain
    obtain rfl := Except.ok.inj h
    exact .single (.addBranch test hopened)

theorem reaches_of_runAll (h : runAll write acts d = .ok d') : Draft.Reaches d d' := by
  induction acts generalizing d with
  | nil =>
    obtain rfl := Except.ok.inj h
    exact .refl
  | cons act acts ih =>
    obtain ⟨d₁, hact, hacts⟩ := except_bind_eq_ok.1 h
    exact (reaches_of_run hact).trans (ih hacts)

/-- Acts that do what the stream does, wherever the stream is not refused. -/
def Emits (write : Writer) (items : List Item) (acts : List Act) : Prop :=
  ∀ d d', Draft.emitAll items d = .ok d' → runAll write acts d = .ok d'

namespace Emits

variable {items items' : List Item}

theorem nil : Emits write [] [] := fun _ _ h => h

theorem append (h : Emits write items acts) (h' : Emits write items' acts') :
    Emits write (items ++ items') (acts ++ acts') := by
  intro d d' hrun
  rw [Draft.emitAll_append] at hrun
  obtain ⟨d₁, hfirst, hrest⟩ := except_bind_eq_ok.1 hrun
  rw [runAll_append, h d d₁ hfirst]
  exact h' d₁ d' hrest

theorem cons (item : Item) (h : Emits write items acts) : Emits write (item :: items) (.item item :: acts) := by
  intro d d' hrun
  obtain ⟨d₁, hitem, hitems⟩ := Draft.emitAll_cons_eq_ok hrun
  rw [runAll, run, hitem]
  exact h d₁ d' hitems

theorem item (item : Item) : Emits write [item] [.item item] := cons item nil

theorem map_item (items : List Item) : Emits write items (items.map .item) := by
  induction items with
  | nil => exact nil
  | cons item items ih => exact cons item ih

theorem mention (before : List Mention) (x : Mention) : Emits write (write before x) [.mention before x] := by
  intro d d' hrun
  rw [runAll, run, hrun]
  rfl

theorem boundary (h : Emits write items acts) : Emits write items (.boundary :: acts) := h

theorem receive (before : List Mention) (name : Option String) :
    Emits write (write.receive before name) (Act.receive before name) := by
  cases name with
  | some name => exact mention before (.store name)
  | none => exact item _

theorem beginIf {condition : List Item} {inner : List Act} (test : Test) (hcondition : Emits write condition inner)
    (h : Emits write items acts) : Emits write (.beginIf condition test :: items) (inner ++ .beginIf test :: acts) := by
  intro d d' hrun
  obtain ⟨d₁, hfirst, hitems⟩ := Draft.emitAll_cons_eq_ok hrun
  obtain ⟨d₂, hinner, rfl⟩ := Draft.emit_beginIf_eq_ok hfirst
  rw [runAll_append, hcondition d d₂ hinner]
  exact h _ d' hitems

theorem elseIf {condition : List Item} {inner : List Act} (test : Test) (hcondition : Emits write condition inner)
    (h : Emits write items acts) :
    Emits write (.elseIf condition test :: items) (.endBranch :: (inner ++ .elseIf test :: acts)) := by
  intro d d' hrun
  obtain ⟨d₁, hfirst, hitems⟩ := Draft.emitAll_cons_eq_ok hrun
  obtain ⟨chain, outer, outer', d₂, hopened, helse, hinner, hopened', rfl⟩ := Draft.emit_elseIf_eq_ok hfirst
  have hextendable : d.extendableChain = .ok chain := by simp [Draft.extendableChain, hopened, helse]
  have hcurrent : d₂.currentChain = .ok chain := by simp [Draft.currentChain, hopened']
  rw [runAll, run, hextendable]
  show runAll write (inner ++ .elseIf test :: acts) (d.endBranch chain) = .ok d'
  rw [runAll_append, hcondition _ d₂ hinner]
  show runAll write (.elseIf test :: acts) d₂ = .ok d'
  rw [runAll, run, hcurrent]
  exact h _ d' hitems

end Emits

end Act

section
variable (m : Module) (write : Writer)

mutual

theorem Command.emits_acts (before : List Mention) (command : Command) :
    Act.Emits write (command.items m write before) (command.acts m before) := by
  match command with
  | .mk operation operands =>
    rw [Command.items, Command.acts]
    exact (Command.emits_actsAll before operands).append (Operation.emits_acts _ operation)

theorem Operation.emits_acts (before : List Mention) (operation : Operation) :
    Act.Emits write (operation.items m write before) (operation.acts m before) := by
  match operation with
  | .pass =>
    rw [Operation.items, Operation.acts]
    exact .nil
  | .constant value =>
    rw [Operation.items, Operation.acts]
    exact .map_item _
  | .fetch name | .assign name =>
    rw [Operation.items, Operation.acts]
    exact .mention before _
  | .discard | .returnTop =>
    rw [Operation.items, Operation.acts]
    exact .item _
  | .conditional clauses none =>
    rw [Operation.items, Operation.acts]
    exact (Clause.emits_actsFirst before clauses).append (.item _)
  | .conditional clauses (some body) =>
    rw [Operation.items, Operation.acts]
    exact (Clause.emits_actsFirst before clauses).append
      (((Command.emits_statements _ body).append (.item _)).cons .beginElse)
  | .guarded body handlers =>
    rw [Operation.items, Operation.acts]
    exact ((Command.emits_statements before body).append
      ((CatchClause.emits_actsAll _ handlers).append (.item _))).cons .beginTry
  | .raw items =>
    rw [Operation.items, Operation.acts]
    exact .map_item _

/-- The clauses of a chain from the first one on. -/
theorem Clause.emits_actsFirst (before : List Mention) (clauses : List Clause) :
    Act.Emits write (Clause.itemsAll m write .beginIf before clauses) (Clause.actsAll m [] .beginIf before clauses) := by
  match clauses with
  | [] =>
    rw [Clause.itemsAll, Clause.actsAll]
    exact .nil
  | .mk condition body :: clauses =>
    rw [Clause.itemsAll, Clause.actsAll, List.nil_append, ← List.append_assoc]
    exact .beginIf .ifeq ((Command.emits_actsAll before condition).append (.map_item _))
      ((Command.emits_statements _ body).append (Clause.emits_actsRest _ clauses))

/-- The clauses behind the first one. -/
theorem Clause.emits_actsRest (before : List Mention) (clauses : List Clause) :
    Act.Emits write (Clause.itemsAll m write .elseIf before clauses)
      (Clause.actsAll m [.endBranch] .elseIf before clauses) := by
  match clauses with
  | [] =>
    rw [Clause.itemsAll, Clause.actsAll]
    exact .nil
  | .mk condition body :: clauses =>
    rw [Clause.itemsAll, Clause.actsAll, List.singleton_append, ← List.append_assoc]
    exact .elseIf .ifeq ((Command.emits_actsAll before condition).append (.map_item _))
      ((Command.emits_statements _ body).append (Clause.emits_actsRest _ clauses))

theorem CatchClause.emits_actsAll (before : List Mention) (handlers : List CatchClause) :
    Act.Emits write (CatchClause.itemsAll m write before handlers) (CatchClause.actsAll m before handlers) := by
  match handlers with
  | [] =>
    rw [CatchClause.itemsAll, CatchClause.actsAll]
    exact .nil
  | .mk className name body :: handlers =>
    rw [CatchClause.itemsAll, CatchClause.actsAll]
    exact ((Act.Emits.receive before name).append
      ((Command.emits_statements _ body).append (CatchClause.emits_actsAll _ handlers))).cons _

theorem Command.emits_actsAll (before : List Mention) (commands : List Command) :
    Act.Emits write (Command.itemsAll m write before commands) (Command.actsAll m before commands) := by
  match commands with
  | [] =>
    rw [Command.itemsAll, Command.actsAll]
    exact .nil
  | command :: commands =>
    rw [Command.itemsAll, Command.actsAll]
    exact (Command.emits_acts before command).append (Command.emits_actsAll _ commands)

theorem Command.emits_statements (before : List Mention) (commands : List Command) :
    Act.Emits write (Command.itemsAll m write before commands) (Command.statements m before commands) := by
  match commands with
  | [] =>
    rw [Command.itemsAll, Command.statements]
    exact .boundary .nil
  | command :: commands =>
    rw [Command.itemsAll, Command.statements]
    exact .boundary ((Command.emits_acts before command).append (Command.emits_statements _ commands))

end

end

/-! ### Mentions among the acts -/

namespace Act

def mention? : Act → Option (List Mention × Mention)
  | mention before x => some (before, x)
  | _ => none

end Act

namespace Mention

/-- Mentions, each with those before it. -/
def behind : List Mention → List Mention → List (List Mention × Mention)
  | _, [] => []
  | before, x :: xs => (before, x) :: behind (before ++ [x]) xs

theorem behind_append (before xs ys : List Mention) :
    behind before (xs ++ ys) = behind before xs ++ behind (before ++ xs) ys := by
  induction xs generalizing before with
  | nil => rw [List.append_nil]; rfl
  | cons x xs ih =>
    rw [List.cons_append, behind, behind, ih, List.cons_append, List.append_assoc, List.singleton_append]

theorem mem_behind (before xs ys : List Mention) (x : Mention) :
    (before ++ xs, x) ∈ behind before (xs ++ x :: ys) := by
  rw [behind_append, behind]
  simp

end Mention

section
variable (m : Module)

theorem mention?_items (items : List Item) : (items.map Act.item).filterMap Act.mention? = [] := by
  induction items with
  | nil => rfl
  | cons item items ih => exact ih

theorem mention?_receive (before : List Mention) (name : Option String) :
    (Act.receive before name).filterMap Act.mention? = Mention.behind before (Mention.received name) := by
  cases name <;> rfl

mutual

theorem Command.mentions_acts (before : List Mention) (command : Command) :
    (command.acts m before).filterMap Act.mention? = Mention.behind before command.mentions := by
  match command with
  | .mk operation operands =>
    rw [Command.acts, Command.mentions, List.filterMap_append, Mention.behind_append,
      Command.mentions_actsAll before operands, Operation.mentions_acts _ operation]

theorem Operation.mentions_acts (before : List Mention) (operation : Operation) :
    (operation.acts m before).filterMap Act.mention? = Mention.behind before operation.mentions := by
  match operation with
  | .pass | .discard | .returnTop | .fetch name | .assign name =>
    rw [Operation.acts, Operation.mentions]
    rfl
  | .constant value =>
    rw [Operation.acts, Operation.mentions]
    exact mention?_items _
  | .raw items =>
    rw [Operation.acts, Operation.mentions]
    exact mention?_items _
  | .conditional clauses none =>
    rw [Operation.acts, Operation.mentions, List.filterMap_append, Clause.mentions_actsAll [] .beginIf rfl
      (fun _ => rfl) before clauses]
    exact List.append_nil _
  | .conditional clauses (some body) =>
    rw [Operation.acts, Operation.mentions, List.filterMap_append, Mention.behind_append,
      Clause.mentions_actsAll [] .beginIf rfl (fun _ => rfl) before clauses, List.filterMap_cons,
      List.filterMap_append, Command.mentions_statements _ body]
    exact congrArg _ (List.append_nil _)
  | .guarded body handlers =>
    rw [Operation.acts, Operation.mentions, Mention.behind_append, List.filterMap_cons, List.filterMap_append,
      List.filterMap_append, Command.mentions_statements before body, CatchClause.mentions_actsAll _ handlers]
    exact congrArg (Mention.behind before (Command.mentionsAll body) ++ ·) (List.append_nil _)

theorem Clause.mentions_actsAll (front : List Act) (jump : Test → Act) (hfront : front.filterMap Act.mention? = [])
    (hjump : ∀ test, (jump test).mention? = none) (before : List Mention) (clauses : List Clause) :
    (Clause.actsAll m front jump before clauses).filterMap Act.mention? =
      Mention.behind before (Clause.mentionsAll clauses) := by
  match clauses with
  | [] =>
    rw [Clause.actsAll, Clause.mentionsAll]
    rfl
  | .mk condition body :: clauses =>
    rw [Clause.actsAll, Clause.mentionsAll, Mention.behind_append, Mention.behind_append, List.filterMap_append,
      hfront, List.nil_append, List.filterMap_append, Command.mentions_actsAll before condition,
      List.filterMap_append, mention?_items, List.nil_append, List.filterMap_cons, hjump, List.filterMap_append,
      Command.mentions_statements _ body, Clause.mentions_actsAll [.endBranch] .elseIf rfl (fun _ => rfl) _ clauses]

theorem CatchClause.mentions_actsAll (before : List Mention) (handlers : List CatchClause) :
    (CatchClause.actsAll m before handlers).filterMap Act.mention? =
      Mention.behind before (CatchClause.mentionsAll handlers) := by
  match handlers with
  | [] =>
    rw [CatchClause.actsAll, CatchClause.mentionsAll]
    rfl
  | .mk className name body :: handlers =>
    rw [CatchClause.actsAll, CatchClause.mentionsAll, Mention.behind_append, Mention.behind_append,
      List.filterMap_cons, List.filterMap_append, List.filterMap_append, mention?_receive,
      Command.mentions_statements _ body, CatchClause.mentions_actsAll _ handlers]
    rfl

theorem Command.mentions_actsAll (before : List Mention) (commands : List Command) :
    (Command.actsAll m before commands).filterMap Act.mention? =
      Mention.behind before (Command.mentionsAll commands) := by
  match commands with
  | [] =>
    rw [Command.actsAll, Command.mentionsAll]
    rfl
  | command :: commands =>
    rw [Command.actsAll, Command.mentionsAll, Mention.behind_append, List.filterMap_append,
      Command.mentions_acts before command, Command.mentions_actsAll _ commands]

theorem Command.mentions_statements (before : List Mention) (commands : List Command) :
    (Command.statements m before commands).filterMap Act.mention? =
      Mention.behind before (Command.mentionsAll commands) := by
  match commands with
  | [] =>
    rw [Command.statements, Command.mentionsAll]
    rfl
  | command :: commands =>
    rw [Command.statements, Command.mentionsAll, Mention.behind_append, List.filterMap_cons, List.filterMap_append,
      Command.mentions_acts before command, Command.mentions_statements _ commands]
    rfl

end

/-- Every mention is one of the acts. -/
theorem Command.exists_mention {commands : List Command} {before after : List Mention} {x : Mention}
    (h : Command.mentionsAll commands = before ++ x :: after) :
    ∃ acts acts', Command.statements m [] commands = acts ++ .mention before x :: acts' := by
  have hmem : (before, x) ∈ (Command.statements m [] commands).filterMap Act.mention? := by
    rw [Command.mentions_statements, h]
    exact Mention.mem_behind [] before after x
  obtain ⟨act, hact, hx⟩ := List.mem_filterMap.1 hmem
  cases act with
  | mention before' x' =>
    cases hx
    exact List.append_of_mem hact
  | item | boundary | beginIf | endBranch | elseIf => cases hx

end

end BlockAssembler
