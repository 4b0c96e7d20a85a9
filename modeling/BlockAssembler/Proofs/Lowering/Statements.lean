import BlockAssembler.Proofs.Body.Tame
import BlockAssembler.Proofs.Lowering.Lookup

/-! Statements: commands that leave the stack as they find it. A value is a constant or a name; a statement is given
the values it takes and nothing else, and what it holds in turn are statements, besides the value that each
condition is. Under the standard runtime lowering turns a value into a stream that leaves one value more, and a
statement into one that leaves none. -/

namespace BlockAssembler

/-! ### Values and statements -/

def Command.isValue : Command → Bool
  | .mk (.constant _) [] | .mk (.fetch _) [] => true
  | _ => false

/-- So many values. -/
def Command.areValues (count : Nat) (commands : List Command) : Bool :=
  commands.length == count && commands.all Command.isValue

/-- The number of values that an operation takes. -/
def Operation.operands : Operation → Nat
  | .assign _ | .discard | .returnTop => 1
  | _ => 0

mutual

def Command.isStatement : Command → Bool
  | .mk operation operands => operation.isStatement && Command.areValues operation.operands operands

def Operation.isStatement : Operation → Bool
  | .pass | .assign _ | .discard | .returnTop => true
  | .conditional clauses none => Clause.areStatements clauses
  | .conditional clauses (some body) => Clause.areStatements clauses && Command.areStatements body
  | .guarded body handlers => Command.areStatements body && CatchClause.areStatements handlers
  | .constant _ | .fetch _ | .raw _ => false

def Clause.areStatements : List Clause → Bool
  | [] => true
  | .mk condition body :: clauses =>
    Command.areValues 1 condition && (Command.areStatements body && Clause.areStatements clauses)

def CatchClause.areStatements : List CatchClause → Bool
  | [] => true
  | .mk _ _ body :: handlers => Command.areStatements body && CatchClause.areStatements handlers

def Command.areStatements : List Command → Bool
  | [] => true
  | command :: commands => command.isStatement && Command.areStatements commands

end

/-! ### The standard runtime -/

namespace Lowering

section
variable {m : Module} {x : Int}

theorem keeping_constant (hconfig : m.config = .standard) (hx : 0 ≤ x) (value : Constant) (items : List Item)
    (h : constant m.config value = .ok items) : Keeping x (x + 1) items := by
  rw [hconfig] at h
  cases value with
  | null =>
    obtain rfl := Except.ok.inj h
    exact .push rfl hx rfl
  | bool value =>
    obtain ⟨field, hfield, hslots⟩ := Runtime.hasField_bool value
    rw [constant, hfield] at h
    obtain rfl := Except.ok.inj h
    exact .push rfl hx (congrArg Int.ofNat hslots)
  | int value =>
    obtain ⟨maker, hmaker, hargs, hresults⟩ := Runtime.moves_intMaker
    rw [constant, hmaker] at h
    obtain rfl := Except.ok.inj h
    refine ⟨.op (.ldc (.long value)) (.op (.invoke .static maker) .nil), ⟨trivial, ?_, ?_⟩, rfl⟩
    · simp [Body.Jumpless, Opcode.isJump, Opcode.distance?]
    · simp [Body.Keeps, Opcode.pops, Opcode.stackEffect, MemberRef.argSlots, MemberRef.resultSlots,
        Dispatch.receiverSlots, hargs, hresults]
      omega
  | str value =>
    obtain ⟨constructor, hconstructor, hargs, hresults⟩ := Runtime.moves_strConstructor
    rw [constant, hconstructor] at h
    obtain rfl := Except.ok.inj h
    refine ⟨.op (.new _) (.op .dup (.op (.ldc (.string value)) (.op (.invoke .special constructor) .nil))),
      ⟨trivial, ?_, ?_⟩, rfl⟩
    · simp [Body.Jumpless, Opcode.isJump, Opcode.distance?]
    · simp [Body.Keeps, Opcode.pops, Opcode.stackEffect, MemberRef.argSlots, MemberRef.resultSlots,
        Dispatch.receiverSlots, hargs, hresults]
      omega

theorem keeping_lookup (hconfig : m.config = .standard) (hx : 0 ≤ x) {name : String} {items : List Item}
    (h : lookup m name = .ok items) : Keeping x (x + 1) items := by
  obtain ⟨get, globals, builtins, hget, hglobals, hbuiltins, rfl⟩ := lookup_eq_ok h
  obtain ⟨get', hget', hargs, hresults⟩ := Runtime.moves_tableLookup
  obtain ⟨globals', hglobals', hglobalsSlots⟩ := Runtime.hasField_globals m.descriptor
  obtain ⟨builtins', hbuiltins', hbuiltinsSlots⟩ := Runtime.hasField_builtins
  rw [hconfig] at hget hglobals hbuiltins
  obtain rfl := Except.ok.inj (hget.symm.trans hget')
  obtain rfl := Except.ok.inj (hglobals.symm.trans hglobals')
  obtain rfl := Except.ok.inj (hbuiltins.symm.trans hbuiltins')
  refine ⟨lookupBody get globals builtins name, ⟨receiving_lookupBody .., jumpless_lookupBody .., ?_⟩, rfl⟩
  simp [lookupBody, Body.Keeps, Arms.Keeps, Opcode.pops, Opcode.stackEffect, MemberRef.argSlots, MemberRef.resultSlots,
    Dispatch.receiverSlots, hargs, hresults, hglobalsSlots, hbuiltinsSlots]
  omega

theorem keeping_truth {truth : MethodRef} (h : Runtime.standard.truth = .ok truth) :
    Keeping 1 1 [.op (.invoke .interface truth)] := by
  obtain ⟨truth', htruth, hargs, hresults⟩ := Runtime.moves_truth
  obtain rfl := Except.ok.inj (h.symm.trans htruth)
  refine ⟨.op (.invoke .interface truth) .nil, ⟨trivial, ⟨rfl, trivial⟩, ?_⟩, rfl⟩
  simp [Body.Keeps, Opcode.pops, Opcode.stackEffect, MemberRef.argSlots, MemberRef.resultSlots, Dispatch.receiverSlots,
    hargs, hresults]

end

/-! ### Lowering -/

/-- A stream has been appended that finds `x` values and leaves `y`. -/
def Leaves (x y : Int) (out out' : Array Item) : Prop := ∃ items, Keeping x y items ∧ out'.toList = out.toList ++ items

namespace Leaves

variable {out out' out'' : Array Item} {items : List Item} {x y z : Int}

theorem refl (x : Int) (out : Array Item) : Leaves x x out out := ⟨[], .nil x, (List.append_nil _).symm⟩

theorem trans (h : Leaves x y out out') (h' : Leaves y z out' out'') : Leaves x z out out'' := by
  obtain ⟨items, hitems, heq⟩ := h
  obtain ⟨items', hitems', heq'⟩ := h'
  exact ⟨items ++ items', hitems.append hitems', by rw [heq', heq, List.append_assoc]⟩

theorem append (out : Array Item) (hitems : Keeping x y items) : Leaves x y out (out ++ items) := ⟨items, hitems, by simp⟩

theorem push {item : Item} (out : Array Item) (hitem : Keeping x y [item]) : Leaves x y out (out.push item) :=
  ⟨_, hitem, by simp⟩

end Leaves

section
variable {m : Module}

theorem keeping_fetch (hconfig : m.config = .standard) {x : Int} (hx : 0 ≤ x) (name : String) :
    Yields (Keeping x (x + 1)) (fetch m name) := by
  unfold fetch
  refine .after fun s => ?_
  split
  · exact .pure (.push rfl hx rfl)
  · exact .after fun _ => .ofExcept fun _ h => keeping_lookup hconfig hx h

theorem leaves_value (hconfig : m.config = .standard) {x : Int} (hx : 0 ≤ x) {value : Command}
    (hvalue : value.isValue = true) (out : Array Item) : Yields (Leaves x (x + 1) out) (lower m value out) := by
  unfold Command.isValue at hvalue
  split at hvalue
  · rw [lower, lowerAll, pure_bind, lowerOperation]
    exact (Yields.ofExcept (keeping_constant hconfig hx _)).bind fun _ hitems => .pure (.append out hitems)
  · rw [lower, lowerAll, pure_bind, lowerOperation]
    exact (keeping_fetch hconfig hx _).bind fun _ hitems => .pure (.append out hitems)
  · cases hvalue

theorem leaves_values (hconfig : m.config = .standard) {values : List Command} {x : Int} (hx : 0 ≤ x)
    (hvalues : values.all Command.isValue = true) (out : Array Item) :
    Yields (Leaves x (x + values.length) out) (lowerAll m values out) := by
  induction values generalizing x out with
  | nil =>
    rw [lowerAll, List.length_nil, Int.natCast_zero, Int.add_zero]
    exact .pure (.refl x out)
  | cons value values ih =>
    obtain ⟨hvalue, hvalues⟩ := Bool.and_eq_true_iff.1 hvalues
    rw [lowerAll]
    refine (leaves_value hconfig hx hvalue out).bind fun out₁ hout₁ s out' s' hrun => ?_
    have hrest := hout₁.trans (ih (by omega) hvalues out₁ s out' s' hrun)
    rwa [Int.add_assoc, Int.add_comm 1, ← Int.natCast_succ] at hrest

theorem leaves_operands (hconfig : m.config = .standard) {count : Nat} {values : List Command}
    (h : Command.areValues count values = true) (out : Array Item) :
    Yields (Leaves 0 count out) (lowerAll m values out) := by
  obtain ⟨hlength, hvalues⟩ := Bool.and_eq_true_iff.1 h
  have hall := leaves_values hconfig (Int.le_refl 0) hvalues out
  rwa [beq_iff_eq.1 hlength, Int.zero_add] at hall

/-- Handlers have been appended. -/
def LeavesHandlers (out out' : Array Item) (handlers : Catches) : Prop :=
  handlers.Tame 0 ∧ out'.toList = out.toList ++ handlers.items

/-- Further branches have been appended, which take whatever branches follow. -/
def LeavesBranches (out out' : Array Item) : Prop :=
  ∀ rest : Arms, rest.Tame 0 → ∃ arms : Arms, arms.Tame 0 ∧ out'.toList ++ rest.items = out.toList ++ arms.items

/-- A clause appends the marker with its condition, its body and the clauses behind it. -/
theorem leaves_clause (hconfig : m.config = .standard) {truth : MethodRef} (htruth : m.config.truth = .ok truth)
    {condition body : List Command} {clauses : List Clause} {out : Array Item}
    (hcondition : Command.areValues 1 condition = true) (hbody : ∀ out, Yields (Leaves 0 0 out) (lowerAll m body out))
    (hclauses : ∀ out, Yields (LeavesBranches out) (lowerClauses m truth .elseIf clauses out))
    (opening : List Item → Test → Item) :
    Yields (fun out' => ∃ c b : Body, c.Tame 0 1 ∧ b.Tame 0 0 ∧ ∀ rest : Arms, rest.Tame 0 →
        ∃ arms : Arms, arms.Tame 0 ∧
          out'.toList ++ rest.items = out.toList ++ opening c.items .ifeq :: (b.items ++ arms.items))
      (lowerClauses m truth opening (.mk condition body :: clauses) out) := by
  rw [lowerClauses]
  refine (leaves_operands hconfig hcondition #[]).bind fun tested htested => ?_
  refine (hbody _).bind fun out₁ hout₁ s out' s' hrun => ?_
  have htest : Keeping 1 1 [.op (.invoke .interface truth)] := keeping_truth (hconfig ▸ htruth)
  obtain ⟨_, ⟨c, hc, rfl⟩, htested⟩ := htested.trans (.push _ htest)
  obtain ⟨_, ⟨b, hb, rfl⟩, hout₁⟩ := hout₁
  have hbranches := hclauses out₁ s out' s' hrun
  refine ⟨c, b, hc, hb, fun rest hrest => ?_⟩
  obtain ⟨arms, harms, heq⟩ := hbranches rest hrest
  refine ⟨arms, harms, ?_⟩
  rw [heq, hout₁, htested]
  simp

/-- What a handler does with the exception takes it off the stack. -/
theorem keeping_receive (name : Option String) :
    Yields (fun items => ∃ opcode : Opcode, opcode.receives = true ∧ opcode.isJump = false ∧ opcode.pops = 1 ∧
      opcode.stackEffect = -1 ∧ items = [.op opcode]) (receive name) := by
  cases name with
  | none => exact .pure ⟨.pop, rfl, rfl, rfl, rfl, rfl⟩
  | some name => exact .after fun slot => .pure ⟨.astore slot, rfl, rfl, rfl, rfl, rfl⟩

/-- A handler appends its marker, the instruction that takes the exception, and its body. -/
theorem leaves_handler (name className : Option String) {body : List Command} {handlers : List CatchClause}
    {out : Array Item} (hbody : ∀ out, Yields (Leaves 0 0 out) (lowerAll m body out))
    (hhandlers : ∀ out, Yields (fun out' => ∃ more, LeavesHandlers out out' more) (lowerHandlers m handlers out)) :
    Yields (fun out' => ∃ b : Body, b.receives = true ∧ b.Tame 1 0 ∧ ∃ more : Catches, more.Tame 0 ∧
        out'.toList = out.toList ++ .beginCatch className :: (b.items ++ more.items))
      (lowerHandlers m (.mk className name body :: handlers) out) := by
  rw [lowerHandlers]
  refine (keeping_receive name).bind fun received hreceived => ?_
  refine (hbody _).bind fun out₁ hout₁ s out' s' hrun => ?_
  obtain ⟨opcode, hreceives, hjump, hpops, heffect, rfl⟩ := hreceived
  obtain ⟨_, ⟨b, hb, rfl⟩, hout₁⟩ := hout₁
  obtain ⟨more, hmore, heq⟩ := hhandlers out₁ s out' s' hrun
  have htame : (Body.op opcode b).Tame 1 0 := by
    refine .op hjump (Int.le_of_eq hpops) ?_
    rwa [heffect]
  refine ⟨.op opcode b, hreceives, htame, more, hmore, ?_⟩
  rw [heq, hout₁]
  simp [Body.items]

mutual

theorem leaves_lower (hconfig : m.config = .standard) (command : Command) (hcommand : command.isStatement = true)
    (out : Array Item) : Yields (Leaves 0 0 out) (lower m command out) := by
  match command with
  | .mk operation operands =>
    obtain ⟨hoperation, hoperands⟩ := Bool.and_eq_true_iff.1 hcommand
    rw [lower]
    refine (leaves_operands hconfig hoperands out).bind fun out₁ hout₁ s out' s' hrun => ?_
    exact hout₁.trans (leaves_lowerOperation hconfig operation hoperation out₁ s out' s' hrun)

theorem leaves_lowerOperation (hconfig : m.config = .standard) (operation : Operation)
    (hoperation : operation.isStatement = true) (out : Array Item) :
    Yields (Leaves operation.operands 0 out) (lowerOperation m operation out) := by
  match operation with
  | .pass =>
    rw [lowerOperation]
    exact .pure (.refl 0 out)
  | .discard | .returnTop =>
    rw [lowerOperation]
    exact .pure (.push out (.take rfl (Int.le_refl 1) rfl))
  | .assign name =>
    rw [lowerOperation, assign]
    refine .bind (P := Keeping 1 0) (.after fun slot => .pure (.take rfl (Int.le_refl 1) rfl)) fun items hitems => ?_
    exact .pure (.append out hitems)
  | .conditional [] otherwise =>
    rw [lowerOperation]
    exact .ensure fun hclauses => by simp at hclauses
  | .conditional (.mk condition body :: clauses) none =>
    obtain ⟨hcondition, hrest⟩ := Bool.and_eq_true_iff.1 hoperation
    obtain ⟨hbody, hclauses⟩ := Bool.and_eq_true_iff.1 hrest
    rw [lowerOperation]
    refine .ensure fun _ => .bind (Yields.ofExcept fun _ h => h) fun truth htruth => ?_
    refine (leaves_clause hconfig htruth hcondition (leaves_lowerAll hconfig body hbody)
      (leaves_lowerClauses hconfig truth htruth clauses hclauses) .beginIf).bind fun out₁ hout₁ => .pure ?_
    obtain ⟨c, b, hc, hb, hbranches⟩ := hout₁
    obtain ⟨arms, harms, heq⟩ := hbranches .done (.done 0)
    refine ⟨_, ⟨.chain c .ifeq b arms .nil, .chain .ifeq hc hb harms (.nil 0), rfl⟩, ?_⟩
    rw [Arms.items, List.append_nil] at heq
    simp [heq, Body.items]
  | .conditional (.mk condition body :: clauses) (some last) =>
    obtain ⟨hfirst, hlast⟩ := Bool.and_eq_true_iff.1 hoperation
    obtain ⟨hcondition, hrest⟩ := Bool.and_eq_true_iff.1 hfirst
    obtain ⟨hbody, hclauses⟩ := Bool.and_eq_true_iff.1 hrest
    rw [lowerOperation]
    refine .ensure fun _ => .bind (Yields.ofExcept fun _ h => h) fun truth htruth => ?_
    refine (leaves_clause hconfig htruth hcondition (leaves_lowerAll hconfig body hbody)
      (leaves_lowerClauses hconfig truth htruth clauses hclauses) .beginIf).bind fun out₁ hout₁ => ?_
    refine (leaves_lowerAll hconfig last hlast _).bind fun out₂ hout₂ => .pure ?_
    obtain ⟨c, b, hc, hb, hbranches⟩ := hout₁
    obtain ⟨_, ⟨t, ht, rfl⟩, heq₂⟩ := hout₂
    obtain ⟨arms, harms, heq⟩ := hbranches (.otherwise t) (.otherwise ht)
    refine ⟨_, ⟨.chain c .ifeq b arms .nil, .chain .ifeq hc hb harms (.nil 0), rfl⟩, ?_⟩
    have hout₂ : out₂.toList = out₁.toList ++ (Arms.otherwise t).items := by simp [heq₂, Arms.items]
    rw [Array.toList_push, hout₂, heq]
    simp [Body.items]
  | .guarded body [] =>
    rw [lowerOperation]
    exact .ensure fun hhandlers => by simp at hhandlers
  | .guarded body (.mk className name received :: handlers) =>
    obtain ⟨hbody, hrest⟩ := Bool.and_eq_true_iff.1 hoperation
    obtain ⟨hreceived, hhandlers⟩ := Bool.and_eq_true_iff.1 hrest
    rw [lowerOperation]
    refine .ensure fun _ => ?_
    refine (leaves_lowerAll hconfig body hbody _).bind fun out₁ hout₁ => ?_
    refine (leaves_handler name className (leaves_lowerAll hconfig received hreceived)
      (leaves_lowerHandlers hconfig handlers hhandlers)).bind fun out₂ hout₂ => .pure ?_
    obtain ⟨_, ⟨t, ht, rfl⟩, heq₁⟩ := hout₁
    obtain ⟨b, hreceives, hb, more, hmore, heq₂⟩ := hout₂
    refine ⟨_, ⟨.guarded t className b more .nil, .guarded className ht hreceives hb hmore, rfl⟩, ?_⟩
    simp [heq₂, heq₁, Body.items]

theorem leaves_lowerClauses (hconfig : m.config = .standard) (truth : MethodRef) (htruth : m.config.truth = .ok truth)
    (clauses : List Clause) (hclauses : Clause.areStatements clauses = true) (out : Array Item) :
    Yields (LeavesBranches out) (lowerClauses m truth .elseIf clauses out) := by
  match clauses with
  | [] =>
    rw [lowerClauses]
    exact .pure fun rest hrest => ⟨rest, hrest, rfl⟩
  | .mk condition body :: clauses =>
    obtain ⟨hcondition, hrest⟩ := Bool.and_eq_true_iff.1 hclauses
    obtain ⟨hbody, hclauses⟩ := Bool.and_eq_true_iff.1 hrest
    intro s out' s' hrun
    obtain ⟨c, b, hc, hb, hbranches⟩ :=
      leaves_clause hconfig htruth hcondition (leaves_lowerAll hconfig body hbody)
        (leaves_lowerClauses hconfig truth htruth clauses hclauses) .elseIf s out' s' hrun
    intro rest hrest
    obtain ⟨arms, harms, heq⟩ := hbranches rest hrest
    exact ⟨.elseIf c .ifeq b arms, .elseIf .ifeq hc hb harms, by simp [heq, Arms.items]⟩

theorem leaves_lowerHandlers (hconfig : m.config = .standard) (handlers : List CatchClause)
    (hhandlers : CatchClause.areStatements handlers = true) (out : Array Item) :
    Yields (fun out' => ∃ more, LeavesHandlers out out' more) (lowerHandlers m handlers out) := by
  match handlers with
  | [] =>
    rw [lowerHandlers]
    exact .pure ⟨.done, .done 0, (List.append_nil _).symm⟩
  | .mk className name body :: handlers =>
    obtain ⟨hbody, hhandlers⟩ := Bool.and_eq_true_iff.1 hhandlers
    intro s out' s' hrun
    obtain ⟨b, hreceives, hb, more, hmore, heq⟩ :=
      leaves_handler name className (leaves_lowerAll hconfig body hbody)
        (leaves_lowerHandlers hconfig handlers hhandlers) s out' s' hrun
    exact ⟨.handler className b more, .handler className hreceives hb hmore, by simp [heq, Catches.items]⟩

theorem leaves_lowerAll (hconfig : m.config = .standard) (commands : List Command)
    (hcommands : Command.areStatements commands = true) (out : Array Item) :
    Yields (Leaves 0 0 out) (lowerAll m commands out) := by
  match commands with
  | [] =>
    rw [lowerAll]
    exact .pure (.refl 0 out)
  | command :: commands =>
    obtain ⟨hcommand, hcommands⟩ := Bool.and_eq_true_iff.1 hcommands
    rw [lowerAll]
    refine (leaves_lower hconfig command hcommand out).bind fun out₁ hout₁ s out' s' hrun => ?_
    exact hout₁.trans (leaves_lowerAll hconfig commands hcommands out₁ s out' s' hrun)

end

end

end Lowering

end BlockAssembler
