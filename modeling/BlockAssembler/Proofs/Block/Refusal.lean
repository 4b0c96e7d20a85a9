import BlockAssembler.Block
import BlockAssembler.Proofs.Run

/-! Why a command is not lowered. A name may be left without a slot, and a descriptor of the
runtime may be malformed. Lowering finds fault with a command itself in one case only: somewhere
in it a chain has no branches, or a guarded range no handlers. -/

namespace BlockAssembler

/-! ### Commands -/

mutual

/-- The predicate holds of every operation of the command. -/
def Command.all (p : Operation → Bool) : Command → Bool
  | .mk operation arguments => operation.all p && Command.allOf p arguments

def Operation.all (p : Operation → Bool) : Operation → Bool
  | .conditional clauses none => p (.conditional clauses none) && Clause.allOf p clauses
  | .conditional clauses (some body) =>
    p (.conditional clauses (some body)) && (Clause.allOf p clauses && Command.allOf p body)
  | .guarded body handlers =>
    p (.guarded body handlers) && (Command.allOf p body && CatchClause.allOf p handlers)
  | operation => p operation

def Clause.allOf (p : Operation → Bool) : List Clause → Bool
  | [] => true
  | .mk condition body :: clauses =>
    (Command.allOf p condition && Command.allOf p body) && Clause.allOf p clauses

def CatchClause.allOf (p : Operation → Bool) : List CatchClause → Bool
  | [] => true
  | .mk _ _ body :: handlers => Command.allOf p body && CatchClause.allOf p handlers

def Command.allOf (p : Operation → Bool) : List Command → Bool
  | [] => true
  | command :: commands => command.all p && Command.allOf p commands

end

/-- The operation has the branches or the handlers that it needs. -/
def Operation.isWhole : Operation → Bool
  | .conditional clauses _ => !clauses.isEmpty
  | .guarded _ handlers => !handlers.isEmpty
  | _ => true

/-! ### Errors -/

/-- Every error of the computation satisfies the predicate. -/
def Fails {α : Type} (Q : AssemblyError → Prop) (x : Lowering α) : Prop :=
  ∀ s e s', x.run s = .error e s' → Q e

/-- The computation meets no contradiction. -/
def Faultless {α : Type} (x : Lowering α) : Prop := ∀ s f s', x.run s ≠ .error (.internal f) s'

namespace Fails

variable {α β : Type} {Q : AssemblyError → Prop}

theorem pure (a : α) : Fails Q (Pure.pure a : Lowering α) := by
  intro s e s' h
  rw [EStateM.run_pure] at h
  cases h

theorem bind {x : Lowering α} {g : α → Lowering β} (hx : Fails Q x) (hg : ∀ a, Fails Q (g a)) :
    Fails Q (x >>= g) := by
  intro s e s' h
  cases hrun : x.run s with
  | ok a s₁ =>
    rw [bind_ok hrun] at h
    exact hg a s₁ e s' h
  | error e' s₁ =>
    rw [bind_error hrun] at h
    cases h
    exact hx s e _ hrun

theorem ofExcept {r : Except AssemblyError α} (hr : ∀ e, r = .error e → Q e) :
    Fails Q (MonadExcept.ofExcept r : Lowering α) := by
  intro s e s' h
  cases r with
  | ok a => cases h
  | error e' =>
    cases h
    exact hr e rfl

theorem ensure {p : Prop} [Decidable p] {e : AssemblyError} (he : ¬ p → Q e) :
    Fails Q (BlockAssembler.ensure p e : Lowering Unit) := by
  intro s e' s' h
  by_cases hp : p
  · rw [ensure_run hp] at h
    cases h
  · rw [ensure_run_error hp] at h
    cases h
    exact he hp

theorem mono {Q' : AssemblyError → Prop} {x : Lowering α} (h : Fails Q x) (hQ : ∀ e, Q e → Q' e) : Fails Q' x :=
  fun s e s' hrun => hQ e (h s e s' hrun)

end Fails

/-- The errors of a command; if all its structures are `whole`, they do not lie with it. -/
inductive Refusal (whole : Bool) : AssemblyError → Prop
  | names (count : Nat) : Refusal whole (.localsOverflow count)
  | descriptor (text : String) : Refusal whole (.malformedDescriptor text)
  | hollow (cause : Malformation) (h : whole = false) : Refusal whole (.malformedStructure cause)

namespace Refusal

variable {whole whole' : Bool} {e : AssemblyError}

theorem left (h : Refusal whole e) : Refusal (whole && whole') e := by
  cases h with
  | names count => exact .names count
  | descriptor text => exact .descriptor text
  | hollow cause h => exact .hollow cause (by rw [h, Bool.false_and])

theorem right (h : Refusal whole' e) : Refusal (whole && whole') e := by
  rw [Bool.and_comm]
  exact h.left

theorem ne_internal (h : Refusal whole e) (f : Fault) : e ≠ .internal f := by
  rintro rfl
  cases h

end Refusal

namespace Lowering

section
variable {whole : Bool}

theorem refusal_ofText_field (owner name descriptor : String) :
    ∀ e, FieldRef.ofText owner name descriptor = .error e → Refusal whole e := by
  intro e h
  unfold FieldRef.ofText at h
  split at h
  · cases h
  · cases h
    exact .descriptor _

theorem refusal_ofText_method (owner name descriptor : String) :
    ∀ e, MethodRef.ofText owner name descriptor = .error e → Refusal whole e := by
  intro e h
  unfold MethodRef.ofText at h
  split at h
  · cases h
  · cases h
    exact .descriptor _

theorem fails_bindName (name : String) : Fails (Refusal whole) (bindName name) := by
  intro s e s' h
  rw [EStateM.run, bindName, Locals.allocate] at h
  split at h
  · cases h
  · next e' locals hallocate =>
    cases h
    split at hallocate
    · cases hallocate
    · split at hallocate <;> cases hallocate
      exact .names _

theorem fails_assign (name : String) : Fails (Refusal whole) (assign name) :=
  (fails_bindName name).bind fun _ => .pure _

theorem refusal_lookup (m : Module) (name : String) : ∀ e, lookup m name = .error e → Refusal whole e :=
  bind_errors (refusal_ofText_method _ _ _) fun _ =>
    bind_errors (refusal_ofText_field _ _ _) fun _ =>
      bind_errors (refusal_ofText_field _ _ _) fun _ _ h => nomatch h

theorem fails_fetch (m : Module) (name : String) : Fails (Refusal whole) (fetch m name) := by
  unfold fetch
  refine .bind (fun s e s' h => nomatch h) fun s => ?_
  split
  · exact .pure _
  · exact .bind (fun s e s' h => nomatch h) fun _ => .ofExcept (refusal_lookup m name)

theorem refusal_constant (config : Runtime) (value : Constant) :
    ∀ e, constant config value = .error e → Refusal whole e := by
  cases value with
  | null => exact fun e h => nomatch h
  | bool value => exact bind_errors (refusal_ofText_field _ _ _) fun _ _ h => nomatch h
  | int value | str value => exact bind_errors (refusal_ofText_method _ _ _) fun _ _ h => nomatch h

theorem fails_receive (name : Option String) : Fails (Refusal whole) (receive name) := by
  cases name with
  | none => exact .pure _
  | some name => exact fails_assign name

end

mutual

theorem fails_lower (m : Module) (command : Command) (out : Array Item) :
    Fails (Refusal (command.all Operation.isWhole)) (lower m command out) := by
  match command with
  | .mk operation arguments =>
    rw [lower, Command.all]
    refine ((fails_lowerAll m arguments out).mono fun _ => .right).bind fun out => ?_
    exact (fails_lowerOperation m operation out).mono fun _ => .left

theorem fails_lowerOperation (m : Module) (operation : Operation) (out : Array Item) :
    Fails (Refusal (operation.all Operation.isWhole)) (lowerOperation m operation out) := by
  match operation with
  | .pass | .discard | .returnTop | .raw items =>
    rw [lowerOperation]
    exact .pure _
  | .constant value =>
    rw [lowerOperation]
    exact .bind (.ofExcept (refusal_constant m.config value)) fun _ => .pure _
  | .fetch name =>
    rw [lowerOperation]
    exact (fails_fetch m name).bind fun _ => .pure _
  | .assign name =>
    rw [lowerOperation]
    exact (fails_assign name).bind fun _ => .pure _
  | .conditional clauses none =>
    rw [lowerOperation, Operation.all]
    refine .bind (.ensure fun hempty => .left (.hollow _ (by simpa [Operation.isWhole] using hempty))) fun _ => ?_
    refine .bind (.ofExcept (refusal_ofText_method _ _ _)) fun truth => ?_
    exact ((fails_lowerClauses m truth .beginIf clauses out).mono fun _ h => h.right).bind fun _ => .pure _
  | .conditional clauses (some body) =>
    rw [lowerOperation, Operation.all]
    refine .bind (.ensure fun hempty => .left (.hollow _ (by simpa [Operation.isWhole] using hempty))) fun _ => ?_
    refine .bind (.ofExcept (refusal_ofText_method _ _ _)) fun truth => ?_
    refine ((fails_lowerClauses m truth .beginIf clauses out).mono fun _ h => h.left.right).bind fun out => ?_
    exact ((fails_lowerAll m body _).mono fun _ h => h.right.right).bind fun _ => .pure _
  | .guarded body handlers =>
    rw [lowerOperation, Operation.all]
    refine .bind (.ensure fun hempty => .left (.hollow _ (by simpa [Operation.isWhole] using hempty))) fun _ => ?_
    refine ((fails_lowerAll m body _).mono fun _ h => h.left.right).bind fun out => ?_
    exact ((fails_lowerHandlers m handlers out).mono fun _ h => h.right.right).bind fun _ => .pure _

theorem fails_lowerClauses (m : Module) (truth : MethodRef) (opening : List Item → Test → Item)
    (clauses : List Clause) (out : Array Item) :
    Fails (Refusal (Clause.allOf Operation.isWhole clauses)) (lowerClauses m truth opening clauses out) := by
  match clauses with
  | [] =>
    rw [lowerClauses]
    exact .pure _
  | .mk condition body :: clauses =>
    rw [lowerClauses, Clause.allOf]
    refine ((fails_lowerAll m condition #[]).mono fun _ h => h.left.left).bind fun _ => ?_
    refine ((fails_lowerAll m body _).mono fun _ h => h.right.left).bind fun out => ?_
    exact (fails_lowerClauses m truth .elseIf clauses out).mono fun _ => .right

theorem fails_lowerHandlers (m : Module) (handlers : List CatchClause) (out : Array Item) :
    Fails (Refusal (CatchClause.allOf Operation.isWhole handlers)) (lowerHandlers m handlers out) := by
  match handlers with
  | [] =>
    rw [lowerHandlers]
    exact .pure _
  | .mk className name body :: handlers =>
    rw [lowerHandlers, CatchClause.allOf]
    refine (fails_receive name).bind fun _ => ?_
    refine ((fails_lowerAll m body _).mono fun _ => .left).bind fun out => ?_
    exact (fails_lowerHandlers m handlers out).mono fun _ => .right

theorem fails_lowerAll (m : Module) (commands : List Command) (out : Array Item) :
    Fails (Refusal (Command.allOf Operation.isWhole commands)) (lowerAll m commands out) := by
  match commands with
  | [] =>
    rw [lowerAll]
    exact .pure _
  | command :: commands =>
    rw [lowerAll, Command.allOf]
    refine ((fails_lower m command out).mono fun _ => .left).bind fun out => ?_
    exact (fails_lowerAll m commands out).mono fun _ => .right

end

theorem faultless_lower (m : Module) (command : Command) (out : Array Item) : Faultless (lower m command out) :=
  fun s f s' h => (fails_lower m command out s _ s' h).ne_internal f rfl

end Lowering

end BlockAssembler
