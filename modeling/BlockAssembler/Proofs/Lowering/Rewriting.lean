import BlockAssembler.Lowering
import BlockAssembler.Proofs.Agreement
import Mathlib.Logic.Relation

/-! Rewriting a list of commands somewhere in a tree. What a list is lowered to stays the same if a
part of it is replaced by one that is lowered to the same, however deep the part lies. This goes for
a command that does nothing, which may be left out, and for the operands of a command, which may
stand in front of it as commands of their own. -/

namespace BlockAssembler

namespace Command

/-- A place for a list of commands in a tree, with all that surrounds it. -/
inductive Place
  /-- the whole list -/
  | here
  /-- in a list, between others -/
  | among (front : List Command) (inner : Place) (back : List Command)
  | operands (operation : Operation) (inner : Place)
  | test (front : List Clause) (inner : Place) (body : List Command) (back : List Clause)
    (otherwise : Option (List Command)) (arguments : List Command)
  | branch (front : List Clause) (condition : List Command) (inner : Place) (back : List Clause)
    (otherwise : Option (List Command)) (arguments : List Command)
  | final (clauses : List Clause) (inner : Place) (arguments : List Command)
  | guarded (inner : Place) (handlers : List CatchClause) (arguments : List Command)
  | handler (body : List Command) (front : List CatchClause) (className name : Option String) (inner : Place)
    (back : List CatchClause) (arguments : List Command)

/-- The list around a place with commands in it. -/
def Place.fill (commands : List Command) : Place → List Command
  | here => commands
  | among front inner back => front ++ (inner.fill commands ++ back)
  | operands operation inner => [.mk operation (inner.fill commands)]
  | test front inner body back otherwise arguments =>
    [.mk (.conditional (front ++ .mk (inner.fill commands) body :: back) otherwise) arguments]
  | branch front condition inner back otherwise arguments =>
    [.mk (.conditional (front ++ .mk condition (inner.fill commands) :: back) otherwise) arguments]
  | final clauses inner arguments => [.mk (.conditional clauses (some (inner.fill commands))) arguments]
  | guarded inner handlers arguments => [.mk (.guarded (inner.fill commands) handlers) arguments]
  | handler body front className name inner back arguments =>
    [.mk (.guarded body (front ++ .mk className name (inner.fill commands) :: back)) arguments]

/-- Somewhere in the tree there is now a command that does nothing. -/
def PassAdded (commands commands' : List Command) : Prop :=
  ∃ place : Place, commands = place.fill [] ∧ commands' = place.fill [.mk .pass []]

/-- The operands of a command somewhere in the tree are now commands in front of it. -/
def Hoisted (commands commands' : List Command) : Prop :=
  ∃ (place : Place) (operation : Operation) (arguments : List Command),
    commands = place.fill [.mk operation arguments] ∧ commands' = place.fill (arguments ++ [.mk operation []])

end Command

namespace Lowering

variable {m : Module} {commands commands' : List Command}

/-! ### The same items -/

theorem lowerAll_append (commands commands' : List Command) (out : Array Item) :
    lowerAll m (commands ++ commands') out = lowerAll m commands out >>= lowerAll m commands' := by
  induction commands generalizing out with
  | nil => rw [lowerAll, pure_bind, List.nil_append]
  | cons command commands ih =>
    rw [List.cons_append, lowerAll, lowerAll, bind_assoc]
    exact bind_congr fun out => ih out

theorem lowerAll_singleton (command : Command) (out : Array Item) : lowerAll m [command] out = lower m command out := by
  simp only [lowerAll, bind_pure]

/-- Both lists are lowered to the same, and fail for the same cause. -/
def Same (m : Module) (commands commands' : List Command) : Prop :=
  ∀ out, lowerAll m commands out = lowerAll m commands' out

theorem same_pass (m : Module) : Same m [] [.mk .pass []] := fun out => by
  simp only [lowerAll, lower, lowerOperation, bind_pure]

theorem same_hoisted (m : Module) (operation : Operation) (arguments : List Command) :
    Same m [.mk operation arguments] (arguments ++ [.mk operation []]) := fun out => by
  rw [lowerAll_append, lowerAll_singleton, lower]
  refine bind_congr fun out => ?_
  rw [lowerAll_singleton, lower, lowerAll, pure_bind]

theorem lowerClauses_front {truth : MethodRef} {back back' : List Clause}
    (h : ∀ opening out, lowerClauses m truth opening back out = lowerClauses m truth opening back' out)
    (front : List Clause) (opening : List Item → Test → Item) (out : Array Item) :
    lowerClauses m truth opening (front ++ back) out = lowerClauses m truth opening (front ++ back') out := by
  induction front generalizing opening out with
  | nil => exact h opening out
  | cons clause front ih =>
    cases clause
    simp only [List.cons_append, lowerClauses, ih]

theorem lowerHandlers_front {back back' : List CatchClause}
    (h : ∀ out, lowerHandlers m back out = lowerHandlers m back' out) (front : List CatchClause) (out : Array Item) :
    lowerHandlers m (front ++ back) out = lowerHandlers m (front ++ back') out := by
  induction front generalizing out with
  | nil => exact h out
  | cons clause front ih =>
    cases clause
    simp only [List.cons_append, lowerHandlers, ih]

theorem lowerOperation_clauses {clause clause' : Clause} {back : List Clause}
    (h : ∀ truth opening out,
      lowerClauses m truth opening (clause :: back) out = lowerClauses m truth opening (clause' :: back) out)
    (front : List Clause) (otherwise : Option (List Command)) (out : Array Item) :
    lowerOperation m (.conditional (front ++ clause :: back) otherwise) out =
      lowerOperation m (.conditional (front ++ clause' :: back) otherwise) out := by
  have hempty : (front ++ clause :: back).isEmpty = (front ++ clause' :: back).isEmpty := by cases front <;> rfl
  cases otherwise <;> simp only [lowerOperation, hempty, lowerClauses_front (h _)]

theorem lowerOperation_handlers {handler handler' : CatchClause} {back : List CatchClause}
    (h : ∀ out, lowerHandlers m (handler :: back) out = lowerHandlers m (handler' :: back) out) (body : List Command)
    (front : List CatchClause) (out : Array Item) :
    lowerOperation m (.guarded body (front ++ handler :: back)) out =
      lowerOperation m (.guarded body (front ++ handler' :: back)) out := by
  have hempty : (front ++ handler :: back).isEmpty = (front ++ handler' :: back).isEmpty := by cases front <;> rfl
  simp only [lowerOperation, hempty, lowerHandlers_front h]

/-- Equal operations give equal commands, and these equal lists. -/
theorem same_operation {operation operation' : Operation}
    (h : ∀ out, lowerOperation m operation out = lowerOperation m operation' out) (arguments : List Command) :
    Same m [.mk operation arguments] [.mk operation' arguments] := fun out => by
  rw [lowerAll_singleton, lowerAll_singleton, lower, lower]
  exact bind_congr h

/-- A part may be replaced by one that is lowered to the same. -/
theorem same_fill (h : Same m commands commands') (place : Command.Place) :
    Same m (place.fill commands) (place.fill commands') := by
  induction place with
  | here => exact h
  | among front inner back ih =>
    intro out
    rw [Command.Place.fill, Command.Place.fill, lowerAll_append, lowerAll_append]
    refine bind_congr fun out => ?_
    rw [lowerAll_append, lowerAll_append, ih]
  | operands operation inner ih =>
    intro out
    simp only [Command.Place.fill, lowerAll_singleton, lower, ih _]
  | test front inner body back otherwise arguments ih =>
    refine same_operation (lowerOperation_clauses (fun truth opening out => ?_) front otherwise) arguments
    simp only [lowerClauses, ih _]
  | branch front condition inner back otherwise arguments ih =>
    refine same_operation (lowerOperation_clauses (fun truth opening out => ?_) front otherwise) arguments
    simp only [lowerClauses, ih _]
  | final clauses inner arguments ih =>
    refine same_operation (fun out => ?_) arguments
    simp only [lowerOperation, ih _]
  | guarded inner handlers arguments ih =>
    refine same_operation (fun out => ?_) arguments
    simp only [lowerOperation, ih _]
  | handler body front className name inner back arguments ih =>
    refine same_operation (lowerOperation_handlers (fun out => ?_) body front) arguments
    simp only [lowerHandlers, ih _]

/-! ### Behind other items -/

def SameLocals (s t : Scope) : Prop := s.locals = t.locals

/-- The same items, behind those that stand in front. -/
def Behind (front out out' : Array Item) : Prop := out = front ++ out'

/-- What the computation does depends on the names bound so far and on nothing else. -/
abbrev OfLocals {α : Type} (x : Lowering α) : Prop := Agree SameLocals Eq x x

section
variable {front out out' : Array Item}

theorem Behind.push (h : Behind front out out') (item : Item) : Behind front (out.push item) (out'.push item) := by
  rw [Behind, h, Array.append_push]

theorem Behind.append (h : Behind front out out') (items : List Item) :
    Behind front (out ++ items) (out' ++ items) := by
  apply Array.toList_inj.1
  rw [h]
  simp only [Array.toList_appendList, Array.toList_append, List.append_assoc]

theorem ofLocals_bindName (name : String) : OfLocals (bindName name) := by
  rintro ⟨locals, journal⟩ ⟨_, journal'⟩ rfl
  simp only [EStateM.run, bindName]
  cases Locals.allocate name locals with
  | ok slot locals' => exact .ok rfl rfl
  | error e locals' => exact .error ..

theorem ofLocals_assign (name : String) : OfLocals (assign name) :=
  (ofLocals_bindName name).bind fun _ _ hslot => hslot ▸ .pure rfl

theorem ofLocals_fetch (m : Module) (name : String) : OfLocals (fetch m name) := by
  rintro s t hst
  rw [fetch, get_bind, get_bind, hst]
  split
  · exact .ok rfl hst
  · have hnote (e : Event) : OfLocals (note e) := Agree.modify fun _ _ h => h
    exact (hnote _).bind (fun _ _ _ => .ofExcept _) s t hst

theorem ofLocals_receive (name : Option String) : OfLocals (receive name) := by
  cases name with
  | some name => exact ofLocals_assign name
  | none => exact .pure rfl

/-- Items that are computed first and then appended. -/
theorem agree_append {x : Lowering (List Item)} (hx : OfLocals x) (h : Behind front out out') :
    Agree SameLocals (Behind front) (do return out ++ (← x)) (do return out' ++ (← x)) :=
  hx.bind fun items _ hitems => hitems ▸ .pure (h.append items)

end

mutual

theorem agree_lower (m : Module) (command : Command) {front out out' : Array Item}
    (h : Behind front out out') :
    Agree SameLocals (Behind front) (lower m command out) (lower m command out') := by
  cases command with
  | mk operation arguments =>
    rw [lower, lower]
    exact (agree_lowerAll m arguments h).bind fun _ _ h => agree_lowerOperation m operation h
termination_by structural command

theorem agree_lowerOperation (m : Module) (operation : Operation) {front out out' : Array Item}
    (h : Behind front out out') :
    Agree SameLocals (Behind front) (lowerOperation m operation out) (lowerOperation m operation out') := by
  cases operation with
  | pass =>
    rw [lowerOperation, lowerOperation]
    exact .pure h
  | constant value =>
    rw [lowerOperation, lowerOperation]
    exact agree_append (.ofExcept _) h
  | fetch name =>
    rw [lowerOperation, lowerOperation]
    exact agree_append (ofLocals_fetch m name) h
  | assign name =>
    rw [lowerOperation, lowerOperation]
    exact agree_append (ofLocals_assign name) h
  | discard | returnTop =>
    rw [lowerOperation, lowerOperation]
    exact .pure (h.push _)
  | conditional clauses otherwise =>
    cases otherwise with
    | none =>
      rw [lowerOperation, lowerOperation]
      refine (Agree.ensure _ _).bind fun _ _ _ => (Agree.ofExcept _).bind fun truth _ htruth => htruth ▸ ?_
      exact (agree_lowerClauses m truth .beginIf clauses h).bind fun _ _ h => .pure (h.push _)
    | some body =>
      rw [lowerOperation, lowerOperation]
      refine (Agree.ensure _ _).bind fun _ _ _ => (Agree.ofExcept _).bind fun truth _ htruth => htruth ▸ ?_
      refine (agree_lowerClauses m truth .beginIf clauses h).bind fun _ _ h => ?_
      exact (agree_lowerAll m body (h.push _)).bind fun _ _ h => .pure (h.push _)
  | guarded body handlers =>
    rw [lowerOperation, lowerOperation]
    refine (Agree.ensure _ _).bind fun _ _ _ => (agree_lowerAll m body (h.push _)).bind fun _ _ h => ?_
    exact (agree_lowerHandlers m handlers h).bind fun _ _ h => .pure (h.push _)
  | raw items =>
    rw [lowerOperation, lowerOperation]
    exact .pure (h.append items)
termination_by structural operation

theorem agree_lowerClauses (m : Module) (truth : MethodRef) (opening : List Item → Test → Item) (clauses : List Clause)
    {front out out' : Array Item} (h : Behind front out out') :
    Agree SameLocals (Behind front) (lowerClauses m truth opening clauses out)
      (lowerClauses m truth opening clauses out') := by
  cases clauses with
  | nil =>
    rw [lowerClauses, lowerClauses]
    exact .pure h
  | cons clause clauses =>
    cases clause with
    | mk condition body =>
      rw [lowerClauses, lowerClauses]
      -- a condition is lowered apart, to the same items on both sides
      have hapart : Behind #[] (#[] : Array Item) #[] := rfl
      refine (agree_lowerAll m condition hapart).bind fun inner inner' hinner => ?_
      obtain rfl : inner = inner' := by rw [hinner, Array.empty_append]
      exact (agree_lowerAll m body (h.push _)).bind fun _ _ h => agree_lowerClauses m truth .elseIf clauses h
termination_by structural clauses

theorem agree_lowerHandlers (m : Module) (handlers : List CatchClause) {front out out' : Array Item}
    (h : Behind front out out') :
    Agree SameLocals (Behind front) (lowerHandlers m handlers out) (lowerHandlers m handlers out') := by
  cases handlers with
  | nil =>
    rw [lowerHandlers, lowerHandlers]
    exact .pure h
  | cons clause handlers =>
    cases clause with
    | mk className name body =>
      rw [lowerHandlers, lowerHandlers]
      refine (ofLocals_receive name).bind fun received _ hreceived => hreceived ▸ ?_
      refine (agree_lowerAll m body ((h.push _).append received)).bind fun _ _ h => ?_
      exact agree_lowerHandlers m handlers h
termination_by structural handlers

theorem agree_lowerAll (m : Module) (commands : List Command) {front out out' : Array Item}
    (h : Behind front out out') :
    Agree SameLocals (Behind front) (lowerAll m commands out) (lowerAll m commands out') := by
  cases commands with
  | nil =>
    rw [lowerAll, lowerAll]
    exact .pure h
  | cons command commands =>
    rw [lowerAll, lowerAll]
    exact (agree_lower m command h).bind fun _ _ h => agree_lowerAll m commands h
termination_by structural commands

end

end Lowering

end BlockAssembler
