import BlockAssembler.Proofs.Body.Parse
import BlockAssembler.Proofs.Draft.Simulation

/-! The markers of a stream accept the balanced streams and no others, as long as the conditions
they carry are balanced. What has been accepted is read from its end: every item is put in front
of what is still to come, and closes or continues a structure there. A balanced stream has one
record for each marker that begins a structure. A range is numbered when its marker is read, but a
chain only when its first condition has been added: the chains of that condition are numbered
before it, although their markers stand inside its own. And the stream is that of one tree only. -/

namespace BlockAssembler

/-- The stream is that of a tree: plain instructions, guarded ranges with at least one handler,
and chains with any number of further branches and perhaps a final body. -/
def Balanced (items : List Item) : Prop := ∃ t : Body, t.items = items

/-- The condition that the item carries is balanced. -/
def Item.Conditioned : Item → Prop
  | .beginIf condition _ | .elseIf condition _ => Balanced condition
  | .op _ | .beginTry | .beginCatch _ | .endTry | .beginElse | .endIf => True

/-! ### One tree -/

/-- The item ends the stream in front of it. -/
def Item.ends : Item → Bool
  | .op _ | .beginTry | .beginIf .. => false
  | .beginCatch _ | .endTry | .elseIf .. | .beginElse | .endIf => true

/-- What can follow the stream of a tree and is no part of it. -/
def Ended (items : List Item) : Prop := ∀ item, items.head? = some item → item.ends = true

theorem ended_cons {item : Item} (h : item.ends = true) (items : List Item) : Ended (item :: items) := by
  rintro x ⟨⟩
  exact h

theorem Catches.ended_items (t : Catches) (items : List Item) : Ended (t.items ++ .endTry :: items) := by
  cases t <;> exact ended_cons rfl _

theorem Arms.ended_items (t : Arms) (items : List Item) : Ended (t.items ++ .endIf :: items) := by
  cases t <;> exact ended_cons rfl _

mutual

/-- A stream has one tree, and what follows it begins where that tree ends. -/
theorem Body.append_items_inj {s t : Body} {x y : List Item} (hx : Ended x) (hy : Ended y)
    (h : s.items ++ x = t.items ++ y) : s = t ∧ x = y := by
  match s, t with
  | .nil, .nil => exact ⟨rfl, h⟩
  | .nil, .op .. | .nil, .guarded .. | .nil, .chain .. =>
    obtain rfl : x = _ := h
    cases hx _ rfl
  | .op .., .nil | .guarded .., .nil | .chain .., .nil =>
    obtain rfl : _ = y := h
    cases hy _ rfl
  | .op opcode rest, .op opcode' rest' =>
    obtain ⟨hitem, hrest⟩ := List.cons.inj h
    obtain rfl := Item.op.inj hitem
    obtain ⟨rfl, hxy⟩ := Body.append_items_inj hx hy hrest
    exact ⟨rfl, hxy⟩
  | .guarded body catches handler more rest, .guarded body' catches' handler' more' rest' =>
    simp only [Body.items, List.cons_append, List.append_assoc, List.cons.injEq, true_and] at h
    obtain ⟨rfl, hcatch⟩ := Body.append_items_inj (ended_cons rfl _) (ended_cons rfl _) h
    obtain ⟨hcatches, hhandler⟩ := List.cons.inj hcatch
    obtain rfl := Item.beginCatch.inj hcatches
    obtain ⟨rfl, hmore⟩ := Body.append_items_inj (more.ended_items _) (more'.ended_items _) hhandler
    obtain ⟨rfl, hrest⟩ := Catches.append_items_inj hmore
    obtain ⟨rfl, hxy⟩ := Body.append_items_inj hx hy hrest
    exact ⟨rfl, hxy⟩
  | .chain condition test body more rest, .chain condition' test' body' more' rest' =>
    simp only [Body.items, List.cons_append, List.append_assoc, List.cons.injEq, Item.beginIf.injEq] at h
    obtain ⟨⟨hcondition, rfl⟩, hbody⟩ := h
    obtain rfl := Body.items_inj hcondition
    obtain ⟨rfl, hmore⟩ := Body.append_items_inj (more.ended_items _) (more'.ended_items _) hbody
    obtain ⟨rfl, hrest⟩ := Arms.append_items_inj hmore
    obtain ⟨rfl, hxy⟩ := Body.append_items_inj hx hy hrest
    exact ⟨rfl, hxy⟩
  | .op .., .guarded .. | .op .., .chain .. | .guarded .., .op .. | .guarded .., .chain .. | .chain .., .op ..
  | .chain .., .guarded .. => cases h

theorem Catches.append_items_inj {s t : Catches} {x y : List Item}
    (h : s.items ++ .endTry :: x = t.items ++ .endTry :: y) : s = t ∧ x = y := by
  match s, t with
  | .done, .done => exact ⟨rfl, (List.cons.inj h).2⟩
  | .handler catches body more, .handler catches' body' more' =>
    simp only [Catches.items, List.cons_append, List.append_assoc, List.cons.injEq, Item.beginCatch.injEq] at h
    obtain ⟨rfl, hbody⟩ := h
    obtain ⟨rfl, hmore⟩ := Body.append_items_inj (more.ended_items _) (more'.ended_items _) hbody
    obtain ⟨rfl, hxy⟩ := Catches.append_items_inj hmore
    exact ⟨rfl, hxy⟩
  | .done, .handler .. | .handler .., .done => cases h

theorem Arms.append_items_inj {s t : Arms} {x y : List Item}
    (h : s.items ++ .endIf :: x = t.items ++ .endIf :: y) : s = t ∧ x = y := by
  match s, t with
  | .done, .done => exact ⟨rfl, (List.cons.inj h).2⟩
  | .otherwise body, .otherwise body' =>
    obtain ⟨-, hbody⟩ := List.cons.inj h
    obtain ⟨rfl, hend⟩ := Body.append_items_inj (ended_cons rfl _) (ended_cons rfl _) hbody
    exact ⟨rfl, (List.cons.inj hend).2⟩
  | .elseIf condition test body more, .elseIf condition' test' body' more' =>
    simp only [Arms.items, List.cons_append, List.append_assoc, List.cons.injEq, Item.elseIf.injEq] at h
    obtain ⟨⟨hcondition, rfl⟩, hbody⟩ := h
    obtain rfl := Body.items_inj hcondition
    obtain ⟨rfl, hmore⟩ := Body.append_items_inj (more.ended_items _) (more'.ended_items _) hbody
    obtain ⟨rfl, hxy⟩ := Arms.append_items_inj hmore
    exact ⟨rfl, hxy⟩
  | .done, .otherwise .. | .done, .elseIf .. | .otherwise .., .done | .otherwise .., .elseIf ..
  | .elseIf .., .done | .elseIf .., .otherwise .. => cases h

theorem Body.items_inj {s t : Body} (h : s.items = t.items) : s = t := by
  have hnil : Ended [] := by simp [Ended]
  exact (Body.append_items_inj hnil hnil (by rw [h])).1

end

/-! ### What is accepted -/

namespace Draft

variable {d d' : Draft} {item : Item} {items : List Item}

theorem opened_of_body (t : Body) (h : emitAll t.items d = .ok d') : d'.opened = d.opened := by
  obtain ⟨d₁, h', -, hadds⟩ := emits_body t (at_self d)
  obtain rfl := Except.ok.inj (h.symm.trans h')
  exact hadds.opened

/-- All open structures are closed again behind the item. -/
theorem Sound.reads_of_emit (hs : d.Sound) (h : emit item d = .ok d') (hitem : item.Conditioned) :
    ∃ clean, Reads item d.opened.length d'.opened.length clean d d' := by
  cases item with
  | op opcode =>
    obtain rfl := emit_op_eq_ok h
    exact ⟨_, reads_op opcode d _⟩
  | beginTry =>
    obtain rfl := emit_beginTry_eq_ok h
    exact ⟨_, hs.reads_beginTry _⟩
  | beginCatch catches =>
    obtain ⟨range, outer, hopened, rfl⟩ := emit_beginCatch_eq_ok h
    rw [opened_beginHandler, opened_endGuarded, hopened]
    exact ⟨_, hs.reads_beginCatch hopened catches _⟩
  | endTry =>
    obtain ⟨range, outer, hopened, hhandlers, rfl⟩ := emit_endTry_eq_ok h
    rw [length_opened_of_emit _ _ _ h, hopened]
    exact ⟨_, hs.reads_endTry hopened hhandlers _⟩
  | beginIf condition test =>
    obtain ⟨t, rfl⟩ := hitem
    obtain ⟨d₁, hcondition, rfl⟩ := emit_beginIf_eq_ok h
    rw [← opened_of_body t hcondition]
    exact ⟨false, hs.reads_beginIf t hcondition (by simp) test _⟩
  | elseIf condition test =>
    obtain ⟨t, rfl⟩ := hitem
    obtain ⟨chain, outer, outer', d₁, hopened, helse, hcondition, hopened₁, rfl⟩ := emit_elseIf_eq_ok h
    have hsame : (d₁.addBranch chain test).opened = d.opened := by
      rw [← opened_endBranch (d := d), ← opened_of_body t hcondition]
      rfl
    rw [hsame, hopened]
    exact ⟨false, hs.reads_elseIf t hopened helse hcondition (by simp) test _⟩
  | beginElse =>
    obtain ⟨chain, outer, hopened, helse, rfl⟩ := emit_beginElse_eq_ok h
    rw [length_opened_of_emit _ _ _ h, hopened]
    exact ⟨_, hs.reads_beginElse hopened helse _⟩
  | endIf =>
    obtain ⟨chain, outer, hopened, rfl⟩ := emit_endIf_eq_ok h
    rw [length_opened_of_emit _ _ _ h, hopened]
    exact ⟨_, hs.reads_endIf hopened _⟩

/-- The stream is put in front of any residue that closes all structures it leaves open. -/
theorem Sound.exists_residue (hs : d.Sound) (h : emitAll items d = .ok d')
    (hitems : ∀ item ∈ items, item.Conditioned) (k : Residue) (hk : k.Closes d'.opened.length d') :
    ∃ k' : Residue, k'.Closes d.opened.length d ∧ k'.items = items ++ k.items := by
  induction items generalizing d with
  | nil =>
    obtain rfl := emitAll_nil_eq_ok h
    exact ⟨k, hk, rfl⟩
  | cons item items ih =>
    obtain ⟨hitem, hitems⟩ := List.forall_mem_cons.1 hitems
    obtain ⟨d₁, hemit, hrest⟩ := emitAll_cons_eq_ok h
    obtain ⟨k₁, hk₁, heq₁⟩ := ih (Reaches.sound (reaches_of_emit item d d₁ hemit) hs) hrest hitems
    obtain ⟨clean, hreads⟩ := hs.reads_of_emit hemit hitem
    obtain ⟨k₂, hk₂, heq₂, -⟩ := hreads k₁ hk₁
    exact ⟨k₂, hk₂, by rw [heq₂, heq₁, List.cons_append]⟩

/-- A stream that is accepted and leaves nothing open is balanced. -/
theorem balanced_of_emitAll (h : emitAll items .empty = .ok d) (hopened : d.opened = [])
    (hitems : ∀ item ∈ items, item.Conditioned) : Balanced items := by
  have hk : Residue.Closes ⟨.nil, []⟩ d.opened.length d := by
    rw [Residue.Closes, hopened]
    exact .nil
  obtain ⟨⟨t, frames⟩, hcloses, heq⟩ := sound_empty.exists_residue h hitems _ hk
  obtain rfl : frames = [] := List.forall₂_nil_right_iff.1 hcloses
  refine ⟨t, ?_⟩
  simpa [Residue.items, Body.items] using heq

theorem exists_emitAll (t : Body) : ∃ d, emitAll t.items .empty = .ok d ∧ d.opened = [] ∧
    d.records.ranges = t.ranges 0 ∧ d.records.chains = t.chains 0 := by
  obtain ⟨d, hemit, -, hadds⟩ := emits_body t (at_self .empty)
  exact ⟨d, hemit, hadds.opened, hadds.ranges, hadds.chains⟩

end Draft

/-! ### Records -/

/-- What the handlers of a record catch. -/
def GuardedRange.classes (g : GuardedRange) : List (Option String) := g.handlers.toList.map Handler.catches

/-- The number of branches of a record, and whether it has a final body. -/
def Chain.form (c : Chain) : Nat × Bool := (c.branches.size, c.hasElse)

def Catches.classes : Catches → List (Option String)
  | .done => []
  | .handler catches _ more => catches :: more.classes

/-- The number of further branches. -/
def Arms.count : Arms → Nat
  | .done | .otherwise _ => 0
  | .elseIf _ _ _ more => 1 + more.count

mutual

/-- What the handlers of each guarded range catch. -/
def Body.tries : Body → List (List (Option String))
  | .nil => []
  | .op _ rest => rest.tries
  | .guarded body catches handler more rest =>
    (catches :: more.classes) :: (body.tries ++ (handler.tries ++ (more.tries ++ rest.tries)))
  | .chain condition _ body more rest =>
    condition.tries ++ (body.tries ++ (more.tries ++ rest.tries))

def Catches.tries : Catches → List (List (Option String))
  | .done => []
  | .handler _ body more => body.tries ++ more.tries

def Arms.tries : Arms → List (List (Option String))
  | .done => []
  | .otherwise body => body.tries
  | .elseIf condition _ body more => condition.tries ++ (body.tries ++ more.tries)

end

mutual

/-- The number of branches of each chain, and whether it has a final body. The chains of a first
condition are listed before the chain whose condition it is. -/
def Body.ifs : Body → List (Nat × Bool)
  | .nil => []
  | .op _ rest => rest.ifs
  | .guarded body _ handler more rest => body.ifs ++ (handler.ifs ++ (more.ifs ++ rest.ifs))
  | .chain condition _ body more rest =>
    condition.ifs ++ (1 + more.count, more.hasElse) :: (body.ifs ++ (more.ifs ++ rest.ifs))

def Catches.ifs : Catches → List (Nat × Bool)
  | .done => []
  | .handler _ body more => body.ifs ++ more.ifs

def Arms.ifs : Arms → List (Nat × Bool)
  | .done => []
  | .otherwise body => body.ifs
  | .elseIf condition _ body more => condition.ifs ++ (body.ifs ++ more.ifs)

end

theorem Catches.classes_handlers (t : Catches) (n : Nat) (live : Bool) :
    (t.handlers n live).map Handler.catches = t.classes := by
  cases t with
  | done => rfl
  | handler catches body more => simp [handlers, classes, more.classes_handlers]

theorem Arms.length_branches (t : Arms) (n : Nat) (live : Bool) : (t.branches n live).length = t.count := by
  cases t with
  | done | otherwise body => rfl
  | elseIf condition test body more =>
    simp only [branches, count, List.length_cons, more.length_branches]
    omega

theorem GuardedRange.classes_record (body : Body) (catches : Option String) (handler : Body) (more : Catches)
    (n : Nat) : (record body catches handler more n).classes = catches :: more.classes := by
  simp [classes, record, more.classes_handlers]

theorem Chain.form_record (branches : List ChainBranch) (hasElse : Bool) (join : Nat) :
    (record branches hasElse join).form = (branches.length, hasElse) := rfl

mutual

theorem Body.classes_ranges (t : Body) (n : Nat) : (t.ranges n).map GuardedRange.classes = t.tries := by
  match t with
  | .nil => rfl
  | .op _ rest => exact rest.classes_ranges _
  | .guarded body catches handler more rest =>
    simp only [Body.ranges, Body.tries, List.map_cons, List.map_append, GuardedRange.classes_record,
      body.classes_ranges, handler.classes_ranges, more.classes_ranges, rest.classes_ranges]
  | .chain condition test body more rest =>
    simp only [Body.ranges, Body.tries, List.map_append, condition.classes_ranges, body.classes_ranges,
      more.classes_ranges, rest.classes_ranges]

theorem Catches.classes_ranges (t : Catches) (n : Nat) (live : Bool) :
    (t.ranges n live).map GuardedRange.classes = t.tries := by
  match t with
  | .done => rfl
  | .handler catches body more =>
    simp only [Catches.ranges, Catches.tries, List.map_append, body.classes_ranges, more.classes_ranges]

theorem Arms.classes_ranges (t : Arms) (n : Nat) (live : Bool) :
    (t.ranges n live).map GuardedRange.classes = t.tries := by
  match t with
  | .done => rfl
  | .otherwise body => exact body.classes_ranges _
  | .elseIf condition test body more =>
    simp only [Arms.ranges, Arms.tries, List.map_append, condition.classes_ranges, body.classes_ranges,
      more.classes_ranges]

end

mutual

theorem Body.form_chains (t : Body) (n : Nat) : (t.chains n).map Chain.form = t.ifs := by
  match t with
  | .nil => rfl
  | .op _ rest => exact rest.form_chains _
  | .guarded body catches handler more rest =>
    simp only [Body.chains, Body.ifs, List.map_append, body.form_chains, handler.form_chains,
      more.form_chains, rest.form_chains]
  | .chain condition test body more rest =>
    simp only [Body.chains, Body.ifs, List.map_append, List.map_cons, Chain.form_record, List.length_cons,
      more.length_branches, condition.form_chains, body.form_chains, more.form_chains, rest.form_chains,
      Nat.add_comm more.count 1]

theorem Catches.form_chains (t : Catches) (n : Nat) (live : Bool) :
    (t.chains n live).map Chain.form = t.ifs := by
  match t with
  | .done => rfl
  | .handler catches body more =>
    simp only [Catches.chains, Catches.ifs, List.map_append, body.form_chains, more.form_chains]

theorem Arms.form_chains (t : Arms) (n : Nat) (live : Bool) : (t.chains n live).map Chain.form = t.ifs := by
  match t with
  | .done => rfl
  | .otherwise body => exact body.form_chains _
  | .elseIf condition test body more =>
    simp only [Arms.chains, Arms.ifs, List.map_append, condition.form_chains, body.form_chains,
      more.form_chains]

end

theorem map_modify_of_eq {α β : Type} {f : α → α} {g : α → β} (h : ∀ x, g (f x) = g x) (l : List α) (n : Nat) :
    (l.modify n f).map g = l.map g := by
  apply List.ext_getElem?
  intro i
  rw [List.getElem?_map, List.getElem?_map, List.getElem?_modify]
  split <;> cases l[i]? <;> simp [h]

namespace Records

variable {r : Records} {h : Handle}

theorem classes_set (r : Records) (a : Anchor) :
    (r.set h a).ranges.map GuardedRange.classes = r.ranges.map GuardedRange.classes := by
  cases a with
  | tryStart range | tryEnd range => exact map_modify_of_eq (by intro g; rfl) _ _
  | handlerStart range handler =>
    refine map_modify_of_eq (fun g => ?_) _ _
    rw [GuardedRange.classes, Array.toList_modify]
    exact map_modify_of_eq (by intro k; rfl) _ _
  | branchNext chain branch | ifEnd chain => rfl

theorem form_set (r : Records) (a : Anchor) : (r.set h a).chains.map Chain.form = r.chains.map Chain.form := by
  cases a with
  | tryStart range | tryEnd range | handlerStart range handler => rfl
  | branchNext chain branch =>
    refine map_modify_of_eq (fun c => ?_) _ _
    rw [Chain.form, Array.size_modify]
    rfl
  | ifEnd chain => exact map_modify_of_eq (by intro c; rfl) _ _

end Records

/-! ### The language of the markers -/

namespace Builder

/-- What still waits for an instruction does not show in the form of the records. -/
theorem classes_draft (b : Builder) :
    b.draft.records.ranges.map GuardedRange.classes = b.ranges.toList.map GuardedRange.classes :=
  Records.setAll_eq (fun r => r.ranges.map GuardedRange.classes) Records.classes_set b.pending.toList b.records

theorem form_draft (b : Builder) : b.draft.records.chains.map Chain.form = b.chains.toList.map Chain.form :=
  Records.setAll_eq (fun r => r.chains.map Chain.form) Records.form_set b.pending.toList b.records

/-- The records of a stream that has been accepted. -/
theorem forms_of_emitAll (t : Body) {b : Builder} (hrun : (emitAll t.items).run empty = .ok () b) :
    b.ranges.toList.map GuardedRange.classes = t.tries ∧ b.chains.toList.map Chain.form = t.ifs := by
  obtain ⟨d, hemit, -, hranges, hchains⟩ := Draft.exists_emitAll t
  obtain rfl := Except.ok.inj ((emitAll_empty_eq_ok hrun).2.symm.trans hemit)
  constructor
  · rw [← classes_draft, hranges, t.classes_ranges]
  · rw [← form_draft, hchains, t.form_chains]

/-- A stream whose conditions are balanced is accepted and leaves nothing open exactly if it is
balanced itself. It has a record for each marker that begins a structure, then: the classes of its
handlers, or the number of its branches and whether there is a final body. The records come in the
order of the markers, except that the chains of a first condition come before the chain whose
condition it is. -/
theorem emitAll_iff_balanced (items : List Item) (hitems : ∀ item ∈ items, item.Conditioned) :
    ((∃ b, (emitAll items).run empty = .ok () b ∧ b.opened = []) ↔ Balanced items) ∧
      ∀ t : Body, t.items = items → ∀ b, (emitAll items).run empty = .ok () b →
        b.ranges.toList.map GuardedRange.classes = t.tries ∧ b.chains.toList.map Chain.form = t.ifs := by
  refine ⟨⟨?_, ?_⟩, ?_⟩
  · rintro ⟨b, hrun, hopened⟩
    exact Draft.balanced_of_emitAll (emitAll_empty_eq_ok hrun).2 hopened hitems
  · rintro ⟨t, rfl⟩
    obtain ⟨d, hemit, hopened, -⟩ := Draft.exists_emitAll t
    have hfollows := emitAll_empty_follows t.items
    rw [hemit] at hfollows
    obtain ⟨b, hrun, -, rfl⟩ := hfollows
    exact ⟨b, hrun, hopened⟩
  · rintro t rfl b hrun
    exact forms_of_emitAll t hrun

/-- A chain whose condition holds another one gets the second number, and the range in front
of it has its handlers in order. -/
theorem emitAll_iff_balanced_nested :
    let condition : Body := .chain (.op .aconstNull .nil) .ifnull .nil (.otherwise .nil) .nil
    let items : List Item :=
      [.beginTry, .beginCatch (some "A"), .op .pop, .beginCatch none, .op .athrow, .endTry,
        .beginIf condition.items .ifeq, .elseIf [] .ifne, .endIf]
    (∀ item ∈ items, item.Conditioned) ∧ ∃ b, (emitAll items).run empty = .ok () b ∧ b.opened = [] ∧
      b.ranges.toList.map GuardedRange.classes = [[some "A", none]] ∧
      b.chains.toList.map Chain.form = [(1, true), (2, false)] := by
  intro condition items
  have hitems : ∀ item ∈ items, item.Conditioned := by
    simp only [items, List.forall_mem_cons]
    refine ⟨trivial, trivial, trivial, trivial, trivial, trivial, ⟨condition, rfl⟩, ⟨.nil, rfl⟩, trivial, ?_⟩
    simp
  let t : Body := .guarded .nil (some "A") (.op .pop .nil) (.handler none (.op .athrow .nil) .done)
    (.chain condition .ifeq .nil (.elseIf .nil .ifne .nil .done) .nil)
  have hlanguage := emitAll_iff_balanced items hitems
  obtain ⟨b, hrun, hopened⟩ := hlanguage.1.2 ⟨t, rfl⟩
  exact ⟨hitems, b, hrun, hopened, hlanguage.2 t rfl b hrun⟩

end Builder

/-! ### The order of the markers -/

mutual

/-- What `ifs` lists, in the order in which the markers stand in the stream: a chain before those of
its conditions. -/
def Body.ifsByMarker : Body → List (Nat × Bool)
  | .nil => []
  | .op _ rest => rest.ifsByMarker
  | .guarded body _ handler more rest =>
    body.ifsByMarker ++ (handler.ifsByMarker ++ (more.ifsByMarker ++ rest.ifsByMarker))
  | .chain condition _ body more rest =>
    (1 + more.count, more.hasElse) ::
      (condition.ifsByMarker ++ (body.ifsByMarker ++ (more.ifsByMarker ++ rest.ifsByMarker)))

def Catches.ifsByMarker : Catches → List (Nat × Bool)
  | .done => []
  | .handler _ body more => body.ifsByMarker ++ more.ifsByMarker

def Arms.ifsByMarker : Arms → List (Nat × Bool)
  | .done => []
  | .otherwise body => body.ifsByMarker
  | .elseIf condition _ body more => condition.ifsByMarker ++ (body.ifsByMarker ++ more.ifsByMarker)

end

/-- A chain with a final body that leaves one number or another. -/
def Body.choosing : Body :=
  .op .aconstNull (.chain .nil .ifnull (.op (.iconst 1) .nil) (.otherwise (.op (.iconst 0) .nil)) .nil)

/-- A chain with a second branch, and a chain in its first condition. -/
def Body.decided : Body := .chain choosing .ifeq .nil (.elseIf (.op (.iconst 1) .nil) .ifne .nil .done) .nil

/-- The chain of a condition is numbered before the chain whose marker holds the condition. -/
theorem Builder.not_numbered_by_marker : ¬ ∀ items : List Item, (∀ item ∈ items, item.Conditioned) →
    ((∃ b, (emitAll items).run empty = .ok () b ∧ b.opened = []) ↔ Balanced items) ∧
      ∀ t : Body, t.items = items → ∀ b, (emitAll items).run empty = .ok () b →
        b.ranges.toList.map GuardedRange.classes = t.tries ∧ b.chains.toList.map Chain.form = t.ifsByMarker := by
  intro hclaim
  have hitems : ∀ item ∈ Body.decided.items, item.Conditioned := by
    simp only [Body.decided, Body.items, Arms.items, List.nil_append, List.append_nil, List.cons_append,
      List.forall_mem_cons]
    exact ⟨⟨.choosing, rfl⟩, ⟨.op (.iconst 1) .nil, rfl⟩, trivial, by simp⟩
  obtain ⟨hlanguage, hnumbered⟩ := hclaim Body.decided.items hitems
  obtain ⟨b, hrun, -⟩ := hlanguage.2 ⟨Body.decided, rfl⟩
  have hboth : Body.decided.ifs = Body.decided.ifsByMarker :=
    (forms_of_emitAll _ hrun).2.symm.trans (hnumbered Body.decided rfl b hrun).2
  exact absurd hboth (by decide)

end BlockAssembler
