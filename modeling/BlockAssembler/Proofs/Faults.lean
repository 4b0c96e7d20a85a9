import BlockAssembler.Proofs.Placement

/-! When the records of a builder contradict each other. If the structures have all been
ended, every field that the assembly asks for names an instruction of the sequence, with
one exception: in a torn chain some test lands nowhere. -/

namespace BlockAssembler

/-- What holds of the records when all structures have been ended. -/
structure Records.Complete (ops : List Opcode) (r : Records) : Prop where
  ranges : ∀ g ∈ r.ranges, RangeSound ops False g
  chains : ∀ c ∈ r.chains, ChainSound ops False c

/-- A limit of the format is exceeded. -/
def AssemblyError.IsLimit : AssemblyError → Prop
  | .stackOverflow _ | .localsOverflow _ | .offsetOverflow .. => True
  | .poolOverflow | .malformedDescriptor _ | .malformedStructure _ | .internal _ => False

/-- Only a limit can stop the computation, and nothing does if what is stored fits. -/
structure Limited {α : Type} (fits : Prop) (r : Except AssemblyError α) : Prop where
  errors : ∀ e, r = .error e → e.IsLimit
  ok : fits → ∃ a, r = .ok a

namespace Limited

variable {α β : Type} {fits : Prop} {r : Except AssemblyError α} {f : α → Except AssemblyError β} {xs : List α}

theorem pure (a : α) : Limited fits (Except.ok a) := ⟨fun _ h => (nomatch h), fun _ => ⟨a, rfl⟩⟩

theorem bind (hr : Limited fits r) (hf : ∀ a, Limited fits (f a)) : Limited fits (r >>= f) := by
  refine ⟨bind_errors hr.errors fun a => (hf a).errors, fun hfits => ?_⟩
  obtain ⟨a, rfl⟩ := hr.ok hfits
  exact (hf a).ok hfits

theorem ensure {p : Prop} [Decidable p] {e : AssemblyError} (hp : fits → p) (he : e.IsLimit) :
    Limited fits (ensure p e : Except AssemblyError Unit) :=
  ⟨ensure_errors he, fun hfits => ⟨(), if_pos (hp hfits)⟩⟩

theorem mapM (hf : ∀ x ∈ xs, Limited fits (f x)) : Limited fits (xs.mapM f) := by
  induction xs with
  | nil => exact pure []
  | cons x xs ih =>
    rw [List.mapM_cons]
    exact (hf x (by simp)).bind fun y => (ih fun z hz => hf z (by simp [hz])).bind fun ys => pure (y :: ys)

end Limited

theorem Place.limited_coordinate (p : Place) (op : Opcode) :
    Limited (p.offset ≤ Builder.fieldLimit) (p.coordinate op) :=
  have hle : Limited (p.offset ≤ Builder.fieldLimit)
      (ensure (p.offset ≤ Builder.fieldLimit) (.offsetOverflow p.index op.mnemonic p.offset)) := .ensure id trivial
  hle.bind fun _ => .pure p.offset

/-- Some chain is torn. -/
def Records.Torn (r : Records) : Prop := ∃ c ∈ r.chains, c.Torn

namespace Builder

/-- The instructions by their handles, those included that have been taken out. -/
def stored (b : Builder) : List Opcode := b.arena.toList.map Cell.opcode

/-- The records are complete apart from torn chains, and name instructions of the sequence. -/
structure Sturdy (b : Builder) : Prop where
  complete : b.records.Complete b.stored
  fields : ∀ a h, b.records.field? a = some (some h) → b.isAlive h = true
  jumps : ∀ h, JumpAt b.stored h → b.isAlive h = true

variable {b : Builder}

theorem placeOf_alive {h : Handle} (hh : b.isAlive h = true) (l : Layout) :
    b.placeOf l (some h) = .ok (l.place h) := by
  unfold isAlive at hh
  unfold placeOf
  cases hcell : b.arena[h]? with
  | none => simp [hcell] at hh
  | some c =>
    have halive : c.alive = true := by simpa [hcell] using hh
    simp [hcell, halive]

/-- Every offset of the layout fits in a field of the format. -/
def Spanned (l : Layout) : Prop := ∀ h, (l.place h).offset ≤ fieldLimit

theorem limited_coordinate {h : Handle} (hh : b.isAlive h = true) (l : Layout) :
    Limited (Spanned l) (b.coordinate l (some h)) := by
  obtain ⟨cell, hcell, -⟩ := (Option.any_eq_true _ _).1 (show b.arena[h]?.any Cell.alive = true from hh)
  have hop : b.opcode? h = some cell.opcode := by rw [opcode?, hcell, Option.map_some]
  have heq : b.coordinate l (some h) = (l.place h).coordinate cell.opcode := by
    rw [coordinate, placeOf_alive hh l]
    simp only [Option.bind_some, hop]
    rfl
  rw [heq]
  exact ⟨((l.place h).limited_coordinate _).errors, fun hl => ((l.place h).limited_coordinate _).ok (hl h)⟩

namespace Sturdy

variable {g : GuardedRange} {c : Chain} {h : Handle}

/-! ### Fields -/

theorem range (hb : b.Sturdy) (hg : g ∈ b.ranges) : RangeSound b.stored False g :=
  hb.complete.ranges g (by simpa [records] using hg)

theorem chain (hb : b.Sturdy) (hc : c ∈ b.chains) : ChainSound b.stored False c :=
  hb.complete.chains c (by simpa [records] using hc)

theorem start_alive (hb : b.Sturdy) (hg : g ∈ b.ranges) :
    ∃ h, g.start = some h ∧ b.isAlive h = true := by
  obtain ⟨i, hi⟩ := Array.mem_iff_getElem?.1 hg
  obtain ⟨h, hh⟩ := Option.isSome_iff_exists.1 (hb.range hg).start
  exact ⟨h, hh, hb.fields (.tryStart i) h (by simp [Records.field?, records, hi, hh])⟩

theorem skip_alive (hb : b.Sturdy) (hg : g ∈ b.ranges) : ∃ h, g.skip = some h ∧ b.isAlive h = true := by
  have hsound := hb.range hg
  obtain ⟨h, hh⟩ := Option.isSome_iff_exists.1 (hsound.skip (hsound.closed id).1)
  exact ⟨h, hh, hb.jumps h (hsound.jump h hh)⟩

theorem join_alive (hb : b.Sturdy) (hg : g ∈ b.ranges) :
    ∃ h, g.join = some h ∧ b.isAlive h = true := by
  obtain ⟨i, hi⟩ := Array.mem_iff_getElem?.1 hg
  obtain ⟨h, hh⟩ := Option.isSome_iff_exists.1 ((hb.range hg).closed id).2
  exact ⟨h, hh, hb.fields (.tryEnd i) h (by simp [Records.field?, records, hi, hh])⟩

theorem handler_alive (hb : b.Sturdy) (hg : g ∈ b.ranges) {k : Handler} (hk : k ∈ g.handlers) :
    ∃ h, k.start = some h ∧ b.isAlive h = true := by
  obtain ⟨i, hi⟩ := Array.mem_iff_getElem?.1 hg
  obtain ⟨j, hj⟩ := Array.mem_iff_getElem?.1 hk
  obtain ⟨h, hh⟩ := Option.isSome_iff_exists.1 ((hb.range hg).entries k hk)
  exact ⟨h, hh, hb.fields (.handlerStart i j) h (by simp [Records.field?, records, hi, hj, hh])⟩

theorem next_alive (hb : b.Sturdy) (hc : c ∈ b.chains) {br : ChainBranch} (hbr : br ∈ c.branches)
    (hnext : br.next = some h) : b.isAlive h = true := by
  obtain ⟨i, hi⟩ := Array.mem_iff_getElem?.1 hc
  obtain ⟨j, hj⟩ := Array.mem_iff_getElem?.1 hbr
  exact hb.fields (.branchNext i j) h (by simp [Records.field?, records, hi, hj, hnext])

theorem chainJoin_alive (hb : b.Sturdy) (hc : c ∈ b.chains) (hjoin : c.join = some h) :
    b.isAlive h = true := by
  obtain ⟨i, hi⟩ := Array.mem_iff_getElem?.1 hc
  exact hb.fields (.ifEnd i) h (by simp [Records.field?, records, hi, hjoin])

/-! ### Links -/

/-- The links by the fields they are read from. -/
theorem mem_links_cases {link : Link} : link ∈ b.links ↔
    (∃ g ∈ b.ranges, link = ⟨g.skip, g.join⟩) ∨
      (∃ g ∈ b.ranges, ∃ k ∈ g.handlers, ∃ h, k.skip = some h ∧ ⟨some h, g.join⟩ = link) ∨
      (∃ c ∈ b.chains, ∃ br ∈ c.branches, link = ⟨some br.test, br.next⟩) ∨
      ∃ c ∈ b.chains, ∃ br ∈ c.branches, ∃ h, br.skip = some h ∧ ⟨some h, c.join⟩ = link := by
  rw [links, List.mem_append, List.mem_flatMap, List.mem_flatMap]
  simp only [GuardedRange.links, Chain.links, ChainBranch.links, List.mem_cons, List.mem_filterMap,
    List.mem_flatMap, Array.mem_toList_iff, Option.mem_toList, Option.map_eq_some_iff, and_or_left,
    exists_or, or_assoc]

/-- A link has a jump of the sequence, and its target is missing or in the sequence, too. -/
theorem link (hb : b.Sturdy) {link : Link} (hlink : link ∈ b.links) :
    (∃ h, link.jump = some h ∧ JumpAt b.stored h) ∧
      ∀ t, link.target = some t → b.isAlive t = true := by
  have hjoin : ∀ g ∈ b.ranges, ∀ t, g.join = some t → b.isAlive t = true := by
    intro g hg t ht
    obtain ⟨h, hh, halive⟩ := hb.join_alive hg
    rwa [Option.some.inj (ht.symm.trans hh)]
  rcases mem_links_cases.1 hlink with ⟨g, hg, rfl⟩ | ⟨g, hg, k, hk, h, hh, rfl⟩ | ⟨c, hc, br, hbr, rfl⟩ |
    ⟨c, hc, br, hbr, h, hh, rfl⟩
  · have hsound := hb.range hg
    obtain ⟨h, hh⟩ := Option.isSome_iff_exists.1 (hsound.skip (hsound.closed id).1)
    exact ⟨⟨h, hh, hsound.jump h hh⟩, hjoin g hg⟩
  · exact ⟨⟨h, rfl, (hb.range hg).jumps k hk h hh⟩, hjoin g hg⟩
  · exact ⟨⟨br.test, rfl, (hb.chain hc).tests br hbr⟩, fun t ht => hb.next_alive hc hbr ht⟩
  · exact ⟨⟨h, rfl, (hb.chain hc).jumps br hbr h hh⟩, fun t ht => hb.chainJoin_alive hc ht⟩

/-- A link without a target belongs to a torn chain. -/
theorem exists_unresolved (hb : b.Sturdy) :
    (∃ link ∈ b.links, link.target = none) ↔ b.records.Torn := by
  have hjoin : ∀ g ∈ b.ranges, g.join ≠ none := by
    intro g hg hnone
    obtain ⟨h, hh, -⟩ := hb.join_alive hg
    cases hnone.symm.trans hh
  constructor
  · rintro ⟨link, hlink, hnone⟩
    rcases mem_links_cases.1 hlink with ⟨g, hg, rfl⟩ | ⟨g, hg, k, hk, h, hh, rfl⟩ |
      ⟨c, hc, br, hbr, rfl⟩ | ⟨c, hc, br, hbr, h, hh, rfl⟩
    · exact absurd hnone (hjoin g hg)
    · exact absurd hnone (hjoin g hg)
    · exact ⟨c, by simpa [records] using hc, (hb.chain hc).nexts id br hbr hnone⟩
    · have hskips : c.hasSkips = true := by
        rw [Chain.hasSkips, Array.any_eq_true']
        exact ⟨br, hbr, by simp [hh]⟩
      obtain ⟨j, hj⟩ := Option.isSome_iff_exists.1 ((hb.chain hc).closed id hskips)
      cases (show c.join = none from hnone).symm.trans hj
  · rintro ⟨c, hc, i, br, hi, hnone, -⟩
    have hc' : c ∈ b.chains := by simpa [records] using hc
    exact ⟨⟨some br.test, br.next⟩, mem_links_cases.2 (.inr (.inr (.inl
      ⟨c, hc', br, Array.mem_of_getElem? hi, rfl⟩))), hnone⟩

/-! ### The exception table -/

theorem limited_entry (hb : b.Sturdy) (hg : g ∈ b.ranges) {k : Handler} (hk : k ∈ g.handlers) (l : Layout) :
    Limited (Spanned l) (b.entry l g k) := by
  obtain ⟨start, hstart, hstartAlive⟩ := hb.start_alive hg
  obtain ⟨stop, hstop, hstopAlive⟩ := hb.skip_alive hg
  obtain ⟨handler, hhandler, hhandlerAlive⟩ := hb.handler_alive hg hk
  rw [entry, hstart, hstop, hhandler]
  exact (limited_coordinate hstartAlive l).bind fun _ => (limited_coordinate hstopAlive l).bind fun _ =>
    (limited_coordinate hhandlerAlive l).bind fun _ => .pure _

theorem limited_entries (hb : b.Sturdy) (hg : g ∈ b.ranges) (l : Layout) :
    Limited (Spanned l) (b.entries l g) := by
  obtain ⟨start, hstart, hstartAlive⟩ := hb.start_alive hg
  obtain ⟨stop, hstop, hstopAlive⟩ := hb.skip_alive hg
  have hguarded : b.guarded l g = .ok (l.place start, l.place stop) := by
    rw [guarded, hstart, hstop, placeOf_alive hstartAlive, placeOf_alive hstopAlive]
    rfl
  rw [entries, hguarded]
  show Limited _ (if (l.place start).offset < (l.place stop).offset then _ else _)
  split
  · exact .mapM fun k hk => hb.limited_entry hg (by simpa using hk) l
  · exact .pure []

theorem limited_exceptionTable (hb : b.Sturdy) (l : Layout) : Limited (Spanned l) (b.exceptionTable l) :=
  (Limited.mapM fun _ hg => hb.limited_entries (by simpa using hg) l).bind fun ess => .pure ess.flatten

end Sturdy

/-! ### The instructions -/

/-- When the jumps have their distances, the offsets of the instructions are all that can be refused. -/
theorem limited_finished (b : Builder) (l : Layout) (maxLocals : Nat) (exceptions : List ExceptionEntry)
    (ops : Array Opcode) : Limited (∀ x ∈ b.sequence l ops, x.1.offset ≤ fieldLimit)
      (b.finished l maxLocals exceptions ops) := by
  refine Limited.bind (.mapM fun x hx => ?_) fun _ => .pure _
  exact Limited.bind ⟨(x.1.limited_coordinate x.2).errors, fun hall => (x.1.limited_coordinate x.2).ok (hall x hx)⟩
    fun _ => .pure _

/-! ### Distances -/

/-- The number of bytes from an instruction to another. -/
def gap (b : Builder) (h t : Handle) : Int := (b.layout.place t).offset - (b.layout.place h).offset

/-- The link has a target, and the format can hold the distance to it. -/
def Fits (b : Builder) (link : Link) : Prop :=
  ∃ h t, link = ⟨some h, some t⟩ ∧ Opcode.fitsJump (b.gap h t)

/-- The links in front of the first one without a target. -/
def resolved (links : List Link) : List Link := links.takeWhile fun link => link.target.isSome

namespace Sturdy

/-- A link with a target is held against the greatest distance of a jump. -/
theorem distance_eq (hb : b.Sturdy) {h t : Handle} (hlink : (⟨some h, some t⟩ : Link) ∈ b.links) :
    ∃ op, b.opcode? h = some op ∧ b.distance b.layout ⟨some h, some t⟩ =
      if Opcode.fitsJump (b.gap h t) then .ok (h, b.gap h t)
      else .error (.offsetOverflow (b.layout.place h).index op.mnemonic (b.gap h t)) := by
  obtain ⟨⟨_, hjump, hop⟩, htarget⟩ := hb.link hlink
  obtain rfl := Option.some.inj hjump
  have hplaceTarget := placeOf_alive (htarget t rfl) b.layout
  have hplaceJump := placeOf_alive (hb.jumps h hop) b.layout
  obtain ⟨op, hop, hisJump⟩ := hop
  have hopcode : b.opcode? h = some op := by
    rw [stored, List.getElem?_map, Array.getElem?_toList] at hop
    exact hop
  have hdistance : b.distance b.layout ⟨some h, some t⟩ =
      (do ensure (Opcode.fitsJump (b.gap h t))
            (.offsetOverflow (b.layout.place h).index op.mnemonic (b.gap h t))
          ensure op.isJump (.internal (.notAJump h))
          return (h, b.gap h t)) := by
    rw [distance, hplaceTarget, hplaceJump]
    simp only [Option.bind_some, hopcode]
    rfl
  refine ⟨op, hopcode, ?_⟩
  rw [hdistance, ensure]
  split
  · rw [ensure, if_pos hisJump]
    rfl
  · rfl

/-- A link of the records gets a distance, is refused for its distance, or has no target. -/
theorem distance_cases (hb : b.Sturdy) {link : Link} (hlink : link ∈ b.links) :
    (link.target = none ∧ b.distance b.layout link = .error (.internal .unresolved)) ∨
      (b.Fits link ∧ ∃ r, b.distance b.layout link = .ok r) ∨
      (link.target ≠ none ∧ ¬ b.Fits link ∧
        ∃ i m d, b.distance b.layout link = .error (.offsetOverflow i m d)) := by
  obtain ⟨⟨h, hjump, -⟩, -⟩ := hb.link hlink
  obtain ⟨jump, target⟩ := link
  obtain rfl : jump = some h := hjump
  cases target with
  | none => exact .inl ⟨rfl, rfl⟩
  | some t =>
    obtain ⟨op, -, hdistance⟩ := hb.distance_eq hlink
    rw [hdistance]
    by_cases hfits : Opcode.fitsJump (b.gap h t)
    · exact .inr (.inl ⟨⟨h, t, rfl, hfits⟩, (h, b.gap h t), if_pos hfits⟩)
    · refine .inr (.inr ⟨by simp, ?_, (b.layout.place h).index, op.mnemonic, b.gap h t, if_neg hfits⟩)
      rintro ⟨_, _, heq, hfits'⟩
      cases heq
      exact hfits hfits'

theorem space_internal_iff (hb : b.Sturdy) {links : List Link}
    (hlinks : ∀ link ∈ links, link ∈ b.links) (ops : Array Opcode) (f : Fault) :
    b.space b.layout links ops = .error (.internal f) ↔
      f = .unresolved ∧ (∃ link ∈ links, link.target = none) ∧ ∀ link ∈ resolved links, b.Fits link := by
  induction links generalizing ops with
  | nil =>
    constructor
    · intro h
      cases h
    · rintro ⟨-, ⟨link, hlink, -⟩, -⟩
      simp at hlink
  | cons link links ih =>
    have htail : ∀ x ∈ links, x ∈ b.links := fun x hx => hlinks x (by simp [hx])
    rw [resolved, List.takeWhile_cons]
    rcases hb.distance_cases (hlinks link (by simp)) with
      ⟨hnone, hdistance⟩ | ⟨hfits, r, hdistance⟩ | ⟨hsome, hfits, i, m, d, hdistance⟩
    · have hspace : b.space b.layout (link :: links) ops = .error (.internal .unresolved) := by
        rw [space, hdistance]
        rfl
      rw [hspace]
      constructor
      · intro h
        cases h
        exact ⟨rfl, ⟨link, by simp, hnone⟩, by simp [hnone]⟩
      · rintro ⟨rfl, -⟩
        rfl
    · have hsome : link.target.isSome = true := by
        obtain ⟨h, t, rfl, -⟩ := hfits
        rfl
      have hspace : b.space b.layout (link :: links) ops
          = b.space b.layout links (ops.modify r.1 (Opcode.withDistance r.2)) := by
        rw [space, hdistance]
        rfl
      rw [hspace, ih htail, if_pos hsome, ← resolved, List.exists_mem_cons_iff, List.forall_mem_cons]
      have hne : link.target ≠ none := Option.isSome_iff_ne_none.1 hsome
      simp [hne, hfits]
    · have hspace : b.space b.layout (link :: links) ops = .error (.offsetOverflow i m d) := by
        rw [space, hdistance]
        rfl
      rw [hspace, if_pos (Option.isSome_iff_ne_none.2 hsome)]
      constructor
      · intro h
        cases h
      · rintro ⟨-, -, hall⟩
        exact absurd (hall link (by simp)) hfits

theorem space_errors (hb : b.Sturdy) {links : List Link} (hlinks : ∀ link ∈ links, link ∈ b.links)
    (ops : Array Opcode) : ∀ e, b.space b.layout links ops = .error e → e.IsLimit ∨ ∃ f, e = .internal f := by
  induction links generalizing ops with
  | nil => exact fun e h => nomatch h
  | cons link links ih =>
    rw [space]
    refine bind_errors (fun e he => ?_) fun r => ih (fun x hx => hlinks x (by simp [hx])) _
    rcases hb.distance_cases (hlinks link (by simp)) with
      ⟨-, hdistance⟩ | ⟨-, r, hdistance⟩ | ⟨-, -, i, m, d, hdistance⟩
    · exact .inr ⟨.unresolved, Except.error.inj (he.symm.trans hdistance)⟩
    · cases he.symm.trans hdistance
    · obtain rfl := Except.error.inj (he.symm.trans hdistance)
      exact .inl trivial

theorem place_errors (hb : b.Sturdy) (maxLocals : Nat) :
    ∀ e, b.place maxLocals = .error e → e.IsLimit ∨ ∃ f, e = .internal f := by
  refine bind_errors (bind_errors (fun e he => ?_) fun es => ?_) fun r => ?_
  · exact .inl ((hb.limited_exceptionTable b.layout).errors e he)
  · exact bind_errors (hb.space_errors (fun _ h => h) _) fun _ e h => nomatch h
  · exact fun e he => .inl ((limited_finished b b.layout maxLocals r.1 r.2).errors e he)

/-- If every offset fits, the records are what a contradiction shows in. -/
theorem place_internal_iff (hb : b.Sturdy) (hfits : Spanned b.layout) (maxLocals : Nat) (f : Fault) :
    b.place maxLocals = .error (.internal f) ↔
      f = .unresolved ∧ b.records.Torn ∧ ∀ link ∈ resolved b.links, b.Fits link := by
  obtain ⟨es, hes⟩ := (hb.limited_exceptionTable b.layout).ok hfits
  rw [← hb.exists_unresolved, ← hb.space_internal_iff (fun _ h => h) (b.arena.map Cell.opcode) f, place, patched, hes]
  show (do let r ← (do let ops ← b.spaced b.layout; pure (es, ops)); b.finished b.layout maxLocals r.1 r.2) = _ ↔
    b.spaced b.layout = _
  cases b.spaced b.layout with
  | error e =>
    show (.error e : Except AssemblyError Code) = _ ↔ (.error e : Except AssemblyError (Array Opcode)) = _
    rw [Except.error.injEq, Except.error.injEq]
  | ok ops =>
    constructor
    · intro h
      exact ((limited_finished b b.layout maxLocals es ops).errors _ h).elim
    · intro h
      cases h

end Sturdy

/-! ### Assembly -/

theorem checkLimits_of_open (hopened : b.opened ≠ []) (maxLocals : Nat) :
    b.checkLimits maxLocals = .error (.malformedStructure .unterminated) := by
  have hempty : ¬ b.opened.isEmpty = true := mt List.isEmpty_iff.1 hopened
  rw [checkLimits, ensure, if_neg hempty]
  rfl

/-- Once all structures have been ended, the checks that need no record are those of the limits. -/
theorem checkLimits_errors (hp : b.pending = #[]) (hopened : b.opened = []) (maxLocals : Nat) :
    ∀ e, b.checkLimits maxLocals = .error e → e.IsLimit := by
  have hpending : b.checkPending = .ok () := by
    rw [checkPending, hp]
    rfl
  rw [checkLimits, hpending, hopened]
  refine bind_errors (fun e h => nomatch h) fun _ => ?_
  refine bind_errors (fun e h => nomatch h) fun _ => ?_
  refine bind_errors (ensure_errors trivial) fun _ => ?_
  refine bind_errors (ensure_errors trivial) fun _ => ?_
  unfold checkLength
  split
  · exact fun e h => nomatch h
  · exact ensure_errors trivial

theorem checkLimits_ne_internal (hp : b.pending = #[]) (maxLocals : Nat) (f : Fault) :
    b.checkLimits maxLocals ≠ .error (.internal f) := by
  by_cases hopened : b.opened = []
  · exact fun h => checkLimits_errors hp hopened maxLocals _ h
  · rw [checkLimits_of_open hopened]
    exact fun h => nomatch h

/-- Open structures are what is asked about first. -/
theorem assemble_of_open (hopened : b.opened ≠ []) (maxLocals : Nat) :
    (assemble maxLocals).run b = .error (.malformedStructure .unterminated) b := by
  rw [assemble, get_bind, checkLimits_of_open hopened]
  rfl

/-- The length that has been checked bounds every offset. -/
theorem Arranged.spanned (hb : b.Arranged) {maxLocals : Nat} (h : b.checkLimits maxLocals = .ok ()) :
    Spanned b.layout := fun h' => Nat.le_trans (offset_layout_le b h') (hb.length_le h)

/-- The assembly meets a contradiction exactly if a chain is torn and every check before that
shows is passed. -/
theorem Sturdy.assemble_internal_iff (hb : b.Sturdy) (harranged : b.Arranged) (hp : b.pending = #[]) (maxLocals : Nat)
    (f : Fault) : (∃ b', (assemble maxLocals).run b = .error (.internal f) b') ↔
      f = .unresolved ∧ b.checkLimits maxLocals = .ok () ∧ b.records.Torn ∧
        ∀ link ∈ resolved b.links, b.Fits link := by
  rw [assemble_eq_error_iff]
  constructor
  · rintro (hlimits | ⟨hlimits, hplace⟩)
    · exact absurd hlimits (checkLimits_ne_internal hp maxLocals f)
    · obtain ⟨rfl, htorn, hfits⟩ := (hb.place_internal_iff (harranged.spanned hlimits) maxLocals f).1 hplace
      exact ⟨rfl, hlimits, htorn, hfits⟩
  · rintro ⟨rfl, hlimits, htorn, hfits⟩
    exact .inr ⟨hlimits, (hb.place_internal_iff (harranged.spanned hlimits) maxLocals _).2 ⟨rfl, htorn, hfits⟩⟩

/-- Once all structures have been ended, only a limit or a contradiction stops the assembly. -/
theorem Sturdy.assemble_errors (hb : b.Sturdy) (hp : b.pending = #[]) (hopened : b.opened = []) {maxLocals : Nat}
    {e : AssemblyError} {b' : Builder} (h : (assemble maxLocals).run b = .error e b') :
    e.IsLimit ∨ ∃ f, e = .internal f := by
  rcases assemble_eq_error_iff.1 ⟨b', h⟩ with hlimits | ⟨-, hplace⟩
  · exact .inl (checkLimits_errors hp hopened maxLocals e hlimits)
  · exact hb.place_errors maxLocals e hplace

end Builder

end BlockAssembler
