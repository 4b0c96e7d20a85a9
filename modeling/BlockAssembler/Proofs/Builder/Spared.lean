import BlockAssembler.Proofs.Builder.Faultless

/-! What steps leave alone. A builder has records already, some of their fields wait for the next
instruction, and further steps are taken. They may add records and change those they have added; the
old records are spared if their fields still wait as they did, or if what waited has been pointed at
the first instruction that was added, and nothing else has happened to them. Such steps can be put
one behind the other. The one thing that can stop them is an anchor that names no field and waited
from the beginning. -/

namespace BlockAssembler

/-- The anchor names no field of the first records. -/
def Anchor.Later (ranges chains : Nat) : Anchor → Prop
  | tryStart range | tryEnd range | handlerStart range _ => ranges ≤ range
  | branchNext chain _ | ifEnd chain => chains ≤ chain

theorem Anchor.Later.mono {ranges chains ranges' chains' : Nat} {a : Anchor} (h : a.Later ranges' chains')
    (hranges : ranges ≤ ranges') (hchains : chains ≤ chains') : a.Later ranges chains := by
  cases a with
  | tryStart | tryEnd | handlerStart => exact Nat.le_trans hranges h
  | branchNext | ifEnd => exact Nat.le_trans hchains h

namespace Records

/-- The first records are the same. -/
structure SameFirst (ranges chains : Nat) (r r' : Records) : Prop where
  ranges : ∀ i < ranges, r.ranges[i]? = r'.ranges[i]?
  chains : ∀ i < chains, r.chains[i]? = r'.chains[i]?

section
variable {ranges chains : Nat} {r r' r'' : Records} {h : Handle} {a : Anchor}

namespace SameFirst

theorem refl (r : Records) : SameFirst ranges chains r r := ⟨fun _ _ => rfl, fun _ _ => rfl⟩

theorem trans (h : SameFirst ranges chains r r') (h' : SameFirst ranges chains r' r'') :
    SameFirst ranges chains r r'' :=
  ⟨fun i hi => (h.ranges i hi).trans (h'.ranges i hi), fun i hi => (h.chains i hi).trans (h'.chains i hi)⟩

theorem mono {ranges' chains' : Nat} (h : SameFirst ranges' chains' r r') (hranges : ranges ≤ ranges')
    (hchains : chains ≤ chains') : SameFirst ranges chains r r' :=
  ⟨fun i hi => h.ranges i (Nat.lt_of_lt_of_le hi hranges), fun i hi => h.chains i (Nat.lt_of_lt_of_le hi hchains)⟩

theorem set (hsame : SameFirst ranges chains r r') (h : Handle) (a : Anchor) :
    SameFirst ranges chains (r.set h a) (r'.set h a) := by
  constructor
  · intro i hi
    cases a <;> simp only [Records.set, modifyRange, modifyChain, List.getElem?_modify, hsame.ranges i hi]
  · intro i hi
    cases a <;> simp only [Records.set, modifyRange, modifyChain, List.getElem?_modify, hsame.chains i hi]

theorem setAll (hsame : SameFirst ranges chains r r') (h : Handle) (as : List Anchor) :
    SameFirst ranges chains (setAll h as r) (setAll h as r') := by
  induction as generalizing r r' with
  | nil => exact hsame
  | cons a as ih => exact ih (hsame.set h a)

theorem handlerCount (h : SameFirst ranges chains r r') {range : Nat} (hrange : range < ranges) :
    r.handlerCount range = r'.handlerCount range := by
  rw [Records.handlerCount, h.ranges range hrange, Records.handlerCount]

theorem hasElse (h : SameFirst ranges chains r r') {chain : Nat} (hchain : chain < chains) :
    r.hasElse chain = r'.hasElse chain := by
  rw [Records.hasElse, h.chains chain hchain, Records.hasElse]

end SameFirst

theorem sameFirst_modifyRange {range : Nat} (hrange : ranges ≤ range) (f : GuardedRange → GuardedRange) :
    SameFirst ranges chains (r.modifyRange range f) r := by
  refine ⟨fun i hi => ?_, fun _ _ => rfl⟩
  exact List.getElem?_modify_ne f _ (Nat.ne_of_gt (Nat.lt_of_lt_of_le hi hrange))

theorem sameFirst_modifyChain {chain : Nat} (hchain : chains ≤ chain) (f : Chain → Chain) :
    SameFirst ranges chains (r.modifyChain chain f) r := by
  refine ⟨fun _ _ => rfl, fun i hi => ?_⟩
  exact List.getElem?_modify_ne f _ (Nat.ne_of_gt (Nat.lt_of_lt_of_le hi hchain))

theorem sameFirst_addRange (hranges : ranges ≤ r.ranges.length) : SameFirst ranges chains r.addRange r :=
  ⟨fun _ hi => List.getElem?_append_left (Nat.lt_of_lt_of_le hi hranges), fun _ _ => rfl⟩

theorem sameFirst_addChain (test : Handle) (hchains : chains ≤ r.chains.length) :
    SameFirst ranges chains (r.addChain test) r :=
  ⟨fun _ _ => rfl, fun _ hi => List.getElem?_append_left (Nat.lt_of_lt_of_le hi hchains)⟩

theorem sameFirst_set (ha : a.Later ranges chains) : SameFirst ranges chains (r.set h a) r := by
  cases a with
  | tryStart | tryEnd | handlerStart => exact sameFirst_modifyRange ha _
  | branchNext | ifEnd => exact sameFirst_modifyChain ha _

theorem sameFirst_setAll {as : List Anchor} (has : ∀ a ∈ as, a.Later ranges chains) :
    SameFirst ranges chains (setAll h as r) r := by
  induction as generalizing r with
  | nil => exact .refl r
  | cons a as ih =>
    have hrest := ih (r := r.set h a) fun x hx => has x (List.mem_cons_of_mem a hx)
    exact hrest.trans (sameFirst_set (has a List.mem_cons_self))

end

end Records

namespace Builder

open Records

variable {s b b' : Builder} {a : Anchor}

/-- The anchor names a field of a record that was not there in `s` and is there now. -/
structure Younger (s b : Builder) (a : Anchor) : Prop where
  later : a.Later s.ranges.size s.chains.size
  field : (b.field? a).isSome

/-- No instruction has been added. The old records are as they were, and what waited still does, in
front of what has come to wait since. -/
structure Waiting (s b : Builder) : Prop where
  size : b.arena.size = s.arena.size
  records : SameFirst s.ranges.size s.chains.size b.records s.records
  pending : ∃ anchors, b.pending.toList = s.pending.toList ++ anchors ∧ ∀ a ∈ anchors, s.Younger b a

/-- Instructions have been added. The old records are as they are when what waited is pointed at the
first of them, and what waits now has come to wait since. -/
structure Pointed (s b : Builder) : Prop where
  size : s.arena.size < b.arena.size
  records : SameFirst s.ranges.size s.chains.size b.records (setAll s.arena.size s.pending.toList s.records)
  pending : ∀ a ∈ b.pending, s.Younger b a

/-- What has happened since `s` has spared the records that were there. -/
structure Spares (s b : Builder) : Prop where
  ranges : s.ranges.size ≤ b.ranges.size
  chains : s.chains.size ≤ b.chains.size
  fields : ∀ a, (s.field? a).isSome → (b.field? a).isSome
  cases : s.Waiting b ∨ s.Pointed b

theorem Younger.mono (h : s.Younger b a) (hfields : ∀ a, (b.field? a).isSome → (b'.field? a).isSome) :
    s.Younger b' a := ⟨h.later, hfields a h.field⟩

namespace Spares

theorem refl (b : Builder) : b.Spares b where
  ranges := Nat.le_refl _
  chains := Nat.le_refl _
  fields _ ha := ha
  cases := .inl ⟨rfl, .refl _, [], (List.append_nil _).symm, by simp⟩

/-- What is younger than the later of two builders is younger than the earlier. -/
theorem younger (h : s.Spares b) (ha : b.Younger b' a) : s.Younger b' a :=
  ⟨ha.later.mono h.ranges h.chains, ha.field⟩

theorem trans (h : s.Spares b) (h' : b.Spares b') : s.Spares b' where
  ranges := Nat.le_trans h.ranges h'.ranges
  chains := Nat.le_trans h.chains h'.chains
  fields a ha := h'.fields a (h.fields a ha)
  cases := by
    rcases h.cases with hwait | hpoint
    · obtain ⟨anchors, hpending, hyounger⟩ := hwait.pending
      rcases h'.cases with hwait' | hpoint'
      · obtain ⟨anchors', hpending', hyounger'⟩ := hwait'.pending
        refine .inl ⟨hwait'.size.trans hwait.size, ?_, anchors ++ anchors', ?_, fun a ha => ?_⟩
        · exact (hwait'.records.mono h.ranges h.chains).trans hwait.records
        · rw [hpending', hpending, List.append_assoc]
        · rcases List.mem_append.1 ha with ha | ha
          · exact (hyounger a ha).mono h'.fields
          · exact h.younger (hyounger' a ha)
      · refine .inr ⟨hwait.size ▸ hpoint'.size, ?_, fun a ha => h.younger (hpoint'.pending a ha)⟩
        -- what has come to wait in between is pointed there, too, and is of other records
        have hboth : setAll b.arena.size b.pending.toList b.records =
            setAll s.arena.size anchors (setAll s.arena.size s.pending.toList b.records) := by
          rw [hwait.size, hpending, setAll, List.foldl_append]
          rfl
        have hold := hpoint'.records.mono h.ranges h.chains
        rw [hboth] at hold
        refine hold.trans ?_
        exact (sameFirst_setAll fun a ha => (hyounger a ha).later).trans (hwait.records.setAll _ _)
    · have hlater : ∀ a ∈ b.pending.toList, a.Later s.ranges.size s.chains.size := fun a ha =>
        (hpoint.pending a (Array.mem_toList_iff.1 ha)).later
      rcases h'.cases with hwait' | hpoint'
      · obtain ⟨anchors', hpending', hyounger'⟩ := hwait'.pending
        refine .inr ⟨hwait'.size ▸ hpoint.size, ?_, fun a ha => ?_⟩
        · exact (hwait'.records.mono h.ranges h.chains).trans hpoint.records
        · rw [← Array.mem_toList_iff, hpending', List.mem_append, Array.mem_toList_iff] at ha
          rcases ha with ha | ha
          · exact (hpoint.pending a ha).mono h'.fields
          · exact h.younger (hyounger' a ha)
      · refine .inr ⟨Nat.lt_trans hpoint.size hpoint'.size, ?_, fun a ha => h.younger (hpoint'.pending a ha)⟩
        exact (hpoint'.records.mono h.ranges h.chains).trans ((sameFirst_setAll hlater).trans hpoint.records)

/-- An anchor without a field has waited from the beginning. -/
theorem stray (h : s.Spares b) (ha : a ∈ b.pending) (hnone : b.field? a = none) :
    a ∈ s.pending ∧ s.field? a = none := by
  have hnot (hyounger : s.Younger b a) : False := by
    have hfield := hyounger.field
    rw [hnone] at hfield
    cases hfield
  refine ⟨?_, ?_⟩
  · rcases h.cases with hwait | hpoint
    · obtain ⟨anchors, hpending, hyounger⟩ := hwait.pending
      rw [← Array.mem_toList_iff, hpending, List.mem_append, Array.mem_toList_iff] at ha
      exact ha.resolve_right fun ha => hnot (hyounger a ha)
    · exact (hnot (hpoint.pending a ha)).elim
  · refine Option.not_isSome_iff_eq_none.1 fun hsome => ?_
    have hfield := h.fields a hsome
    rw [hnone] at hfield
    cases hfield

/-! ### Old records -/

theorem handlerCount_eq (h : s.Spares b) {range : Nat} (hrange : range < s.ranges.size) :
    handlerCount b range = handlerCount s range := by
  rw [handlerCount_records, handlerCount_records]
  rcases h.cases with hwait | hpoint
  · exact hwait.records.handlerCount hrange
  · rw [hpoint.records.handlerCount hrange, handlerCount_setAll]

theorem hasElse_eq (h : s.Spares b) {chain : Nat} (hchain : chain < s.chains.size) :
    hasElse b chain = hasElse s chain := by
  have hrecords (b : Builder) : hasElse b chain = b.records.hasElse chain := by
    simp [hasElse, Records.hasElse, records]
  rw [hrecords, hrecords]
  rcases h.cases with hwait | hpoint
  · exact hwait.records.hasElse hchain
  · rw [hpoint.records.hasElse hchain, hasElse_setAll]

/-! ### Steps -/

/-- Only records that have been added are changed, and no field is moved. -/
theorem reshaped (h : s.Spares b) (h' : Reshaped b b')
    (hsame : SameFirst s.ranges.size s.chains.size b'.records b.records) (hranges : b.ranges.size ≤ b'.ranges.size)
    (hchains : b.chains.size ≤ b'.chains.size) : s.Spares b' := by
  have hfields (a : Anchor) (ha : (b.field? a).isSome) : (b'.field? a).isSome := by
    rw [field?_eq] at ha ⊢
    exact (h'.fields a).isSome ha
  refine ⟨Nat.le_trans h.ranges hranges, Nat.le_trans h.chains hchains, fun a ha => hfields a (h.fields a ha), ?_⟩
  rcases h.cases with hwait | hpoint
  · obtain ⟨anchors, hpending, hyounger⟩ := hwait.pending
    refine .inl ⟨by rw [h'.arena, hwait.size], hsame.trans hwait.records, anchors, by rw [h'.pending, hpending], ?_⟩
    exact fun a ha => (hyounger a ha).mono hfields
  · refine .inr ⟨by rw [h'.arena]; exact hpoint.size, hsame.trans hpoint.records, fun a ha => ?_⟩
    exact (hpoint.pending a (h'.pending ▸ ha)).mono hfields

theorem modifyRange (h : s.Spares b) {range : Nat} (hrange : s.ranges.size ≤ range)
    {f : GuardedRange → GuardedRange} (hf : RangeKeeps f) : s.Spares (b.modifyRange range f) := by
  refine h.reshaped (reshaped_modifyRange range hf) ?_ (by simp [Builder.modifyRange]) (Nat.le_refl _)
  rw [records_modifyRange]
  exact sameFirst_modifyRange hrange f

theorem modifyChain (h : s.Spares b) {chain : Nat} (hchain : s.chains.size ≤ chain) {f : Chain → Chain}
    (hf : ChainKeeps f) : s.Spares (b.modifyChain chain f) := by
  refine h.reshaped (reshaped_modifyChain chain hf) ?_ (Nat.le_refl _) (by simp [Builder.modifyChain])
  rw [records_modifyChain]
  exact sameFirst_modifyChain hchain f

theorem withRange (h : s.Spares b) : s.Spares b.withRange := by
  refine h.reshaped reshaped_withRange ?_ (by simp [Builder.withRange]) (Nat.le_refl _)
  rw [records_withRange]
  exact sameFirst_addRange (by simpa [records] using h.ranges)

theorem withChain (h : s.Spares b) (test : Handle) : s.Spares (b.withChain test) := by
  refine h.reshaped (reshaped_withChain test) ?_ (Nat.le_refl _) (by simp [Builder.withChain])
  rw [records_withChain]
  exact sameFirst_addChain test (by simpa [records] using h.chains)

theorem popped (h : s.Spares b) : s.Spares { b with opened := b.opened.tail } :=
  h.reshaped ⟨rfl, rfl, rfl, fun _ => .inl rfl⟩ (.refl _) (Nat.le_refl _) (Nat.le_refl _)

theorem await (h : s.Spares b) {as : List Anchor} (has : ∀ a ∈ as, s.Younger b a) :
    s.Spares { b with pending := b.pending ++ as } := by
  refine ⟨h.ranges, h.chains, h.fields, ?_⟩
  rcases h.cases with hwait | hpoint
  · obtain ⟨anchors, hpending, hyounger⟩ := hwait.pending
    refine .inl ⟨hwait.size, hwait.records, anchors ++ as, ?_, fun a ha => ?_⟩
    · rw [Array.toList_appendList, hpending, List.append_assoc]
    · exact ((List.mem_append.1 ha).elim (hyounger a) (has a)).mono fun _ h => h
  · refine .inr ⟨hpoint.size, hpoint.records, fun a ha => ?_⟩
    rw [← Array.mem_toList_iff, Array.toList_appendList, List.mem_append, Array.mem_toList_iff] at ha
    exact (ha.elim (hpoint.pending a) (has a)).mono fun _ h => h

theorem awaitOne (h : s.Spares b) (ha : s.Younger b a) : s.Spares { b with pending := b.pending.push a } :=
  h.await fun _ hx => List.mem_singleton.1 hx ▸ ha

end Spares

theorem Added.spares {op : Opcode} {ops : List Opcode} (h : Added op ops b b') : b.Spares b' where
  ranges := by
    have hlength := congrArg (fun r => r.ranges.length) h.records
    rw [length_ranges_setAll] at hlength
    exact Nat.le_of_eq hlength.symm
  chains := by
    have hlength := congrArg (fun r => r.chains.length) h.records
    rw [length_chains_setAll] at hlength
    exact Nat.le_of_eq hlength.symm
  fields a ha := by
    rw [field?_eq, h.records, isSome_field?_setAll, ← field?_eq]
    exact ha
  cases := .inr ⟨by rw [h.size]; omega, h.records ▸ .refl _, by simp [h.pending]⟩

/-! ### Steps that nothing else can stop -/

section
variable {α β : Type} {x y : Assembly α} {f : α → Assembly β} {P Q : α → Builder → Prop} {T : β → Builder → Prop}

/-- From `b` the computation ends well and spares what was there in `s`, or it faults on an anchor
that waited in `s` and names no field there. -/
def Sure (s : Builder) (x : Assembly α) (b : Builder) (Q : α → Builder → Prop) : Prop :=
  (∃ a b', x.run b = .ok a b' ∧ s.Spares b' ∧ Q a b') ∨
    ∃ a ∈ s.pending, s.field? a = none ∧ ∃ b', x.run b = .error (.internal (.malformedAnchor a)) b'

namespace Sure

theorem of_run (hrun : x.run b = y.run b') (h : Sure s y b' Q) : Sure s x b Q := by
  rw [Sure, hrun]
  exact h

theorem of_ok {a : α} (hrun : x.run b = .ok a b') (hspares : s.Spares b') (h : Q a b') : Sure s x b Q :=
  .inl ⟨a, b', hrun, hspares, h⟩

theorem bind (hx : Sure s x b Q) (hf : ∀ a b', s.Spares b' → Q a b' → Sure s (f a) b' T) : Sure s (x >>= f) b T := by
  rcases hx with ⟨a, b', hrun, hspares, hQ⟩ | ⟨a, ha, hnone, b', hrun⟩
  · exact (hf a b' hspares hQ).of_run (bind_ok hrun f)
  · exact .inr ⟨a, ha, hnone, b', bind_error hrun f⟩

theorem mono (hx : Sure s x b Q) (h : ∀ a b', s.Spares b' → Q a b' → P a b') : Sure s x b P :=
  hx.imp_left fun ⟨a, b', hrun, hspares, hQ⟩ => ⟨a, b', hrun, hspares, h a b' hspares hQ⟩

/-- What spares all that there is spares what was there before. -/
theorem lift (hs : s.Spares b) (hx : Sure b x b Q) : Sure s x b fun a b' => b.Spares b' ∧ Q a b' := by
  rcases hx with ⟨a, b', hrun, hspares, hQ⟩ | ⟨a, ha, hnone, b', hrun⟩
  · exact .inl ⟨a, b', hrun, hs.trans hspares, hspares, hQ⟩
  · obtain ⟨ha', hnone'⟩ := hs.stray ha hnone
    exact .inr ⟨a, ha', hnone', b', hrun⟩

end Sure

theorem sure_append (op : Opcode) (b : Builder) : Sure b (append op) b fun _ b' => b'.opened = b.opened := by
  by_cases hwaits : b.Waits
  · obtain ⟨b', hrun, h⟩ := append_added hwaits op
    exact .of_ok hrun h.spares h.opened
  · exact .inr (append_fault hwaits op)

theorem sure_jumpOut (b : Builder) : Sure b jumpOut b fun _ b' => b'.opened = b.opened := by
  by_cases hfalls : b.fallsThrough = true
  · have hrun : jumpOut.run b = (append (.goto 0) >>= fun h => pure (some h)).run b := by
      rw [jumpOut, get_bind, if_pos hfalls, map_eq_pure_bind]
    refine .of_run hrun ((sure_append (.goto 0) b).bind fun h b' hspares hopened => ?_)
    exact .of_ok rfl hspares hopened
  · refine .of_ok (a := none) ?_ (.refl b) rfl
    rw [jumpOut, get_bind, if_neg hfalls, EStateM.run_pure]

end

end Builder

end BlockAssembler
