import BlockAssembler.Block.Tail
import BlockAssembler.Proofs.Draft.Torn
import BlockAssembler.Proofs.Faults

/-! Replacing the end of a sequence. What is taken out is neither a jump nor named by any
field afterwards: every instruction lists the fields that point at it, and these are pointed
at the replacement. So the records stay as complete as they were. -/

namespace BlockAssembler

/-! ### Moving a field -/

theorem Chain.torn_moveNext {c : Chain} {j : Nat} {br : ChainBranch} (hbr : c.branches[j]? = some br)
    (hsome : br.next ≠ none) (h : Handle) :
    ({ c with branches := c.branches.modify j fun br => { br with next := some h } } : Chain).Torn
      ↔ c.Torn := by
  simp only [Torn, lastBranch, Array.size_modify, Array.getElem?_modify]
  constructor
  · rintro ⟨i, x, hi, hnone, hlt⟩
    by_cases hij : j = i
    · rw [if_pos hij] at hi
      obtain ⟨y, -, rfl⟩ := Option.map_eq_some_iff.1 hi
      cases hnone
    · rw [if_neg hij] at hi
      exact ⟨i, x, hi, hnone, hlt⟩
  · rintro ⟨i, x, hi, hnone, hlt⟩
    have hij : j ≠ i := by
      rintro rfl
      obtain rfl := Option.some.inj (hbr.symm.trans hi)
      exact hsome hnone
    exact ⟨i, x, by rw [if_neg hij, hi], hnone, hlt⟩

section
variable {ops : List Opcode} {isOpen : Prop} {g : GuardedRange} {c : Chain}

theorem RangeSound.moveHandler (hg : RangeSound ops isOpen g) (n : Nat) (h : Handle) :
    RangeSound ops isOpen { g with handlers := g.handlers.modify n fun k => { k with start := some h } } where
  start := hg.start
  skip hne := hg.skip fun he => hne (by simp [he])
  jump := hg.jump
  entries k hk := by
    dsimp only at hk
    rcases mem_array_modify hk with hmem | ⟨k, hmem, rfl⟩
    · exact hg.entries k hmem
    · rfl
  jumps k hk := by
    dsimp only at hk
    rcases mem_array_modify hk with hmem | ⟨k, hmem, rfl⟩
    · exact hg.jumps k hmem
    · exact hg.jumps k hmem
  closed hn := by
    obtain ⟨hne, hjoin⟩ := hg.closed hn
    exact ⟨fun he => hne (by simpa using congrArg Array.size he), hjoin⟩

theorem ChainSound.moveNext (hc : ChainSound ops isOpen c) {j : Nat} {br : ChainBranch}
    (hbr : c.branches[j]? = some br) (hsome : br.next ≠ none) (h : Handle) :
    ChainSound ops isOpen
      { c with branches := c.branches.modify j fun br => { br with next := some h } } where
  branches he := hc.branches (by simpa using congrArg Array.size he)
  tests x hx := by
    dsimp only at hx
    rcases mem_array_modify hx with hmem | ⟨x, hmem, rfl⟩
    · exact hc.tests x hmem
    · exact hc.tests x hmem
  jumps x hx := by
    dsimp only at hx
    rcases mem_array_modify hx with hmem | ⟨x, hmem, rfl⟩
    · exact hc.jumps x hmem
    · exact hc.jumps x hmem
  closed hn hskips := hc.closed hn (by rwa [Records.hasSkips_modifyNext c j (some h)] at hskips)
  nexts hn x hx hnone := by
    rw [Chain.torn_moveNext hbr hsome]
    dsimp only at hx
    rcases mem_array_modify hx with hmem | ⟨x, hmem, rfl⟩
    · exact hc.nexts hn x hmem hnone
    · cases hnone

end

namespace Records

variable {ops : List Opcode} {r : Records} {a : Anchor} {h x : Handle}

theorem forall_mem_modify {α : Type} {P : α → Prop} {l : List α} {n : Nat} {f : α → α}
    (hl : ∀ y ∈ l, P y) (hf : ∀ y, l[n]? = some y → P (f y)) : ∀ y ∈ l.modify n f, P y := by
  intro y hy
  obtain ⟨i, hi⟩ := List.mem_iff_getElem?.1 hy
  have hold : ∀ (i : Nat) (z : α), l[i]? = some z → i ≠ n → P z :=
    fun _ z hz _ => hl z (List.mem_of_getElem? hz)
  exact Draft.forall_getElem?_modify (P := fun _ y => P y) hold hf i y hi

/-- A field that already points at an instruction may point at another one. -/
theorem Complete.set (hr : r.Complete ops) (ha : r.field? a = some (some x)) (h : Handle) :
    (r.set h a).Complete ops := by
  cases a with
  | tryStart range =>
    refine ⟨forall_mem_modify hr.ranges fun g hg => ?_, hr.chains⟩
    have hsound := hr.ranges g (List.mem_of_getElem? hg)
    exact ⟨rfl, hsound.skip, hsound.jump, hsound.entries, hsound.jumps, hsound.closed⟩
  | tryEnd range =>
    refine ⟨forall_mem_modify hr.ranges fun g hg => ?_, hr.chains⟩
    have hsound := hr.ranges g (List.mem_of_getElem? hg)
    exact hsound.endRange (hsound.closed id).1
  | handlerStart range handler =>
    refine ⟨forall_mem_modify hr.ranges fun g hg => ?_, hr.chains⟩
    exact (hr.ranges g (List.mem_of_getElem? hg)).moveHandler handler h
  | branchNext chain branch =>
    refine ⟨hr.ranges, forall_mem_modify hr.chains fun c hc => ?_⟩
    obtain ⟨br, hbr, hnext⟩ : ∃ br, c.branches[branch]? = some br ∧ br.next = some x := by
      simpa [field?, hc] using ha
    exact (hr.chains c (List.mem_of_getElem? hc)).moveNext hbr (by simp [hnext]) h
  | ifEnd chain =>
    refine ⟨hr.ranges, forall_mem_modify hr.chains fun c hc => ?_⟩
    have hsound := hr.chains c (List.mem_of_getElem? hc)
    exact ⟨hsound.branches, hsound.tests, hsound.jumps, fun _ _ => rfl, hsound.nexts⟩

theorem torn_set (ha : r.field? a = some (some x)) (h : Handle) : (r.set h a).Torn ↔ r.Torn := by
  cases a with
  | tryStart range | tryEnd range | handlerStart range handler => exact Iff.rfl
  | branchNext chain branch =>
    obtain ⟨c, hc, br, hbr, hnext⟩ : ∃ c, r.chains[chain]? = some c ∧
        ∃ br, c.branches[branch]? = some br ∧ br.next = some x := by
      simpa [field?, Option.bind_eq_some_iff] using ha
    rw [← or_false r.Torn]
    refine Draft.exists_mem_modify hc ?_
    rw [or_false, Chain.torn_moveNext hbr (by simp [hnext])]
  | ifEnd chain =>
    obtain ⟨c, hc, -⟩ : ∃ c, r.chains[chain]? = some c ∧ c.join = some x := by simpa [field?] using ha
    rw [← or_false r.Torn]
    refine Draft.exists_mem_modify hc ?_
    rw [or_false]
    exact Iff.rfl

/-- Fields that point at instructions go on doing so when others are moved. -/
theorem exists_field?_set {b : Anchor} {y : Handle} (hb : r.field? b = some (some y)) (h : Handle)
    (a : Anchor) : ∃ y', (r.set h a).field? b = some (some y') := by
  by_cases heq : b = a
  · subst heq
    exact ⟨h, field?_set_self (by simp [hb])⟩
  · exact ⟨y, by rw [field?_set_of_ne heq, hb]⟩

theorem Complete.setAll {as : List Anchor} (hr : r.Complete ops)
    (has : ∀ a ∈ as, ∃ x, r.field? a = some (some x)) (h : Handle) :
    (Records.setAll h as r).Complete ops ∧ ((Records.setAll h as r).Torn ↔ r.Torn) := by
  induction as generalizing r with
  | nil => exact ⟨hr, Iff.rfl⟩
  | cons a as ih =>
    obtain ⟨x, hx⟩ := has a (by simp)
    have htail : ∀ b ∈ as, ∃ y, (r.set h a).field? b = some (some y) := by
      intro b hb
      obtain ⟨y, hy⟩ := has b (by simp [hb])
      exact exists_field?_set hy h a
    obtain ⟨hcomplete, htorn⟩ := ih (hr.set hx h) htail
    exact ⟨hcomplete, htorn.trans (torn_set hx h)⟩

end Records

namespace Builder

variable {b : Builder}

/-! ### Taking instructions out -/

theorem redirectAll_run (removed replacement : Handle) (as : List Anchor) (b : Builder)
    (hf : ∀ a ∈ as, (b.records.field? a).isSome) :
    ∃ b', (redirectAll removed replacement as).run b = .ok () b' ∧ SettledAt replacement as b b' :=
  settledAt_of_steps rfl (fun _ _ => rfl) as b hf

/-- What is left when the instructions `hs` have been taken out and everything that named one
of them has been pointed at `n`. -/
structure Removed (n : Handle) (hs : List Handle) (b b' : Builder) : Prop where
  records : ∃ as, b'.records = Records.setAll n as b.records ∧
    ∀ a, a ∈ as ↔ ∃ h ∈ hs, a ∈ b.references h
  references : ∀ i, i ∉ hs → i ≠ n → b'.references i = b.references i
  cleared : ∀ h ∈ hs, b'.references h = #[]
  moved : (b'.references n).toList = (b.references n).toList ++ hs.flatMap fun h => (b.references h).toList
  stored : b'.stored = b.stored
  alive : ∀ i, b'.isAlive i = true ↔ b.isAlive i = true ∧ i ∉ hs
  code : b'.code = b.code
  opened : b'.opened = b.opened
  pending : b'.pending = b.pending

theorem Removed.size {n : Handle} {hs : List Handle} {b' : Builder} (h : Removed n hs b b') :
    b'.arena.size = b.arena.size := by
  simpa [Builder.stored] using congrArg List.length h.stored

theorem Removed.nil (n : Handle) (b : Builder) : Removed n [] b b where
  records := ⟨[], rfl, by simp⟩
  references _ _ _ := rfl
  cleared := by simp
  moved := by simp
  stored := rfl
  alive := by simp
  code := rfl
  opened := rfl
  pending := rfl

theorem Removed.cons {n h : Handle} {hs : List Handle} {b' b'' : Builder} (hn : n ∉ hs) (hh : h ∉ hs)
    (hne : n ≠ h) (h₁ : Removed n [h] b b') (h₂ : Removed n hs b' b'') : Removed n (h :: hs) b b'' where
  records := by
    obtain ⟨as, hrecords, has⟩ := h₁.records
    obtain ⟨as', hrecords', has'⟩ := h₂.records
    refine ⟨as ++ as', ?_, fun a => ?_⟩
    · rw [hrecords', hrecords, Records.setAll, Records.setAll, Records.setAll, List.foldl_append]
    · have hsame : (∃ i ∈ hs, a ∈ b'.references i) ↔ ∃ i ∈ hs, a ∈ b.references i := by
        refine exists_congr fun i => and_congr_right fun hi => ?_
        rw [h₁.references i (by rintro hmem; obtain rfl := List.mem_singleton.1 hmem; exact hh hi)
          (by rintro rfl; exact hn hi)]
      rw [List.mem_append, has, has', hsame]
      simp
  references i hi hne := by
    rw [List.mem_cons, not_or] at hi
    rw [h₂.references i hi.2 hne, h₁.references i (by simpa using hi.1) hne]
  cleared := List.forall_mem_cons.2 ⟨by rw [h₂.references h hh hne.symm, h₁.cleared h (by simp)], h₂.cleared⟩
  moved := by
    have hrest : (hs.flatMap fun i => (b'.references i).toList) = hs.flatMap fun i => (b.references i).toList :=
      List.flatMap_congr fun i hi => by
        rw [h₁.references i (by rintro hmem; obtain rfl := List.mem_singleton.1 hmem; exact hh hi)
          (by rintro rfl; exact hn hi)]
    rw [h₂.moved, h₁.moved, hrest, List.flatMap_singleton, List.flatMap_cons, List.append_assoc]
  stored := h₂.stored.trans h₁.stored
  alive i := by
    rw [h₂.alive, h₁.alive]
    simp [and_assoc]
  code := h₂.code.trans h₁.code
  opened := h₂.opened.trans h₁.opened
  pending := h₂.pending.trans h₁.pending

/-- A cell behind the removal of the instruction `h`, which the fields `as` named. -/
def removedCell (n h : Handle) (as : Array Anchor) (i : Handle) (c : Cell) : Cell :=
  if h = i then { c with references := #[], alive := false }
  else if n = i then { c with references := c.references ++ as } else c

theorem Removed.of_cells {n h : Handle} {b' : Builder} (hne : n ≠ h) (hn : n < b.arena.size)
    (hcell : ∀ i : Nat, b'.arena[i]? = b.arena[i]?.map (removedCell n h (b.references h) i))
    (hrecords : b'.records = Records.setAll n (b.references h).toList b.records) (hcode : b'.code = b.code)
    (hopened : b'.opened = b.opened) (hpending : b'.pending = b.pending) : Removed n [h] b b' where
  records := ⟨(b.references h).toList, hrecords, by simp⟩
  references i hi hin := by
    have hhi : h ≠ i := fun heq => hi (by simp [heq])
    rw [Builder.references, Builder.references, hcell]
    cases b.arena[i]? <;> simp [removedCell, hhi, Ne.symm hin]
  cleared i hi := by
    obtain rfl := List.mem_singleton.1 hi
    rw [Builder.references, hcell]
    cases b.arena[i]? <;> simp [removedCell]
  moved := by
    have hold : b.references n = b.arena[n].references := by
      rw [Builder.references, Array.getElem?_eq_getElem hn]
      rfl
    rw [hold, Builder.references, hcell, Array.getElem?_eq_getElem hn]
    simp [removedCell, hne.symm]
  stored := by
    apply List.ext_getElem?
    intro i
    rw [Builder.stored, Builder.stored, List.getElem?_map, List.getElem?_map, Array.getElem?_toList,
      Array.getElem?_toList, hcell]
    cases b.arena[i]? with
    | none => rfl
    | some c => by_cases hhi : h = i <;> by_cases hni : n = i <;> simp [removedCell, hhi, hni]
  alive i := by
    have hmem : i ∈ [h] ↔ h = i := by rw [List.mem_singleton, eq_comm]
    rw [isAlive, isAlive, hcell, hmem]
    cases b.arena[i]? with
    | none => simp
    | some c => by_cases hhi : h = i <;> by_cases hni : n = i <;> simp [removedCell, hhi, hni]
  code := hcode
  opened := hopened
  pending := hpending

/-- One instruction is taken out. -/
theorem removeOne_run {n h : Handle} (hne : n ≠ h) (hn : n < b.arena.size)
    (hf : ∀ a ∈ b.references h, (b.records.field? a).isSome) :
    ∃ b', (do
        modify (·.clearReferences h)
        redirectAll h n (b.references h).toList
        remove h : Assembly Unit).run b = .ok () b' ∧ Removed n [h] b b' := by
  obtain ⟨b₂, hrun, hsettled⟩ := redirectAll_run h n (b.references h).toList (b.clearReferences h)
    (fun a ha => hf a (by simpa using ha))
  have hcell (i : Handle) : b₂.arena[i]? = b.arena[i]?.map fun c =>
      if h = i then { c with references := #[] }
      else if n = i then { c with references := c.references ++ b.references h } else c := by
    rw [hsettled.arena, clearReferences, modifyCell, Array.getElem?_modify, Array.getElem?_modify]
    by_cases hhi : h = i
    · subst hhi
      simp [hne]
    · by_cases hni : n = i <;> simp [hhi, hni]
  have hempty : (b₂.references h).isEmpty = true := by
    rw [references, hcell]
    cases b.arena[h]? <;> simp
  refine ⟨b₂.modifyCell h fun c => { c with alive := false }, ?_, .of_cells hne hn (fun i => ?_)
    hsettled.records hsettled.code hsettled.opened hsettled.pending⟩
  · rw [modify_bind, bind_ok hrun, remove, get_bind, bind_ok (ensure_run hempty _), EStateM.run_modify]
  · rw [modifyCell, Array.getElem?_modify, hcell]
    by_cases hhi : h = i <;> cases b.arena[i]? <;> simp [removedCell, hhi]

theorem removeAll_run {n : Handle} (hs : List Handle) (hn : n ∉ hs) (hnodup : hs.Nodup) (b : Builder)
    (hsize : n < b.arena.size)
    (hf : ∀ h ∈ hs, ∀ a ∈ b.references h, (b.records.field? a).isSome) :
    ∃ b', (removeAll n hs).run b = .ok () b' ∧ Removed n hs b b' := by
  induction hs generalizing b with
  | nil => exact ⟨b, rfl, .nil n b⟩
  | cons h hs ih =>
    rw [List.mem_cons, not_or] at hn
    rw [List.nodup_cons] at hnodup
    obtain ⟨b₁, hrun₁, hremoved₁⟩ := removeOne_run hn.1 hsize (hf h (by simp))
    obtain ⟨b₂, hrun₂, hremoved₂⟩ := ih hn.2 hnodup.2 b₁ (hremoved₁.size ▸ hsize) fun i hi a ha => by
      obtain ⟨as, hrecords, -⟩ := hremoved₁.records
      rw [hremoved₁.references i (by rintro hmem; obtain rfl := List.mem_singleton.1 hmem; exact hnodup.1 hi)
        (by rintro rfl; exact hn.2 hi)] at ha
      rw [hrecords, Records.isSome_field?_setAll]
      exact hf i (by simp [hi]) a ha
    refine ⟨b₂, ?_, Removed.cons hn.2 hnodup.1 hn.1 hremoved₁ hremoved₂⟩
    rw [removeAll, get_bind, ← hrun₂]
    refine Eq.trans ?_ (bind_ok hrun₁ fun _ => removeAll n hs)
    simp only [bind_assoc]

/-! ### Replacing the last instructions -/

theorem stored_eq (b : Builder) : b.stored = b.draft.opcodes := by simp [stored, draft, Draft.opcodes]

/-- The handles of the last instructions. -/
def lastHandles (b : Builder) (count : Nat) : List Handle := b.code.toList.drop (b.code.size - count)

theorem extract_code (b : Builder) (count : Nat) :
    (b.code.extract (b.code.size - count) b.code.size).toList = b.lastHandles count := by
  rw [Array.toList_extract, List.extract_eq_take_drop, List.take_of_length_le (by simp), lastHandles]

/-- The last instructions have been replaced by one, which lists what they have listed. -/
structure TailReplaced (count : Nat) (op : Opcode) (b b' : Builder) : Prop where
  records : ∃ as, b'.records = Records.setAll b.arena.size as b.records ∧
    ∀ a, a ∈ as ↔ ∃ h ∈ b.lastHandles count, a ∈ b.references h
  references : ∀ h, h ∉ b.lastHandles count → h ≠ b.arena.size → b'.references h = b.references h
  cleared : ∀ h ∈ b.lastHandles count, b'.references h = #[]
  moved : (b'.references b.arena.size).toList = (b.lastHandles count).flatMap fun h => (b.references h).toList
  stored : b'.stored = b.stored ++ [op]
  code : b'.code.toList = b.code.toList.take (b.code.size - count) ++ [b.arena.size]
  alive : ∀ h, b'.isAlive h = true ↔ (b.isAlive h = true ∨ h = b.arena.size) ∧ h ∉ b.lastHandles count
  opened : b'.opened = b.opened
  pending : b'.pending = b.pending

/-- The builder with the replacement, which is not part of the sequence yet. -/
def grown (count : Nat) (op : Opcode) (b : Builder) : Builder :=
  { b with arena := b.arena.push ⟨op, #[], true⟩, code := b.code.take (b.code.size - count) }

theorem references_grown (count : Nat) (op : Opcode) (h : Nat) :
    (b.grown count op).references h = b.references h := by
  by_cases hh : h = b.arena.size <;> simp [grown, references, Array.getElem?_push, hh]

theorem stored_grown (count : Nat) (op : Opcode) : (b.grown count op).stored = b.stored ++ [op] := by
  simp [stored, grown]

theorem isAlive_grown (count : Nat) (op : Opcode) (h : Nat) :
    (b.grown count op).isAlive h = true ↔ b.isAlive h = true ∨ h = b.arena.size := by
  by_cases hh : h = b.arena.size <;> simp [grown, isAlive, Array.getElem?_push, hh]

theorem Arranged.replaceTail_run (hb : b.Arranged)
    (hlisted : ∀ h, ∀ a ∈ b.references h, (b.records.field? a).isSome) {count : Nat} (hcount : count ≤ b.code.size)
    (op : Opcode) :
    ∃ b', (replaceTail count op).run b = .ok b.arena.size b' ∧ TailReplaced count op b b' := by
  have hlt {h : Nat} (hh : h ∈ b.lastHandles count) : h < b.arena.size :=
    hb.lt_size (by simpa using List.mem_of_mem_drop hh)
  have hnew : b.arena.size ∉ b.lastHandles count := fun h => Nat.lt_irrefl _ (hlt h)
  have hnodup : (b.lastHandles count).Nodup := hb.nodup.sublist (List.drop_sublist ..)
  have hgrown : b.arena.size < (b.grown count op).arena.size := by simp [grown]
  obtain ⟨b', hrun, hremoved⟩ := removeAll_run _ hnew hnodup (b.grown count op) hgrown fun h _ a ha => by
    rw [references_grown] at ha
    exact hlisted h a ha
  have hallocate : (allocate op).run b = .ok b.arena.size { b with arena := b.arena.push ⟨op, #[], true⟩ } := rfl
  refine ⟨{ b' with code := b'.code.push b.arena.size }, ?_, ?_, ?_, hremoved.cleared, ?_,
    hremoved.stored.trans (stored_grown count op), ?_, fun h => ?_, hremoved.opened, hremoved.pending⟩
  · rw [replaceTail, get_bind, bind_ok (ensure_run hcount _)]
    dsimp only
    rw [extract_code, bind_ok hallocate, modify_bind]
    refine (bind_ok hrun _).trans ?_
    rw [modify_bind, EStateM.run_pure]
  · have hrecords := hremoved.records
    simp only [references_grown] at hrecords
    exact hrecords
  · have hreferences := hremoved.references
    simp only [references_grown] at hreferences
    exact hreferences
  · have hmoved := hremoved.moved
    simp only [references_grown, references_of_le (Nat.le_refl b.arena.size)] at hmoved
    exact hmoved
  · rw [Array.toList_push, hremoved.code, grown]
    simp
  · rw [← isAlive_grown count op]
    exact hremoved.alive h

/-- What is left of an intact builder when its last instructions have been replaced by one. -/
structure Replaced (count : Nat) (op : Opcode) (b b' : Builder) : Prop where
  records : ∃ as, b'.records = Records.setAll b.arena.size as b.records ∧
    ∀ a, a ∈ as ↔ ∃ h : Nat, b.arena.size ≤ h + count ∧ a ∈ b.references h
  stored : b'.stored = b.stored ++ [op]
  code : b'.code.toList = List.range (b.arena.size - count) ++ [b.arena.size]
  alive : ∀ h : Nat, b'.isAlive h = true ↔ h + count < b.arena.size ∨ h = b.arena.size
  opened : b'.opened = b.opened
  pending : b'.pending = b.pending

theorem Replaced.mem_code {count : Nat} {op : Opcode} {b' : Builder} (h : Replaced count op b b') {x : Nat} :
    x ∈ b'.code ↔ x + count < b.arena.size ∨ x = b.arena.size := by
  rw [← Array.mem_toList_iff, h.code, List.mem_append, List.mem_range, List.mem_singleton]
  omega

theorem Replaced.arranged {count : Nat} {op : Opcode} {b' : Builder} (h : Replaced count op b b') : b'.Arranged where
  nodup := by
    rw [h.code]
    refine List.nodup_append.2 ⟨List.nodup_range, by simp, fun x hx y hy => ?_⟩
    rw [List.mem_range] at hx
    rw [List.mem_singleton.1 hy]
    exact Nat.ne_of_lt (by omega)
  alive_iff x := (h.alive x).trans h.mem_code.symm

theorem Intact.lastHandles_eq (hb : b.Intact) (count : Nat) :
    b.lastHandles count = (List.range b.arena.size).drop (b.arena.size - count) := by
  rw [lastHandles, hb.code_eq, Array.size_range, Array.toList_range]

theorem Intact.mem_lastHandles (hb : b.Intact) {count : Nat} (hcount : count ≤ b.arena.size) (h : Nat) :
    h ∈ b.lastHandles count ↔ b.arena.size ≤ h + count ∧ h < b.arena.size := by
  rw [hb.lastHandles_eq, List.mem_iff_getElem?]
  simp only [List.getElem?_drop, List.getElem?_eq_some_iff, List.length_range, List.getElem_range]
  constructor
  · rintro ⟨j, hj, rfl⟩
    omega
  · rintro ⟨hle, hlt⟩
    exact ⟨h - (b.arena.size - count), by omega, by omega⟩

theorem TailReplaced.replaced {count : Nat} {op : Opcode} {b' : Builder} (h : TailReplaced count op b b')
    (hb : b.Intact) (hcount : count ≤ b.arena.size) : Replaced count op b b' where
  records := by
    obtain ⟨as, hrecords, has⟩ := h.records
    refine ⟨as, hrecords, fun a => (has a).trans (exists_congr fun x => ?_)⟩
    rw [hb.mem_lastHandles hcount]
    exact ⟨fun ⟨hx, ha⟩ => ⟨hx.1, ha⟩, fun ⟨hx, ha⟩ => ⟨⟨hx, lt_of_mem_references ha⟩, ha⟩⟩
  stored := h.stored
  code := by
    rw [h.code, hb.code_eq, Array.size_range, Array.toList_range, List.take_range, Nat.min_eq_left (Nat.sub_le ..)]
  alive x := by
    rw [h.alive, hb.mem_lastHandles hcount, isAlive_iff hb]
    constructor
    · rintro ⟨hlt | rfl, hkept⟩
      · exact .inl (by omega)
      · exact .inr rfl
    · rintro (hlt | rfl)
      · exact ⟨.inl (by omega), by omega⟩
      · exact ⟨.inr rfl, by omega⟩
  opened := h.opened
  pending := h.pending

/-! ### Records of what is left -/

theorem complete_records (hp : b.pending = #[]) (hd : b.draft.Sound) (hopened : b.opened = []) :
    b.records.Complete b.stored := by
  have hrecords := draft_of_settled hp
  have hopened' : b.draft.opened = [] := hopened
  refine ⟨fun g hg => ?_, fun c hc => ?_⟩
  · obtain ⟨i, hi⟩ := List.mem_iff_getElem?.1 hg
    rw [stored_eq]
    exact (hd.ranges i g (by rw [hrecords, hi])).weaken List.prefix_rfl (by simp [hopened'])
  · obtain ⟨i, hi⟩ := List.mem_iff_getElem?.1 hc
    rw [stored_eq]
    exact (hd.chains i c (by rw [hrecords, hi])).weaken List.prefix_rfl (by simp [hopened'])

theorem lt_of_jumpAt {h : Nat} (hj : JumpAt b.stored h) : h < b.arena.size := by
  obtain ⟨op, hop, -⟩ := hj
  simpa [stored] using (List.getElem?_eq_some_iff.1 hop).1

theorem Intact.sturdy (hb : b.Intact) (hp : b.pending = #[]) (hd : b.draft.Sound) (hopened : b.opened = []) :
    b.Sturdy where
  complete := complete_records hp hd hopened
  fields a h ha := (isAlive_iff hb h).2 (lt_of_mem_references (hb.lists a h ha))
  jumps h hj := (isAlive_iff hb h).2 (lt_of_jumpAt hj)

/-- Instructions that are no jumps can be replaced. -/
theorem Replaced.sturdy {count : Nat} {op : Opcode} {b' : Builder} (hreplaced : Replaced count op b b')
    (hb : b.Intact) (hp : b.pending = #[]) (hd : b.draft.Sound) (hopened : b.opened = [])
    (htail : ∀ h : Nat, JumpAt b.stored h → h + count < b.arena.size) (hop : op.isJump = false) :
    b'.Sturdy ∧ (b'.records.Torn ↔ b.records.Torn) := by
  obtain ⟨as, hrecords, has⟩ := hreplaced.records
  have hfields : ∀ a ∈ as, ∃ x, b.records.field? a = some (some x) := by
    intro a ha
    obtain ⟨h, -, hmem⟩ := (has a).1 ha
    obtain ⟨x, hx, -⟩ := hb.listed a h hmem
    exact ⟨x, hx⟩
  have hcomplete : b.records.Complete b'.stored := by
    have hold := complete_records hp hd hopened
    have hinit : b.stored <+: b'.stored := ⟨[op], hreplaced.stored.symm⟩
    exact ⟨fun g hg => (hold.ranges g hg).weaken hinit id, fun c hc => (hold.chains c hc).weaken hinit id⟩
  obtain ⟨hcomplete', htorn⟩ := hcomplete.setAll hfields b.arena.size
  rw [← hrecords] at hcomplete' htorn
  refine ⟨⟨hcomplete', fun a h ha => ?_, fun h hj => ?_⟩, htorn⟩
  · rw [hreplaced.alive]
    rw [hrecords] at ha
    by_cases hmem : a ∈ as
    · obtain ⟨x, hx⟩ := hfields a hmem
      rw [Records.field?_setAll_of_mem hmem (by simp [hx])] at ha
      exact .inr (Option.some.inj (Option.some.inj ha)).symm
    · rw [Records.field?_setAll_of_not_mem hmem] at ha
      have hreference := hb.lists a h ha
      have hlt : ¬ b.arena.size ≤ h + count := fun hle => hmem ((has a).2 ⟨h, hle, hreference⟩)
      exact .inl (Nat.lt_of_not_le hlt)
  · rw [hreplaced.alive]
    refine .inl (htail h ?_)
    obtain ⟨x, hx, hjump⟩ := hj
    rw [hreplaced.stored, List.getElem?_append] at hx
    split at hx
    · exact ⟨x, hx, hjump⟩
    · obtain ⟨_, heq⟩ := List.getElem?_eq_some_iff.1 hx
      rw [← heq] at hjump
      simp [hop] at hjump

/-! ### The end of a body -/

theorem opcode?_eq_stored (h : Handle) : b.opcode? h = b.stored[h]? := by
  rw [opcode?_eq, stored_eq]

section
variable {op : Opcode} {b' : Builder} (hstored : b'.stored = b.stored ++ [op])
include hstored

theorem opcode?_of_stored {h : Nat} (hh : h < b.arena.size) : b'.opcode? h = b.opcode? h := by
  rw [opcode?_eq_stored, opcode?_eq_stored, hstored, List.getElem?_append_left (by simpa [stored] using hh)]

theorem opcode?_size_of_stored : b'.opcode? b.arena.size = some op := by
  have hlength : b.stored.length = b.arena.size := by simp [stored]
  rw [opcode?_eq_stored, hstored, ← hlength, List.getElem?_concat_length]

end

/-- A sequence that returns `null` ends like this. -/
theorem stored_of_returnsNull (hb : b.Intact) (hnull : b.returnsNull = true) :
    ∃ ops, b.stored = ops ++ [.aconstNull, .areturn] := by
  obtain ⟨ops, hops⟩ := hb.arranged.returnsNull_iff.1 hnull
  exact ⟨ops, by rw [stored_eq, ← opcodes_eq hb, hops]⟩

theorem two_le_size_of_returnsNull (hb : b.Intact) (hnull : b.returnsNull = true) : 2 ≤ b.arena.size := by
  obtain ⟨ops, hops⟩ := stored_of_returnsNull hb hnull
  have hsize : b.arena.size = ops.length + 2 := by simpa [stored] using congrArg List.length hops
  omega

/-- A final return of `null` is replaced. -/
theorem dropNull_replaced (hb : b.Intact) (hnull : b.returnsNull = true) :
    ∃ b', dropNull.run b = .ok () b' ∧ TailReplaced 2 .voidReturn b b' := by
  have hcount : 2 ≤ b.code.size := by
    rw [hb.code_eq, Array.size_range]
    exact two_le_size_of_returnsNull hb hnull
  have hfields : ∀ h, ∀ a ∈ b.references h, (b.records.field? a).isSome := fun h a ha => by
    obtain ⟨x, hx, -⟩ := hb.listed a h ha
    simp [hx]
  obtain ⟨b', hrun, h⟩ := hb.arranged.replaceTail_run hfields hcount .voidReturn
  exact ⟨b', by rw [dropNull, get_bind, if_pos hnull, bind_ok hrun, EStateM.run_pure], h⟩

/-- Any other end is left alone. -/
theorem dropNull_kept (hnull : b.returnsNull = false) : dropNull.run b = .ok () b := by
  rw [dropNull, get_bind, if_neg (by simp [hnull]), EStateM.run_pure]

/-- Whatever the adjustment of the end does, the structures that are open stay open, and the
records stay as complete as they were. -/
theorem dropNull_run (hb : b.Intact) (hp : b.pending = #[]) (hd : b.draft.Sound) :
    ∃ b', dropNull.run b = .ok () b' ∧ b'.opened = b.opened ∧ b'.pending = #[] ∧ b'.Arranged ∧
      (b.opened = [] → b'.Sturdy ∧ (b'.records.Torn ↔ b.records.Torn)) := by
  cases hnull : b.returnsNull with
  | true =>
    obtain ⟨b', hrun, htail⟩ := dropNull_replaced hb hnull
    have hreplaced := htail.replaced hb (two_le_size_of_returnsNull hb hnull)
    refine ⟨b', hrun, htail.opened, htail.pending.trans hp, hreplaced.arranged, fun hopened => ?_⟩
    refine hreplaced.sturdy hb hp hd hopened (fun h hj => ?_) rfl
    obtain ⟨ops, hops⟩ := stored_of_returnsNull hb hnull
    have hsize : b.arena.size = ops.length + 2 := by simpa [stored] using congrArg List.length hops
    obtain ⟨op, hop, hjump⟩ := hj
    rw [hops, List.getElem?_append] at hop
    split at hop
    · omega
    · next hge =>
      have hend : op = .aconstNull ∨ op = .areturn := by
        simpa using List.mem_of_getElem? hop
      rcases hend with rfl | rfl
      · cases hjump
      · cases hjump
  | false =>
    exact ⟨b, dropNull_kept hnull, rfl, hp, hb.arranged, fun hopened => ⟨hb.sturdy hp hd hopened, Iff.rfl⟩⟩

end Builder

/-- The code only returns, or only returns `null`. -/
def Draft.Trivial (d : Draft) : Prop := d.opcodes = [.voidReturn] ∨ d.opcodes = [.aconstNull, .areturn]

namespace Builder

variable {b : Builder}

theorem isTrivial_iff_opcodes :
    b.isTrivial = true ↔ b.opcodes.toList = [.voidReturn] ∨ b.opcodes.toList = [.aconstNull, .areturn] := by
  rw [isTrivial]
  split
  · next h => simp [h]
  · next h => simp [h]
  · next h₁ h₂ =>
    constructor
    · intro h
      cases h
    · rintro (h | h)
      · exact absurd h h₁
      · exact absurd h h₂

theorem isTrivial_iff (hb : b.Intact) : b.isTrivial = true ↔ b.draft.Trivial := by
  rw [isTrivial_iff_opcodes, opcodes_eq hb, Draft.Trivial]

/-- A method that does nothing is left out, whatever structures are open in it. -/
theorem adjust_trivial (hb : b.Intact) (htrivial : b.draft.Trivial) :
    ∃ b', (adjust .method).run b = .ok false b' := by
  refine ⟨b.withJournal (b.journal.push .emptyBlock), ?_⟩
  rw [adjust, get_bind, if_pos ((isTrivial_iff hb).2 htrivial), note_bind, EStateM.run_pure]

theorem adjust_run (hb : b.Intact) (hp : b.pending = #[]) (hd : b.draft.Sound) (kind : BlockKind)
    (hkept : ¬ (kind = .method ∧ b.draft.Trivial)) :
    ∃ b', (adjust kind).run b = .ok true b' ∧ b'.opened = b.opened ∧ b'.pending = #[] ∧ b'.Arranged ∧
      (b.opened = [] → b'.Sturdy ∧ (b'.records.Torn ↔ b.records.Torn)) := by
  obtain ⟨b', hrun, hend⟩ := dropNull_run hb hp hd
  cases kind with
  | function => exact ⟨b, rfl, rfl, hp, hb.arranged, fun hopened => ⟨hb.sturdy hp hd hopened, Iff.rfl⟩⟩
  | module => exact ⟨b', by rw [adjust, bind_ok hrun, EStateM.run_pure], hend⟩
  | method =>
    have htrivial : ¬ b.isTrivial = true := fun h => hkept ⟨rfl, (isTrivial_iff hb).1 h⟩
    exact ⟨b', by rw [adjust, get_bind, if_neg htrivial, bind_ok hrun, EStateM.run_pure], hend⟩

end Builder

end BlockAssembler
