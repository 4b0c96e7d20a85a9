import BlockAssembler.Proofs.Replacement

/-! Records under new handles. Whatever pointed at one of the instructions that have been
replaced points at the replacement, and nothing else moves: so the records of what is left are
the old ones with every handle renumbered. -/

namespace BlockAssembler

/-! ### New handles -/

def Handler.renumber (f : Handle → Handle) (k : Handler) : Handler :=
  { k with start := k.start.map f, skip := k.skip.map f }

def GuardedRange.renumber (f : Handle → Handle) (g : GuardedRange) : GuardedRange :=
  ⟨g.start.map f, g.join.map f, g.skip.map f, g.handlers.map (Handler.renumber f)⟩

def ChainBranch.renumber (f : Handle → Handle) (br : ChainBranch) : ChainBranch :=
  ⟨f br.test, br.skip.map f, br.next.map f⟩

def Chain.renumber (f : Handle → Handle) (c : Chain) : Chain :=
  ⟨c.branches.map (ChainBranch.renumber f), c.join.map f, c.hasElse⟩

def Link.renumber (f : Handle → Handle) (link : Link) : Link := ⟨link.jump.map f, link.target.map f⟩

/-! The fields of anchors and the jumps of a structure may get their new handles differently. -/

def Handler.remap (f g : Handle → Handle) (k : Handler) : Handler :=
  { k with start := k.start.map f, skip := k.skip.map g }

def GuardedRange.remap (f g : Handle → Handle) (r : GuardedRange) : GuardedRange :=
  ⟨r.start.map f, r.join.map f, r.skip.map g, r.handlers.map (Handler.remap f g)⟩

def ChainBranch.remap (f g : Handle → Handle) (br : ChainBranch) : ChainBranch :=
  ⟨g br.test, br.skip.map g, br.next.map f⟩

def Chain.remap (f g : Handle → Handle) (c : Chain) : Chain :=
  ⟨c.branches.map (ChainBranch.remap f g), c.join.map f, c.hasElse⟩

def Link.remap (f g : Handle → Handle) (link : Link) : Link := ⟨link.jump.map g, link.target.map f⟩

namespace Records

def renumber (f : Handle → Handle) (r : Records) : Records :=
  ⟨r.ranges.map (GuardedRange.renumber f), r.chains.map (Chain.renumber f)⟩

/-- New handles: `f` in the fields of anchors, `g` for the jumps. -/
def remap (f g : Handle → Handle) (r : Records) : Records :=
  ⟨r.ranges.map (GuardedRange.remap f g), r.chains.map (Chain.remap f g)⟩

/-- The jumps that the records lay down. -/
def links (r : Records) : List Link :=
  r.ranges.flatMap GuardedRange.links ++ r.chains.flatMap Chain.links

variable {f g : Handle → Handle} {r : Records} {a : Anchor} {h x : Handle}

/-- A field of the renumbered records names the new handle. -/
theorem field?_renumber (f : Handle → Handle) (r : Records) (a : Anchor) :
    (r.renumber f).field? a = (r.field? a).map (Option.map f) := by
  cases a with
  | tryStart range | tryEnd range =>
    simp only [field?, renumber, List.getElem?_map, Option.map_map]
    rfl
  | handlerStart range handler =>
    simp only [field?, renumber, List.getElem?_map]
    cases r.ranges[range]? with
    | none => rfl
    | some g => cases hk : g.handlers[handler]? <;> simp [GuardedRange.renumber, hk, Handler.renumber]
  | branchNext chain branch =>
    simp only [field?, renumber, List.getElem?_map]
    cases r.chains[chain]? with
    | none => rfl
    | some c => cases hbr : c.branches[branch]? <;> simp [Chain.renumber, hbr, ChainBranch.renumber]
  | ifEnd chain =>
    simp only [field?, renumber, List.getElem?_map, Option.map_map]
    rfl

theorem map_modify_eq {α β : Type} {u : α → β} {v : α → α} {xs : List α} {i : Nat}
    (h : ∀ x, xs[i]? = some x → u (v x) = u x) : (xs.modify i v).map u = xs.map u := by
  apply List.ext_getElem?
  intro j
  rw [List.getElem?_map, List.getElem?_map, List.getElem?_modify]
  by_cases hij : i = j
  · subst hij
    cases hx : xs[i]? with
    | none => rfl
    | some x => simp [h x hx]
  · cases xs[j]? <;> simp [hij]

theorem array_map_modify_eq {α β : Type} {u : α → β} {v : α → α} {xs : Array α} {i : Nat}
    (h : ∀ x, xs[i]? = some x → u (v x) = u x) : (xs.modify i v).map u = xs.map u := by
  rw [← Array.toList_inj, Array.toList_map, Array.toList_map, Array.toList_modify]
  exact map_modify_eq fun x hx => h x (by rwa [← Array.getElem?_toList])

/-- A field may be moved between handles that get the same new one. -/
theorem remap_set (ha : r.field? a = some (some x)) (hf : f x = f h) : (r.set h a).remap f g = r.remap f g := by
  cases a with
  | tryStart range =>
    refine congrArg (Records.mk · _) (map_modify_eq fun g hg => ?_)
    have hstart : g.start = some x := by simpa [field?, hg] using ha
    simp [GuardedRange.remap, hstart, hf]
  | tryEnd range =>
    refine congrArg (Records.mk · _) (map_modify_eq fun g hg => ?_)
    have hjoin : g.join = some x := by simpa [field?, hg] using ha
    simp [GuardedRange.remap, hjoin, hf]
  | handlerStart range handler =>
    refine congrArg (Records.mk · _) (map_modify_eq fun y hy => ?_)
    have hhandlers : (y.handlers.modify handler fun k => { k with start := some h }).map (Handler.remap f g)
        = y.handlers.map (Handler.remap f g) := array_map_modify_eq fun k hk => by
      have hstart : k.start = some x := by simpa [field?, hy, hk] using ha
      simp [Handler.remap, hstart, hf]
    simp only [GuardedRange.remap, hhandlers]
  | branchNext chain branch =>
    refine congrArg (Records.mk _) (map_modify_eq fun c hc => ?_)
    have hbranches : (c.branches.modify branch fun br => { br with next := some h }).map (ChainBranch.remap f g)
        = c.branches.map (ChainBranch.remap f g) := array_map_modify_eq fun br hbr => by
      have hnext : br.next = some x := by simpa [field?, hc, hbr] using ha
      simp [ChainBranch.remap, hnext, hf]
    simp only [Chain.remap, hbranches]
  | ifEnd chain =>
    refine congrArg (Records.mk _) (map_modify_eq fun c hc => ?_)
    have hjoin : c.join = some x := by simpa [field?, hc] using ha
    simp [Chain.remap, hjoin, hf]

theorem remap_setAll {as : List Anchor} (has : ∀ a ∈ as, ∃ x, r.field? a = some (some x) ∧ f x = f h) :
    (setAll h as r).remap f g = r.remap f g := by
  induction as generalizing r with
  | nil => rfl
  | cons a as ih =>
    obtain ⟨x, hx, hfx⟩ := has a (by simp)
    refine Eq.trans (ih fun b hb => ?_) (remap_set hx hfx)
    by_cases hab : b = a
    · subst hab
      exact ⟨h, field?_set_self (by simp [hx]), rfl⟩
    · rw [field?_set_of_ne hab]
      exact has b (by simp [hb])

/-! ### Links -/

theorem links_remap (f g : Handle → Handle) (r : Records) : (r.remap f g).links = r.links.map (Link.remap f g) := by
  have hranges (x : GuardedRange) : (x.remap f g).links = x.links.map (Link.remap f g) := by
    simp only [GuardedRange.links, GuardedRange.remap, Array.toList_map, List.filterMap_map, List.map_cons,
      List.map_filterMap]
    refine congrArg₂ List.cons rfl (List.filterMap_congr fun k _ => ?_)
    cases hskip : k.skip <;> simp [Handler.remap, Link.remap, hskip]
  have hbranches (join : Option Handle) (br : ChainBranch) :
      (br.remap f g).links (join.map f) = (br.links join).map (Link.remap f g) := by
    cases hskip : br.skip <;> simp [ChainBranch.links, ChainBranch.remap, Link.remap, hskip]
  have hchains (c : Chain) : (c.remap f g).links = c.links.map (Link.remap f g) := by
    simp only [Chain.links, Chain.remap, Array.toList_map, List.flatMap_map, List.map_flatMap]
    exact List.flatMap_congr fun br _ => hbranches c.join br
  simp only [links, remap, List.flatMap_map, List.map_append, List.map_flatMap, hranges, hchains]

theorem links_renumber (f : Handle → Handle) (r : Records) :
    (r.renumber f).links = r.links.map (Link.renumber f) := links_remap f f r

/-! ### Handles that stay -/

theorem map_eq_self {α : Type} {u : α → α} {xs : List α} (h : ∀ x ∈ xs, u x = x) : xs.map u = xs := by
  rw [List.map_congr_left h, List.map_id']

theorem array_map_eq_self {α : Type} {u : α → α} {xs : Array α} (h : ∀ x ∈ xs, u x = x) : xs.map u = xs := by
  rw [← Array.toList_inj, Array.toList_map]
  exact map_eq_self fun x hx => h x (by simpa using hx)

theorem option_map_eq_self {α : Type} {u : α → α} {o : Option α} (h : ∀ x, o = some x → u x = x) :
    o.map u = o := by
  cases o with
  | none => rfl
  | some x => rw [Option.map_some, h x rfl]

theorem mem_links_range {g : GuardedRange} (hg : g ∈ r.ranges) {link : Link} (hlink : link ∈ g.links) :
    link ∈ r.links := List.mem_append_left _ (List.mem_flatMap.2 ⟨g, hg, hlink⟩)

theorem mem_links_chain {c : Chain} (hc : c ∈ r.chains) {link : Link} (hlink : link ∈ c.links) :
    link ∈ r.links := List.mem_append_right _ (List.mem_flatMap.2 ⟨c, hc, hlink⟩)

/-- Records stay as they are if their fields and their jumps keep their handles. -/
theorem remap_eq_self (hfield : ∀ a x, r.field? a = some (some x) → f x = x)
    (hjump : ∀ link ∈ r.links, ∀ x, link.jump = some x → g x = x) : r.remap f g = r := by
  have hranges : r.ranges.map (GuardedRange.remap f g) = r.ranges := map_eq_self fun y hy => by
    obtain ⟨i, hi⟩ := List.mem_iff_getElem?.1 hy
    have hstart : y.start.map f = y.start := option_map_eq_self fun x hx =>
      hfield (.tryStart i) x (by simp [field?, hi, hx])
    have hjoin : y.join.map f = y.join := option_map_eq_self fun x hx =>
      hfield (.tryEnd i) x (by simp [field?, hi, hx])
    have hskip : y.skip.map g = y.skip := option_map_eq_self fun x hx =>
      hjump ⟨y.skip, y.join⟩ (mem_links_range hy (by simp [GuardedRange.links])) x hx
    have hhandlers : y.handlers.map (Handler.remap f g) = y.handlers := array_map_eq_self fun k hk => by
      obtain ⟨j, hj⟩ := Array.mem_iff_getElem?.1 hk
      have hstart : k.start.map f = k.start := option_map_eq_self fun x hx =>
        hfield (.handlerStart i j) x (by simp [field?, hi, hj, hx])
      have hskip : k.skip.map g = k.skip := option_map_eq_self fun x hx =>
        hjump ⟨some x, y.join⟩ (mem_links_range hy (by
          simp only [GuardedRange.links, List.mem_cons, List.mem_filterMap]
          exact .inr ⟨k, by simpa using hk, by simp [hx]⟩)) x rfl
      rw [Handler.remap, hstart, hskip]
    rw [GuardedRange.remap, hstart, hjoin, hskip, hhandlers]
  have hchains : r.chains.map (Chain.remap f g) = r.chains := map_eq_self fun c hc => by
    obtain ⟨i, hi⟩ := List.mem_iff_getElem?.1 hc
    have hjoin : c.join.map f = c.join := option_map_eq_self fun x hx =>
      hfield (.ifEnd i) x (by simp [field?, hi, hx])
    have hlinks {br : ChainBranch} (hbr : br ∈ c.branches) {link : Link} (hlink : link ∈ br.links c.join) :
        link ∈ r.links := mem_links_chain hc (List.mem_flatMap.2 ⟨br, by simpa using hbr, hlink⟩)
    have hbranches : c.branches.map (ChainBranch.remap f g) = c.branches := array_map_eq_self fun br hbr => by
      obtain ⟨j, hj⟩ := Array.mem_iff_getElem?.1 hbr
      have htest : g br.test = br.test :=
        hjump ⟨some br.test, br.next⟩ (hlinks hbr (by simp [ChainBranch.links])) _ rfl
      have hnext : br.next.map f = br.next := option_map_eq_self fun x hx =>
        hfield (.branchNext i j) x (by simp [field?, hi, hj, hx])
      have hskip : br.skip.map g = br.skip := option_map_eq_self fun x hx =>
        hjump ⟨some x, c.join⟩ (hlinks hbr (by simp [ChainBranch.links, hx])) x rfl
      rw [ChainBranch.remap, htest, hnext, hskip]
    rw [Chain.remap, hjoin, hbranches]
  rw [remap, hranges, hchains]

/-- Fields that are pointed at one instruction get it as their new handle, and the jumps stay. -/
theorem setAll_eq_remap {as : List Anchor} (hh : f h = h) (has : ∀ a ∈ as, ∃ x, r.field? a = some (some x) ∧ f x = h)
    (hkept : ∀ a ∉ as, ∀ x, r.field? a = some (some x) → f x = x) : setAll h as r = r.remap f id := by
  have hmoved : (setAll h as r).remap f id = r.remap f id := remap_setAll fun a ha => by
    obtain ⟨x, hx, hf⟩ := has a ha
    exact ⟨x, hx, by rw [hf, hh]⟩
  rw [← hmoved, remap_eq_self]
  · intro a x hx
    by_cases hmem : a ∈ as
    · obtain ⟨y, hy, -⟩ := has a hmem
      rw [field?_setAll_of_mem hmem (by simp [hy])] at hx
      obtain rfl : h = x := Option.some.inj (Option.some.inj hx)
      exact hh
    · rw [field?_setAll_of_not_mem hmem] at hx
      exact hkept a hmem x hx
  · exact fun _ _ _ _ => rfl

theorem remap_remap (f g f' g' : Handle → Handle) (r : Records) :
    (r.remap f g).remap f' g' = r.remap (f' ∘ f) (g' ∘ g) := by
  have hhandler : Handler.remap f' g' ∘ Handler.remap f g = Handler.remap (f' ∘ f) (g' ∘ g) := by
    funext k
    simp [Handler.remap]
  have hrange : GuardedRange.remap f' g' ∘ GuardedRange.remap f g = GuardedRange.remap (f' ∘ f) (g' ∘ g) := by
    funext y
    simp [GuardedRange.remap, hhandler]
  have hbranch : ChainBranch.remap f' g' ∘ ChainBranch.remap f g = ChainBranch.remap (f' ∘ f) (g' ∘ g) := by
    funext br
    simp [ChainBranch.remap]
  have hchain : Chain.remap f' g' ∘ Chain.remap f g = Chain.remap (f' ∘ f) (g' ∘ g) := by
    funext c
    simp [Chain.remap, hbranch]
  simp only [remap, List.map_map, hrange, hchain]

/-- The jumps may be left as they are if none of them gets a new handle, and only then. -/
theorem remap_eq_renumber_iff :
    r.remap f id = r.renumber f ↔ ∀ link ∈ r.links, ∀ x, link.jump = some x → f x = x := by
  constructor
  · intro h link hlink x hx
    have hlinks := congrArg links h
    rw [links_remap, links_renumber] at hlinks
    have hjump := congrArg Link.jump (List.map_inj_left.1 hlinks link hlink)
    simpa [Link.remap, Link.renumber, hx] using hjump.symm
  · intro h
    have hjumps : (r.remap f id).remap id f = r.remap f id := remap_eq_self (fun _ _ _ => rfl) fun link hlink x hx => by
      rw [links_remap] at hlink
      obtain ⟨old, hold, rfl⟩ := List.mem_map.1 hlink
      exact h old hold x (by simpa [Link.remap] using hx)
    rw [← hjumps, remap_remap]
    rfl

end Records

namespace Builder

variable {b b' : Builder} {count : Nat} {op : Opcode}

theorem links_eq (b : Builder) : b.links = b.records.links := rfl

/-- Where a handle goes when the last instructions are replaced. -/
def kept (count size h : Nat) : Handle := if h + count < size then h else size

namespace Replaced

/-- The records of what is left are the old ones with every handle renumbered. -/
theorem records_eq (h : Replaced count op b b') (hb : b.Intact)
    (hjumps : ∀ link ∈ b.links, ∀ x : Nat, link.jump = some x → x + count < b.arena.size) :
    b'.records = b.records.renumber (kept count b.arena.size) := by
  obtain ⟨as, hrecords, has⟩ := h.records
  have hsize : kept count b.arena.size b.arena.size = b.arena.size := by
    rw [kept]
    split <;> rfl
  have hkept : ∀ link ∈ b.records.links, ∀ x, link.jump = some x → kept count b.arena.size x = x :=
    fun link hlink x hx => if_pos (hjumps link hlink x hx)
  rw [hrecords, ← Records.remap_eq_renumber_iff.2 hkept]
  refine Records.setAll_eq_remap hsize (fun a ha => ?_) fun a ha (x : Nat) hx => ?_
  · obtain ⟨x, hx, hmem⟩ := (has a).1 ha
    obtain ⟨y, hy, hle⟩ := hb.listed a x hmem
    exact ⟨y, hy, if_neg (by omega)⟩
  · exact if_pos (Nat.lt_of_not_le fun hle => ha ((has a).2 ⟨x, hle, hb.lists a x hx⟩))

/-! ### The sequence that is left -/

theorem getElem?_code (h : Replaced count op b b') (hcount : count ≤ b.arena.size) (i : Nat) :
    b'.code[i]? = if i + count ≤ b.arena.size then some (kept count b.arena.size i) else none := by
  rw [← Array.getElem?_toList, h.code, List.getElem?_append, List.length_range]
  by_cases hlt : i + count < b.arena.size
  · rw [if_pos (by omega), if_pos (by omega), kept, if_pos hlt, List.getElem?_range (by omega)]
  · rw [if_neg (by omega), kept, if_neg hlt]
    by_cases heq : i + count = b.arena.size
    · rw [if_pos (by omega), show i - (b.arena.size - count) = 0 by omega]
      rfl
    · rw [if_neg (by omega), List.getElem?_eq_none (by rw [List.length_singleton]; omega)]

/-- Everything that pointed at a removed instruction is found at the place of the replacement. -/
theorem position_kept (h : Replaced count op b b') (hcount : count ≤ b.arena.size) (x : Nat) :
    b'.position (kept count b.arena.size x) = min x (b.arena.size - count) := by
  refine h.arranged.position_eq ?_
  rw [h.getElem?_code hcount, if_pos (by omega)]
  by_cases hlt : x + count < b.arena.size
  · rw [Nat.min_eq_left (by omega)]
  · rw [Nat.min_eq_right (by omega), kept, kept, if_neg hlt, if_neg (by omega)]

theorem opcode?_of_lt (h : Replaced count op b b') {x : Nat} (hx : x < b.arena.size) :
    b'.opcode? x = b.opcode? x :=
  opcode?_of_stored h.stored hx

theorem opcode?_replacement (h : Replaced count op b b') : b'.opcode? b.arena.size = some op :=
  opcode?_size_of_stored h.stored

end Replaced

/-! ### Targets -/

/-- What a link has to land on is named by a field. -/
theorem exists_field_of_target {link : Link} (hlink : link ∈ b.links) {t : Handle} (ht : link.target = some t) :
    ∃ a, b.records.field? a = some (some t) := by
  rcases Sturdy.mem_links_cases.1 hlink with ⟨g, hg, rfl⟩ | ⟨g, hg, k, hk, h, hh, rfl⟩ | ⟨c, hc, br, hbr, rfl⟩ |
    ⟨c, hc, br, hbr, h, hh, rfl⟩
  · obtain ⟨i, hi⟩ := Array.mem_iff_getElem?.1 hg
    exact ⟨.tryEnd i, by simpa [Records.field?, records, hi] using ht⟩
  · obtain ⟨i, hi⟩ := Array.mem_iff_getElem?.1 hg
    exact ⟨.tryEnd i, by simpa [Records.field?, records, hi] using ht⟩
  · obtain ⟨i, hi⟩ := Array.mem_iff_getElem?.1 hc
    obtain ⟨j, hj⟩ := Array.mem_iff_getElem?.1 hbr
    exact ⟨.branchNext i j, by simpa [Records.field?, records, hi, hj] using ht⟩
  · obtain ⟨i, hi⟩ := Array.mem_iff_getElem?.1 hc
    exact ⟨.ifEnd i, by simpa [Records.field?, records, hi] using ht⟩

/-- What a field names has been allocated. -/
theorem Intact.lt_of_field (hb : b.Intact) {a : Anchor} {h : Nat} (ha : b.records.field? a = some (some h)) :
    h < b.arena.size := lt_of_mem_references (hb.lists a h ha)

theorem Intact.lt_of_target (hb : b.Intact) {link : Link} (hlink : link ∈ b.links) {t : Nat}
    (ht : link.target = some t) : t < b.arena.size := by
  obtain ⟨a, ha⟩ := exists_field_of_target hlink ht
  exact hb.lt_of_field ha

theorem Intact.lt_of_handler (hb : b.Intact) {g : GuardedRange} (hg : g ∈ b.ranges) {k : Handler}
    (hk : k ∈ g.handlers) {start : Nat} (hstart : k.start = some start) : start < b.arena.size := by
  obtain ⟨i, hi⟩ := Array.mem_iff_getElem?.1 hg
  obtain ⟨j, hj⟩ := Array.mem_iff_getElem?.1 hk
  exact hb.lt_of_field (a := .handlerStart i j) (by simp [Records.field?, records, hi, hj, hstart])

/-! ### The kinds -/

/-- The end of a body is left alone, or it is a return of `null` that is replaced. -/
theorem dropNull_cases (hb : b.Intact) (h : dropNull.run b = .ok () b') :
    b.returnsNull = false ∧ b' = b ∨ b.returnsNull = true ∧ Replaced 2 .voidReturn b b' := by
  cases hnull : b.returnsNull with
  | false =>
    rw [dropNull_kept hnull] at h
    cases h
    exact .inl ⟨rfl, rfl⟩
  | true =>
    obtain ⟨b'', hrun, htail⟩ := dropNull_replaced hb hnull
    rw [hrun] at h
    cases h
    exact .inr ⟨rfl, htail.replaced hb (two_le_size_of_returnsNull hb hnull)⟩

theorem adjust_cases (hb : b.Intact) {kind : BlockKind} (h : (adjust kind).run b = .ok true b') :
    (kind = .function ∨ b.returnsNull = false) ∧ b' = b ∨
      kind ≠ .function ∧ b.returnsNull = true ∧ Replaced 2 .voidReturn b b' := by
  have hdrop (hkind : kind ≠ .function) (hrun : dropNull.run b = .ok () b') :
      (kind = .function ∨ b.returnsNull = false) ∧ b' = b ∨
        kind ≠ .function ∧ b.returnsNull = true ∧ Replaced 2 .voidReturn b b' :=
    (dropNull_cases hb hrun).imp (fun h => ⟨.inr h.1, h.2⟩) fun h => ⟨hkind, h⟩
  cases kind with
  | function =>
    cases h
    exact .inl ⟨.inl rfl, rfl⟩
  | module =>
    obtain ⟨_, b'', hrun, h⟩ := bind_eq_ok h
    cases h
    exact hdrop (by simp) hrun
  | method =>
    rw [adjust, get_bind] at h
    split at h
    · cases h
    · obtain ⟨_, b'', hrun, h⟩ := bind_eq_ok h
      cases h
      exact hdrop (by simp) hrun

end Builder

end BlockAssembler
