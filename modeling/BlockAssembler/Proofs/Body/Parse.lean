import BlockAssembler.Proofs.Body.Emission
import BlockAssembler.Proofs.Draft.Torn
import Mathlib.Data.List.Forall2

/-! Every stream that is accepted, leaves nothing open and tears no chain does what a balanced
stream does. The stream is read from its end: what is still to come is a residue, the end of
the body at hand and then, structure by structure, what is left of those that are open. An item
is put in front of the residue behind it. The condition of a chain may open structures that only
the bodies close; its instructions go in front of the chain then. The condition of a
further branch has to close what it opens, since its chain is the innermost structure again
behind it; so it is a balanced stream itself. -/

namespace BlockAssembler

/-- What is left of an open structure behind the body at hand. -/
inductive Frame
  /-- the body is the guarded one -/
  | guarded (catches : Option String) (handler : Body) (more : Catches) (rest : Body)
  /-- the body is that of a handler -/
  | caught (more : Catches) (rest : Body)
  /-- the body is that of a branch -/
  | branch (more : Arms) (rest : Body)
  /-- the body is the final one -/
  | otherwise (rest : Body)

namespace Frame

def items : Frame → List Item
  | .guarded catches handler more rest =>
    .beginCatch catches :: handler.items ++ more.items ++ .endTry :: rest.items
  | .caught more rest => more.items ++ .endTry :: rest.items
  | .branch more rest => more.items ++ .endIf :: rest.items
  | .otherwise rest => .endIf :: rest.items

def Jumpless : Frame → Prop
  | .guarded _ handler more rest => handler.Jumpless ∧ more.Jumpless ∧ rest.Jumpless
  | .caught more rest => more.Jumpless ∧ rest.Jumpless
  | .branch more rest => more.Jumpless ∧ rest.Jumpless
  | .otherwise rest => rest.Jumpless

/-- The frame is what can be left of the structure. -/
def Suits (r : Records) : Frame → Open → Prop
  | guarded .., .range i => r.handlerCount i = 0
  | caught .., .range i => r.handlerCount i ≠ 0
  | branch .., .chain i => r.hasElse i = false
  | otherwise _, .chain i => r.hasElse i = true
  | _, _ => False

variable {r r' : Records} {f : Frame} {i : Nat}

theorem Suits.range_zero (h : f.Suits r (.range i)) (hcount : r.handlerCount i = 0) :
    ∃ catches handler more rest, f = .guarded catches handler more rest := by
  cases f with
  | guarded catches handler more rest => exact ⟨catches, handler, more, rest, rfl⟩
  | caught more rest => exact absurd hcount h
  | branch | otherwise => exact h.elim

theorem Suits.range_pos (h : f.Suits r (.range i)) (hcount : r.handlerCount i ≠ 0) :
    ∃ more rest, f = .caught more rest := by
  cases f with
  | guarded catches handler more rest => exact absurd h hcount
  | caught more rest => exact ⟨more, rest, rfl⟩
  | branch | otherwise => exact h.elim

theorem Suits.chain (h : f.Suits r (.chain i)) (helse : r.hasElse i = false) :
    ∃ more rest, f = .branch more rest := by
  cases f with
  | guarded | caught => exact h.elim
  | branch more rest => exact ⟨more, rest, rfl⟩
  | otherwise rest => cases helse.symm.trans h

theorem Suits.chain_else (h : f.Suits r (.chain i)) (helse : r.hasElse i = true) :
    ∃ rest, f = .otherwise rest := by
  cases f with
  | guarded | caught => exact h.elim
  | branch more rest => cases helse.symm.trans h
  | otherwise rest => exact ⟨rest, rfl⟩

end Frame

/-! ### Records that stay -/

/-- The structure has the same record. -/
def SameRecord (r r' : Records) : Open → Prop
  | .range i => r'.ranges[i]? = r.ranges[i]?
  | .chain i => r'.chains[i]? = r.chains[i]?

section
variable {r r' r'' : Records} {o : Open} {i : Nat}

theorem SameRecord.trans (h : SameRecord r r' o) (h' : SameRecord r' r'' o) : SameRecord r r'' o := by
  cases o with
  | range | chain => exact Eq.trans h' h

theorem Frame.Suits.of_same {f : Frame} (h : f.Suits r' o) (ho : SameRecord r r' o) : f.Suits r o := by
  cases o with
  | range i =>
    have hcount : r'.handlerCount i = r.handlerCount i := by
      rw [Records.handlerCount, Records.handlerCount, show r'.ranges[i]? = r.ranges[i]? from ho]
    cases f <;> simp_all [Suits]
  | chain i =>
    have helse : r'.hasElse i = r.hasElse i := by
      rw [Records.hasElse, Records.hasElse, show r'.chains[i]? = r.chains[i]? from ho]
    cases f <;> simp_all [Suits]

theorem sameRecord_of_ranges {g : GuardedRange → GuardedRange} (hranges : r'.ranges = r.ranges.modify i g)
    (hchains : r'.chains = r.chains) (ho : o ≠ .range i) : SameRecord r r' o := by
  cases o with
  | range j =>
    have hne : i ≠ j := fun heq => ho (by rw [heq])
    simp [SameRecord, hranges, hne]
  | chain j => simp [SameRecord, hchains]

theorem sameRecord_of_chains {c : Chain → Chain} (hranges : r'.ranges = r.ranges)
    (hchains : r'.chains = r.chains.modify i c) (ho : o ≠ .chain i) : SameRecord r r' o := by
  cases o with
  | range j => simp [SameRecord, hranges]
  | chain j =>
    have hne : i ≠ j := fun heq => ho (by rw [heq])
    simp [SameRecord, hchains, hne]

end

namespace Draft

variable {d d' d₁ d₂ : Draft} {item : Item} {items : List Item}

/-- New records come behind those of the open structures. -/
theorem Sound.sameRecord (hs : d.Sound) {o : Open} (ho : o ∈ d.opened) {r : Records} {gs : List GuardedRange}
    {cs : List Chain} (hranges : r.ranges = d.records.ranges ++ gs) (hchains : r.chains = d.records.chains ++ cs) :
    SameRecord d.records r o := by
  cases o with
  | range i =>
    rw [SameRecord, hranges]
    exact List.getElem?_append_left (hs.range_lt i ho)
  | chain i =>
    rw [SameRecord, hchains]
    exact List.getElem?_append_left (hs.chain_lt i ho)

/-! ### Inside a chain -/

mutual

theorem length_opened_of_emit (item : Item) (d d' : Draft) (h : emit item d = .ok d') :
    d'.opened.length = item.level d.opened.length := by
  match item with
  | .op opcode =>
    obtain rfl := emit_op_eq_ok h
    rfl
  | .beginTry =>
    obtain rfl := emit_beginTry_eq_ok h
    rfl
  | .beginCatch catches =>
    obtain ⟨range, outer, -, rfl⟩ := emit_beginCatch_eq_ok h
    simp [Item.level]
  | .endTry =>
    obtain ⟨range, outer, -, -, rfl⟩ := emit_endTry_eq_ok h
    exact List.length_tail
  | .beginIf condition test =>
    obtain ⟨d₁, hcondition, rfl⟩ := emit_beginIf_eq_ok h
    rw [Item.level, ← length_opened_of_emitAll condition d d₁ hcondition]
    rfl
  | .elseIf condition test =>
    obtain ⟨chain, outer, outer', d₁, -, -, hcondition, -, rfl⟩ := emit_elseIf_eq_ok h
    have hlength := length_opened_of_emitAll condition _ d₁ hcondition
    rwa [opened_endBranch] at hlength
  | .beginElse =>
    obtain ⟨chain, outer, -, -, rfl⟩ := emit_beginElse_eq_ok h
    exact congrArg List.length (@opened_endBranch d chain)
  | .endIf =>
    obtain ⟨chain, outer, -, rfl⟩ := emit_endIf_eq_ok h
    rw [opened_endChain]
    exact List.length_tail

theorem length_opened_of_emitAll (items : List Item) (d d' : Draft) (h : emitAll items d = .ok d') :
    d'.opened.length = Item.levelAll items d.opened.length := by
  match items with
  | [] =>
    obtain rfl := emitAll_nil_eq_ok h
    rfl
  | item :: items =>
    obtain ⟨d₁, hitem, hitems⟩ := emitAll_cons_eq_ok h
    rw [length_opened_of_emitAll items d₁ d' hitems, length_opened_of_emit item d d₁ hitem]
    rfl

end

/-- What is open inside `n` structures is all there is, or they lie in a chain that is still open in
the end and has not been continued. -/
def Inside (n : Nat) (continued : Bool) (d d' : Draft) : Prop :=
  d.opened.length = n ∨
    ∃ chain, d.opened[n]? = some (.chain chain) ∧ .chain chain ∈ d'.opened ∧ continued = false

/-- A chain that is open in the end has been open all the time. -/
theorem Sound.mem_opened (hs : d.Sound) (hreach : Reaches d d₁) (hreach' : Reaches d₁ d') {chain : Nat}
    (hopen : .chain chain ∈ d.opened) (hopen' : .chain chain ∈ d'.opened) : .chain chain ∈ d₁.opened := by
  by_contra hended
  have hlt := Nat.lt_of_lt_of_le (hs.chain_lt chain hopen) (Reaches.length_chains_le hreach)
  exact Reaches.not_opened hreach' hlt hended hopen'

namespace Inside

variable {n : Nat} {continued : Bool} {o : Open} {outer : List Open}

/-- The innermost structure lies inside unless it is the chain itself. -/
theorem exists_succ (h : Inside n continued d d') (hopened : d.opened = o :: outer)
    (ho : ∀ chain, o = .chain chain → .chain chain ∈ d'.opened → n = 0 → continued = true) :
    ∃ m, n = m + 1 := by
  refine Nat.exists_eq_succ_of_ne_zero fun hzero => ?_
  subst hzero
  rcases h with hlength | ⟨chain, hchain, hopen, hcontinued⟩
  · rw [hopened] at hlength
    cases hlength
  · rw [hopened] at hchain
    cases hcontinued.symm.trans (ho chain (Option.some.inj hchain) hopen rfl)

theorem head (h : Inside n (item.continues n || Item.continuesAll items (item.level n)) d d') (hs : d.Sound)
    (hitem : emit item d = .ok d₁) (hitems : emitAll items d₁ = .ok d') : Inside n (item.continues n) d d₁ := by
  rcases h with hlength | ⟨chain, hchain, hopen, hcontinued⟩
  · exact .inl hlength
  · refine .inr ⟨chain, hchain, ?_, (Bool.or_eq_false_iff.1 hcontinued).1⟩
    exact hs.mem_opened (reaches_of_emit item d d₁ hitem) (reaches_of_emitAll items d₁ d' hitems)
      (List.mem_of_getElem? hchain) hopen

theorem tail (h : Inside n (item.continues n || Item.continuesAll items (item.level n)) d d') (hs : d.Sound)
    (hitem : emit item d = .ok d₁) (hitems : emitAll items d₁ = .ok d') :
    Inside (item.level n) (Item.continuesAll items (item.level n)) d₁ d' := by
  rcases h with hlength | ⟨chain, hchain, hopen, hcontinued⟩
  · exact .inl (by rw [length_opened_of_emit item d d₁ hitem, hlength])
  · refine .inr ⟨chain, ?_, hopen, (Bool.or_eq_false_iff.1 hcontinued).2⟩
    have hopen₁ := hs.mem_opened (reaches_of_emit item d d₁ hitem) (reaches_of_emitAll items d₁ d' hitems)
      (List.mem_of_getElem? hchain) hopen
    rcases tracks_of_emit item d d₁ hs hitem hchain with hended | ⟨hlevel, -⟩
    · exact absurd hopen₁ hended
    · exact hlevel

end Inside

end Draft

/-! ### Residues -/

/-- What is still to come of a stream: the end of the body at hand, then the open structures. -/
structure Residue where
  body : Body
  frames : List Frame

namespace Residue

def items (k : Residue) : List Item := k.body.items ++ k.frames.flatMap Frame.items

def Jumpless (k : Residue) : Prop := k.body.Jumpless ∧ ∀ f ∈ k.frames, f.Jumpless

/-- The frames are what can be left of the `n` innermost structures. -/
def Closes (k : Residue) (n : Nat) (d : Draft) : Prop :=
  List.Forall₂ (Frame.Suits d.records) k.frames (d.opened.take n)

theorem Closes.exists_cons {k : Residue} {n : Nat} {d : Draft} {o : Open} {outer : List Open}
    (hk : k.Closes (n + 1) d) (hopened : d.opened = o :: outer) :
    ∃ f fs, k.frames = f :: fs ∧ f.Suits d.records o ∧ List.Forall₂ (Frame.Suits d.records) fs (outer.take n) := by
  rw [Closes, hopened, List.take_succ_cons] at hk
  obtain ⟨f, fs, hf, hfs, hframes⟩ := List.forall₂_cons_right_iff.1 hk
  exact ⟨f, fs, hframes, hf, hfs⟩

theorem Jumpless.of_cons {k : Residue} {f : Frame} {fs : List Frame} (h : k.Jumpless) (hframes : k.frames = f :: fs) :
    k.body.Jumpless ∧ f.Jumpless ∧ ∀ f' ∈ fs, f'.Jumpless := by
  obtain ⟨hbody, hjump⟩ := h
  rw [hframes, List.forall_mem_cons] at hjump
  exact ⟨hbody, hjump⟩

end Residue

theorem suits_of_same {r r' : Records} {fs : List Frame} {os : List Open}
    (h : List.Forall₂ (Frame.Suits r') fs os) (hos : ∀ o ∈ os, SameRecord r r' o) :
    List.Forall₂ (Frame.Suits r) fs os := by
  induction h with
  | nil => exact .nil
  | cons hf _ ih =>
    obtain ⟨ho, hos⟩ := List.forall_mem_cons.1 hos
    exact .cons (hf.of_same ho) (ih hos)

namespace Draft

variable {d d' d₁ d₂ : Draft} {item : Item} {items : List Item} {n m : Nat} {clean : Bool}

/-- Whatever residue closes `m` structures behind the step, there is one that closes `n` in front of it
and does the same. -/
def Resumes (n m : Nat) (clean : Bool) (d d' : Draft) : Prop :=
  ∀ k : Residue, k.Closes m d' → ∃ k' : Residue, k'.Closes n d ∧ emitAll k'.items d = emitAll k.items d' ∧
    (clean = true → k.Jumpless → k'.Jumpless)

theorem Resumes.trans {p : Nat} {clean' : Bool} (h : Resumes n m clean d d₁) (h' : Resumes m p clean' d₁ d₂) :
    Resumes n p (clean && clean') d d₂ := by
  intro k hk
  obtain ⟨k₁, hk₁, hemit₁, hclean₁⟩ := h' k hk
  obtain ⟨k₂, hk₂, hemit₂, hclean₂⟩ := h k₁ hk₁
  refine ⟨k₂, hk₂, hemit₂.trans hemit₁, fun hclean hjump => ?_⟩
  obtain ⟨hfirst, hsecond⟩ := Bool.and_eq_true_iff.1 hclean
  exact hclean₂ hfirst (hclean₁ hsecond hjump)

/-- What opens nothing and closes nothing does what a balanced stream does. -/
theorem Resumes.exists_body (h : Resumes 0 0 clean d d') :
    ∃ t : Body, emitAll t.items d = .ok d' ∧ (clean = true → t.Jumpless) := by
  obtain ⟨⟨t, frames⟩, hcloses, hemit, hclean⟩ := h ⟨.nil, []⟩ .nil
  obtain rfl : frames = [] := List.forall₂_nil_right_iff.1 hcloses
  have hitems : Residue.items ⟨t, []⟩ = t.items := List.append_nil _
  rw [hitems] at hemit
  exact ⟨t, hemit, fun hjump => (hclean hjump ⟨trivial, by simp⟩).1⟩

/-- In front of any residue that closes `m` structures, the item is the start of one that closes `n`. -/
def Reads (item : Item) (n m : Nat) (clean : Bool) (d d' : Draft) : Prop :=
  ∀ k : Residue, k.Closes m d' → ∃ k' : Residue, k'.Closes n d ∧ k'.items = item :: k.items ∧
    (clean = true → k.Jumpless → k'.Jumpless)

theorem Reads.resumes (h : Reads item n m clean d d') (hitem : emit item d = .ok d') : Resumes n m clean d d' := by
  intro k hk
  obtain ⟨k', hk', hitems, hclean⟩ := h k hk
  exact ⟨k', hk', by rw [hitems, emitAll_cons hitem], hclean⟩

theorem reads_op (opcode : Opcode) (d : Draft) (n : Nat) :
    Reads (.op opcode) n n (!opcode.isJump) d (d.append opcode) := by
  intro k hk
  refine ⟨⟨.op opcode k.body, k.frames⟩, hk, rfl, fun hclean hjump => ?_⟩
  exact ⟨⟨by simpa using hclean, hjump.1⟩, hjump.2⟩

theorem Sound.reads_beginTry (hs : d.Sound) (n : Nat) :
    Reads .beginTry n (n + 1) true d (d.beginRange.await (.tryStart d.records.ranges.length)) := by
  intro k hk
  obtain ⟨f, fs, hframes, hf, hfs⟩ := hk.exists_cons rfl
  obtain ⟨catches, handler, more, rest, rfl⟩ := hf.range_zero (by
    rw [Records.handlerCount, ranges_beginRange]
    simp)
  refine ⟨⟨.guarded k.body catches handler more rest, fs⟩, ?_, ?_, fun _ hjump => ?_⟩
  · refine suits_of_same hfs fun o ho => ?_
    exact hs.sameRecord (List.mem_of_mem_take ho) ranges_beginRange (List.append_nil _).symm
  · simp [Residue.items, hframes, Body.items, Frame.items]
  · obtain ⟨hbody, hframe, hrest⟩ := hjump.of_cons hframes
    exact ⟨⟨hbody, hframe⟩, hrest⟩

/-- The structures around the innermost one are others. -/
theorem Sound.ne_of_mem_take (hs : d.Sound) {o o' : Open} {outer : List Open} (hopened : d.opened = o :: outer)
    {n : Nat} (ho' : o' ∈ outer.take n) : o' ≠ o := by
  rintro rfl
  have hnodup := hs.nodup
  rw [hopened] at hnodup
  exact (List.nodup_cons.1 hnodup).1 (List.mem_of_mem_take ho')

theorem sameRecord_endGuarded {range : Nat} (catches : Option String) {o : Open} (ho : o ≠ .range range) :
    SameRecord d.records ((d.endGuarded range).beginHandler range catches).records o := by
  refine .trans (sameRecord_of_ranges ranges_endGuarded chains_endGuarded ho) ?_
  exact sameRecord_of_ranges (ranges_beginHandler catches) rfl ho

theorem Sound.reads_beginCatch (hs : d.Sound) {range : Nat} {outer : List Open}
    (hopened : d.opened = .range range :: outer) (catches : Option String) (n : Nat) :
    Reads (.beginCatch catches) (n + 1) (n + 1) true d ((d.endGuarded range).beginHandler range catches) := by
  intro k hk
  obtain ⟨f, fs, hframes, hf, hfs⟩ := hk.exists_cons (o := .range range) (by simpa using hopened)
  have hlt := hs.range_lt range (by simp [hopened])
  obtain ⟨more, rest, rfl⟩ := hf.range_pos (by
    rw [Records.handlerCount, ranges_beginHandler, List.getElem?_modify, ranges_endGuarded, List.getElem?_modify,
      List.getElem?_eq_getElem hlt]
    simp [GuardedRange.addHandler])
  have hframes' : List.Forall₂ (Frame.Suits d.records) fs (outer.take n) :=
    suits_of_same hfs fun o ho => sameRecord_endGuarded catches (hs.ne_of_mem_take hopened ho)
  by_cases hcount : d.records.handlerCount range = 0
  · refine ⟨⟨.nil, .guarded catches k.body more rest :: fs⟩, ?_, ?_, fun _ hjump => ?_⟩
    · rw [Residue.Closes, hopened]
      exact .cons hcount hframes'
    · simp [Residue.items, hframes, Body.items, Frame.items]
    · obtain ⟨hbody, hframe, hrest⟩ := hjump.of_cons hframes
      exact ⟨trivial, List.forall_mem_cons.2 ⟨⟨hbody, hframe⟩, hrest⟩⟩
  · refine ⟨⟨.nil, .caught (.handler catches k.body more) rest :: fs⟩, ?_, ?_, fun _ hjump => ?_⟩
    · rw [Residue.Closes, hopened]
      exact .cons hcount hframes'
    · simp [Residue.items, hframes, Body.items, Frame.items, Catches.items]
    · obtain ⟨hbody, hframe, hrest⟩ := hjump.of_cons hframes
      exact ⟨trivial, List.forall_mem_cons.2 ⟨⟨⟨hbody, hframe.1⟩, hframe.2⟩, hrest⟩⟩

theorem Sound.reads_endTry (hs : d.Sound) {range : Nat} {outer : List Open}
    (hopened : d.opened = .range range :: outer) (hhandlers : d.records.handlerCount range ≠ 0) (n : Nat) :
    Reads .endTry (n + 1) n true d (d.popOpen.await (.tryEnd range)) := by
  intro k hk
  refine ⟨⟨.nil, .caught .done k.body :: k.frames⟩, ?_, rfl, fun _ hjump => ?_⟩
  · rw [Residue.Closes, hopened]
    have houter : (d.popOpen.await (.tryEnd range)).opened = outer := by
      show d.opened.tail = outer
      rw [hopened, List.tail_cons]
    rw [Residue.Closes, houter] at hk
    refine .cons hhandlers (suits_of_same hk fun o ho => ?_)
    exact sameRecord_of_ranges rfl rfl (hs.ne_of_mem_take hopened ho)
  · exact ⟨trivial, List.forall_mem_cons.2 ⟨⟨trivial, hjump.1⟩, hjump.2⟩⟩

/-- The condition is a balanced stream. -/
theorem Sound.reads_beginIf (hs : d.Sound) (condition : Body) (hcondition : emitAll condition.items d = .ok d₁)
    (hclean : clean = true → condition.Jumpless) (test : Test) (n : Nat) :
    Reads (.beginIf condition.items test) n (n + 1) clean d
      ((d₁.append (.branch test 0)).beginChain d₁.size) := by
  obtain ⟨d₂, hcondition', -, hadds⟩ := emits_body condition (at_self d)
  obtain rfl := Except.ok.inj (hcondition.symm.trans hcondition')
  intro k hk
  obtain ⟨f, fs, hframes, hf, hfs⟩ := hk.exists_cons (o := .chain d₁.records.chains.length) rfl
  obtain ⟨more, rest, rfl⟩ := hf.chain (by simp [Records.hasElse, Draft.beginChain, Records.addChain, Chain.fresh])
  refine ⟨⟨.chain condition test k.body more rest, fs⟩, ?_, ?_, fun hclean' hjump => ?_⟩
  · have houter : ((d₁.append (.branch test 0)).opened).take n = d.opened.take n := by
      rw [← hadds.opened]
      rfl
    rw [houter] at hfs
    refine suits_of_same hfs fun o ho => ?_
    have hchains : ((d₁.append (.branch test 0)).beginChain d₁.size).records.chains
        = d.records.chains ++ (condition.chains d.size ++ [.fresh d₁.size]) := by
      rw [← List.append_assoc, ← hadds.chains]
      rfl
    exact hs.sameRecord (List.mem_of_mem_take ho) hadds.ranges hchains
  · simp [Residue.items, hframes, Body.items, Frame.items]
  · obtain ⟨hbody, hframe, hrest⟩ := hjump.of_cons hframes
    exact ⟨⟨hclean hclean', hbody, hframe⟩, hrest⟩

/-- A chain is begun behind its first condition. -/
theorem Sound.resumes_beginChain (hs : d.Sound) (test : Test) (n : Nat) :
    Resumes n (n + 1) true d ((d.append (.branch test 0)).beginChain d.size) :=
  Reads.resumes (hs.reads_beginIf .nil rfl (fun _ => trivial) test n) rfl

theorem Sound.reads_beginElse (hs : d.Sound) {chain : Nat} {outer : List Open}
    (hopened : d.opened = .chain chain :: outer) (helse : d.records.hasElse chain = false) (n : Nat) :
    Reads .beginElse (n + 1) (n + 1) true d
      ((d.endBranch chain).modifyChain chain fun c => { c with hasElse := true }) := by
  intro k hk
  obtain ⟨f, fs, hframes, hf, hfs⟩ := hk.exists_cons (o := .chain chain)
    (by simpa [Draft.modifyChain] using hopened)
  have hlt := hs.chain_lt chain (by simp [hopened])
  obtain ⟨rest, rfl⟩ := hf.chain_else (by
    simp [Records.hasElse, Draft.modifyChain, Records.modifyChain, List.getElem?_eq_getElem hlt])
  refine ⟨⟨.nil, .branch (.otherwise k.body) rest :: fs⟩, ?_, ?_, fun _ hjump => ?_⟩
  · rw [Residue.Closes, hopened]
    refine .cons helse (suits_of_same hfs fun o ho => ?_)
    have hne := hs.ne_of_mem_take hopened ho
    exact (sameRecord_of_chains ranges_endBranch chains_endBranch hne).trans (sameRecord_of_chains rfl rfl hne)
  · simp [Residue.items, hframes, Body.items, Frame.items, Arms.items]
  · obtain ⟨hbody, hframe, hrest⟩ := hjump.of_cons hframes
    exact ⟨trivial, List.forall_mem_cons.2 ⟨⟨hbody, hframe⟩, hrest⟩⟩

theorem Sound.reads_endIf (hs : d.Sound) {chain : Nat} {outer : List Open}
    (hopened : d.opened = .chain chain :: outer) (n : Nat) :
    Reads .endIf (n + 1) n true d (d.popOpen.endChain chain) := by
  intro k hk
  have houter : (d.popOpen.endChain chain).opened = outer := by rw [opened_endChain, popOpen, hopened, List.tail_cons]
  rw [Residue.Closes, houter] at hk
  have hframes : List.Forall₂ (Frame.Suits d.records) k.frames (outer.take n) :=
    suits_of_same hk fun o ho =>
      sameRecord_of_chains ranges_endChain chains_endChain (hs.ne_of_mem_take hopened ho)
  cases helse : d.records.hasElse chain with
  | false =>
    refine ⟨⟨.nil, .branch .done k.body :: k.frames⟩, ?_, rfl, fun _ hjump => ?_⟩
    · rw [Residue.Closes, hopened]
      exact .cons helse hframes
    · exact ⟨trivial, List.forall_mem_cons.2 ⟨⟨trivial, hjump.1⟩, hjump.2⟩⟩
  | true =>
    refine ⟨⟨.nil, .otherwise k.body :: k.frames⟩, ?_, rfl, fun _ hjump => ?_⟩
    · rw [Residue.Closes, hopened]
      exact .cons helse hframes
    · exact ⟨trivial, List.forall_mem_cons.2 ⟨hjump.1, hjump.2⟩⟩

/-! ### Conditions of further branches -/

/-- Only what the condition does matters. -/
theorem emit_elseIf_congr {chain : Nat} {outer : List Open} (hopened : d.opened = .chain chain :: outer)
    (helse : d.records.hasElse chain = false) {condition condition' : List Item}
    (hcondition : emitAll condition' (d.endBranch chain) = emitAll condition (d.endBranch chain)) (test : Test) :
    emit (.elseIf condition' test) d = emit (.elseIf condition test) d := by
  have hchain : d.extendableChain = .ok chain := by simp [extendableChain, hopened, helse]
  rw [emit, emit, hchain]
  show (emitAll condition' (d.endBranch chain) >>= _) = emitAll condition (d.endBranch chain) >>= _
  rw [hcondition]

/-- The condition is a balanced stream. -/
theorem Sound.reads_elseIf (hs : d.Sound) {chain : Nat} {outer : List Open} (condition : Body)
    (hopened : d.opened = .chain chain :: outer) (helse : d.records.hasElse chain = false)
    (hcondition : emitAll condition.items (d.endBranch chain) = .ok d₁)
    (hclean : clean = true → condition.Jumpless) (test : Test) (n : Nat) :
    Reads (.elseIf condition.items test) (n + 1) (n + 1) clean d (d₁.addBranch chain test) := by
  obtain ⟨d₂, hcondition', -, hadds⟩ := emits_body condition (at_self (d.endBranch chain))
  obtain rfl := Except.ok.inj (hcondition.symm.trans hcondition')
  have hopened₁ : d₁.opened = .chain chain :: outer := by rw [hadds.opened, opened_endBranch, hopened]
  have hsame {o : Open} (ho : o ∈ d.opened) (hne : o ≠ .chain chain) :
      SameRecord d.records (d₁.addBranch chain test).records o := by
    have hs₀ : (d.endBranch chain).Sound := hs.endBranch (by simp [hopened])
    refine (sameRecord_of_chains ranges_endBranch chains_endBranch hne).trans ?_
    exact (hs₀.sameRecord (by simpa using ho) hadds.ranges hadds.chains).trans
      (sameRecord_of_chains rfl (chains_addBranch test) hne)
  have hlt := hs.chain_lt chain (by simp [hopened])
  intro k hk
  obtain ⟨f, fs, hframes, hf, hfs⟩ := hk.exists_cons (o := .chain chain) hopened₁
  obtain ⟨c, hc⟩ : ∃ c, d.records.chains[chain]? = some c := ⟨_, List.getElem?_eq_getElem hlt⟩
  obtain ⟨more, rest, rfl⟩ := hf.chain (by
    have hc₁ : d₁.records.chains[chain]? = some (c.endLast d.skip d.jumpOut.size) := by
      rw [hadds.chains, List.getElem?_append_left (by simpa using hlt), chains_endBranch, List.getElem?_modify, hc]
      simp
    simp [Records.hasElse, hc₁, Chain.endLast, hasElse_eq_false hc helse])
  refine ⟨⟨.nil, .branch (.elseIf condition test k.body more) rest :: fs⟩, ?_, ?_, fun hclean' hjump => ?_⟩
  · rw [Residue.Closes, hopened]
    refine .cons helse (suits_of_same hfs fun o ho => ?_)
    exact hsame (by simp [hopened, List.mem_of_mem_take ho]) (hs.ne_of_mem_take hopened ho)
  · simp [Residue.items, hframes, Body.items, Frame.items, Arms.items]
  · obtain ⟨hbody, hframe, hrest⟩ := hjump.of_cons hframes
    exact ⟨trivial, List.forall_mem_cons.2 ⟨⟨⟨hclean hclean', hbody, hframe.1⟩, hframe.2⟩, hrest⟩⟩

/-- A condition in which its own chain is the innermost structure again, and is not continued, is
inside of nothing else. -/
theorem Sound.levelAll_zero (hs : d.Sound) {chain : Nat} {outer outer' : List Open} {condition : List Item}
    (hopened : d.opened = .chain chain :: outer) (hcondition : emitAll condition d = .ok d₁)
    (hopened₁ : d₁.opened = .chain chain :: outer') : Item.levelAll condition 0 = 0 := by
  have hn : d.opened[0]? = some (.chain chain) := by simp [hopened]
  rcases tracks_of_emitAll condition d d₁ hs hcondition hn with hended | ⟨hlevel, -⟩
  · exact absurd (by simp [hopened₁]) hended
  · have hs₁ := Reaches.sound (reaches_of_emitAll condition d d₁ hcondition) hs
    refine ((List.getElem?_inj (i := 0) (by simp [hopened₁]) hs₁.nodup).1 ?_).symm
    rw [hlevel, hopened₁, List.getElem?_cons_zero]

/-- A condition that leaves the open structures as they are keeps the level. -/
theorem Sound.levelAll_of_opened_eq (hs : d.Sound) {continued : Bool} (hinside : Inside n continued d d')
    (hitems : emitAll items d = .ok d₁) (hopened : d₁.opened = d.opened) : Item.levelAll items n = n := by
  rcases hinside with rfl | ⟨chain, hchain, -⟩
  · rw [← length_opened_of_emitAll items d d₁ hitems, hopened]
  · have hs₁ := Reaches.sound (reaches_of_emitAll items d d₁ hitems) hs
    have hlt := (List.getElem?_eq_some_iff.1 hchain).1
    rcases tracks_of_emitAll items d d₁ hs hitems hchain with hended | ⟨hlevel, -⟩
    · exact absurd (hopened ▸ List.mem_of_getElem? hchain) hended
    · refine ((List.getElem?_inj (i := n) (by rwa [hopened]) hs₁.nodup).1 ?_).symm
      rw [hlevel, hopened, hchain]

/-- The condition does what a balanced stream does, and leaves everything open that was open. -/
theorem Sound.resumes_elseIf (hs : d.Sound) {chain : Nat} {outer outer' : List Open} {condition : List Item}
    {test : Test} (hopened : d.opened = .chain chain :: outer) (helse : d.records.hasElse chain = false)
    (hcondition : emitAll condition (d.endBranch chain) = .ok d₁) (hopened₁ : d₁.opened = .chain chain :: outer')
    (hitem : emit (.elseIf condition test) d = .ok (d₁.addBranch chain test))
    (hinside : Inside (n + 1) clean d (d₁.addBranch chain test))
    (hresumes : Resumes 0 (Item.levelAll condition 0) (Item.jumplessAll condition) (d.endBranch chain) d₁) :
    Resumes (n + 1) (Item.levelAll condition (n + 1)) (Item.jumplessAll condition) d (d₁.addBranch chain test) := by
  have hs₀ : (d.endBranch chain).Sound := hs.endBranch (by simp [hopened])
  have hopened₀ : (d.endBranch chain).opened = .chain chain :: outer := by rw [opened_endBranch, hopened]
  rw [hs₀.levelAll_zero hopened₀ hcondition hopened₁] at hresumes
  obtain ⟨body, hbody, hclean⟩ := hresumes.exists_body
  obtain ⟨d₂, hbody', -, hadds⟩ := emits_body body (at_self (d.endBranch chain))
  obtain rfl := Except.ok.inj (hbody.symm.trans hbody')
  have hinside₀ : Inside (n + 1) clean (d.endBranch chain) (d₁.addBranch chain test) := by
    rwa [Inside, opened_endBranch]
  rw [hs₀.levelAll_of_opened_eq hinside₀ hcondition hadds.opened]
  refine (hs.reads_elseIf body hopened helse hbody hclean test n).resumes ?_
  rw [emit_elseIf_congr hopened helse (hbody.trans hcondition.symm) test, hitem]

mutual

theorem resumes_of_emit (item : Item) (d d' : Draft) (hs : d.Sound) (h : emit item d = .ok d')
    (htangled : item.tangled = false) (n : Nat) (hinside : Inside n (item.continues n) d d') :
    Resumes n (item.level n) item.jumpless d d' := by
  match item with
  | .op opcode =>
    obtain rfl := emit_op_eq_ok h
    exact (reads_op opcode d n).resumes rfl
  | .beginTry =>
    obtain rfl := emit_beginTry_eq_ok h
    exact (hs.reads_beginTry n).resumes rfl
  | .beginCatch catches =>
    obtain ⟨range, outer, hopened, rfl⟩ := emit_beginCatch_eq_ok h
    obtain ⟨m, rfl⟩ := hinside.exists_succ hopened (by simp)
    exact (hs.reads_beginCatch hopened catches m).resumes h
  | .endTry =>
    obtain ⟨range, outer, hopened, hhandlers, rfl⟩ := emit_endTry_eq_ok h
    obtain ⟨m, rfl⟩ := hinside.exists_succ hopened (by simp)
    exact (hs.reads_endTry hopened hhandlers m).resumes h
  | .beginIf condition test =>
    obtain ⟨d₁, hcondition, rfl⟩ := emit_beginIf_eq_ok h
    have hreach := reaches_of_emitAll condition d d₁ hcondition
    have hinside₁ : Inside n (Item.continuesAll condition n) d d₁ := by
      refine hinside.imp_right fun ⟨chain, hchain, hopen, hcontinued⟩ => ⟨chain, hchain, ?_, hcontinued⟩
      exact hs.mem_opened hreach (.single (.beginChain d₁ test)) (List.mem_of_getElem? hchain) hopen
    have hresumes := (resumes_of_emitAll condition d d₁ hs hcondition htangled n hinside₁).trans
      ((hreach.sound hs).resumes_beginChain test _)
    rwa [Bool.and_true] at hresumes
  | .elseIf condition test =>
    obtain ⟨chain, outer, outer', d₁, hopened, helse, hcondition, hopened₁, rfl⟩ := emit_elseIf_eq_ok h
    obtain ⟨m, rfl⟩ := hinside.exists_succ hopened fun _ _ _ hzero => by rw [hzero]; rfl
    rw [Item.tangled, Bool.or_eq_false_iff] at htangled
    have hs₀ : (d.endBranch chain).Sound := hs.endBranch (by simp [hopened])
    have hchain : (d.endBranch chain).opened[0]? = some (.chain chain) := by simp [hopened]
    have hresumes := resumes_of_emitAll condition _ d₁ hs₀ hcondition htangled.1 0
      (.inr ⟨chain, hchain, by simp [hopened₁], htangled.2⟩)
    exact hs.resumes_elseIf hopened helse hcondition hopened₁ h hinside hresumes
  | .beginElse =>
    obtain ⟨chain, outer, hopened, helse, rfl⟩ := emit_beginElse_eq_ok h
    obtain ⟨m, rfl⟩ := hinside.exists_succ hopened fun _ _ _ hzero => by rw [hzero]; rfl
    exact (hs.reads_beginElse hopened helse m).resumes h
  | .endIf =>
    obtain ⟨chain, outer, hopened, rfl⟩ := emit_endIf_eq_ok h
    obtain ⟨m, rfl⟩ := hinside.exists_succ hopened fun chain' hchain hopen _ => by
      have hnodup := hs.nodup
      obtain rfl := Open.chain.inj hchain
      rw [hopened] at hnodup
      rw [opened_endChain, popOpen, hopened, List.tail_cons] at hopen
      exact absurd hopen (List.nodup_cons.1 hnodup).1
    exact (hs.reads_endIf hopened m).resumes h

theorem resumes_of_emitAll (items : List Item) (d d' : Draft) (hs : d.Sound) (h : emitAll items d = .ok d')
    (htangled : Item.tangledAll items = false) (n : Nat) (hinside : Inside n (Item.continuesAll items n) d d') :
    Resumes n (Item.levelAll items n) (Item.jumplessAll items) d d' := by
  match items with
  | [] =>
    obtain rfl := emitAll_nil_eq_ok h
    exact fun k hk => ⟨k, hk, rfl, fun _ hjump => hjump⟩
  | item :: items =>
    obtain ⟨d₁, hitem, hitems⟩ := emitAll_cons_eq_ok h
    rw [Item.tangledAll, Bool.or_eq_false_iff] at htangled
    have hs₁ := Reaches.sound (reaches_of_emit item d d₁ hitem) hs
    exact (resumes_of_emit item d d₁ hs hitem htangled.1 n (hinside.head hs hitem hitems)).trans
      (resumes_of_emitAll items d₁ d' hs₁ hitems htangled.2 _ (hinside.tail hs hitem hitems))

end

/-- A stream that is accepted, leaves nothing open and tears no chain does what a balanced stream does,
with the same instructions. -/
theorem exists_body (h : emitAll items .empty = .ok d) (hopened : d.opened = [])
    (htangled : Item.tangledAll items = false) :
    ∃ t : Body, emitAll t.items .empty = .ok d ∧ (Item.jumplessAll items = true → t.Jumpless) := by
  have hresumes := resumes_of_emitAll items .empty d sound_empty h htangled 0 (.inl rfl)
  have hlevel : Item.levelAll items 0 = 0 := by
    have hlength := length_opened_of_emitAll items .empty d h
    rw [hopened] at hlength
    exact hlength.symm
  rw [hlevel] at hresumes
  exact hresumes.exists_body

end Draft

end BlockAssembler
