import BlockAssembler.Proofs.Draft.Sound

/-! Which streams tear a chain. The stream of a condition is added while the chain that the
branch belongs to is open, and all that is asked of it is that this chain is the innermost
structure again in the end. If it holds a marker of its own for that chain, a branch or the
final body is begun ahead of the branch itself, and a test is left that lands nowhere. -/

namespace BlockAssembler

/-! ### Streams -/

namespace Item

mutual

/-- The number of structures that are open inside a certain one behind the item, if there
are `n` in front of it. -/
def level : Item → Nat → Nat
  | .op _, n | .beginCatch _, n | .beginElse, n => n
  | .beginTry, n => n + 1
  | .endTry, n | .endIf, n => n - 1
  | .beginIf condition _, n => levelAll condition n + 1
  | .elseIf condition _, n => levelAll condition n

def levelAll : List Item → Nat → Nat
  | [], n => n
  | item :: items, n => levelAll items (item.level n)

end

mutual

/-- Whether the item begins another branch, or the final body, of a chain inside which `n`
structures are open. -/
def continues : Item → Nat → Bool
  | .op _, _ | .beginTry, _ | .beginCatch _, _ | .endTry, _ | .endIf, _ => false
  | .beginIf condition _, n => continuesAll condition n
  | .elseIf condition _, n => n == 0 || continuesAll condition n
  | .beginElse, n => n == 0

def continuesAll : List Item → Nat → Bool
  | [], _ => false
  | item :: items, n => item.continues n || continuesAll items (item.level n)

end

mutual

/-- Whether some condition of the item continues the chain of its own branch. -/
def tangled : Item → Bool
  | .op _ | .beginTry | .beginCatch _ | .endTry | .beginElse | .endIf => false
  | .beginIf condition _ => tangledAll condition
  | .elseIf condition _ => tangledAll condition || continuesAll condition 0

def tangledAll : List Item → Bool
  | [] => false
  | item :: items => item.tangled || tangledAll items

end

end Item

/-! ### One chain -/

namespace Chain

variable {c : Chain}

/-- One more branch tears the chain. -/
def Dangling (c : Chain) : Prop :=
  c.hasElse = true ∨ ∃ br, c.branches[c.lastBranch]? = some br ∧ br.next = none

theorem not_torn_fresh (test : Handle) : ¬ (fresh test).Torn := by
  rintro ⟨i, br, -, -, hlast | helse⟩
  · exact Nat.not_lt_zero i hlast
  · cases helse

theorem torn_endLast (skip : Option Handle) (next : Handle) (helse : c.hasElse = false) :
    (c.endLast skip next).Torn ↔ c.Torn := by
  simp only [Torn, endLast, lastBranch, Array.size_modify, Array.getElem?_modify, helse, Bool.false_eq_true,
    or_false]
  constructor
  · rintro ⟨i, br, hi, hnone, hlt⟩
    rw [if_neg (by omega)] at hi
    exact ⟨i, br, hi, hnone, hlt⟩
  · rintro ⟨i, br, hi, hnone, hlt⟩
    refine ⟨i, br, ?_, hnone, hlt⟩
    rw [if_neg (by omega), hi]

/-- The last branch has got its landing before the final body begins. -/
theorem torn_setElse (skip : Option Handle) (next : Handle) (helse : c.hasElse = false) :
    ({ c.endLast skip next with hasElse := true } : Chain).Torn ↔ c.Torn := by
  rw [← torn_endLast skip next helse]
  constructor
  · rintro ⟨i, br, hi, hnone, -⟩
    refine ⟨i, br, hi, hnone, .inl ?_⟩
    have hlt := (Array.getElem?_eq_some_iff.1 hi).1
    simp only [endLast, Array.getElem?_modify] at hi
    have hne : c.lastBranch ≠ i := by
      rintro rfl
      obtain ⟨br', -, rfl⟩ := Option.map_eq_some_iff.1 (by simpa using hi)
      cases hnone
    simp only [endLast, lastBranch, Array.size_modify] at hlt hne ⊢
    omega
  · rintro ⟨i, br, hi, hnone, hlt | helse'⟩
    · exact ⟨i, br, hi, hnone, .inl hlt⟩
    · rw [endLast, helse] at helse'
      cases helse'

theorem torn_close (join : Handle) : (c.close join).Torn ↔ c.Torn := by
  cases helse : c.hasElse with
  | true => simp [Torn, close, helse, lastBranch]
  | false =>
    simp only [Torn, close, helse, lastBranch, Bool.false_eq_true, if_false, or_false, Array.size_modify,
      Array.getElem?_modify]
    constructor
    · rintro ⟨i, br, hi, hnone, hlt⟩
      rw [if_neg (by omega)] at hi
      exact ⟨i, br, hi, hnone, hlt⟩
    · rintro ⟨i, br, hi, hnone, hlt⟩
      refine ⟨i, br, ?_, hnone, hlt⟩
      rw [if_neg (by omega), hi]

theorem torn_addBranch (hlast : c.lastBranch < c.branches.size) (test : Handle) :
    ({ c with branches := c.branches.push (.fresh test) } : Chain).Torn ↔ c.Torn ∨ c.Dangling := by
  have hsize : c.branches.size = c.lastBranch + 1 := by
    unfold lastBranch at hlast ⊢
    omega
  constructor
  · rintro ⟨i, br, hi, hnone, hlt⟩
    simp only [Array.getElem?_push] at hi
    split at hi
    · next heq =>
      rcases hlt with hlt | helse
      · simp only [lastBranch, Array.size_push] at hlt
        omega
      · exact .inr (.inl helse)
    · have hi' := (Array.getElem?_eq_some_iff.1 hi).1
      rcases Nat.lt_or_ge i c.lastBranch with hlt' | hge
      · exact .inl ⟨i, br, hi, hnone, .inl hlt'⟩
      · obtain rfl : i = c.lastBranch := by omega
        exact .inr (.inr ⟨br, hi, hnone⟩)
  · have hold : ∀ (i : Nat) (br : ChainBranch), c.branches[i]? = some br → br.next = none →
        ({ c with branches := c.branches.push (.fresh test) } : Chain).Torn := by
      intro i br hi hnone
      have hlt := (Array.getElem?_eq_some_iff.1 hi).1
      refine ⟨i, br, ?_, hnone, .inl ?_⟩
      · rw [Array.getElem?_push, if_neg (by omega), hi]
      · simpa [lastBranch] using hlt
    rintro (⟨i, br, hi, hnone, -⟩ | helse | ⟨br, hi, hnone⟩)
    · exact hold i br hi hnone
    · exact ⟨c.branches.size, .fresh test, by simp, rfl, .inr helse⟩
    · exact hold _ br hi hnone

end Chain

/-! ### All chains -/

namespace Draft

variable {d d' : Draft}

/-- Some chain is torn. -/
def Torn (d : Draft) : Prop := ∃ c ∈ d.records.chains, c.Torn

theorem exists_mem_modify {α : Type} {P : α → Prop} {l : List α} {n : Nat} {f : α → α} {D : Prop} {x : α}
    (hx : l[n]? = some x) (hf : P (f x) ↔ P x ∨ D) : (∃ y ∈ l.modify n f, P y) ↔ (∃ y ∈ l, P y) ∨ D := by
  have hget (i : Nat) : (l.modify n f)[i]? = (fun y => if n = i then f y else y) <$> l[i]? :=
    List.getElem?_modify ..
  constructor
  · rintro ⟨y, hy, hP⟩
    obtain ⟨i, hi⟩ := List.mem_iff_getElem?.1 hy
    rw [hget] at hi
    obtain ⟨z, hz, rfl⟩ := Option.map_eq_some_iff.1 hi
    by_cases hni : n = i
    · subst hni
      obtain rfl := Option.some.inj (hx.symm.trans hz)
      rw [if_pos rfl] at hP
      rcases hf.1 hP with hP | hD
      · exact .inl ⟨x, List.mem_of_getElem? hx, hP⟩
      · exact .inr hD
    · rw [if_neg hni] at hP
      exact .inl ⟨z, List.mem_of_getElem? hz, hP⟩
  · have hself := hget n
    rw [hx, Option.map_eq_map, Option.map_some, if_pos rfl] at hself
    rintro (⟨y, hy, hP⟩ | hD)
    · obtain ⟨i, hi⟩ := List.mem_iff_getElem?.1 hy
      by_cases hni : n = i
      · subst hni
        obtain rfl := Option.some.inj (hx.symm.trans hi)
        exact ⟨f x, List.mem_of_getElem? hself, hf.2 (.inl hP)⟩
      · have hother := hget i
        rw [hi, Option.map_eq_map, Option.map_some, if_neg hni] at hother
        exact ⟨y, List.mem_of_getElem? hother, hP⟩
    · exact ⟨f x, List.mem_of_getElem? hself, hf.2 (.inr hD)⟩

/-! ### Following one chain -/

theorem Step.length_chains_le (h : Step d d') : d.records.chains.length ≤ d'.records.chains.length := by
  cases h with
  | append | beginRange | endRange => exact Nat.le_refl _
  | beginHandler | endBranch | endChain => simp [popOpen]
  | beginChain test =>
    simp only [Draft.beginChain, Records.addChain, List.length_append, records_append]
    omega
  | addBranch | beginElse => simp [Draft.addBranch, Draft.modifyChain, Records.modifyChain]

theorem Reaches.length_chains_le (h : Reaches d d') :
    d.records.chains.length ≤ d'.records.chains.length := by
  induction h with
  | refl => exact Nat.le_refl _
  | tail _ hlast ih => exact Nat.le_trans ih hlast.length_chains_le

theorem Step.not_opened {chain : Nat} (h : Step d d') (hlt : chain < d.records.chains.length)
    (hn : .chain chain ∉ d.opened) : .chain chain ∉ d'.opened := by
  cases h with
  | append | addBranch => exact hn
  | beginRange => simpa [Draft.beginRange, await] using hn
  | beginHandler => simpa using hn
  | endRange => exact fun hmem => hn (List.mem_of_mem_tail hmem)
  | beginChain test =>
    have hne : chain ≠ d.records.chains.length := Nat.ne_of_lt hlt
    simpa [Draft.beginChain, Draft.append, hne] using hn
  | endBranch => simpa using hn
  | @beginElse other =>
    show .chain chain ∉ (d.endBranch other).opened
    simpa using hn
  | endChain =>
    rw [opened_endChain]
    exact fun hmem => hn (List.mem_of_mem_tail hmem)

/-- A chain that has been ended is never opened again. -/
theorem Reaches.not_opened {chain : Nat} (h : Reaches d d') (hlt : chain < d.records.chains.length)
    (hn : .chain chain ∉ d.opened) : .chain chain ∉ d'.opened :=
  (h.keeps (P := fun x => chain < x.records.chains.length ∧ .chain chain ∉ x.opened)
    (fun hstep hx => ⟨Nat.lt_of_lt_of_le hx.1 hstep.length_chains_le, hstep.not_opened hx.1 hx.2⟩) ⟨hlt, hn⟩).2

/-- What becomes of a chain: it is ended, or there are now `n` structures open inside it, and
it is left as it was, unless it has been continued. -/
def Tracks (chain n : Nat) (continued : Bool) (d d' : Draft) : Prop :=
  .chain chain ∉ d'.opened ∨ (d'.opened[n]? = some (.chain chain) ∧
    ∃ c, d'.records.chains[chain]? = some c ∧
      if continued then c.Dangling else d.records.chains[chain]? = some c)

/-- Further in than the innermost structure there is a different one. -/
theorem Sound.ne_innermost (hs : d.Sound) {chain other n : Nat} {outer : List Open}
    (hopened : d.opened = .chain other :: outer) (hn : d.opened[n + 1]? = some (.chain chain)) :
    other ≠ chain := by
  rintro rfl
  have hnodup := hs.nodup
  rw [hopened] at hnodup hn
  exact (List.nodup_cons.1 hnodup).1 (List.mem_of_getElem? (by simpa using hn))

namespace Tracks

variable {d₁ d₂ : Draft} {chain other n m : Nat} {continued continued' : Bool} {outer : List Open}

theorem of_eq (hs : d.Sound) (hopen : .chain chain ∈ d.opened)
    (hopened : d'.opened[n]? = some (.chain chain))
    (hchains : d'.records.chains[chain]? = d.records.chains[chain]?) : Tracks chain n false d d' := by
  have hlt := hs.chain_lt chain hopen
  refine .inr ⟨hopened, d.records.chains[chain], ?_, ?_⟩
  · rw [hchains, List.getElem?_eq_getElem hlt]
  · exact List.getElem?_eq_getElem hlt

theorem trans (h : Tracks chain n continued d d₁)
    (h' : d₁.opened[n]? = some (.chain chain) → Tracks chain m continued' d₁ d₂)
    (hended : .chain chain ∉ d₁.opened → .chain chain ∉ d₂.opened) :
    Tracks chain m (continued || continued') d d₂ := by
  rcases h with h | ⟨hopened, c, hc, hcontinued⟩
  · exact .inl (hended h)
  rcases h' hopened with h' | ⟨hopened', c', hc', hcontinued'⟩
  · exact .inl h'
  refine .inr ⟨hopened', c', hc', ?_⟩
  cases continued' with
  | true => simpa using hcontinued'
  | false =>
    obtain rfl : c = c' := Option.some.inj (hc.symm.trans (by simpa using hcontinued'))
    simpa using hcontinued

/-- The test of a new branch has no landing yet. -/
theorem addBranch (hopened : d₁.opened = .chain chain :: outer) (test : Test)
    (h : Tracks chain n continued d d₁) : Tracks chain n true d' (d₁.addBranch chain test) := by
  rcases h with hended | ⟨hn, c, hc, -⟩
  · exact absurd (by simp [hopened]) hended
  · refine .inr ⟨hn, { c with branches := c.branches.push (.fresh d₁.size) }, by simp [hc], .inr ?_⟩
    exact ⟨.fresh d₁.size, by simp [Chain.lastBranch], rfl⟩

/-- The branch of another chain does to the chain what its condition does. -/
theorem addBranch_of_ne (hs : d.Sound) (hopen : .chain chain ∈ d.opened)
    (hopened : d.opened = .chain other :: outer) (hn : d.opened[n]? = some (.chain chain))
    (hne : other ≠ chain) (hreach : Reaches (d.endBranch other) d₁)
    (h : Tracks chain m continued (d.endBranch other) d₁) (test : Test) :
    Tracks chain m continued d (d₁.addBranch other test) := by
  have hs₁ := hreach.sound (hs.endBranch (by simp [hopened]))
  have hlt : chain < (d.endBranch other).records.chains.length := by
    simpa using hs.chain_lt chain hopen
  have hstart : Tracks chain n false d (d.endBranch other) :=
    .of_eq hs hopen (by rwa [opened_endBranch]) (by simp [hne])
  have hadded : d₁.opened[m]? = some (.chain chain) →
      Tracks chain m false d₁ (d₁.addBranch other test) :=
    fun hn₁ => .of_eq hs₁ (List.mem_of_getElem? hn₁) hn₁ (by simp [hne])
  simpa using (hstart.trans (fun _ => h) (Reaches.not_opened hreach hlt)).trans hadded id

/-- A final body leaves no room for another branch. -/
theorem beginElse (hs : d.Sound) (hopened : d.opened = .chain other :: outer)
    (hn : d.opened[n]? = some (.chain chain)) :
    Tracks chain n (n == 0) d
      ((d.endBranch other).modifyChain other fun c => { c with hasElse := true }) := by
  have hopen := List.mem_of_getElem? hn
  have hn' : (d.endBranch other).opened[n]? = some (.chain chain) := by rwa [opened_endBranch]
  cases n with
  | zero =>
    obtain rfl : other = chain := by simpa [hopened] using hn
    obtain ⟨c, hc, -⟩ := hs.exists_chain hopen
    refine .inr ⟨hn', { c.endLast d.skip d.jumpOut.size with hasElse := true }, ?_, .inl rfl⟩
    simp [Draft.modifyChain, Records.modifyChain, hc]
  | succ n =>
    have hne := hs.ne_innermost hopened hn
    refine .of_eq hs hopen hn' ?_
    simp [Draft.modifyChain, Records.modifyChain, hne]

theorem endChain (hs : d.Sound) (hopened : d.opened = .chain other :: outer)
    (hn : d.opened[n]? = some (.chain chain)) :
    Tracks chain (n - 1) false d (d.popOpen.endChain other) := by
  cases n with
  | zero =>
    obtain rfl : other = chain := by simpa [hopened] using hn
    have hnodup := hs.nodup
    rw [hopened] at hnodup
    refine .inl ?_
    simpa [popOpen, hopened] using (List.nodup_cons.1 hnodup).1
  | succ n =>
    have hne := hs.ne_innermost hopened hn
    refine .of_eq hs (List.mem_of_getElem? hn) (by simpa [popOpen, hopened] using hn) ?_
    simp [popOpen, hne]

end Tracks

mutual

theorem tracks_of_emit (item : Item) (d d' : Draft) (hs : d.Sound) (h : emit item d = .ok d')
    {chain n : Nat} (hn : d.opened[n]? = some (.chain chain)) :
    Tracks chain (item.level n) (item.continues n) d d' := by
  have hopen := List.mem_of_getElem? hn
  match item with
  | .op opcode =>
    obtain rfl := emit_op_eq_ok h
    exact .of_eq hs hopen hn rfl
  | .beginTry =>
    obtain rfl := emit_beginTry_eq_ok h
    exact .of_eq hs hopen (by simpa [Item.level, beginRange, await] using hn) rfl
  | .beginCatch catches =>
    obtain ⟨range, outer, hopened, rfl⟩ := emit_beginCatch_eq_ok h
    exact .of_eq hs hopen (by simpa [Item.level] using hn) (by simp)
  | .endTry =>
    obtain ⟨range, outer, hopened, hhandlers, rfl⟩ := emit_endTry_eq_ok h
    cases n with
    | zero => simp [hopened] at hn
    | succ n =>
      exact .of_eq hs hopen (by simpa [Item.level, popOpen, await, hopened] using hn) rfl
  | .beginIf condition test =>
    obtain ⟨d₁, hcondition, rfl⟩ := emit_beginIf_eq_ok h
    have hreach := reaches_of_emitAll condition d d₁ hcondition
    have hlt := Nat.lt_of_lt_of_le (hs.chain_lt chain hopen) (Reaches.length_chains_le hreach)
    rw [Item.level, Item.continues, ← Bool.or_false (Item.continuesAll condition n)]
    refine (tracks_of_emitAll condition d d₁ hs hcondition hn).trans (fun hn₁ => ?_)
      ((Step.beginChain d₁ test).not_opened hlt)
    exact .of_eq (hreach.sound hs) (List.mem_of_getElem? hn₁) hn₁ (List.getElem?_append_left hlt)
  | .elseIf condition test =>
    obtain ⟨other, outer, outer', d₁, hopened, helse, hcondition, hopened', rfl⟩ := emit_elseIf_eq_ok h
    have hother : .chain other ∈ d.opened := by simp [hopened]
    have hs₁ := hs.endBranch hother
    have hcond := tracks_of_emitAll condition _ d₁ hs₁ hcondition (by rwa [opened_endBranch])
    rw [Item.level, Item.continues]
    cases n with
    | zero =>
      obtain rfl : other = chain := by simpa [hopened] using hn
      exact hcond.addBranch hopened' test
    | succ n =>
      exact .addBranch_of_ne hs hopen hopened hn (hs.ne_innermost hopened hn)
        (reaches_of_emitAll condition _ d₁ hcondition) hcond test
  | .beginElse =>
    obtain ⟨other, outer, hopened, helse, rfl⟩ := emit_beginElse_eq_ok h
    exact .beginElse hs hopened hn
  | .endIf =>
    obtain ⟨other, outer, hopened, rfl⟩ := emit_endIf_eq_ok h
    exact .endChain hs hopened hn

theorem tracks_of_emitAll (items : List Item) (d d' : Draft) (hs : d.Sound)
    (h : emitAll items d = .ok d') {chain n : Nat} (hn : d.opened[n]? = some (.chain chain)) :
    Tracks chain (Item.levelAll items n) (Item.continuesAll items n) d d' := by
  have hopen := List.mem_of_getElem? hn
  match items with
  | [] =>
    obtain rfl := emitAll_nil_eq_ok h
    exact .of_eq hs hopen hn rfl
  | item :: items =>
    obtain ⟨d₁, hitem, hitems⟩ := emitAll_cons_eq_ok h
    have hreach := reaches_of_emit item d d₁ hitem
    have hlt := Nat.lt_of_lt_of_le (hs.chain_lt chain hopen) (Reaches.length_chains_le hreach)
    exact (tracks_of_emit item d d₁ hs hitem hn).trans
      (fun hn' => tracks_of_emitAll items d₁ d' (hreach.sound hs) hitems hn')
      (Reaches.not_opened (reaches_of_emitAll items d₁ d' hitems) hlt)

end

/-! ### Which streams tear a chain -/

theorem torn_modify {chain : Nat} {f : Chain → Chain} {D : Prop} {c : Chain}
    (hc : d.records.chains[chain]? = some c) (hf : (f c).Torn ↔ c.Torn ∨ D)
    (hchains : d'.records.chains = d.records.chains.modify chain f) : d'.Torn ↔ d.Torn ∨ D := by
  rw [Torn, hchains]
  exact exists_mem_modify hc hf

theorem hasElse_eq_false {chain : Nat} {c : Chain} (hc : d.records.chains[chain]? = some c)
    (helse : d.records.hasElse chain = false) : c.hasElse = false := by
  simpa [Records.hasElse, hc] using helse

theorem Sound.torn_endBranch (hs : d.Sound) {chain : Nat} (hopen : .chain chain ∈ d.opened)
    (helse : d.records.hasElse chain = false) : (d.endBranch chain).Torn ↔ d.Torn := by
  obtain ⟨c, hc, -⟩ := hs.exists_chain hopen
  rw [← or_false d.Torn]
  refine torn_modify hc ?_ chains_endBranch
  rw [or_false, Chain.torn_endLast _ _ (hasElse_eq_false hc helse)]

theorem Sound.torn_beginElse (hs : d.Sound) {chain : Nat} (hopen : .chain chain ∈ d.opened)
    (helse : d.records.hasElse chain = false) :
    ((d.endBranch chain).modifyChain chain fun c => { c with hasElse := true }).Torn ↔ d.Torn := by
  obtain ⟨c, hc, -⟩ := hs.exists_chain hopen
  rw [← or_false d.Torn]
  refine torn_modify (f := fun c => { c.endLast d.skip d.jumpOut.size with hasElse := true }) hc ?_ ?_
  · rw [or_false, Chain.torn_setElse _ _ (hasElse_eq_false hc helse)]
  · show ((d.endBranch chain).records.chains).modify chain _ = _
    rw [chains_endBranch, List.modify_modify_eq]
    rfl

theorem Sound.torn_endChain (hs : d.Sound) {chain : Nat} (hopen : .chain chain ∈ d.opened) :
    (d.popOpen.endChain chain).Torn ↔ d.Torn := by
  obtain ⟨c, hc, -⟩ := hs.exists_chain hopen
  rw [← or_false d.Torn]
  refine torn_modify hc ?_ chains_endChain
  rw [or_false, Chain.torn_close]

theorem torn_beginChain (d : Draft) (test : Test) :
    ((d.append (.branch test 0)).beginChain d.size).Torn ↔ d.Torn := by
  simp [Torn, Draft.beginChain, Records.addChain, or_and_right, exists_or, Chain.not_torn_fresh]

/-- The last branch of a chain has just been given its landing. -/
theorem not_dangling_endLast {c : Chain} (helse : c.hasElse = false) (skip : Option Handle) (next : Handle) :
    ¬ (c.endLast skip next).Dangling := by
  rintro (helse' | ⟨br, hbr, hnone⟩)
  · rw [Chain.endLast, helse] at helse'
    cases helse'
  · simp only [Chain.endLast, Chain.lastBranch, Array.size_modify, Array.getElem?_modify, if_true] at hbr
    obtain ⟨br', -, rfl⟩ := Option.map_eq_some_iff.1 hbr
    cases hnone

/-- A branch tears its chain if its condition has continued the chain. -/
theorem Sound.torn_addBranch (hs : d.Sound) {chain : Nat} {outer outer' : List Open} {condition : List Item}
    {d₁ : Draft} (hopened : d.opened = .chain chain :: outer) (helse : d.records.hasElse chain = false)
    (hcondition : emitAll condition (d.endBranch chain) = .ok d₁) (hopened₁ : d₁.opened = .chain chain :: outer')
    (test : Test) : (d₁.addBranch chain test).Torn ↔ d₁.Torn ∨ Item.continuesAll condition 0 = true := by
  have hopen : .chain chain ∈ d.opened := by simp [hopened]
  have hs₀ := hs.endBranch hopen
  have hn : (d.endBranch chain).opened[0]? = some (.chain chain) := by simp [hopened]
  have htracks := tracks_of_emitAll condition _ d₁ hs₀ hcondition hn
  rcases htracks with hended | ⟨-, c₁, hc₁, hcontinued⟩
  · exact absurd (by simp [hopened₁]) hended
  have hs₁ := Reaches.sound (reaches_of_emitAll condition _ d₁ hcondition) hs₀
  have hopen₁ : .chain chain ∈ d₁.opened := by simp [hopened₁]
  obtain ⟨c', hc', hlast⟩ := hs₁.exists_chain hopen₁
  obtain rfl : c₁ = c' := Option.some.inj (hc₁.symm.trans hc')
  refine torn_modify hc₁ ?_ (chains_addBranch test)
  rw [Chain.torn_addBranch hlast]
  refine or_congr_right ?_
  cases hcontinues : Item.continuesAll condition 0 with
  | true => simpa [hcontinues] using hcontinued
  | false =>
    obtain ⟨c, hc, -⟩ := hs.exists_chain hopen
    have heq : (d.endBranch chain).records.chains[chain]? = some c₁ := by simpa [hcontinues] using hcontinued
    obtain rfl : c.endLast d.skip d.jumpOut.size = c₁ := by simpa [hc] using heq
    simpa using not_dangling_endLast (hasElse_eq_false hc helse) d.skip d.jumpOut.size

mutual

theorem torn_of_emit (item : Item) (d d' : Draft) (hs : d.Sound) (h : emit item d = .ok d') :
    d'.Torn ↔ d.Torn ∨ item.tangled = true := by
  match item with
  | .op opcode =>
    obtain rfl := emit_op_eq_ok h
    simp [Item.tangled, Torn]
  | .beginTry =>
    obtain rfl := emit_beginTry_eq_ok h
    simp [Item.tangled, Torn, beginRange, await, Records.set, Records.addRange, Records.modifyRange]
  | .beginCatch catches =>
    obtain ⟨range, outer, hopened, rfl⟩ := emit_beginCatch_eq_ok h
    simp [Item.tangled, Torn]
  | .endTry =>
    obtain ⟨range, outer, hopened, hhandlers, rfl⟩ := emit_endTry_eq_ok h
    simp [Item.tangled, Torn, popOpen, await, Records.set, Records.modifyRange]
  | .beginIf condition test =>
    obtain ⟨d₁, hcondition, rfl⟩ := emit_beginIf_eq_ok h
    rw [torn_beginChain, Item.tangled]
    exact torn_of_emitAll condition d d₁ hs hcondition
  | .elseIf condition test =>
    obtain ⟨chain, outer, outer', d₁, hopened, helse, hcondition, hopened', rfl⟩ := emit_elseIf_eq_ok h
    have hopen : .chain chain ∈ d.opened := by simp [hopened]
    rw [hs.torn_addBranch hopened helse hcondition hopened' test,
      torn_of_emitAll condition _ d₁ (hs.endBranch hopen) hcondition, hs.torn_endBranch hopen helse,
      or_assoc, Item.tangled, Bool.or_eq_true]
  | .beginElse =>
    obtain ⟨chain, outer, hopened, helse, rfl⟩ := emit_beginElse_eq_ok h
    rw [hs.torn_beginElse (by simp [hopened]) helse]
    simp [Item.tangled]
  | .endIf =>
    obtain ⟨chain, outer, hopened, rfl⟩ := emit_endIf_eq_ok h
    rw [hs.torn_endChain (by simp [hopened])]
    simp [Item.tangled]

/-- A stream tears a chain exactly if one of its conditions continues the chain of its own
branch. -/
theorem torn_of_emitAll (items : List Item) (d d' : Draft) (hs : d.Sound)
    (h : emitAll items d = .ok d') : d'.Torn ↔ d.Torn ∨ Item.tangledAll items = true := by
  match items with
  | [] =>
    obtain rfl := emitAll_nil_eq_ok h
    simp [Item.tangledAll]
  | item :: items =>
    obtain ⟨d₁, hitem, hitems⟩ := emitAll_cons_eq_ok h
    have hs₁ := Reaches.sound (reaches_of_emit item d d₁ hitem) hs
    rw [torn_of_emitAll items d₁ d' hs₁ hitems, torn_of_emit item d d₁ hs hitem, or_assoc,
      Item.tangledAll, Bool.or_eq_true]

end

end Draft

end BlockAssembler
