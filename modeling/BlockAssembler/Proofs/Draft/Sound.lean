import BlockAssembler.Proofs.Draft.Effects

/-! What holds of the records of every draft. A field that a step fills stays filled, and
the jumps that a record lists are jumps. Only where the test of a branch lands may stay
open, in a chain that is torn. -/

namespace BlockAssembler

/-- A jump has the handle `h`. -/
def JumpAt (ops : List Opcode) (h : Handle) : Prop := ∃ op, ops[h]? = some op ∧ op.isJump = true

theorem JumpAt.mono {ops ops' : List Opcode} {h : Handle} (hops : ops <+: ops') (hj : JumpAt ops h) :
    JumpAt ops' h := by
  obtain ⟨op, hop, hjump⟩ := hj
  obtain ⟨added, rfl⟩ := hops
  refine ⟨op, ?_, hjump⟩
  rw [List.getElem?_append_left (List.getElem?_eq_some_iff.1 hop).1, hop]

theorem jumpAt_length (ops : List Opcode) {op : Opcode} (hop : op.isJump = true) :
    JumpAt (ops ++ [op]) ops.length := ⟨op, by simp, hop⟩

/-- What holds of a guarded range; `isOpen` says whether it has not been ended. -/
structure RangeSound (ops : List Opcode) (isOpen : Prop) (g : GuardedRange) : Prop where
  start : g.start.isSome
  skip : g.handlers ≠ #[] → g.skip.isSome
  jump : ∀ h, g.skip = some h → JumpAt ops h
  entries : ∀ k ∈ g.handlers, k.start.isSome
  jumps : ∀ k ∈ g.handlers, ∀ h, k.skip = some h → JumpAt ops h
  closed : ¬ isOpen → g.handlers ≠ #[] ∧ g.join.isSome

/-- A branch has been left without a landing for its test, and nothing gives it one any more:
another branch or the final body has been begun in the meantime. -/
def Chain.Torn (c : Chain) : Prop :=
  ∃ i br, c.branches[i]? = some br ∧ br.next = none ∧ (i < c.lastBranch ∨ c.hasElse = true)

/-- What holds of a chain. -/
structure ChainSound (ops : List Opcode) (isOpen : Prop) (c : Chain) : Prop where
  branches : c.branches ≠ #[]
  tests : ∀ br ∈ c.branches, JumpAt ops br.test
  jumps : ∀ br ∈ c.branches, ∀ h, br.skip = some h → JumpAt ops h
  closed : ¬ isOpen → c.hasSkips → c.join.isSome
  nexts : ¬ isOpen → ∀ br ∈ c.branches, br.next = none → c.Torn

theorem RangeSound.weaken {ops ops' : List Opcode} {isOpen isOpen' : Prop} {g : GuardedRange}
    (hops : ops <+: ops') (hopen : isOpen → isOpen') (hg : RangeSound ops isOpen g) :
    RangeSound ops' isOpen' g where
  start := hg.start
  skip := hg.skip
  jump h hh := (hg.jump h hh).mono hops
  entries := hg.entries
  jumps k hk h hh := (hg.jumps k hk h hh).mono hops
  closed hn := hg.closed fun ho => hn (hopen ho)

theorem ChainSound.weaken {ops ops' : List Opcode} {isOpen isOpen' : Prop} {c : Chain}
    (hops : ops <+: ops') (hopen : isOpen → isOpen') (hc : ChainSound ops isOpen c) :
    ChainSound ops' isOpen' c where
  branches := hc.branches
  tests br hbr := (hc.tests br hbr).mono hops
  jumps br hbr h hh := (hc.jumps br hbr h hh).mono hops
  closed hn := hc.closed fun ho => hn (hopen ho)
  nexts hn := hc.nexts fun ho => hn (hopen ho)

theorem ChainSound.lastBranch_lt {ops : List Opcode} {isOpen : Prop} {c : Chain}
    (hc : ChainSound ops isOpen c) : c.lastBranch < c.branches.size := by
  have hpos : 0 < c.branches.size := Array.size_pos_iff.2 hc.branches
  unfold Chain.lastBranch
  omega

/-! ### One record -/

section
variable {ops ops' : List Opcode} {isOpen isOpen' : Prop} {g : GuardedRange} {c : Chain} {h : Handle}

theorem RangeSound.endBody (hg : RangeSound ops isOpen g) (hj : JumpAt ops h) :
    RangeSound ops isOpen { g with skip := some h } where
  start := hg.start
  skip _ := rfl
  jump x hx := by
    obtain rfl : h = x := by simpa using hx
    exact hj
  entries := hg.entries
  jumps := hg.jumps
  closed := hg.closed

theorem RangeSound.endHandler {skip : Option Handle} (hg : RangeSound ops isOpen g)
    (hj : ∀ h, skip = some h → JumpAt ops h) (n : Nat) :
    RangeSound ops isOpen
      { g with handlers := g.handlers.modify n fun k => { k with skip := skip } } where
  start := hg.start
  skip hne := hg.skip fun he => hne (by simp [he])
  jump := hg.jump
  entries k hk := by
    dsimp only at hk
    rcases mem_array_modify hk with hmem | ⟨k, hmem, rfl⟩
    · exact hg.entries k hmem
    · exact hg.entries k hmem
  jumps k hk := by
    dsimp only at hk
    rcases mem_array_modify hk with hmem | ⟨k, hmem, rfl⟩
    · exact hg.jumps k hmem
    · exact hj
  closed hn := by
    obtain ⟨hne, hjoin⟩ := hg.closed hn
    exact ⟨fun he => hne (by simpa using congrArg Array.size he), hjoin⟩

theorem RangeSound.addHandler (hg : RangeSound ops isOpen g) (hskip : g.skip.isSome)
    (start : Handle) (catches : Option String) :
    RangeSound ops isOpen (g.addHandler start catches) where
  start := hg.start
  skip _ := hskip
  jump := hg.jump
  entries k hk := by
    rcases Array.mem_push.1 hk with hk | rfl
    · exact hg.entries k hk
    · rfl
  jumps k hk := by
    rcases Array.mem_push.1 hk with hk | rfl
    · exact hg.jumps k hk
    · simp
  closed hn := ⟨by simp [GuardedRange.addHandler], (hg.closed hn).2⟩

theorem RangeSound.endRange (hg : RangeSound ops isOpen g) (hne : g.handlers ≠ #[]) :
    RangeSound ops isOpen' { g with join := some h } where
  start := hg.start
  skip := hg.skip
  jump := hg.jump
  entries := hg.entries
  jumps := hg.jumps
  closed _ := ⟨hne, rfl⟩

theorem ChainSound.endLast {skip : Option Handle} (hc : ChainSound ops isOpen c) (hopen : isOpen)
    (hj : ∀ h, skip = some h → JumpAt ops h) (next : Handle) :
    ChainSound ops isOpen (c.endLast skip next) where
  branches he := hc.branches (by simpa [Chain.endLast] using congrArg Array.size he)
  tests br hbr := by
    simp only [Chain.endLast] at hbr
    rcases mem_array_modify hbr with hmem | ⟨br, hmem, rfl⟩
    · exact hc.tests br hmem
    · exact hc.tests br hmem
  jumps br hbr := by
    simp only [Chain.endLast] at hbr
    rcases mem_array_modify hbr with hmem | ⟨br, hmem, rfl⟩
    · exact hc.jumps br hmem
    · exact hj
  closed hn := absurd hopen hn
  nexts hn := absurd hopen hn

theorem ChainSound.addBranch (hc : ChainSound ops isOpen c) (hopen : isOpen) (hj : JumpAt ops h) :
    ChainSound ops isOpen { c with branches := c.branches.push (.fresh h) } where
  branches := by simp
  tests br hbr := by
    rcases Array.mem_push.1 hbr with hbr | rfl
    · exact hc.tests br hbr
    · exact hj
  jumps br hbr := by
    rcases Array.mem_push.1 hbr with hbr | rfl
    · exact hc.jumps br hbr
    · simp [ChainBranch.fresh]
  closed hn := absurd hopen hn
  nexts hn := absurd hopen hn

@[simp] theorem hasSkips_close (join : Handle) : (c.close join).hasSkips = c.hasSkips := by
  unfold Chain.close
  split
  · rfl
  · exact Records.hasSkips_modifyNext c c.lastBranch (some join)

theorem ChainSound.close (hc : ChainSound ops isOpen c) (join : Handle) :
    ChainSound ops isOpen' (c.close join) where
  branches he := by
    unfold Chain.close at he
    split at he
    · exact hc.branches he
    · exact hc.branches (by simpa using congrArg Array.size he)
  tests br hbr := by
    simp only [Chain.close] at hbr
    split at hbr
    · exact hc.tests br hbr
    · rcases mem_array_modify hbr with hmem | ⟨br, hmem, rfl⟩
      · exact hc.tests br hmem
      · exact hc.tests br hmem
  jumps br hbr := by
    simp only [Chain.close] at hbr
    split at hbr
    · exact hc.jumps br hbr
    · rcases mem_array_modify hbr with hmem | ⟨br, hmem, rfl⟩
      · exact hc.jumps br hmem
      · exact hc.jumps br hmem
  closed _ hskips := by
    rw [hasSkips_close] at hskips
    simp [Chain.close, hskips]
  nexts _ br hbr hnone := by
    obtain ⟨i, hi⟩ := Array.mem_iff_getElem?.1 hbr
    refine ⟨i, br, hi, hnone, ?_⟩
    cases helse : c.hasElse with
    | true => exact .inr helse
    | false =>
      refine .inl ?_
      simp only [Chain.close, helse, Bool.false_eq_true, if_false, Array.getElem?_modify] at hi
      have hlast : c.lastBranch ≠ i := by
        rintro rfl
        obtain ⟨br', -, rfl⟩ := Option.map_eq_some_iff.1 (by simpa using hi)
        cases hnone
      rw [if_neg hlast] at hi
      have hlt := (Array.getElem?_eq_some_iff.1 hi).1
      simp only [Chain.close, helse, Chain.lastBranch, Bool.false_eq_true, if_false, Array.size_modify] at hlast ⊢
      omega

end

namespace Draft

structure Sound (d : Draft) : Prop where
  ranges : ∀ i g, d.records.ranges[i]? = some g → RangeSound d.opcodes (.range i ∈ d.opened) g
  chains : ∀ i c, d.records.chains[i]? = some c → ChainSound d.opcodes (.chain i ∈ d.opened) c
  range_lt : ∀ i, .range i ∈ d.opened → i < d.records.ranges.length
  chain_lt : ∀ i, .chain i ∈ d.opened → i < d.records.chains.length
  nodup : d.opened.Nodup

theorem sound_empty : empty.Sound := by
  refine ⟨?_, ?_, ?_, ?_, ?_⟩ <;> simp [empty]

/-! ### All records -/

theorem Sound.exists_chain {d : Draft} (hd : d.Sound) {chain : Nat} (hopen : .chain chain ∈ d.opened) :
    ∃ c, d.records.chains[chain]? = some c ∧ c.lastBranch < c.branches.size := by
  have hc := List.getElem?_eq_getElem (hd.chain_lt chain hopen)
  exact ⟨_, hc, (hd.chains chain _ hc).lastBranch_lt⟩

variable {d d' : Draft}

theorem forall_getElem?_modify {α : Type} {P : Nat → α → Prop} {l : List α} {n : Nat} {f : α → α}
    (hother : ∀ i x, l[i]? = some x → i ≠ n → P i x) (hself : ∀ x, l[n]? = some x → P n (f x)) :
    ∀ i x, (l.modify n f)[i]? = some x → P i x := by
  intro i x hx
  rw [List.getElem?_modify] at hx
  by_cases hi : n = i
  · subst hi
    simp only [if_true] at hx
    obtain ⟨y, hy, rfl⟩ := Option.map_eq_some_iff.1 hx
    exact hself y hy
  · simp only [hi, if_false, id_map'] at hx
    exact hother i x hx (Ne.symm hi)

theorem forall_getElem?_concat {α : Type} {P : Nat → α → Prop} {l : List α} {a : α}
    (hold : ∀ i x, l[i]? = some x → P i x) (hnew : P l.length a) :
    ∀ i x, (l ++ [a])[i]? = some x → P i x := by
  intro i x hx
  rw [List.getElem?_append] at hx
  split at hx
  · exact hold i x hx
  · next hi =>
    obtain ⟨hlt, rfl⟩ := List.getElem?_eq_some_iff.1 hx
    have hlast : i = l.length := by simp at hlt; omega
    simpa [hlast] using hnew

/-- A step that changes the record of one range, and may end it. -/
theorem Sound.modifyRange {range : Nat} {f : GuardedRange → GuardedRange} (hd : d.Sound)
    (hops : d.opcodes <+: d'.opcodes) (hsub : d'.opened.Sublist d.opened)
    (hkeep : ∀ o ∈ d.opened, o ≠ .range range → o ∈ d'.opened)
    (hchains : d'.records.chains = d.records.chains)
    (hranges : d'.records.ranges = d.records.ranges.modify range f)
    (hf : ∀ g, d.records.ranges[range]? = some g →
      RangeSound d'.opcodes (.range range ∈ d.opened) g →
        RangeSound d'.opcodes (.range range ∈ d'.opened) (f g)) : d'.Sound where
  ranges := by
    rw [hranges]
    refine forall_getElem?_modify (fun i g hg hi => ?_) fun g hg => ?_
    · exact (hd.ranges i g hg).weaken hops fun ho => hkeep _ ho (by simpa using hi)
    · exact hf g hg ((hd.ranges range g hg).weaken hops id)
  chains i c hc := by
    rw [hchains] at hc
    exact (hd.chains i c hc).weaken hops fun ho => hkeep _ ho (by simp)
  range_lt i hi := by simpa [hranges] using hd.range_lt i (hsub.subset hi)
  chain_lt i hi := by simpa [hchains] using hd.chain_lt i (hsub.subset hi)
  nodup := hd.nodup.sublist hsub

/-- A step that changes the record of one chain, and may end it. -/
theorem Sound.modifyChain {chain : Nat} {f : Chain → Chain} (hd : d.Sound)
    (hops : d.opcodes <+: d'.opcodes) (hsub : d'.opened.Sublist d.opened)
    (hkeep : ∀ o ∈ d.opened, o ≠ .chain chain → o ∈ d'.opened)
    (hranges : d'.records.ranges = d.records.ranges)
    (hchains : d'.records.chains = d.records.chains.modify chain f)
    (hf : ∀ c, d.records.chains[chain]? = some c →
      ChainSound d'.opcodes (.chain chain ∈ d.opened) c →
        ChainSound d'.opcodes (.chain chain ∈ d'.opened) (f c)) : d'.Sound where
  ranges i g hg := by
    rw [hranges] at hg
    exact (hd.ranges i g hg).weaken hops fun ho => hkeep _ ho (by simp)
  chains := by
    rw [hchains]
    refine forall_getElem?_modify (fun i c hc hi => ?_) fun c hc => ?_
    · exact (hd.chains i c hc).weaken hops fun ho => hkeep _ ho (by simpa using hi)
    · exact hf c hc ((hd.chains chain c hc).weaken hops id)
  range_lt i hi := by simpa [hranges] using hd.range_lt i (hsub.subset hi)
  chain_lt i hi := by simpa [hchains] using hd.chain_lt i (hsub.subset hi)
  nodup := hd.nodup.sublist hsub

/-- A step that only adds instructions. -/
theorem Sound.grow (hd : d.Sound) (hops : d.opcodes <+: d'.opcodes) (hopened : d'.opened = d.opened)
    (hrecords : d'.records = d.records) : d'.Sound where
  ranges i g hg := hopened ▸ (hd.ranges i g (hrecords ▸ hg)).weaken hops id
  chains i c hc := hopened ▸ (hd.chains i c (hrecords ▸ hc)).weaken hops id
  range_lt := by simpa only [hopened, hrecords] using hd.range_lt
  chain_lt := by simpa only [hopened, hrecords] using hd.chain_lt
  nodup := hopened ▸ hd.nodup

theorem Sound.append (hd : d.Sound) (op : Opcode) : (d.append op).Sound := hd.grow (by simp) rfl rfl

theorem mem_popOpen {o x : Open} {outer : List Open} (hopened : d.opened = o :: outer)
    (hx : x ∈ d.opened) (hne : x ≠ o) : x ∈ d.popOpen.opened := by
  rw [hopened, List.mem_cons] at hx
  simpa [popOpen, hopened, hne] using hx

theorem Sound.beginRange (hd : d.Sound) :
    (d.beginRange.await (.tryStart d.records.ranges.length)).Sound where
  ranges := by
    rw [ranges_beginRange]
    refine forall_getElem?_concat (fun i g hg => ?_) ?_
    · exact (hd.ranges i g hg).weaken List.prefix_rfl fun ho => .tail _ ho
    · refine ⟨rfl, by simp, by simp, by simp, by simp, fun hn => ?_⟩
      exact absurd (List.mem_cons_self ..) hn
  chains i c hc := (hd.chains i c hc).weaken List.prefix_rfl fun ho => .tail _ ho
  range_lt i hi := by
    rw [ranges_beginRange, List.length_append]
    rcases List.mem_cons.1 hi with heq | hi
    · simp_all
    · have := hd.range_lt i hi
      simp only [List.length_singleton]
      omega
  chain_lt i hi := hd.chain_lt i (by simpa [Draft.beginRange, await] using hi)
  nodup := List.nodup_cons.2 ⟨fun ho => Nat.lt_irrefl _ (hd.range_lt _ ho), hd.nodup⟩

theorem Sound.beginChain (hd : d.Sound) (test : Test) :
    ((d.append (.branch test 0)).beginChain d.size).Sound where
  ranges i g hg := ((hd.append _).ranges i g hg).weaken List.prefix_rfl fun ho => .tail _ ho
  chains := by
    refine forall_getElem?_concat (fun i c hc => ?_) ?_
    · exact ((hd.append _).chains i c hc).weaken List.prefix_rfl fun ho => .tail _ ho
    · have hjump : JumpAt ((d.append (.branch test 0)).beginChain d.size).opcodes d.size := by
        show JumpAt (d.append _).opcodes d.size
        rw [opcodes_append, ← length_opcodes]
        exact jumpAt_length _ rfl
      refine ⟨by simp [Chain.fresh], ?_, ?_, fun hn => ?_, fun hn => ?_⟩
      · simpa [Chain.fresh, ChainBranch.fresh] using hjump
      · simp [Chain.fresh, ChainBranch.fresh]
      · exact absurd (List.mem_cons_self ..) hn
      · exact absurd (List.mem_cons_self ..) hn
  range_lt i hi := hd.range_lt i (by simpa [Draft.beginChain, Draft.append] using hi)
  chain_lt i hi := by
    rw [Draft.beginChain, Records.addChain, List.length_append]
    rcases List.mem_cons.1 hi with heq | hi
    · simp_all
    · have := hd.chain_lt i hi
      simp only [List.length_singleton, Draft.append]
      omega
  nodup := List.nodup_cons.2 ⟨fun ho => Nat.lt_irrefl _ (hd.chain_lt _ ho), hd.nodup⟩

theorem jumpAt_skip (d : Draft) : ∀ h, d.skip = some h → JumpAt d.jumpOut.opcodes h := by
  intro h hskip
  unfold skip at hskip
  split at hskip
  · next hlive =>
    obtain rfl : d.size = h := by simpa using hskip
    rw [opcodes_jumpOut, if_pos hlive, ← length_opcodes]
    exact jumpAt_length _ rfl
  · simp at hskip

theorem Sound.endGuarded (hd : d.Sound) (range : Nat) : (d.endGuarded range).Sound := by
  refine hd.modifyRange (prefix_opcodes (d.prefix_endGuarded range)) (by simp)
    (fun _ ho _ => by rwa [opened_endGuarded]) chains_endGuarded
    ranges_endGuarded fun g hg hsound => ?_
  rw [opened_endGuarded]
  split
  · next hcount =>
    refine hsound.endBody ?_
    have hops : (d.endGuarded range).opcodes = d.opcodes ++ [.goto 0] := by
      rw [Draft.endGuarded, if_pos hcount]
      exact opcodes_append _
    rw [hops, ← length_opcodes]
    exact jumpAt_length _ rfl
  · next hcount =>
    refine hsound.endHandler (fun h hskip => ?_) _
    rw [Draft.endGuarded, if_neg hcount]
    exact jumpAt_skip d h hskip

/-- Once the guarded body has been ended, the range knows the jump behind it. -/
theorem isSome_skip_endGuarded (hd : d.Sound) {range : Nat} {g : GuardedRange}
    (hg : (d.endGuarded range).records.ranges[range]? = some g) : g.skip.isSome := by
  rw [ranges_endGuarded, List.getElem?_modify] at hg
  simp only [if_true] at hg
  obtain ⟨g, hold, rfl⟩ := Option.map_eq_some_iff.1 hg
  split
  · rfl
  · next hcount =>
    exact (hd.ranges range g hold).skip fun he => hcount (by simp [Records.handlerCount, hold, he])

theorem Sound.beginHandler (hd : d.Sound) (range : Nat) (catches : Option String) :
    ((d.endGuarded range).beginHandler range catches).Sound := by
  refine (hd.endGuarded range).modifyRange List.prefix_rfl (.refl _) (fun _ ho _ => ho) rfl
    (ranges_beginHandler catches) fun g hg hsound => ?_
  exact hsound.addHandler (isSome_skip_endGuarded hd hg) _ catches

theorem Sound.endRange (hd : d.Sound) {range : Nat} {outer : List Open}
    (hopened : d.opened = .range range :: outer) (hhandlers : d.records.handlerCount range ≠ 0) :
    (d.popOpen.await (.tryEnd range)).Sound := by
  refine hd.modifyRange List.prefix_rfl (List.tail_sublist _)
    (fun _ ho hne => mem_popOpen hopened ho hne) rfl rfl fun g hg hsound => ?_
  exact hsound.endRange fun he => hhandlers (by simp [Records.handlerCount, hg, he])

theorem Sound.endBranch (hd : d.Sound) {chain : Nat} (hopen : .chain chain ∈ d.opened) :
    (d.endBranch chain).Sound := by
  refine hd.modifyChain (prefix_opcodes d.prefix_jumpOut) (by simp) (fun _ ho _ => by rwa [opened_endBranch])
    ranges_endBranch chains_endBranch fun c hc hsound => ?_
  rw [opened_endBranch]
  exact hsound.endLast hopen (jumpAt_skip d) _

theorem Sound.addBranch (hd : d.Sound) {chain : Nat} (hopen : .chain chain ∈ d.opened)
    (test : Test) : (d.addBranch chain test).Sound := by
  refine (hd.append (.branch test 0)).modifyChain List.prefix_rfl (.refl _) (fun _ ho _ => ho) rfl rfl
    fun c hc hsound => hsound.addBranch hopen ?_
  show JumpAt (d.append _).opcodes d.size
  rw [opcodes_append, ← length_opcodes]
  exact jumpAt_length _ rfl

theorem Sound.setElse (hd : d.Sound) {chain : Nat} (hopen : .chain chain ∈ d.opened) :
    (d.modifyChain chain fun c => { c with hasElse := true }).Sound := by
  refine hd.modifyChain List.prefix_rfl (.refl _) (fun _ ho _ => ho) rfl rfl fun c hc hsound => ?_
  exact ⟨hsound.branches, hsound.tests, hsound.jumps, fun hn => absurd hopen hn, fun hn => absurd hopen hn⟩

theorem Sound.endChain (hd : d.Sound) {chain : Nat} {outer : List Open}
    (hopened : d.opened = .chain chain :: outer) : (d.popOpen.endChain chain).Sound := by
  refine hd.modifyChain (by rw [opcodes_endChain]; exact List.prefix_rfl) ?_ ?_ ranges_endChain
    chains_endChain fun c hc hsound => hsound.close _
  · rw [opened_endChain]
    exact List.tail_sublist _
  · rw [opened_endChain]
    exact fun _ ho hne => mem_popOpen hopened ho hne

theorem Step.sound (h : Step d d') (hd : d.Sound) : d'.Sound := by
  cases h with
  | append op => exact hd.append op
  | beginRange => exact hd.beginRange
  | beginHandler catches hopened => exact hd.beginHandler _ catches
  | endRange hopened hhandlers => exact hd.endRange hopened hhandlers
  | beginChain test => exact hd.beginChain test
  | endBranch hopened helse => exact hd.endBranch (by simp [hopened])
  | addBranch test hopened => exact hd.addBranch (by simp [hopened]) test
  | beginElse hopened helse =>
    refine Sound.setElse (hd.endBranch (by simp [hopened])) ?_
    simp [hopened]
  | endChain hopened => exact hd.endChain hopened

theorem Reaches.sound (h : Reaches d d') (hd : d.Sound) : d'.Sound := h.keeps Step.sound hd

end Draft

end BlockAssembler
