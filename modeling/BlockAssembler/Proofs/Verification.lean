import BlockAssembler.Proofs.Depths
import BlockAssembler.Proofs.Renumbering

/-! The depths of the operand stack in a sequence that is not laid out yet. Control goes on to
the instruction behind, follows a jump to the field it has to land on, or leaves a guarded
instruction for a handler, which finds one value on the stack. A sequence is verifiable if
every instruction is always reached with one and the same depth, and that depth suffices
for it. A final return of `null` that is replaced lets two instructions become one: what
jumped past the `null` now meets what fell into it. -/

namespace BlockAssembler.Builder

/-- The instruction behind another in the sequence. -/
def next? (b : Builder) (h : Handle) : Option Handle := b.code[b.position h + 1]?

/-- Whether the instruction is guarded by the range. -/
def guards (b : Builder) (g : GuardedRange) (h : Handle) : Bool :=
  g.start.any (b.position · ≤ b.position h) && g.skip.any (b.position h < b.position ·)

/-- The handlers that a throw from the instruction can reach. -/
def landings (b : Builder) (h : Handle) : List Handle :=
  (b.ranges.toList.filter (b.guards · h)).flatMap fun g => g.handlers.toList.filterMap Handler.start

/-- Where the jumps at the instruction have to land. -/
def targets (b : Builder) (h : Handle) : List Handle :=
  b.links.filterMap fun link => if link.jump = some h then link.target else none

/-- Where control goes from an instruction with a depth, and with which depth it arrives. -/
def leaving (b : Builder) (h : Handle) (depth : Int) : List (Handle × Int) :=
  match b.opcode? h with
  | none => []
  | some op =>
    ((if op.isTerminal then [] else (b.next? h).toList) ++ b.targets h).map (·, depth + op.stackEffect)
      ++ (b.landings h).map (·, 1)

/-- Some path from the first instruction arrives at an instruction with a depth. -/
inductive DepthAt (b : Builder) : Handle → Int → Prop
  | start {h : Handle} (hh : b.code[0]? = some h) : DepthAt b h 0
  | step {h : Handle} {depth : Int} {arrival : Handle × Int} (hdepth : DepthAt b h depth)
      (hleaving : arrival ∈ b.leaving h depth) : DepthAt b arrival.1 arrival.2

/-- The sequence returns `null`; control reaches the `null`, and it also reaches the return without it. -/
def Straddled (b : Builder) : Prop :=
  ∃ (before : List Handle) (null ret : Handle), b.code.toList = before ++ [null, ret] ∧
    b.opcode? null = some .aconstNull ∧ b.opcode? ret = some .areturn ∧ (∃ d, b.DepthAt null d) ∧
    ∃ h d d', h ≠ null ∧ b.DepthAt h d ∧ (ret, d') ∈ b.leaving h d

/-! ### Evaluation -/

section
variable {b : Builder} {h : Handle} {d : Int}

end

/-- What is reached from an instruction stands behind it, is the target of a link or starts a handler. -/
theorem mem_leaving {b : Builder} {h y : Handle} {d e : Int} (hy : (y, e) ∈ b.leaving h d) :
    b.next? h = some y ∨ (∃ link ∈ b.links, link.target = some y) ∨
      ∃ g ∈ b.ranges, ∃ k ∈ g.handlers, k.start = some y := by
  unfold leaving at hy
  split at hy
  · cases hy
  · simp only [List.mem_append, List.mem_map, Prod.mk.injEq] at hy
    obtain ⟨x, hx | hx, rfl, -⟩ | ⟨x, hx, rfl, -⟩ := hy
    · split at hx
      · cases hx
      · exact .inl (by simpa using hx)
    · obtain ⟨link, hlink, htarget⟩ := List.mem_filterMap.1 hx
      split at htarget
      · exact .inr (.inl ⟨link, hlink, htarget⟩)
      · cases htarget
    · obtain ⟨g, hg, hx⟩ := List.mem_flatMap.1 hx
      obtain ⟨k, hk, hstart⟩ := List.mem_filterMap.1 hx
      have hg' := (List.mem_filter.1 hg).1
      exact .inr (.inr ⟨g, by simpa using hg', k, by simpa using hk, hstart⟩)

/-- In `b'` the final return of `null` of `b` has been replaced; the `null` had the handle `null`. -/
structure NullDropped (b b' : Builder) (null : Nat) : Prop where
  intact : b.Intact
  size : b.arena.size = null + 2
  pushed : b.opcode? null = some .aconstNull
  returned : b.opcode? (null + 1) = some .areturn
  jumps : ∀ link ∈ b.links, ∀ x : Nat, link.jump = some x → x < null
  replaced : Replaced 2 .voidReturn b b'

namespace NullDropped

variable {b b' : Builder} {null x : Nat}

/-- Where a handle goes. -/
def moved (null x : Nat) : Handle := kept 2 (null + 2) x

theorem moved_of_lt (hx : x < null) : moved null x = x := if_pos (by omega)

theorem moved_of_le (hx : null ≤ x) : moved null x = null + 2 := if_neg (by omega)

theorem records_eq (h : NullDropped b b' null) : b'.records = b.records.renumber (moved null) := by
  have hrecords := h.replaced.records_eq h.intact fun link hlink x hx => by
    have hlt := h.jumps link hlink x hx
    rw [h.size]
    omega
  rwa [h.size] at hrecords

theorem links_eq (h : NullDropped b b' null) : b'.links = b.links.map (Link.renumber (moved null)) := by
  rw [Builder.links_eq, h.records_eq, Records.links_renumber, ← Builder.links_eq]

theorem ranges_eq (h : NullDropped b b' null) :
    b'.ranges.toList = b.ranges.toList.map (GuardedRange.renumber (moved null)) :=
  congrArg Records.ranges h.records_eq

theorem getElem?_code (h : NullDropped b b' null) (i : Nat) :
    b'.code[i]? = if i ≤ null then some (moved null i) else none := by
  rw [h.replaced.getElem?_code (by rw [h.size]; omega), h.size]
  by_cases hi : i ≤ null
  · rw [if_pos (by omega), if_pos hi]
    rfl
  · rw [if_neg (by omega), if_neg hi]

theorem position_old (h : NullDropped b b' null) (hx : x < null + 2) : b.position x = x :=
  h.intact.position_eq (by rwa [h.size])

theorem position_moved (h : NullDropped b b' null) (x : Nat) : b'.position (moved null x) = min x null := by
  have hposition := h.replaced.position_kept (by rw [h.size]; omega) x
  rwa [h.size] at hposition

theorem position_of_lt (h : NullDropped b b' null) (hx : x < null) : b'.position x = x := by
  have hposition := h.position_moved x
  rwa [moved_of_lt hx, Nat.min_eq_left (by omega)] at hposition

theorem skip_lt (h : NullDropped b b' null) {g : GuardedRange} (hg : g ∈ b.ranges) {stop : Nat}
    (hstop : g.skip = some stop) : stop < null := by
  have hg' : g ∈ b.records.ranges := by simpa [records] using hg
  have hlink : (⟨g.skip, g.join⟩ : Link) ∈ b.links :=
    Records.mem_links_range hg' (by simp [GuardedRange.links])
  exact h.jumps _ hlink stop hstop

/-- Every field that pointed at a removed instruction points at the replacement, the others stay. -/
theorem field?_eq (h : NullDropped b b' null) (a : Anchor) :
    b'.field? a = (b.field? a).map (Option.map (moved null)) := by
  rw [Builder.field?_eq, Builder.field?_eq, h.records_eq, Records.field?_renumber]

end NullDropped

/-! ### The end of a body -/

section
variable {b b' : Builder}

/-- What the records name as a jump is one. -/
theorem jumpAt_of_link (hp : b.pending = #[]) (hd : b.draft.Sound) {link : Link} (hlink : link ∈ b.links)
    {h : Handle} (hh : link.jump = some h) : JumpAt b.stored h := by
  have hrecords := draft_of_settled hp
  rw [stored_eq]
  have hrange {g : GuardedRange} (hg : g ∈ b.ranges) : ∃ isOpen, RangeSound b.draft.opcodes isOpen g := by
    obtain ⟨i, hi⟩ := Array.mem_iff_getElem?.1 hg
    exact ⟨_, hd.ranges i g (by rw [hrecords]; simpa [records] using hi)⟩
  have hchain {c : Chain} (hc : c ∈ b.chains) : ∃ isOpen, ChainSound b.draft.opcodes isOpen c := by
    obtain ⟨i, hi⟩ := Array.mem_iff_getElem?.1 hc
    exact ⟨_, hd.chains i c (by rw [hrecords]; simpa [records] using hi)⟩
  rcases Sturdy.mem_links_cases.1 hlink with ⟨g, hg, rfl⟩ | ⟨g, hg, k, hk, x, hx, rfl⟩ | ⟨c, hc, br, hbr, rfl⟩ |
    ⟨c, hc, br, hbr, x, hx, rfl⟩
  · obtain ⟨_, hsound⟩ := hrange hg
    exact hsound.jump h hh
  · obtain ⟨_, hsound⟩ := hrange hg
    exact hsound.jumps k hk h (hx.trans hh)
  · obtain ⟨_, hsound⟩ := hchain hc
    exact Option.some.inj hh ▸ hsound.tests br hbr
  · obtain ⟨_, hsound⟩ := hchain hc
    exact hsound.jumps br hbr h (hx.trans hh)

theorem NullDropped.of_replaced (hb : b.Intact) (hp : b.pending = #[]) (hd : b.draft.Sound)
    (hnull : b.returnsNull = true) (h : Replaced 2 .voidReturn b b') : ∃ null, NullDropped b b' null := by
  obtain ⟨ops, hops⟩ := stored_of_returnsNull hb hnull
  refine ⟨ops.length, hb, ?_, ?_, ?_, fun link hlink x hx => ?_, h⟩
  · simpa [stored] using congrArg List.length hops
  · rw [opcode?_eq_stored, hops, List.getElem?_append_right (Nat.le_refl _), Nat.sub_self]
    rfl
  · rw [opcode?_eq_stored, hops, List.getElem?_append_right (Nat.le_add_right ..), Nat.add_sub_cancel_left]
    rfl
  · obtain ⟨op, hop, hjump⟩ := jumpAt_of_link hp hd hlink hx
    rw [hops] at hop
    by_contra hge
    rw [List.getElem?_append_right (by omega)] at hop
    have hend : op = .aconstNull ∨ op = .areturn := by simpa using List.mem_of_getElem? hop
    rcases hend with rfl | rfl <;> cases hjump

theorem Straddled.returnsNull (h : b.Straddled) : b.returnsNull = true := by
  obtain ⟨before, null, ret, hcode, hnull, hret, -⟩ := h
  have hsize : b.code.size = before.length + 2 := by rw [← Array.length_toList, hcode]; simp
  have htail : b.tail 2 = [.aconstNull, .areturn] := by
    rw [tail, Array.toList_extract, hcode, hsize, List.extract_eq_take_drop]
    simp [hnull, hret]
  rw [Builder.returnsNull, htail]

end

end BlockAssembler.Builder
