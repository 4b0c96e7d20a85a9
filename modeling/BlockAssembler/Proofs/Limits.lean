import BlockAssembler.Proofs.Code.Position
import BlockAssembler.Proofs.Faults

/-! The limits of the format. When all structures have been ended and every jump that they own leads
onward, nothing but a limit can stop the assembly: the depth of the stack, the number of locals, the
length of the code, or the distance of a jump. They are looked at in this order, the jumps in the
order in which the records list them, and the first one that is exceeded is reported. An offset is
held against its field, too, whenever it is stored; but no instruction lies behind the end of the
code, so where the length has passed, every offset does. -/

namespace BlockAssembler

/-- A computation ends with the error that is given, and well if none is. -/
def Stops {α : Type} (r : Except AssemblyError α) : Option AssemblyError → Prop
  | some e => r = .error e
  | none => ∃ a, r = .ok a

namespace Stops

variable {α β : Type} {r : Except AssemblyError α} {f : α → Except AssemblyError β} {e? e'? : Option AssemblyError}

theorem ok (a : α) : Stops (.ok a) none := ⟨a, rfl⟩

theorem bind (hr : Stops r e?) (hf : ∀ a, Stops (f a) e'?) : Stops (r >>= f) (e?.or e'?) := by
  cases e? with
  | some e =>
    obtain rfl : r = .error e := hr
    exact rfl
  | none =>
    obtain ⟨a, rfl⟩ := hr
    exact hf a

/-- A number above its bound is an error. -/
theorem ensure (n bound : Nat) (e : AssemblyError) :
    Stops (ensure (n ≤ bound) e) (if bound < n then some e else none) := by
  rw [BlockAssembler.ensure]
  by_cases hle : n ≤ bound
  · rw [if_pos hle, if_neg (Nat.not_lt.2 hle)]
    exact ok ()
  · rw [if_neg hle, if_pos (Nat.lt_of_not_le hle)]
    exact rfl

theorem ensure_bind {f : Unit → Except AssemblyError β} (n bound : Nat) (e : AssemblyError) (hf : Stops (f ()) e?) :
    Stops (BlockAssembler.ensure (n ≤ bound) e >>= f) (if bound < n then some e else e?) := by
  have hall := (Stops.ensure n bound e).bind fun _ => hf
  split
  · next hlt => rwa [if_pos hlt] at hall
  · next hle => rwa [if_neg hle] at hall

end Stops

namespace Builder

/-- The number of bytes of the sequence. -/
def byteCount (b : Builder) : Nat := (b.opcodes.toList.map Opcode.size).sum

/-- The number of bytes from one instruction to another. -/
def span (b : Builder) (h t : Handle) : Int := (b.offsetOf t : Int) - b.offsetOf h

/-- What is reported of a jump that is too far from where it has to land. -/
def tooFar? (b : Builder) (link : Link) : Option AssemblyError := do
  let h ← link.jump
  let t ← link.target
  let op ← b.opcode? h
  if 32767 < b.span h t then some (.offsetOverflow (b.position h) op.mnemonic (b.span h t)) else none

/-- The first limit that is exceeded, as far as no record is needed to tell. -/
def exceeded? (b : Builder) (maxLocals : Nat) : Option AssemblyError :=
  if 65535 < b.stackDepth then some (.stackOverflow b.stackDepth)
  else if 65535 < maxLocals then some (.localsOverflow maxLocals)
  else if 65535 < b.byteCount then
    b.last?.map fun last => .offsetOverflow (b.code.size - 1) last.mnemonic b.byteCount
  else none

/-- The first limit that is exceeded. -/
def overflow? (b : Builder) (maxLocals : Nat) : Option AssemblyError :=
  (b.exceeded? maxLocals).or (b.links.findSome? b.tooFar?)

/-- A sequence that can be assembled as far as its records go. -/
structure Ready (b : Builder) : Prop where
  sturdy : b.Sturdy
  arranged : b.Arranged
  opened : b.opened = []
  pending : b.pending = #[]
  onward : ∀ link ∈ b.links, ∃ h t, link = ⟨some h, some t⟩ ∧ h ∈ b.code ∧ t ∈ b.code ∧ b.position h < b.position t
  /-- a jump has to land in one place only -/
  landing : ∀ h t t', (⟨some h, some t⟩ : Link) ∈ b.links → (⟨some h, some t'⟩ : Link) ∈ b.links → t = t'

/-- A code object stores what the sequence comes to, in full, in fields that hold it. -/
structure Exact (b : Builder) (maxLocals : Nat) (c : Code) : Prop where
  maxStack : c.maxStack = b.stackDepth
  maxLocals : c.maxLocals = maxLocals
  length : c.length = b.byteCount
  size : c.instructions.size = b.code.size
  offsets : ∀ (i : Nat) p, c.instructions[i]? = some p → p.offset = offset b.opcodes.toList i
  distances : ∀ h t, (⟨some h, some t⟩ : Link) ∈ b.links → ∃ op, b.opcode? h = some op ∧
    c.instructions[b.position h]? = some ⟨b.offsetOf h, op.withDistance (b.span h t)⟩
  exceptions : c.exceptions.toList = b.ranges.toList.flatMap (GuardedRange.entriesAt b.offsetOf)
  fits : c.Fits

variable {b : Builder}

theorem Arranged.length_layout (hb : b.Arranged) : b.layout.length = b.byteCount := by
  rw [(laidOut hb).length, ← hb.length_opcodes, offset, List.take_length, byteCount]

namespace Ready

variable {h t : Handle}

theorem mem_code (hb : b.Ready) (hlink : (⟨some h, some t⟩ : Link) ∈ b.links) : h ∈ b.code ∧ t ∈ b.code := by
  obtain ⟨_, _, heq, hh, ht, -⟩ := hb.onward _ hlink
  cases heq
  exact ⟨hh, ht⟩

theorem span_pos (hb : b.Ready) (hlink : (⟨some h, some t⟩ : Link) ∈ b.links) : 0 < b.span h t := by
  obtain ⟨_, _, heq, hh, -, hlt⟩ := hb.onward _ hlink
  cases heq
  have hoffset : b.offsetOf h < b.offsetOf t :=
    offset_lt hlt (by rw [hb.arranged.length_opcodes]; exact Arranged.position_lt hh)
  rw [span]
  omega

theorem gap_eq (hb : b.Ready) (hlink : (⟨some h, some t⟩ : Link) ∈ b.links) : b.gap h t = b.span h t := by
  obtain ⟨hh, ht⟩ := hb.mem_code hlink
  rw [gap, place_eq hb.arranged hh, place_eq hb.arranged ht, span]

theorem fitsJump_iff (hb : b.Ready) (hlink : (⟨some h, some t⟩ : Link) ∈ b.links) :
    Opcode.fitsJump (b.gap h t) ↔ b.span h t ≤ 32767 := by
  have hpos := hb.span_pos hlink
  rw [hb.gap_eq hlink, Opcode.fitsJump]
  omega

/-- A link gets its distance, or it is refused for it. -/
theorem stops_distance (hb : b.Ready) {link : Link} (hlink : link ∈ b.links) :
    Stops (b.distance b.layout link) (b.tooFar? link) := by
  obtain ⟨h, t, rfl, hh, -⟩ := hb.onward _ hlink
  obtain ⟨op, hop, hdistance⟩ := hb.sturdy.distance_eq hlink
  have hfits := hb.fitsJump_iff hlink
  rw [place_eq hb.arranged hh, hb.gap_eq hlink] at hdistance
  rw [hb.gap_eq hlink] at hfits
  have htooFar : b.tooFar? ⟨some h, some t⟩ =
      if 32767 < b.span h t then some (.offsetOverflow (b.position h) op.mnemonic (b.span h t)) else none := by
    simp only [tooFar?, Option.bind_eq_bind, Option.bind_some, hop]
  rw [htooFar, hdistance]
  by_cases hfar : 32767 < b.span h t
  · rw [if_pos hfar, if_neg (by rw [hfits]; omega)]
    exact rfl
  · rw [if_neg hfar, if_pos (by rw [hfits]; omega)]
    exact .ok _

/-- The first jump that is too far stops the others from getting their distances. -/
theorem stops_space (hb : b.Ready) {links : List Link} (hlinks : ∀ link ∈ links, link ∈ b.links) (ops : Array Opcode) :
    Stops (b.space b.layout links ops) (links.findSome? b.tooFar?) := by
  induction links generalizing ops with
  | nil => exact .ok ops
  | cons link links ih =>
    have hfirst : (link :: links).findSome? b.tooFar? = (b.tooFar? link).or (links.findSome? b.tooFar?) := by
      rw [List.findSome?_cons]
      cases b.tooFar? link <;> rfl
    rw [hfirst, space]
    exact (hb.stops_distance (hlinks link (by simp))).bind fun r => ih (fun x hx => hlinks x (by simp [hx])) _

theorem stops_checkLength (hb : b.Ready) : Stops b.checkLength
    (if 65535 < b.byteCount then
      b.last?.map fun last => .offsetOverflow (b.code.size - 1) last.mnemonic b.byteCount
    else none) := by
  rw [checkLength, hb.arranged.length_layout]
  cases b.last? with
  | none =>
    rw [Option.map_none, ite_self]
    exact .ok ()
  | some last => exact .ensure ..

theorem stops_checkLimits (hb : b.Ready) (maxLocals : Nat) :
    Stops (b.checkLimits maxLocals) (b.exceeded? maxLocals) := by
  have hpending : b.checkPending = .ok () := by
    rw [checkPending, hb.pending]
    rfl
  have hopened : ensure b.opened.isEmpty (.malformedStructure .unterminated) =
      (.ok () : Except AssemblyError Unit) := by
    rw [hb.opened]
    rfl
  rw [checkLimits, hopened, hpending, exceeded?]
  exact .ensure_bind _ _ _ (.ensure_bind _ _ _ hb.stops_checkLength)

/-- If every offset fits, the jumps are all that can be refused. -/
theorem stops_place (hb : b.Ready) (hfits : Spanned b.layout) (maxLocals : Nat) :
    Stops (b.place maxLocals) (b.links.findSome? b.tooFar?) := by
  obtain ⟨es, hes⟩ := (hb.sturdy.limited_exceptionTable b.layout).ok hfits
  have hspaced : Stops (b.spaced b.layout) (b.links.findSome? b.tooFar?) := hb.stops_space (fun _ h => h) _
  have hpatched : Stops (b.patched b.layout) ((b.links.findSome? b.tooFar?).or none) := by
    rw [patched, hes]
    exact hspaced.bind fun ops => .ok (es, ops)
  rw [Option.or_none] at hpatched
  rw [← Option.or_none (o := b.links.findSome? b.tooFar?)]
  refine hpatched.bind fun r => (limited_finished b b.layout maxLocals r.1 r.2).ok fun x hx => ?_
  obtain ⟨h, -, hx⟩ := List.mem_filterMap.1 hx
  obtain ⟨op, -, rfl⟩ := Option.map_eq_some_iff.1 hx
  exact hfits h

/-- Nothing but a limit stops the assembly. -/
theorem assemble_run (hb : b.Ready) (maxLocals : Nat) :
    match b.overflow? maxLocals with
    | some e => ∃ b', (assemble maxLocals).run b = .error e b'
    | none => ∃ c b', (assemble maxLocals).run b = .ok c b' := by
  have hlimits := hb.stops_checkLimits maxLocals
  rw [overflow?]
  cases hexceeded : b.exceeded? maxLocals with
  | some e =>
    rw [hexceeded] at hlimits
    exact assemble_eq_error_iff.2 (.inl hlimits)
  | none =>
    rw [hexceeded] at hlimits
    obtain ⟨_, hlimits⟩ := hlimits
    have hplace := hb.stops_place (hb.arranged.spanned hlimits) maxLocals
    rw [Option.none_or]
    cases hfar : b.links.findSome? b.tooFar? with
    | some e =>
      rw [hfar] at hplace
      exact assemble_eq_error_iff.2 (.inr ⟨hlimits, hplace⟩)
    | none =>
      rw [hfar] at hplace
      obtain ⟨c, hplace⟩ := hplace
      exact ⟨c, assemble_eq_ok_iff.2 ⟨hlimits, hplace⟩⟩

theorem assemble_ok_iff (hb : b.Ready) (maxLocals : Nat) :
    (∃ c b', (assemble maxLocals).run b = .ok c b') ↔ b.overflow? maxLocals = none := by
  have hassemble := hb.assemble_run maxLocals
  cases hoverflow : b.overflow? maxLocals with
  | some e =>
    rw [hoverflow] at hassemble
    obtain ⟨b', hrun⟩ := hassemble
    refine ⟨?_, fun h => nomatch h⟩
    rintro ⟨c, b', hc⟩
    cases hrun.symm.trans hc
  | none =>
    rw [hoverflow] at hassemble
    exact ⟨fun _ => rfl, fun _ => hassemble⟩

theorem assemble_error (hb : b.Ready) {maxLocals : Nat} {e : AssemblyError} {b' : Builder}
    (h : (assemble maxLocals).run b = .error e b') : b.overflow? maxLocals = some e := by
  have hassemble := hb.assemble_run maxLocals
  cases hoverflow : b.overflow? maxLocals with
  | some e' =>
    rw [hoverflow] at hassemble
    obtain ⟨b'', hrun⟩ := hassemble
    cases hrun.symm.trans h
    rfl
  | none =>
    rw [hoverflow] at hassemble
    obtain ⟨c, b'', hrun⟩ := hassemble
    cases hrun.symm.trans h

theorem tooFar?_eq_none (hb : b.Ready) (hlink : (⟨some h, some t⟩ : Link) ∈ b.links) :
    b.tooFar? ⟨some h, some t⟩ = none ↔ b.span h t ≤ 32767 := by
  obtain ⟨op, hop, -⟩ := hb.sturdy.distance_eq hlink
  simp [tooFar?, hop]

/-- An empty sequence exceeds no limit, so there is an instruction that the length is held against. -/
theorem exceeded?_eq_none (hb : b.Ready) (maxLocals : Nat) :
    b.exceeded? maxLocals = none ↔ b.stackDepth ≤ 65535 ∧ maxLocals ≤ 65535 ∧ b.byteCount ≤ 65535 := by
  have hlast : 65535 < b.byteCount → b.last? ≠ none := by
    intro hlong hnone
    have hempty : b.opcodes.toList = [] := by
      rw [← List.length_eq_zero_iff, hb.arranged.length_opcodes, hb.arranged.code_eq_empty hnone]
      rfl
    rw [byteCount, hempty] at hlong
    simp at hlong
  rw [exceeded?]
  split
  · next hdeep => simp; omega
  split
  · next hlocals => simp; omega
  split
  · next hlong =>
    rw [Option.map_eq_none_iff]
    exact ⟨fun hnone => absurd hnone (hlast hlong), fun hall => absurd hall.2.2 (by omega)⟩
  · simp; omega

theorem overflow?_eq_none (hb : b.Ready) (maxLocals : Nat) :
    b.overflow? maxLocals = none ↔ b.stackDepth ≤ 65535 ∧ maxLocals ≤ 65535 ∧ b.byteCount ≤ 65535 ∧
      ∀ h t, (⟨some h, some t⟩ : Link) ∈ b.links → b.span h t ≤ 32767 := by
  have hjumps : b.links.findSome? b.tooFar? = none ↔
      ∀ h t, (⟨some h, some t⟩ : Link) ∈ b.links → b.span h t ≤ 32767 := by
    rw [List.findSome?_eq_none_iff]
    constructor
    · exact fun hall h t hlink => (hb.tooFar?_eq_none hlink).1 (hall _ hlink)
    · intro hall link hlink
      obtain ⟨h, t, rfl, -⟩ := hb.onward link hlink
      exact (hb.tooFar?_eq_none hlink).2 (hall h t hlink)
  rw [overflow?, Option.or_eq_none_iff, hb.exceeded?_eq_none, hjumps, and_assoc, and_assoc]

theorem exact (hb : b.Ready) {maxLocals : Nat} {c : Code} {b' : Builder}
    (h : (assemble maxLocals).run b = .ok c b') : b.Exact maxLocals c := by
  have hplaced := assemble_eq_ok hb.arranged h
  refine ⟨hplaced.maxStack_eq, hplaced.maxLocals_eq, hplaced.length_eq hb.arranged,
    hplaced.size_instructions hb.arranged, fun i p hp => (hplaced.offset_eq hp).1, ?_, ?_, hplaced.fits⟩
  · intro h t hlink
    obtain ⟨hh, -⟩ := hb.mem_code hlink
    obtain ⟨op, placed, hop, hp, ⟨hfree, -⟩ | ⟨t', -, hlink', -, rfl⟩⟩ :=
      hplaced.getElem?_cases hb.arranged (Arranged.getElem?_position hh)
    · exact absurd rfl (hfree _ hlink)
    · obtain rfl := hb.landing h t t' hlink hlink'
      exact ⟨op, hop, hp⟩
  · exact (exceptionTable_eq_ok hb.arranged hplaced.exceptions).1

end Ready

end Builder

end BlockAssembler
