import BlockAssembler.Block.Tail
import BlockAssembler.Builder.Assembly
import BlockAssembler.Proofs.Draft.Simulation
import Mathlib.Algebra.GroupWithZero.Nat
import Mathlib.Data.List.Basic

/-! Where the instructions of a builder come to lie: each at its place in the sequence, at
the sum of the sizes before it. In an intact builder the place of an instruction is its
handle. -/

namespace BlockAssembler

/-- The offset of the instruction with the index `i`. -/
def offset (ops : List Opcode) (i : Nat) : Nat := ((ops.take i).map Opcode.size).sum

/-- The instructions without their offsets. -/
def Code.opcodes (c : Code) : List Opcode := c.instructions.toList.map PlacedOpcode.opcode

section
variable {ops : List Opcode}

theorem offset_zero : offset ops 0 = 0 := by simp [offset]

theorem offset_succ (i : Nat) : offset ops (i + 1) = offset ops i + (ops[i]?.map Opcode.size).getD 0 := by
  rw [offset, List.take_add_one, List.map_append, List.sum_append, ← offset]
  cases ops[i]? <;> simp

theorem offset_le_succ (i : Nat) : offset ops i ≤ offset ops (i + 1) := by
  rw [offset_succ]
  exact Nat.le_add_right ..

theorem offset_mono {i j : Nat} (hij : i ≤ j) : offset ops i ≤ offset ops j := by
  induction hij with
  | refl => exact Nat.le_refl _
  | step _ ih => exact Nat.le_trans ih (offset_le_succ _)

theorem offset_lt {i j : Nat} (hij : i < j) (hi : i < ops.length) : offset ops i < offset ops j := by
  refine Nat.lt_of_lt_of_le ?_ (offset_mono hij)
  have hpos := Opcode.size_pos ops[i]
  rw [offset_succ, List.getElem?_eq_getElem hi]
  simp only [Option.map_some, Option.getD_some]
  omega

/-- An instruction has an offset of its own. -/
theorem offset_inj {i j : Nat} (hi : i < ops.length) (h : offset ops i = offset ops j) : i = j := by
  rcases Nat.lt_trichotomy i j with hlt | heq | hgt
  · exact absurd h (Nat.ne_of_lt (offset_lt hlt hi))
  · exact heq
  · exact absurd h (Nat.ne_of_gt (offset_lt hgt (Nat.lt_trans hgt hi)))

/-- The offsets of instructions depend only on what is in front of them. -/
theorem offset_append (ops' : List Opcode) {i : Nat} (hi : i ≤ ops.length) :
    offset (ops ++ ops') i = offset ops i := by
  rw [offset, offset, List.take_append_of_le_length hi]

end

/-! ### Jumps -/

namespace Opcode

variable {op : Opcode} {ops ops' : List Opcode}

theorem withDistance_withDistance (d d' : Int) (op : Opcode) :
    (op.withDistance d).withDistance d' = op.withDistance d' := by
  cases op <;> rfl

theorem size_of_isJump (h : op.isJump = true) : op.size = 3 := by
  cases op <;> first | rfl | cases h

theorem distance?_withDistance (h : op.isJump = true) (d : Int) : (op.withDistance d).distance? = some d := by
  cases op <;> first | rfl | cases h

theorem withDistance_of_not_isJump (h : op.isJump = false) (d : Int) : op.withDistance d = op := by
  cases op <;> first | rfl | cases h

theorem isJump_of_isReturn (h : op.isReturn = true) : op.isJump = false := by
  cases op <;> first | rfl | cases h

theorem withDistance_eq_iff {op op' : Opcode} (h : op'.isJump = false) (d : Int) :
    op.withDistance d = op' ↔ op = op' := by
  cases hop : op.isJump with
  | false => rw [withDistance_of_not_isJump hop]
  | true =>
    refine iff_of_false ?_ ?_
    · rintro rfl
      simp [isJump, distance?_withDistance hop] at h
    · rintro rfl
      cases h.symm.trans hop

theorem map_withDistance_eq_iff (h : ∀ op ∈ ops', op.isJump = false) (d : Int) :
    ops.map (withDistance d) = ops' ↔ ops = ops' := by
  induction ops generalizing ops' with
  | nil => simp
  | cons op ops ih =>
    cases ops' with
    | nil => simp
    | cons op' ops' =>
      rw [List.map_cons, List.cons.injEq, List.cons.injEq, withDistance_eq_iff (h op' (by simp)),
        ih fun x hx => h x (by simp [hx])]

theorem suffix_map_withDistance_iff (h : ∀ op ∈ ops', op.isJump = false) (d : Int) :
    ops' <:+ ops.map (withDistance d) ↔ ops' <:+ ops := by
  rw [List.suffix_iff_eq_drop, List.suffix_iff_eq_drop, List.length_map, ← List.map_drop, eq_comm,
    map_withDistance_eq_iff h, eq_comm]

end Opcode

/-- The entry of a handler of a range whose fields are filled. -/
def GuardedRange.entry (ops : List Opcode) (g : GuardedRange) (k : Handler) : ExceptionEntry :=
  ⟨offset ops (g.start.getD 0), offset ops (g.skip.getD 0), offset ops (k.start.getD 0), k.catches⟩

/-- The entries of a range; none if it guards no instruction. -/
def GuardedRange.entries (ops : List Opcode) (g : GuardedRange) : List ExceptionEntry :=
  if offset ops (g.start.getD 0) < offset ops (g.skip.getD 0) then g.handlers.toList.map (g.entry ops)
  else []

/-- The entries of a range, if `place` gives the offsets of instructions. -/
def GuardedRange.entriesAt (place : Handle → Nat) (g : GuardedRange) : List ExceptionEntry :=
  let start := place (g.start.getD 0)
  let stop := place (g.skip.getD 0)
  if start < stop then
    g.handlers.toList.map fun k => ⟨start, stop, place (k.start.getD 0), k.catches⟩
  else []

theorem Place.coordinate_eq_ok {p : Place} {op : Opcode} {n : Nat} :
    p.coordinate op = .ok n ↔ p.offset ≤ Builder.fieldLimit ∧ n = p.offset := by
  rw [Place.coordinate, except_bind_eq_ok]
  constructor
  · rintro ⟨_, hle, h⟩
    exact ⟨ensure_eq_ok hle, (Except.ok.inj h).symm⟩
  · rintro ⟨hle, rfl⟩
    exact ⟨(), if_pos hle, rfl⟩

/-- Every number that a code object stores for itself fits in its field of the format. -/
structure Code.Fits (c : Code) : Prop where
  maxStack : c.maxStack ≤ Builder.fieldLimit
  maxLocals : c.maxLocals ≤ Builder.fieldLimit
  instructions : ∀ p ∈ c.instructions, p.offset ≤ Builder.fieldLimit
  exceptions : ∀ e ∈ c.exceptions,
    e.start ≤ Builder.fieldLimit ∧ e.stop ≤ Builder.fieldLimit ∧ e.handler ≤ Builder.fieldLimit

namespace Builder

/-- Every instruction in use stands once in the sequence. -/
structure Arranged (b : Builder) : Prop where
  nodup : b.code.toList.Nodup
  alive_iff : ∀ h, b.isAlive h = true ↔ h ∈ b.code

/-- The index of an instruction in the sequence. -/
def position (b : Builder) (h : Handle) : Nat := b.code.toList.idxOf h

/-- The offset of an instruction. -/
def offsetOf (b : Builder) (h : Handle) : Nat := offset b.opcodes.toList (b.position h)

variable {b : Builder}

/-! ### The sequence -/

theorem getElem?_filterMap_of_isSome {α β : Type} {f : α → Option β} {xs : List α}
    (hf : ∀ x ∈ xs, (f x).isSome) (i : Nat) : (xs.filterMap f)[i]? = xs[i]?.bind f := by
  induction xs generalizing i with
  | nil => simp
  | cons x xs ih =>
    obtain ⟨y, hy⟩ := Option.isSome_iff_exists.1 (hf x (by simp))
    rw [List.filterMap_cons_some hy]
    cases i with
    | zero => simp [hy]
    | succ i => simpa using ih (fun z hz => hf z (by simp [hz])) i

theorem length_filterMap_of_isSome {α β : Type} {f : α → Option β} {xs : List α}
    (hf : ∀ x ∈ xs, (f x).isSome) : (xs.filterMap f).length = xs.length := by
  induction xs with
  | nil => rfl
  | cons x xs ih =>
    obtain ⟨y, hy⟩ := Option.isSome_iff_exists.1 (hf x (by simp))
    rw [List.filterMap_cons_some hy, List.length_cons, List.length_cons, ih fun z hz => hf z (by simp [hz])]

namespace Arranged

variable {h : Handle} {i : Nat}

theorem lt_size (hb : b.Arranged) (hh : h ∈ b.code) : h < b.arena.size := by
  have halive := (hb.alive_iff h).2 hh
  rw [isAlive, Option.any_eq_true] at halive
  obtain ⟨c, hc, -⟩ := halive
  exact (Array.getElem?_eq_some_iff.1 hc).1

theorem position_eq (hb : b.Arranged) (hi : b.code[i]? = some h) : b.position h = i := by
  rw [← Array.getElem?_toList] at hi
  obtain ⟨hlt, rfl⟩ := List.getElem?_eq_some_iff.1 hi
  exact hb.nodup.idxOf_getElem i hlt

theorem getElem?_position (hh : h ∈ b.code) : b.code[b.position h]? = some h := by
  have hmem : h ∈ b.code.toList := by simpa using hh
  rw [← Array.getElem?_toList, position, List.getElem?_idxOf hmem]

theorem position_lt (hh : h ∈ b.code) : b.position h < b.code.size :=
  (Array.getElem?_eq_some_iff.1 (getElem?_position hh)).1

theorem isSome_cell (hb : b.Arranged) : ∀ h ∈ b.code.toList, (b.arena[h]?).isSome := by
  intro h hh
  rw [Array.getElem?_eq_getElem (hb.lt_size (by simpa using hh))]
  rfl

/-- The instructions in the order of the sequence. -/
theorem getElem?_opcodes (hb : b.Arranged) (i : Nat) : b.opcodes.toList[i]? = b.code[i]?.bind b.opcode? := by
  rw [opcodes, cells, Array.toList_map, Array.toList_filterMap, List.getElem?_map,
    getElem?_filterMap_of_isSome hb.isSome_cell, Array.getElem?_toList]
  cases b.code[i]? <;> rfl

theorem length_opcodes (hb : b.Arranged) : b.opcodes.toList.length = b.code.size := by
  rw [opcodes, cells, Array.toList_map, Array.toList_filterMap, List.length_map,
    length_filterMap_of_isSome hb.isSome_cell, Array.length_toList]

theorem tail_eq (hb : b.Arranged) (n : Nat) : b.tail n = b.opcodes.toList.drop (b.code.size - n) := by
  have hsome : ∀ h ∈ b.code.toList.drop (b.code.size - n), (b.opcode? h).isSome := fun h hh => by
    rw [opcode?, Option.isSome_map]
    exact hb.isSome_cell h (List.mem_of_mem_drop hh)
  rw [tail, Array.toList_extract, List.extract_eq_take_drop, List.take_of_length_le (by simp)]
  apply List.ext_getElem?
  intro i
  rw [getElem?_filterMap_of_isSome hsome, List.getElem?_drop, List.getElem?_drop, Array.getElem?_toList,
    hb.getElem?_opcodes]

theorem returnsNull_iff (hb : b.Arranged) :
    b.returnsNull = true ↔ [.aconstNull, .areturn] <:+ b.opcodes.toList := by
  have hlength := hb.length_opcodes
  rw [returnsNull, hb.tail_eq]
  constructor
  · intro hnull
    split at hnull
    · next hdrop => exact hdrop ▸ List.drop_suffix ..
    · cases hnull
  · rintro ⟨front, hops⟩
    have hsize : b.code.size - 2 = front.length := by
      rw [← hlength, ← hops, List.length_append]
      rfl
    rw [← hops, hsize, List.drop_left]

end Arranged

/-! ### The layout -/

theorem offset_put_le {l : Layout} (hl : ∀ h, (l.place h).offset ≤ l.length) (x : Handle) (size : Nat) (h : Handle) :
    ((l.put x size).place h).offset ≤ (l.put x size).length := by
  have hbefore := hl h
  unfold Layout.place at hbefore ⊢
  simp only [Layout.put, Array.set!_eq_setIfInBounds, Array.getElem?_setIfInBounds]
  split
  · split
    · exact Nat.le_add_right ..
    · exact Nat.zero_le _
  · exact Nat.le_add_right_of_le hbefore

/-- No instruction lies behind the end of all. -/
theorem offset_layout_le (b : Builder) (h : Handle) : (b.layout.place h).offset ≤ b.layout.length := by
  have hblank (h : Handle) : ((Layout.blank b.arena.size).place h).offset ≤ (Layout.blank b.arena.size).length := by
    rw [Layout.place, Layout.blank, Array.getElem?_replicate]
    split <;> exact Nat.le_refl _
  have hput (hs : List Handle) {l : Layout} (hl : ∀ h, (l.place h).offset ≤ l.length) :
      let all := hs.foldl (fun l h => l.put h ((b.opcode? h).map Opcode.size |>.getD 0)) l
      ∀ h, (all.place h).offset ≤ all.length := by
    induction hs generalizing l with
    | nil => exact hl
    | cons x hs ih => exact ih (offset_put_le hl x _)
  rw [layout, ← Array.foldl_toList]
  exact hput b.code.toList hblank h

/-- The layout of the first `k` instructions. -/
structure LaidOut (b : Builder) (k : Nat) (l : Layout) : Prop where
  count : l.count = k
  length : l.length = offset b.opcodes.toList k
  size : l.places.size = b.arena.size
  place : ∀ i < k, ∀ h, b.code[i]? = some h → l.places[h]? = some ⟨i, offset b.opcodes.toList i⟩

theorem LaidOut.put (hb : b.Arranged) {k : Nat} {l : Layout} {x : Handle} (hl : LaidOut b k l)
    (hx : b.code[k]? = some x) : LaidOut b (k + 1) (l.put x ((b.opcode? x).map Opcode.size |>.getD 0)) where
  count := by rw [Layout.put, hl.count]
  length := by rw [Layout.put, hl.length, offset_succ, hb.getElem?_opcodes, hx, Option.bind_some]
  size := by rw [Layout.put, Array.set!_eq_setIfInBounds, Array.size_setIfInBounds, hl.size]
  place i hi h hh := by
    rw [Layout.put, Array.set!_eq_setIfInBounds, Array.getElem?_setIfInBounds, hl.count, hl.length, hl.size]
    by_cases hxh : x = h
    · subst hxh
      have hik : i = k := by rw [← hb.position_eq hh, hb.position_eq hx]
      rw [if_pos rfl, if_pos (hb.lt_size (Array.mem_of_getElem? hx)), hik]
    · have hne : i ≠ k := by
        rintro rfl
        exact hxh (Option.some.inj (hx.symm.trans hh))
      rw [if_neg hxh]
      exact hl.place i (by omega) h hh

theorem laidOut_foldl (hb : b.Arranged) {k : Nat} (hk : k ≤ b.code.size) :
    LaidOut b k ((b.code.toList.take k).foldl
      (fun l h => l.put h ((b.opcode? h).map Opcode.size |>.getD 0)) (.blank b.arena.size)) := by
  induction k with
  | zero => exact ⟨rfl, offset_zero.symm, by simp [Layout.blank], by simp⟩
  | succ k ih =>
    have hlt : k < b.code.size := hk
    rw [List.take_add_one, Array.getElem?_toList, Array.getElem?_eq_getElem hlt, Option.toList_some,
      List.foldl_append, List.foldl_cons, List.foldl_nil]
    exact (ih (by omega)).put hb (Array.getElem?_eq_getElem hlt)

theorem laidOut (hb : b.Arranged) : LaidOut b b.code.size b.layout := by
  have hall := laidOut_foldl hb (Nat.le_refl _)
  rwa [List.take_of_length_le (by simp), Array.foldl_toList] at hall

/-- Every instruction lies at its place in the sequence. -/
theorem place_eq (hb : b.Arranged) {h : Handle} (hh : h ∈ b.code) :
    b.layout.place h = ⟨b.position h, b.offsetOf h⟩ := by
  have hplace := (laidOut hb).place _ (Arranged.position_lt hh) h (Arranged.getElem?_position hh)
  rw [Layout.place, hplace]
  rfl

theorem placeOf_eq_ok (hb : b.Arranged) {field : Option Handle} {p : Place}
    (h : b.placeOf b.layout field = .ok p) :
    ∃ i, field = some i ∧ i ∈ b.code ∧ p = ⟨b.position i, b.offsetOf i⟩ := by
  unfold placeOf at h
  split at h
  · simp at h
  · next i =>
    split at h
    · simp at h
    · next cell hcell =>
      split at h
      · next halive =>
        have hi : i ∈ b.code := by
          rw [← hb.alive_iff, isAlive, hcell]
          exact halive
        rw [place_eq hb hi] at h
        exact ⟨i, rfl, hi, (Except.ok.inj h).symm⟩
      · simp at h

/-! ### Coordinates -/

theorem coordinate_eq_ok (hb : b.Arranged) {field : Option Handle} {n : Nat}
    (h : b.coordinate b.layout field = .ok n) : ∃ i ∈ b.code, field = some i ∧ n = b.offsetOf i := by
  obtain ⟨p, hp, h⟩ := except_bind_eq_ok.1 h
  obtain ⟨i, rfl, hi, rfl⟩ := placeOf_eq_ok hb hp
  refine ⟨i, hi, rfl, ?_⟩
  split at h
  · exact (Place.coordinate_eq_ok.1 h).2
  · cases h

theorem coordinate_le {l : Layout} {field : Option Handle} {n : Nat} (h : b.coordinate l field = .ok n) :
    n ≤ fieldLimit := by
  obtain ⟨p, -, h⟩ := except_bind_eq_ok.1 h
  split at h
  · obtain ⟨hle, rfl⟩ := Place.coordinate_eq_ok.1 h
    exact hle
  · cases h

/-! ### The exception table -/

theorem mapM_eq_ok {ε α β : Type} {f : α → Except ε β} {xs : List α} {ys : List β} (h : xs.mapM f = .ok ys) :
    (∀ x ∈ xs, ∃ y, f x = .ok y) ∧ ∀ g : α → β, (∀ x ∈ xs, ∀ y, f x = .ok y → y = g x) → ys = xs.map g := by
  induction xs generalizing ys with
  | nil =>
    rw [List.mapM_nil] at h
    obtain rfl := Except.ok.inj h
    exact ⟨by simp, fun _ _ => rfl⟩
  | cons x xs ih =>
    rw [List.mapM_cons, except_bind_eq_ok] at h
    obtain ⟨y, hy, h⟩ := h
    obtain ⟨zs, hzs, h⟩ := except_bind_eq_ok.1 h
    obtain rfl := Except.ok.inj h
    obtain ⟨hall, hmap⟩ := ih hzs
    refine ⟨by simpa using ⟨⟨y, hy⟩, hall⟩, fun g hg => ?_⟩
    rw [List.map_cons, hg x (by simp) y hy, hmap g fun z hz => hg z (by simp [hz])]

theorem exists_of_mem_mapM {ε α β : Type} {f : α → Except ε β} {xs : List α} {ys : List β} (h : xs.mapM f = .ok ys)
    {y : β} (hy : y ∈ ys) : ∃ x ∈ xs, f x = .ok y := by
  obtain ⟨hall, hmap⟩ := mapM_eq_ok h
  have hvalue : ∀ x ∈ xs, ∀ z, f x = .ok z → z = (f x).toOption.getD y := by
    intro x _ z hz
    rw [hz]
    rfl
  rw [hmap _ hvalue] at hy
  obtain ⟨x, hx, hxy⟩ := List.mem_map.1 hy
  obtain ⟨z, hz⟩ := hall x hx
  exact ⟨x, hx, by rw [hz, hvalue x hx z hz, hxy]⟩

theorem entry_eq_ok (hb : b.Arranged) {g : GuardedRange} {k : Handler} {e : ExceptionEntry}
    (h : b.entry b.layout g k = .ok e) :
    e = ⟨b.offsetOf (g.start.getD 0), b.offsetOf (g.skip.getD 0), b.offsetOf (k.start.getD 0), k.catches⟩ ∧
      ∃ i ∈ b.code, k.start = some i := by
  obtain ⟨_, hstart, h⟩ := except_bind_eq_ok.1 h
  obtain ⟨_, hstop, h⟩ := except_bind_eq_ok.1 h
  obtain ⟨_, hhandler, h⟩ := except_bind_eq_ok.1 h
  obtain rfl := Except.ok.inj h
  obtain ⟨start, -, hs, rfl⟩ := coordinate_eq_ok hb hstart
  obtain ⟨stop, -, ht, rfl⟩ := coordinate_eq_ok hb hstop
  obtain ⟨handler, hmem, hk, rfl⟩ := coordinate_eq_ok hb hhandler
  exact ⟨by rw [hs, ht, hk]; rfl, handler, hmem, hk⟩

/-- The fields that the entries of a range are read from name instructions of the sequence. -/
structure Enters (b : Builder) (g : GuardedRange) : Prop where
  start : ∃ h ∈ b.code, g.start = some h
  stop : ∃ h ∈ b.code, g.skip = some h
  handlers : b.offsetOf (g.start.getD 0) < b.offsetOf (g.skip.getD 0) →
    ∀ k ∈ g.handlers, ∃ h ∈ b.code, k.start = some h

theorem entries_eq_ok (hb : b.Arranged) {g : GuardedRange} {es : List ExceptionEntry}
    (h : b.entries b.layout g = .ok es) : es = g.entriesAt b.offsetOf ∧ b.Enters g := by
  unfold entries guarded at h
  simp only [except_bind_eq_ok] at h
  obtain ⟨⟨p, q⟩, ⟨_, hp, _, hq, hpq⟩, h⟩ := h
  obtain ⟨start, hstart, hmem, rfl⟩ := placeOf_eq_ok hb hp
  obtain ⟨stop, hstop, hmem', rfl⟩ := placeOf_eq_ok hb hq
  cases Except.ok.inj hpq
  dsimp only at h
  by_cases hlt : b.offsetOf start < b.offsetOf stop
  · rw [if_pos hlt] at h
    obtain ⟨hall, hmap⟩ := mapM_eq_ok h
    refine ⟨?_, ⟨start, hmem, hstart⟩, ⟨stop, hmem', hstop⟩, fun _ k hk => ?_⟩
    · rw [GuardedRange.entriesAt, hstart, hstop, Option.getD_some, Option.getD_some, if_pos hlt]
      refine hmap _ fun k _ e he => ?_
      rw [(entry_eq_ok hb he).1, hstart, hstop, Option.getD_some, Option.getD_some]
    · obtain ⟨e, he⟩ := hall k (by simpa using hk)
      exact (entry_eq_ok hb he).2
  · rw [if_neg hlt] at h
    refine ⟨?_, ⟨start, hmem, hstart⟩, ⟨stop, hmem', hstop⟩, fun hlt' => ?_⟩
    · rw [GuardedRange.entriesAt, hstart, hstop, Option.getD_some, Option.getD_some, if_neg hlt]
      exact (Except.ok.inj h).symm
    · rw [hstart, hstop] at hlt'
      exact absurd hlt' hlt

theorem exceptionTable_eq_ok (hb : b.Arranged) {es : List ExceptionEntry}
    (h : b.exceptionTable b.layout = .ok es) :
    es = b.ranges.toList.flatMap (GuardedRange.entriesAt b.offsetOf) ∧ ∀ g ∈ b.ranges, b.Enters g := by
  unfold exceptionTable at h
  obtain ⟨ess, hess, h⟩ := except_bind_eq_ok.1 h
  obtain rfl := Except.ok.inj h
  obtain ⟨hall, hmap⟩ := mapM_eq_ok hess
  refine ⟨?_, fun g hg => ?_⟩
  · rw [hmap _ fun g _ es hes => (entries_eq_ok hb hes).1, List.flatMap_def]
  · obtain ⟨es, hes⟩ := hall g (by simpa using hg)
    exact (entries_eq_ok hb hes).2

/-! ### Distances -/

theorem distance_eq_ok (hb : b.Arranged) {link : Link} {h : Handle} {d : Int}
    (heq : b.distance b.layout link = .ok (h, d)) :
    ∃ t, link = ⟨some h, some t⟩ ∧ h ∈ b.code ∧ t ∈ b.code ∧ d = (b.offsetOf t : Int) - b.offsetOf h := by
  unfold distance at heq
  simp only [except_bind_eq_ok] at heq
  obtain ⟨p, hp, q, hq, heq⟩ := heq
  obtain ⟨t, ht, htmem, rfl⟩ := placeOf_eq_ok hb hp
  obtain ⟨j, hj, hjmem, rfl⟩ := placeOf_eq_ok hb hq
  obtain ⟨jump, target⟩ := link
  obtain rfl : jump = some j := hj
  obtain rfl : target = some t := ht
  simp only [Option.bind_some] at heq
  split at heq
  · next h' op hjump hop =>
    obtain rfl := Option.some.inj hjump
    obtain ⟨-, -, heq⟩ := except_bind_eq_ok.1 heq
    obtain ⟨-, -, heq⟩ := except_bind_eq_ok.1 heq
    cases Except.ok.inj heq
    exact ⟨t, rfl, hjmem, htmem, rfl⟩
  · simp [throw, throwThe, MonadExceptOf.throw] at heq

theorem fitsJump_of_distance {l : Layout} {link : Link} {h : Handle} {d : Int}
    (heq : b.distance l link = .ok (h, d)) : Opcode.fitsJump d := by
  unfold distance at heq
  simp only [except_bind_eq_ok] at heq
  obtain ⟨_, -, _, -, heq⟩ := heq
  split at heq
  · obtain ⟨_, hfits, heq⟩ := except_bind_eq_ok.1 heq
    obtain ⟨_, -, heq⟩ := except_bind_eq_ok.1 heq
    cases Except.ok.inj heq
    exact ensure_eq_ok hfits
  · cases heq

section
variable {l : Layout} {links : List Link} {ops ops' : Array Opcode}

theorem size_space (h : b.space l links ops = .ok ops') : ops'.size = ops.size := by
  induction links generalizing ops with
  | nil =>
    obtain rfl := Except.ok.inj h
    rfl
  | cons link links ih =>
    unfold space at h
    obtain ⟨⟨j, d⟩, -, h⟩ := except_bind_eq_ok.1 h
    rw [ih h, Array.size_modify]

theorem distance_of_space (h : b.space l links ops = .ok ops') {link : Link} (hlink : link ∈ links) :
    ∃ r, b.distance l link = .ok r := by
  induction links generalizing ops with
  | nil => simp at hlink
  | cons x links ih =>
    unfold space at h
    obtain ⟨r, hr, h⟩ := except_bind_eq_ok.1 h
    rcases List.mem_cons.1 hlink with rfl | hlink
    · exact ⟨r, hr⟩
    · exact ih h hlink

/-- What no link names stays as it is; a jump that links name gets the distance of one of them. -/
theorem space_cases (h : b.space l links ops = .ok ops') (i : Handle) :
    ((∀ link ∈ links, ∀ d, b.distance l link ≠ .ok (i, d)) ∧ ops'[i]? = ops[i]?) ∨
      ∃ link ∈ links, ∃ d, b.distance l link = .ok (i, d) ∧ ops'[i]? = ops[i]?.map (Opcode.withDistance d) := by
  induction links generalizing ops with
  | nil =>
    obtain rfl := Except.ok.inj h
    exact .inl ⟨by simp, rfl⟩
  | cons link links ih =>
    unfold space at h
    obtain ⟨⟨j, d⟩, hd, h⟩ := except_bind_eq_ok.1 h
    rcases ih h with ⟨hnone, heq⟩ | ⟨link', hlink', d', hd', heq⟩
    · rw [heq, Array.getElem?_modify]
      by_cases hij : j = i
      · subst hij
        exact .inr ⟨link, by simp, d, hd, by rw [if_pos rfl]⟩
      · refine .inl ⟨fun x hx d' hd' => ?_, by rw [if_neg hij]⟩
        rcases List.mem_cons.1 hx with rfl | hx
        · rw [hd] at hd'
          cases hd'
          exact hij rfl
        · exact hnone x hx d' hd'
    · refine .inr ⟨link', by simp [hlink'], d', hd', ?_⟩
      rw [heq, Array.getElem?_modify]
      split
      · cases ops[i]? <;> simp [Opcode.withDistance_withDistance]
      · rfl

end

/-! ### The code object -/

/-- What is assembled once the limits have been checked. -/
def place (b : Builder) (maxLocals : Nat) : Except AssemblyError Code := do
  let (exceptions, ops) ← b.patched b.layout
  b.finished b.layout maxLocals exceptions ops

/-- A computation that ends as `r` says. -/
def Ends {α : Type} (x : Assembly α) (b : Builder) (r : Except AssemblyError α) : Prop :=
  ∃ left, x.run b = match r with
    | .ok a => .ok a left
    | .error e => .error e left

theorem ends_ofExcept {α : Type} (b : Builder) (r : Except AssemblyError α) : Ends (MonadExcept.ofExcept r) b r :=
  ⟨b, by cases r <;> rfl⟩

/-- The assembly ends as its checks and the records say, whatever it notes on the way. -/
theorem assemble_ends (b : Builder) (maxLocals : Nat) :
    Ends (assemble maxLocals) b (do b.checkLimits maxLocals; b.place maxLocals) := by
  rw [Ends, assemble, get_bind, place]
  cases b.checkLimits maxLocals with
  | error e => exact ⟨_, rfl⟩
  | ok =>
    dsimp only
    cases b.patched b.layout with
    | error e => exact ⟨_, rfl⟩
    | ok patched => exact ends_ofExcept _ (b.finished b.layout maxLocals patched.1 patched.2)

section
variable {maxLocals : Nat} {c : Code} {e : AssemblyError}

theorem assemble_eq_ok_iff : (∃ b', (assemble maxLocals).run b = .ok c b') ↔
    b.checkLimits maxLocals = .ok () ∧ b.place maxLocals = .ok c := by
  obtain ⟨left, hrun⟩ := assemble_ends b maxLocals
  rw [hrun]
  cases b.checkLimits maxLocals with
  | error e => simp [bind, Except.bind]
  | ok => cases b.place maxLocals <;> simp [bind, Except.bind]

theorem assemble_eq_error_iff : (∃ b', (assemble maxLocals).run b = .error e b') ↔
    b.checkLimits maxLocals = .error e ∨ b.checkLimits maxLocals = .ok () ∧ b.place maxLocals = .error e := by
  obtain ⟨left, hrun⟩ := assemble_ends b maxLocals
  rw [hrun]
  cases b.checkLimits maxLocals with
  | error e => simp [bind, Except.bind]
  | ok => cases b.place maxLocals <;> simp [bind, Except.bind]

end

/-- What has been checked before any record is looked at. -/
theorem checkLimits_eq_ok {maxLocals : Nat} (h : b.checkLimits maxLocals = .ok ()) :
    b.opened = [] ∧ b.pending = #[] ∧ b.stackDepth ≤ fieldLimit ∧ maxLocals ≤ fieldLimit ∧ b.checkLength = .ok () := by
  obtain ⟨_, hopened, h⟩ := except_bind_eq_ok.1 h
  obtain ⟨_, hpending, h⟩ := except_bind_eq_ok.1 h
  obtain ⟨_, hdepth, h⟩ := except_bind_eq_ok.1 h
  obtain ⟨_, hlocals, hlength⟩ := except_bind_eq_ok.1 h
  refine ⟨List.isEmpty_iff.1 (ensure_eq_ok hopened), ?_, ensure_eq_ok hdepth, ensure_eq_ok hlocals, hlength⟩
  unfold checkPending at hpending
  split at hpending
  · next hnone => simpa [Array.getElem?_eq_none_iff] using hnone
  · cases hpending

/-- Only an empty sequence has no last instruction. -/
theorem Arranged.code_eq_empty (hb : b.Arranged) (h : b.last? = none) : b.code = #[] := by
  by_contra hne
  have hlt : b.code.size - 1 < b.code.size := Nat.sub_one_lt (mt Array.size_eq_zero_iff.1 hne)
  have hsize := hb.lt_size (Array.getElem_mem hlt)
  simp [last?, Array.back?_eq_getElem?, hlt, opcode?, hsize] at h

/-- The length of the code is bounded when it has been checked, since an empty code has none. -/
theorem Arranged.length_le (hb : b.Arranged) {maxLocals : Nat} (h : b.checkLimits maxLocals = .ok ()) :
    b.layout.length ≤ fieldLimit := by
  obtain ⟨-, -, -, -, hlength⟩ := checkLimits_eq_ok h
  rw [checkLength] at hlength
  split at hlength
  · next hlast =>
    rw [layout, hb.code_eq_empty hlast]
    exact Nat.zero_le _
  · exact ensure_eq_ok hlength

theorem finished_eq_ok {l : Layout} {maxLocals : Nat} {exceptions : List ExceptionEntry} {ops : Array Opcode} {c : Code}
    (h : b.finished l maxLocals exceptions ops = .ok c) :
    c = ⟨b.stackDepth, maxLocals, ((b.sequence l ops).map fun x => ⟨x.1.offset, x.2⟩).toArray, exceptions.toArray⟩ ∧
      ∀ x ∈ b.sequence l ops, x.1.offset ≤ fieldLimit := by
  obtain ⟨placed, hplaced, h⟩ := except_bind_eq_ok.1 h
  obtain rfl := Except.ok.inj h
  have hcoordinate {x : Place × Opcode} {p : PlacedOpcode}
      (hx : (do return ⟨← x.1.coordinate x.2, x.2⟩ : Except AssemblyError PlacedOpcode) = .ok p) :
      x.1.offset ≤ fieldLimit ∧ p = ⟨x.1.offset, x.2⟩ := by
    obtain ⟨n, hn, hx⟩ := except_bind_eq_ok.1 hx
    obtain ⟨hle, rfl⟩ := Place.coordinate_eq_ok.1 hn
    exact ⟨hle, (Except.ok.inj hx).symm⟩
  obtain ⟨hall, hmap⟩ := mapM_eq_ok hplaced
  refine ⟨by rw [hmap _ fun x _ p hp => (hcoordinate hp).2], fun x hx => ?_⟩
  obtain ⟨p, hp⟩ := hall x hx
  exact (hcoordinate hp).1

theorem exceptionTable_le {l : Layout} {es : List ExceptionEntry} (h : b.exceptionTable l = .ok es) :
    ∀ e ∈ es, e.start ≤ fieldLimit ∧ e.stop ≤ fieldLimit ∧ e.handler ≤ fieldLimit := by
  intro e he
  obtain ⟨ess, hess, h⟩ := except_bind_eq_ok.1 h
  obtain rfl := Except.ok.inj h
  obtain ⟨es, hes, he⟩ := List.mem_flatten.1 he
  obtain ⟨g, -, hg⟩ := exists_of_mem_mapM hess hes
  obtain ⟨_, -, hg⟩ := except_bind_eq_ok.1 hg
  dsimp only at hg
  split at hg
  · obtain ⟨k, -, hk⟩ := exists_of_mem_mapM hg he
    obtain ⟨_, hstart, hk⟩ := except_bind_eq_ok.1 hk
    obtain ⟨_, hstop, hk⟩ := except_bind_eq_ok.1 hk
    obtain ⟨_, hhandler, hk⟩ := except_bind_eq_ok.1 hk
    obtain rfl := Except.ok.inj hk
    exact ⟨coordinate_le hstart, coordinate_le hstop, coordinate_le hhandler⟩
  · obtain rfl := Except.ok.inj hg
    cases he

/-- What a code object holds that is assembled from a builder. -/
structure Placed (b : Builder) (maxLocals : Nat) (c : Code) : Prop where
  opened : b.opened = []
  pending : b.pending = #[]
  maxLocals_eq : c.maxLocals = maxLocals
  maxStack_eq : c.maxStack = b.stackDepth
  exceptions : b.exceptionTable b.layout = .ok c.exceptions.toList
  instructions : ∃ ops, b.space b.layout b.links (b.arena.map Cell.opcode) = .ok ops ∧
    ∀ i : Nat, c.instructions[i]? = b.code[i]?.bind fun h =>
      ops[h]?.map fun op => ⟨offset b.opcodes.toList i, op⟩
  fits : c.Fits

theorem assemble_eq_ok (hb : b.Arranged) {maxLocals : Nat} {c : Code} {b' : Builder}
    (h : (assemble maxLocals).run b = .ok c b') : b.Placed maxLocals c := by
  obtain ⟨hlimits, hplace⟩ := assemble_eq_ok_iff.1 ⟨b', h⟩
  obtain ⟨hopened, hpending, hdepth, hlocals, -⟩ := checkLimits_eq_ok hlimits
  obtain ⟨⟨es, ops⟩, hpatched, hfinished⟩ := except_bind_eq_ok.1 hplace
  obtain ⟨_, hes, hpatched⟩ := except_bind_eq_ok.1 hpatched
  obtain ⟨_, hops, hpatched⟩ := except_bind_eq_ok.1 hpatched
  cases Except.ok.inj hpatched
  obtain ⟨rfl, hoffsets⟩ := finished_eq_ok hfinished
  refine ⟨hopened, hpending, rfl, rfl, hes, ⟨ops, hops, fun i => ?_⟩, hdepth, hlocals, fun p hp => ?_, fun e he => ?_⟩
  · have hsome : ∀ h ∈ b.code.toList, (ops[h]?.map fun op => (b.layout.place h, op)).isSome := fun h hh => by
      have hlt : h < ops.size := by
        rw [size_space hops, Array.size_map]
        exact hb.lt_size (by simpa using hh)
      rw [Array.getElem?_eq_getElem hlt]
      rfl
    rw [List.getElem?_toArray, List.getElem?_map, sequence, getElem?_filterMap_of_isSome hsome, Array.getElem?_toList]
    cases hi : b.code[i]? with
    | none => rfl
    | some h =>
      rw [Option.bind_some, Option.bind_some, Option.map_map, place_eq hb (Array.mem_of_getElem? hi), offsetOf,
        hb.position_eq hi]
      rfl
  · obtain ⟨x, hx, rfl⟩ := List.mem_map.1 (List.mem_toArray.1 hp)
    exact hoffsets x hx
  · exact exceptionTable_le hes e (List.mem_toArray.1 he)

/-- An instruction that no record names stays as it is, and any other is given the distance to what it
is linked to. -/
theorem Placed.getElem?_cases {maxLocals i : Nat} {c : Code} {h : Handle} (hplaced : b.Placed maxLocals c)
    (hb : b.Arranged) (hi : b.code[i]? = some h) : ∃ op placed, b.opcode? h = some op ∧
      c.instructions[i]? = some ⟨offset b.opcodes.toList i, placed⟩ ∧
      ((∀ link ∈ b.links, link.jump ≠ some h) ∧ placed = op ∨
        ∃ t ∈ b.code, (⟨some h, some t⟩ : Link) ∈ b.links ∧ Opcode.fitsJump ((b.offsetOf t : Int) - b.offsetOf h) ∧
          placed = op.withDistance ((b.offsetOf t : Int) - b.offsetOf h)) := by
  obtain ⟨ops, hspace, hinstructions⟩ := hplaced.instructions
  obtain ⟨op, hop⟩ : ∃ op, b.opcode? h = some op := ⟨_, by
    rw [opcode?, Array.getElem?_eq_getElem (hb.lt_size (Array.mem_of_getElem? hi)), Option.map_some]⟩
  have hstored : (b.arena.map Cell.opcode)[h]? = some op := by rwa [Array.getElem?_map]
  have hat := hinstructions i
  rw [hi, Option.bind_some] at hat
  rcases space_cases hspace h with ⟨hnone, heq⟩ | ⟨link, hlink, d, hd, heq⟩
  · rw [heq, hstored] at hat
    refine ⟨op, op, hop, hat, .inl ⟨fun link hlink hjump => ?_, rfl⟩⟩
    -- a jump that a record names would have been given its distance
    obtain ⟨⟨j, d⟩, hd⟩ := distance_of_space hspace hlink
    obtain ⟨t, rfl, -⟩ := distance_eq_ok hb hd
    obtain rfl : j = h := Option.some.inj hjump
    exact hnone _ hlink d hd
  · have hfits := fitsJump_of_distance hd
    obtain ⟨t, rfl, -, ht, rfl⟩ := distance_eq_ok hb hd
    rw [heq, hstored] at hat
    exact ⟨op, _, hop, hat, .inr ⟨t, ht, hlink, hfits, rfl⟩⟩

/-! ### Intact builders -/

theorem isAlive_iff (hb : b.Intact) (h : Nat) : b.isAlive h = true ↔ h < b.arena.size := by
  rw [isAlive, Option.any_eq_true]
  constructor
  · rintro ⟨c, hc, -⟩
    exact (Array.getElem?_eq_some_iff.1 hc).1
  · intro hlt
    exact ⟨_, Array.getElem?_eq_getElem hlt, hb.alive _ (Array.getElem_mem hlt)⟩

namespace Intact

variable {h : Nat}

theorem mem_code (hb : b.Intact) : h ∈ b.code ↔ h < b.arena.size := by rw [hb.code_eq, Array.mem_range]

theorem arranged (hb : b.Intact) : b.Arranged where
  nodup := by
    rw [hb.code_eq, Array.toList_range]
    exact List.nodup_range
  alive_iff h := (isAlive_iff hb h).trans hb.mem_code.symm

theorem getElem?_code (hb : b.Intact) (i : Nat) : b.code[i]? = if i < b.arena.size then some i else none := by
  rw [hb.code_eq, Array.getElem?_range]

theorem position_eq (hb : b.Intact) (hh : h < b.arena.size) : b.position h = h := by
  refine hb.arranged.position_eq ?_
  rw [hb.getElem?_code, if_pos hh]

end Intact

theorem cells_eq (hb : b.Intact) : b.cells = b.arena := by
  apply Array.ext_getElem?
  intro i
  rw [cells, ← Array.getElem?_toList, Array.toList_filterMap, getElem?_filterMap_of_isSome hb.arranged.isSome_cell,
    Array.getElem?_toList, hb.getElem?_code]
  split
  · rfl
  · next hge => rw [Array.getElem?_eq_none (by omega), Option.bind_none]

theorem opcodes_eq (hb : b.Intact) : b.opcodes.toList = b.draft.opcodes := by
  simp [opcodes, cells_eq hb, draft, Draft.opcodes]

theorem offsetOf_eq (hb : b.Intact) {h : Nat} (hh : h < b.arena.size) :
    b.offsetOf h = offset b.draft.opcodes h := by
  rw [offsetOf, hb.position_eq hh, opcodes_eq hb]

theorem entriesAt_eq (hb : b.Intact) {g : GuardedRange} (hg : b.Enters g) :
    g.entriesAt b.offsetOf = g.entries b.draft.opcodes := by
  have hat {field : Option Handle} (hfield : ∃ h ∈ b.code, field = some h) :
      b.offsetOf (field.getD 0) = offset b.draft.opcodes (field.getD 0) := by
    obtain ⟨h, hh, rfl⟩ := hfield
    exact offsetOf_eq hb (hb.mem_code.1 hh)
  have hhandlers := hg.handlers
  rw [GuardedRange.entriesAt, GuardedRange.entries]
  rw [hat hg.start, hat hg.stop] at hhandlers ⊢
  refine if_ctx_congr Iff.rfl (fun hlt => List.map_congr_left fun k hk => ?_) fun _ => rfl
  rw [GuardedRange.entry, hat (hhandlers hlt k (by simpa using hk))]

end Builder

end BlockAssembler
