import BlockAssembler.Locals
import Mathlib.Data.Finset.Dedup
import Mathlib.Data.Finset.Card
import Mathlib.Data.List.TakeWhile

/-! The table of local variables over a whole run of requests, those included that it has no room
for. The array of names and the lookup are inverse to each other, a slot that has been given stays
with its name, and a request that fails leaves the table as it is. If no request fails, the slot of a
name is the number of distinct names that came before it. -/

namespace BlockAssembler

namespace Locals

variable {l l' : Locals} {name other : String} {slot : UInt16} {names bound : List String}

/-- The table with one name more. -/
def push (name : String) (l : Locals) : Locals := ⟨l.names.push name, l.slots.insert name (.ofNat l.size)⟩

/-- A request finds the name, gives it the next slot, or fails and changes nothing. -/
theorem allocate_cases (name : String) (l : Locals) :
    (∃ slot, l.slot? name = some slot ∧ allocate name l = .ok slot l) ∨
      l.slot? name = none ∧ l.size < UInt16.size ∧ allocate name l = .ok (.ofNat l.size) (l.push name) ∨
      l.slot? name = none ∧ allocate name l = .error (.localsOverflow (l.size + 1)) l := by
  unfold allocate
  cases hslot : l.slot? name with
  | some slot => exact .inl ⟨slot, rfl, rfl⟩
  | none =>
    by_cases hroom : l.size < UInt16.size
    · exact .inr (.inl ⟨rfl, hroom, if_pos hroom⟩)
    · exact .inr (.inr ⟨rfl, if_neg hroom⟩)

/-! ### The two views of the table -/

/-- The names and the lookup are inverse to each other. -/
structure Sound (l : Locals) : Prop where
  slot?_eq_some : ∀ name slot, l.slot? name = some slot ↔ l.names[slot.toNat]? = some name
  nodup : l.names.toList.Nodup
  size_le : l.size ≤ UInt16.size

theorem sound_empty : empty.Sound where
  slot?_eq_some name slot := by simp [slot?, empty]
  nodup := .nil
  size_le := Nat.zero_le _

@[simp] theorem size_push : (l.push name).size = l.size + 1 := Array.size_push _

theorem slot?_push : (l.push name).slot? other = if name = other then some (.ofNat l.size) else l.slot? other := by
  simp [slot?, push, Std.HashMap.getElem?_insert]

namespace Sound

theorem lt_size (hl : l.Sound) (h : l.slot? name = some slot) : slot.toNat < l.size :=
  (Array.getElem?_eq_some_iff.1 ((hl.slot?_eq_some name slot).1 h)).1

theorem isSome_iff (hl : l.Sound) : (l.slot? name).isSome ↔ name ∈ l.names := by
  rw [Option.isSome_iff_exists, Array.mem_iff_getElem?]
  constructor
  · rintro ⟨slot, h⟩
    exact ⟨_, (hl.slot?_eq_some name slot).1 h⟩
  · rintro ⟨i, hi⟩
    have hlt : i < UInt16.size := Nat.lt_of_lt_of_le (Array.getElem?_eq_some_iff.1 hi).1 hl.size_le
    refine ⟨.ofNat i, (hl.slot?_eq_some name _).2 ?_⟩
    rwa [UInt16.toNat_ofNat_of_lt' hlt]

/-- Names with the same slot are the same. -/
theorem inj (hl : l.Sound) (h : l.slot? name = some slot) (h' : l.slot? other = some slot) : name = other :=
  Option.some.inj (((hl.slot?_eq_some name slot).1 h).symm.trans ((hl.slot?_eq_some other slot).1 h'))

theorem push (hl : l.Sound) (hnew : l.slot? name = none) (hroom : l.size < UInt16.size) : (l.push name).Sound where
  slot?_eq_some other slot := by
    have hsize : l.names.size = l.size := rfl
    have hslot : slot.toNat = l.size ↔ UInt16.ofNat l.size = slot := by
      rw [← UInt16.toNat_inj, UInt16.toNat_ofNat_of_lt' hroom, eq_comm]
    rw [slot?_push, Locals.push, Array.getElem?_push, hsize]
    by_cases hname : name = other
    · subst hname
      have hnone : l.names[slot.toNat]? ≠ some name := fun h => by
        rw [(hl.slot?_eq_some name slot).2 h] at hnew
        cases hnew
      simp [hslot, hnone]
    · by_cases hlast : slot.toNat = l.size
      · have hnone : l.slot? other ≠ some slot := fun h => Nat.ne_of_lt (hl.lt_size h) hlast
        simp [hname, hlast, hnone]
      · simp [hname, hlast, hl.slot?_eq_some]
  nodup := by
    have hmem : name ∉ l.names.toList := fun h => by
      rw [Array.mem_toList_iff, ← hl.isSome_iff, hnew] at h
      cases h
    show (l.names.push name).toList.Nodup
    rw [Array.toList_push, List.nodup_append_comm]
    exact List.nodup_cons.2 ⟨hmem, hl.nodup⟩
  size_le := by
    rw [size_push]
    exact hroom

end Sound

/-! ### Requests -/

/-- The table after a request, whether it succeeds or fails. -/
def after (l : Locals) (name : String) : Locals :=
  match allocate name l with
  | .ok _ l => l
  | .error _ l => l

def afterAll (names : List String) (l : Locals) : Locals := names.foldl after l

theorem afterAll_append (names names' : List String) (l : Locals) :
    afterAll (names ++ names') l = afterAll names' (afterAll names l) := List.foldl_append

theorem Sound.after (hl : l.Sound) (name : String) : (l.after name).Sound := by
  unfold Locals.after
  obtain ⟨slot, -, hrun⟩ | ⟨hnew, hroom, hrun⟩ | ⟨-, hrun⟩ := allocate_cases name l <;> rw [hrun]
  · exact hl
  · exact hl.push hnew hroom
  · exact hl

/-- A request takes no slot from a name. -/
theorem slot?_after (h : l.slot? other = some slot) (name : String) : (l.after name).slot? other = some slot := by
  unfold after
  obtain ⟨_, -, hrun⟩ | ⟨hnew, -, hrun⟩ | ⟨-, hrun⟩ := allocate_cases name l <;> rw [hrun]
  · exact h
  · rw [slot?_push, if_neg, h]
    rintro rfl
    rw [h] at hnew
    cases hnew
  · exact h

theorem Sound.afterAll (hl : l.Sound) (names : List String) : (afterAll names l).Sound := by
  induction names generalizing l with
  | nil => exact hl
  | cons name names ih => exact ih (hl.after name)

theorem slot?_afterAll (h : l.slot? name = some slot) (names : List String) :
    (afterAll names l).slot? name = some slot := by
  induction names generalizing l with
  | nil => exact h
  | cons other names ih => exact ih (slot?_after h other)

theorem slot?_of_allocate (h : allocate name l = .ok slot l') : l'.slot? name = some slot := by
  obtain ⟨_, hslot, hrun⟩ | ⟨-, -, hrun⟩ | ⟨-, hrun⟩ := allocate_cases name l <;> rw [hrun] at h <;> cases h
  · exact hslot
  · rw [slot?_push, if_pos rfl]

theorem eq_of_allocate_error {e : AssemblyError} (h : allocate name l = .error e l') : l' = l := by
  obtain ⟨_, -, hrun⟩ | ⟨-, -, hrun⟩ | ⟨-, hrun⟩ := allocate_cases name l <;> rw [hrun] at h <;> cases h
  rfl

/-! ### Slots by the order of names -/

/-- The number of distinct names that come before a name. -/
def slotOf (bound : List String) (name : String) : Nat :=
  (bound.takeWhile fun other => other ≠ name).toFinset.card

theorem takeWhile_of_not_mem (h : name ∉ bound) : bound.takeWhile (fun other => other ≠ name) = bound := by
  rw [List.takeWhile_eq_self_iff]
  intro other hother
  exact decide_eq_true fun heq => h (heq ▸ hother)

/-- What comes later does not count. -/
theorem slotOf_append (h : name ∈ bound) (later : List String) :
    slotOf (bound ++ later) name = slotOf bound name := by
  rw [slotOf, slotOf, List.takeWhile_append, if_neg]
  intro hlength
  have hself := (List.takeWhile_prefix (l := bound) fun other => decide (other ≠ name)).eq_of_length hlength
  rw [← hself] at h
  simpa using List.mem_takeWhile_imp h

theorem slotOf_new (h : name ∉ bound) (later : List String) :
    slotOf (bound ++ name :: later) name = bound.toFinset.card := by
  rw [slotOf, List.takeWhile_append, takeWhile_of_not_mem h, if_pos rfl]
  simp

/-- Where a name is bound, only what comes before counts. -/
theorem slotOf_next (bound : List String) (name : String) (later : List String) :
    slotOf (bound ++ name :: later) name = slotOf bound name := by
  by_cases h : name ∈ bound
  · exact slotOf_append h _
  · rw [slotOf_new h, slotOf, takeWhile_of_not_mem h]

/-- The table that these names have been bound in, in this order. -/
structure Holds (l : Locals) (bound : List String) : Prop where
  sound : l.Sound
  mem_names : ∀ name, name ∈ l.names ↔ name ∈ bound
  slot_eq : ∀ name slot, l.slot? name = some slot → slot.toNat = slotOf bound name

theorem holds_empty : empty.Holds [] where
  sound := sound_empty
  mem_names name := by simp [empty]
  slot_eq name slot h := by simp [slot?, empty] at h

namespace Holds

theorem size_eq (hl : l.Holds bound) : l.size = bound.toFinset.card := by
  have hnames : l.names.toList.toFinset = bound.toFinset := by
    ext name
    rw [List.mem_toFinset, List.mem_toFinset, Array.mem_toList_iff, hl.mem_names]
  rw [← hnames, List.toFinset_card_of_nodup hl.sound.nodup, Array.length_toList]
  rfl

theorem isSome_iff (hl : l.Holds bound) : (l.slot? name).isSome ↔ name ∈ bound :=
  hl.sound.isSome_iff.trans (hl.mem_names name)

theorem slot?_eq_none (hl : l.Holds bound) (h : name ∉ bound) : l.slot? name = none := by
  rwa [← hl.isSome_iff, Option.not_isSome_iff_eq_none] at h

theorem known (hl : l.Holds bound) (h : name ∈ bound) : l.Holds (bound ++ [name]) where
  sound := hl.sound
  mem_names other := by
    rw [hl.mem_names, List.mem_append, List.mem_singleton]
    exact ⟨.inl, fun hother => hother.elim id fun heq => heq ▸ h⟩
  slot_eq other slot hslot := by
    rw [slotOf_append (hl.isSome_iff.1 (Option.isSome_of_eq_some hslot))]
    exact hl.slot_eq other slot hslot

theorem push (hl : l.Holds bound) (h : name ∉ bound) (hroom : l.size < UInt16.size) :
    (l.push name).Holds (bound ++ [name]) where
  sound := hl.sound.push (hl.slot?_eq_none h) hroom
  mem_names other := by
    show other ∈ l.names.push name ↔ _
    rw [Array.mem_push, hl.mem_names, List.mem_append, List.mem_singleton]
  slot_eq other slot hslot := by
    rw [slot?_push] at hslot
    split at hslot
    · next hname =>
      subst hname
      obtain rfl := Option.some.inj hslot
      rw [UInt16.toNat_ofNat_of_lt' hroom, slotOf_new h, hl.size_eq]
    · rw [slotOf_append (hl.isSome_iff.1 (Option.isSome_of_eq_some hslot))]
      exact hl.slot_eq other slot hslot

/-- A request that succeeds binds the name. -/
theorem allocate (hl : l.Holds bound) (h : allocate name l = .ok slot l') :
    l'.Holds (bound ++ [name]) := by
  obtain ⟨slot', hslot, hrun⟩ | ⟨hnew, hroom, hrun⟩ | ⟨-, hrun⟩ := allocate_cases name l <;> rw [hrun] at h <;> cases h
  · exact hl.known (hl.isSome_iff.1 (Option.isSome_of_eq_some hslot))
  · have hname : name ∉ bound := by rw [← hl.isSome_iff, hnew]; exact Bool.false_ne_true
    exact hl.push hname hroom

theorem allocateAll (hl : l.Holds bound) (h : allocateAll names l = .ok () l') : l'.Holds (bound ++ names) := by
  induction names generalizing l bound with
  | nil =>
    cases h
    rwa [List.append_nil]
  | cons name names ih =>
    rw [Locals.allocateAll] at h
    cases hfirst : Locals.allocate name l with
    | ok slot l₁ =>
      have hrest : Locals.allocateAll names l₁ = .ok () l' := by
        simpa [bind, EStateM.bind, hfirst] using h
      have hheld := ih (hl.allocate hfirst) hrest
      rwa [List.append_assoc, List.singleton_append] at hheld
    | error e l₁ => simp [bind, EStateM.bind, hfirst] at h

end Holds

end Locals

end BlockAssembler
