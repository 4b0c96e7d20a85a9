import BlockAssembler.Proofs.Replacement
import Mathlib.Data.List.Perm.Subperm

/-! No request gets lost in a builder. An anchor that asks to be pointed at the next instruction
waits until one is added, and stands in the list of the instruction from then on; when that one is
replaced, it moves to the list of the replacement. So what waits and what is listed is together
what has been asked for. A field that points at an instruction points at one in use, which lists
it; an anchor that has asked more than once is listed more than once, the last time where its field
points. -/

namespace BlockAssembler.Builder

/-- What all instructions list, in the order of their handles. -/
def listed (b : Builder) : List Anchor := (List.range b.arena.size).flatMap fun h => (b.references h).toList

/-- The builder agrees with itself and with what it has been asked for. -/
structure Coherent (b : Builder) (asked : List Anchor) : Prop where
  sorted : b.code.toList.Pairwise (· < ·)
  alive_iff : ∀ h, b.isAlive h = true ↔ h ∈ b.code
  removed : ∀ h, b.isAlive h = false → b.references h = #[]
  /-- nothing is lost, and nothing is there more often than it has been asked for -/
  requests : (b.pending.toList ++ b.listed).Perm asked
  fields : ∀ a h, b.field? a = some (some h) → b.isAlive h = true ∧ a ∈ b.references h
  /-- the field of what is listed may point elsewhere by now, but then at a later instruction -/
  behind : ∀ a h, a ∈ b.references h → ∃ h', b.field? a = some (some h') ∧ h ≤ h'

variable {b b' : Builder} {asked : List Anchor} {op : Opcode} {ops : List Opcode}

theorem coherent_empty : empty.Coherent [] where
  sorted := .nil
  alive_iff := by simp [isAlive, empty]
  removed := by simp [references, empty]
  requests := .nil
  fields a h ha := by cases a <;> simp [field?, empty] at ha
  behind := by simp [references, empty]

namespace Coherent

theorem arranged (hb : b.Coherent asked) : b.Arranged := ⟨hb.sorted.imp Nat.ne_of_lt, hb.alive_iff⟩

theorem lt_of_mem (hb : b.Coherent asked) {h : Nat} (hh : h ∈ b.code) : h < b.arena.size := hb.arranged.lt_size hh

end Coherent

/-! ### Adding instructions -/

namespace Added

theorem isAlive_iff (h : Added op ops b b') (i : Nat) : b'.isAlive i = true ↔
    b.isAlive i = true ∨ b.arena.size ≤ i ∧ i < b.arena.size + (1 + ops.length) := by
  rw [isAlive, isAlive, h.getElem?_arena]
  by_cases hlt : i < b.arena.size
  · rw [if_pos hlt]
    have hold : ¬ b.arena.size ≤ i := by omega
    simp [hold]
  · rw [if_neg hlt, Array.getElem?_eq_none (Nat.le_of_not_lt hlt)]
    by_cases heq : i = b.arena.size
    · rw [if_pos heq]
      simp
      omega
    · rw [if_neg heq]
      by_cases hi : i - (b.arena.size + 1) < ops.length
      · rw [List.getElem?_eq_getElem hi]
        simp
        omega
      · rw [List.getElem?_eq_none (by omega)]
        simp
        omega

theorem listed_eq (h : Added op ops b b') : b'.listed = b.listed ++ b.pending.toList := by
  have hold : ((List.range b.arena.size).flatMap fun i => (b'.references i).toList) = b.listed :=
    List.flatMap_congr fun i hi => by rw [h.references, if_neg (Nat.ne_of_lt (List.mem_range.1 hi))]
  have hnew : ((List.range ops.length).flatMap fun i => (b'.references (b.arena.size + (i + 1))).toList) = [] := by
    rw [List.flatMap_eq_nil_iff]
    intro i _
    rw [h.references, if_neg (by omega), references_of_le (by omega)]
  rw [listed, h.size, List.range_add, List.flatMap_append, hold, List.flatMap_map, Nat.add_comm 1,
    List.range_succ_eq_map, List.flatMap_cons, List.flatMap_map, hnew, Nat.add_zero, h.references, if_pos rfl,
    List.append_nil]

theorem arranged (h : Added op ops b b') (hb : b.Arranged) : b'.Arranged where
  nodup := by
    rw [h.code]
    refine List.nodup_append.2 ⟨hb.nodup, List.nodup_range', fun x hx y hy heq => ?_⟩
    have hlt := hb.lt_size (h := x) (by simpa using hx)
    exact Nat.not_lt.2 (List.mem_range'_1.1 hy).1 (heq ▸ hlt)
  alive_iff i := by
    rw [h.isAlive_iff, hb.alive_iff, ← Array.mem_toList_iff, ← Array.mem_toList_iff, h.code, List.mem_append,
      List.mem_range'_1, Nat.add_comm 1]

theorem coherent (h : Added op ops b b') (hb : b.Coherent asked) (hw : b.Waits) : b'.Coherent asked where
  sorted := by
    rw [h.code]
    refine List.pairwise_append.2 ⟨hb.sorted, List.pairwise_lt_range', fun x hx y hy => ?_⟩
    exact Nat.lt_of_lt_of_le (hb.lt_of_mem (by simpa using hx)) (List.mem_range'_1.1 hy).1
  alive_iff := (h.arranged hb.arranged).alive_iff
  removed i hi := by
    rw [← Bool.not_eq_true, h.isAlive_iff, not_or] at hi
    rw [h.references, if_neg (by omega)]
    exact hb.removed i (by simpa using hi.1)
  requests := by
    rw [h.pending, h.listed_eq, List.nil_append]
    exact List.perm_append_comm.trans hb.requests
  fields a x ha := by
    rw [field?_eq, h.records] at ha
    rw [h.isAlive_iff, h.references]
    by_cases hmem : a ∈ b.pending.toList
    · rw [Records.field?_setAll_of_mem hmem (waits_iff.1 hw a (Array.mem_toList_iff.1 hmem))] at ha
      obtain rfl : b.arena.size = x := Option.some.inj (Option.some.inj ha)
      exact ⟨.inr (by omega), by simpa using hmem⟩
    · rw [Records.field?_setAll_of_not_mem hmem, ← field?_eq] at ha
      obtain ⟨halive, hlists⟩ := hb.fields a x ha
      have hlt := hb.lt_of_mem ((hb.alive_iff x).1 halive)
      exact ⟨.inl halive, by rwa [if_neg (Nat.ne_of_lt hlt)]⟩
  behind a x ha := by
    rw [h.references] at ha
    rw [field?_eq, h.records]
    by_cases hmem : a ∈ b.pending.toList
    · refine ⟨_, Records.field?_setAll_of_mem hmem (waits_iff.1 hw a (Array.mem_toList_iff.1 hmem)), ?_⟩
      split at ha
      · next heq => exact Nat.le_of_eq heq
      · exact Nat.le_of_lt (lt_of_mem_references ha)
    · rw [Records.field?_setAll_of_not_mem hmem, ← field?_eq]
      split at ha
      · exact absurd (by simpa using ha) hmem
      · exact hb.behind a x ha

theorem waits (h : Added op ops b b') : b'.Waits := by simp [Waits, h.pending]

end Added

/-! ### Replacing the end -/

theorem Coherent.isSome_field? (hb : b.Coherent asked) (h : Handle) :
    ∀ a ∈ b.references h, (b.records.field? a).isSome := by
  intro a ha
  obtain ⟨x, hx, -⟩ := hb.behind a h ha
  rw [← field?_eq, hx]
  rfl

/-- What some lists hold can be moved into another one. -/
theorem perm_flatMap_of_moved {α β : Type} {xs : List α} (n : α) (hs : List α) {f g : α → List β}
    (hxs : xs.Nodup) (hnodup : (n :: hs).Nodup) (hmem : n :: hs ⊆ xs) (hn : g n = f n ++ hs.flatMap f)
    (hhs : ∀ h ∈ hs, g h = []) (hrest : ∀ x ∈ xs, x ∉ hs → x ≠ n → g x = f x) : (xs.flatMap g).Perm (xs.flatMap f) := by
  obtain ⟨rest, hrest'⟩ : ∃ rest, xs.Perm (n :: hs ++ rest) := by
    obtain ⟨ys, hys, hsub⟩ := List.subperm_of_subset hnodup hmem
    obtain ⟨rest, hperm⟩ := hsub.exists_perm_append
    exact ⟨rest, hperm.trans (hys.append_right rest)⟩
  have hdisjoint := (List.nodup_append.1 (hrest'.nodup_iff.1 hxs)).2.2
  have hkept : rest.flatMap g = rest.flatMap f := List.flatMap_congr fun x hx => by
    have hxs' : x ∈ xs := hrest'.mem_iff.2 (List.mem_append_right _ hx)
    refine hrest x hxs' (fun hmem => ?_) fun heq => ?_
    · exact hdisjoint x (List.mem_cons_of_mem n hmem) x hx rfl
    · exact hdisjoint n List.mem_cons_self x hx heq.symm
  have hcleared : hs.flatMap g = [] := List.flatMap_eq_nil_iff.2 hhs
  have hsame : (n :: hs ++ rest).flatMap g = (n :: hs ++ rest).flatMap f := by simp [hn, hcleared, hkept]
  calc List.Perm (xs.flatMap g) ((n :: hs ++ rest).flatMap g) := hrest'.flatMap_right g
    List.Perm _ (xs.flatMap f) := hsame ▸ (hrest'.flatMap_right f).symm

namespace TailReplaced

variable {count : Nat}

theorem size (h : TailReplaced count op b b') : b'.arena.size = b.arena.size + 1 := by
  simpa [Builder.stored] using congrArg List.length h.stored

theorem listed_perm (h : TailReplaced count op b b') (hb : b.Arranged) : b'.listed.Perm b.listed := by
  have hlt {x : Nat} (hx : x ∈ b.lastHandles count) : x < b.arena.size :=
    hb.lt_size (by simpa using List.mem_of_mem_drop hx)
  have hnew : b.references b.arena.size = #[] := references_of_le (Nat.le_refl _)
  have hold : ((List.range (b.arena.size + 1)).flatMap fun i => (b.references i).toList) = b.listed := by
    rw [List.range_succ, List.flatMap_append, List.flatMap_singleton, hnew]
    exact List.append_nil _
  rw [← hold, listed, h.size]
  refine perm_flatMap_of_moved b.arena.size (b.lastHandles count) List.nodup_range ?_ ?_ ?_ ?_ ?_
  · exact List.nodup_cons.2 ⟨fun hmem => Nat.lt_irrefl _ (hlt hmem), hb.nodup.sublist (List.drop_sublist ..)⟩
  · refine List.cons_subset.2 ⟨List.mem_range.2 (Nat.lt_succ_self _), fun x hx => List.mem_range.2 ?_⟩
    exact Nat.lt_succ_of_lt (hlt hx)
  · rw [h.moved, hnew]
    rfl
  · intro x hx
    rw [h.cleared x hx]
  · intro x _ hx hne
    rw [h.references x hx hne]

theorem arranged (h : TailReplaced count op b b') (hb : b.Arranged) : b'.Arranged where
  nodup := by
    rw [h.code]
    refine List.nodup_append.2 ⟨hb.nodup.sublist (List.take_sublist ..), List.nodup_cons.2 ⟨List.not_mem_nil, .nil⟩, ?_⟩
    intro x hx y hy heq
    obtain rfl := List.mem_singleton.1 hy
    have hlt := hb.lt_size (h := x) (by simpa using List.mem_of_mem_take hx)
    exact Nat.lt_irrefl _ (heq ▸ hlt)
  alive_iff i := by
    have hmem : i ∈ b.code.toList ↔ i ∈ b.code.toList.take (b.code.size - count) ∨ i ∈ b.lastHandles count := by
      rw [lastHandles, ← List.mem_append, List.take_append_drop]
    have hdisjoint : i ∈ b.code.toList.take (b.code.size - count) → i ∉ b.lastHandles count := by
      have hnodup := hb.nodup
      rw [← List.take_append_drop (b.code.size - count) b.code.toList, List.nodup_append] at hnodup
      exact fun htake hdrop => hnodup.2.2 i htake i hdrop rfl
    have hnew : i = b.arena.size → i ∉ b.lastHandles count := by
      rintro rfl hdrop
      exact Nat.lt_irrefl _ (hb.lt_size (by simpa using List.mem_of_mem_drop hdrop))
    rw [h.alive, hb.alive_iff, ← Array.mem_toList_iff, ← Array.mem_toList_iff, h.code, List.mem_append,
      List.mem_singleton, hmem]
    tauto

theorem coherent (h : TailReplaced count op b b') (hb : b.Coherent asked) : b'.Coherent asked where
  sorted := by
    rw [h.code]
    refine List.pairwise_append.2 ⟨hb.sorted.sublist (List.take_sublist ..), List.pairwise_singleton _ _, ?_⟩
    intro x hx y hy
    obtain rfl := List.mem_singleton.1 hy
    exact hb.lt_of_mem (by simpa using List.mem_of_mem_take hx)
  alive_iff := (h.arranged hb.arranged).alive_iff
  removed i hi := by
    by_cases hmem : i ∈ b.lastHandles count
    · exact h.cleared i hmem
    · have hdead : ¬ (b.isAlive i = true ∨ i = b.arena.size) := fun hold => by
        rw [(h.alive i).2 ⟨hold, hmem⟩] at hi
        cases hi
      rw [not_or] at hdead
      rw [h.references i hmem hdead.2]
      exact hb.removed i (by simpa using hdead.1)
  requests := by
    rw [h.pending]
    exact ((h.listed_perm hb.arranged).append_left _).trans hb.requests
  fields a x ha := by
    obtain ⟨as, hrecords, has⟩ := h.records
    rw [field?_eq, hrecords] at ha
    by_cases hmem : a ∈ as
    · obtain ⟨y, hy, hay⟩ := (has a).1 hmem
      rw [Records.field?_setAll_of_mem hmem (hb.isSome_field? y a hay)] at ha
      obtain rfl : b.arena.size = x := Option.some.inj (Option.some.inj ha)
      refine ⟨(h.alive _).2 ⟨.inr rfl, fun hlast => ?_⟩, ?_⟩
      · exact Nat.lt_irrefl _ (hb.lt_of_mem (by simpa using List.mem_of_mem_drop hlast))
      · rw [← Array.mem_toList_iff, h.moved]
        exact List.mem_flatMap.2 ⟨y, hy, by simpa using hay⟩
    · rw [Records.field?_setAll_of_not_mem hmem, ← field?_eq] at ha
      obtain ⟨halive, hlists⟩ := hb.fields a x ha
      have hkept : x ∉ b.lastHandles count := fun hlast => hmem ((has a).2 ⟨x, hlast, hlists⟩)
      have hlt : x < b.arena.size := hb.lt_of_mem ((hb.alive_iff x).1 halive)
      exact ⟨(h.alive x).2 ⟨.inl halive, hkept⟩, by rwa [h.references x hkept (Nat.ne_of_lt hlt)]⟩
  behind a x ha := by
    obtain ⟨as, hrecords, has⟩ := h.records
    rw [field?_eq, hrecords]
    have hkept : x ∉ b.lastHandles count := fun hlast => by
      rw [h.cleared x hlast] at ha
      simp at ha
    by_cases hnew : x = b.arena.size
    · subst hnew
      rw [← Array.mem_toList_iff, h.moved] at ha
      obtain ⟨y, hy, hay⟩ := List.mem_flatMap.1 ha
      have hay' : a ∈ b.references y := by simpa using hay
      exact ⟨_, Records.field?_setAll_of_mem ((has a).2 ⟨y, hy, hay'⟩) (hb.isSome_field? y a hay'), Nat.le_refl _⟩
    · rw [h.references x hkept hnew] at ha
      by_cases hmem : a ∈ as
      · refine ⟨_, Records.field?_setAll_of_mem hmem (hb.isSome_field? x a ha), ?_⟩
        exact Nat.le_of_lt (lt_of_mem_references ha)
      · rw [Records.field?_setAll_of_not_mem hmem, ← field?_eq]
        exact hb.behind a x ha

theorem waits (h : TailReplaced count op b b') (hb : b.Waits) : b'.Waits := by
  obtain ⟨as, hrecords, -⟩ := h.records
  intro a ha
  rw [h.pending] at ha
  rw [field?_eq, hrecords, Records.isSome_field?_setAll, ← field?_eq]
  exact hb a ha

end TailReplaced

/-! ### Changing records and asking -/

theorem Reshaped.waits (h : Reshaped b b') (hb : b.Waits) : b'.Waits := by
  intro a ha
  rw [field?_eq]
  exact (h.fields a).isSome (field?_eq (b := b) a ▸ hb a (h.pending ▸ ha))

theorem Reshaped.coherent (h : Reshaped b b') (hb : b.Coherent asked) : b'.Coherent asked := by
  have hreferences (i : Handle) : b'.references i = b.references i := by rw [references, h.arena, references]
  have halive (i : Handle) : b'.isAlive i = b.isAlive i := by rw [isAlive, h.arena, isAlive]
  have hfield (a : Anchor) (i : Handle) : b'.field? a = some (some i) ↔ b.field? a = some (some i) := by
    rw [field?_eq, field?_eq]
    exact (h.fields a).iff i
  have hlisted : b'.listed = b.listed := by simp only [listed, h.arena, hreferences]
  refine ⟨h.code ▸ hb.sorted, fun i => ?_, fun i hi => ?_, ?_, fun a i ha => ?_, fun a i ha => ?_⟩
  · rw [halive, h.code]
    exact hb.alive_iff i
  · rw [hreferences]
    exact hb.removed i (halive i ▸ hi)
  · rw [h.pending, hlisted]
    exact hb.requests
  · rw [halive, hreferences]
    exact hb.fields a i ((hfield a i).1 ha)
  · rw [hreferences] at ha
    obtain ⟨x, hx, hle⟩ := hb.behind a i ha
    exact ⟨x, (hfield a x).2 hx, hle⟩

theorem Coherent.await (hb : b.Coherent asked) (as : List Anchor) :
    Coherent { b with pending := b.pending ++ as } (asked ++ as) where
  sorted := hb.sorted
  alive_iff := hb.alive_iff
  removed := hb.removed
  requests := by
    rw [Array.toList_appendList, List.append_assoc]
    refine (List.perm_append_comm.append_left _).trans ?_
    rw [← List.append_assoc]
    exact hb.requests.append_right as
  fields := hb.fields
  behind := hb.behind

end BlockAssembler.Builder
