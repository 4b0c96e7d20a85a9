import BlockAssembler.Proofs.Pool.Interning
import Mathlib.Data.Finset.Union

/-! Requests in any order. What a new pool holds after a list of requests is the set of their
parts, and whether it takes all of them depends on the slots of this set alone. -/

namespace BlockAssembler

namespace ConstantPool

variable {p q r : ConstantPool} {s : Symbol} {requests reordered : List Symbol} {indices : List Nat}

/-- Requests one after the other, up to the first that is refused. -/
def internAll (requests : List Symbol) : Interning (List Nat) := requests.mapM intern

/-- The constants asked for and all that they are made up from. -/
def partsOf (requests : List Symbol) : Finset Symbol := requests.toFinset.biUnion Symbol.parts

theorem partsOf_cons (s : Symbol) (requests : List Symbol) :
    partsOf (s :: requests) = s.parts ∪ partsOf requests := by
  rw [partsOf, List.toFinset_cons, Finset.biUnion_insert, partsOf]

theorem partsOf_perm (h : requests.Perm reordered) : partsOf requests = partsOf reordered := by
  rw [partsOf, List.toFinset_eq_of_perm _ _ h, partsOf]

theorem internAll_collects (hp : p.Formed) (requests : List Symbol) :
    Collects (internAll requests) (partsOf requests) p fun _ _ => True := by
  induction requests generalizing p with
  | nil => exact .pure hp trivial
  | cons s requests ih =>
    rw [internAll, List.mapM_cons, partsOf_cons, ← Finset.union_empty (partsOf requests)]
    refine (intern_collects hp s).bind fun i q hq _ _ => (ih hq).bind fun is r hr _ _ => ?_
    exact .pure hr trivial

/-- A new pool takes all requests if it has the slots for their parts. -/
theorem internAll_eq_ok :
    (∃ is q, (internAll requests).run empty = .ok is q) ↔ slotsOf (partsOf requests) < slotLimit := by
  rcases internAll_collects .empty requests with ⟨is, q, hrun, hq, -, hconstants, -⟩ | ⟨q, hrun, -, -, hfull⟩
  · have hle := hq.next_le
    rw [hq.next_eq, hconstants, constants_empty, Finset.empty_union] at hle
    exact iff_of_true ⟨is, q, hrun⟩ (by omega)
  · rw [constants_empty, Finset.empty_union] at hfull
    refine iff_of_false ?_ (by omega)
    rintro ⟨is, r, hrun'⟩
    rw [hrun] at hrun'
    cases hrun'

theorem constants_internAll (hrun : (internAll requests).run empty = .ok indices q) :
    q.constants = partsOf requests ∧ q.size = slotsOf (partsOf requests) := by
  rcases internAll_collects .empty requests with ⟨is, r, hrun', hr, -, hconstants, -⟩ | ⟨r, hrun', -⟩
  · rw [hrun] at hrun'
    cases hrun'
    rw [constants_empty, Finset.empty_union] at hconstants
    refine ⟨hconstants, ?_⟩
    rw [size, hr.next_eq, hconstants, Nat.add_sub_cancel_left]
  · rw [hrun] at hrun'
    cases hrun'

/-- A new pool takes all requests in one order if it does so in another, and is then as large and
holds the same constants. -/
theorem internAll_perm (h : requests.Perm reordered) :
    ((∃ is q, (internAll requests).run empty = .ok is q) ↔ ∃ is q, (internAll reordered).run empty = .ok is q) ∧
      ∀ is q js r, (internAll requests).run empty = .ok is q → (internAll reordered).run empty = .ok js r →
        q.size = r.size ∧ q.constants = r.constants := by
  refine ⟨by rw [internAll_eq_ok, internAll_eq_ok, partsOf_perm h], fun is q js r hq hr => ?_⟩
  obtain ⟨hconstants, hsize⟩ := constants_internAll hq
  obtain ⟨hconstants', hsize'⟩ := constants_internAll hr
  rw [hconstants, hsize, hconstants', hsize', partsOf_perm h]
  exact ⟨rfl, rfl⟩

/-- A method that shares its class, its name and its descriptor with requests before and after it. -/
theorem internAll_shared :
    let requests : List Symbol :=
      [.className "a/B", .method "a/B" "run" "()V", .long 7, .string "run", .field "a/B" "x" "J", .utf8 "()V"]
    requests.Perm requests.reverse ∧ slotsOf (partsOf requests) = 13 ∧
      ∃ is q js r, (internAll requests).run empty = .ok is q ∧ (internAll requests.reverse).run empty = .ok js r ∧
        q.size = r.size ∧ q.constants = r.constants := by
  intro requests
  have hperm : requests.Perm requests.reverse := (List.reverse_perm requests).symm
  have hslots : slotsOf (partsOf requests) = 13 := by decide
  have h := internAll_perm hperm
  obtain ⟨is, q, hq⟩ := internAll_eq_ok.2 (hslots ▸ (by decide : 13 < slotLimit))
  obtain ⟨js, r, hr⟩ := h.1.1 ⟨is, q, hq⟩
  exact ⟨hperm, hslots, is, q, js, r, hq, hr, h.2 is q js r hq hr⟩

end ConstantPool

end BlockAssembler
