import BlockAssembler.Proofs.Pool.Meaning
import BlockAssembler.Proofs.Run
import Mathlib.Algebra.BigOperators.Group.Finset.Basic
import Mathlib.Algebra.Order.BigOperators.Group.Finset

/-! What interning does to a pool. A request interns the constant and its parts. It ends well,
and then the pool has exactly these constants besides those it had before, or there is no room
for all of them; either way the pool stays well formed and keeps its entries. The slots in use
are those of the constants, so there is room for a set of constants or there is not, whatever the
order in which they come. -/

namespace BlockAssembler

open ConstantPool

namespace Symbol

def classParts (name : String) : Finset Symbol := {utf8 name} ∪ {className name}

def nameAndTypeParts (name descriptor : String) : Finset Symbol :=
  {utf8 name} ∪ ({utf8 descriptor} ∪ {nameAndType name descriptor})

def memberParts (kind : String → String → String → Symbol) (owner name descriptor : String) : Finset Symbol :=
  classParts owner ∪ (nameAndTypeParts name descriptor ∪ {kind owner name descriptor})

/-- A constant and all that it is made up from. -/
def parts : Symbol → Finset Symbol
  | utf8 text => {utf8 text}
  | integer value => {integer value}
  | long value => {long value}
  | string text => {utf8 text} ∪ {string text}
  | className name => classParts name
  | nameAndType name descriptor => nameAndTypeParts name descriptor
  | field owner name descriptor => memberParts field owner name descriptor
  | method owner name descriptor => memberParts method owner name descriptor
  | interfaceMethod owner name descriptor => memberParts interfaceMethod owner name descriptor

end Symbol

/-- The slots of all constants of a set. -/
def slotsOf (S : Finset Symbol) : Nat := ∑ s ∈ S, s.slots

theorem slotsOf_mono {S T : Finset Symbol} (h : S ⊆ T) : slotsOf S ≤ slotsOf T :=
  Finset.sum_le_sum_of_subset h

namespace ConstantPool

variable {p q : ConstantPool} {i j : Nat} {e : Entry} {s : Symbol} {S T : Finset Symbol}

theorem constants_empty : empty.constants = ∅ := rfl

theorem Formed.next_eq (hp : p.Formed) : p.next = 1 + slotsOf p.constants := by
  induction hp with
  | empty => rfl
  | @push p e s hp hnew hmeaning hroom ih =>
    have hs : s ∉ p.constants := fun hs => by
      obtain ⟨i, hi⟩ := hp.entry_of_mem hs hmeaning
      rw [← hp.indices_eq_some, hnew] at hi
      cases hi
    have hslots : slotsOf (insert s p.constants) = s.slots + slotsOf p.constants := Finset.sum_insert hs
    rw [hp.constants_push (hp.push hnew hmeaning hroom) hmeaning, hslots, ← slots_eq hmeaning]
    show p.next + e.slots = _
    omega

/-! ### Collecting -/

section
variable {α β : Type} {x : Interning α} {f : α → Interning β} {Q : α → ConstantPool → Prop}
  {R : β → ConstantPool → Prop}

/-- From `p` the computation ends well and adds the constants of a set, or the pool has no room for
all of them. -/
def Collects (x : Interning α) (S : Finset Symbol) (p : ConstantPool) (Q : α → ConstantPool → Prop) : Prop :=
  (∃ a q, x.run p = .ok a q ∧ q.Formed ∧ p.Extends q ∧ q.constants = p.constants ∪ S ∧ Q a q) ∨
    ∃ q, x.run p = .error .poolOverflow q ∧ q.Formed ∧ p.Extends q ∧ slotLimit < 1 + slotsOf (p.constants ∪ S)

theorem Collects.bind (hx : Collects x S p Q)
    (hf : ∀ a q, q.Formed → p.Extends q → Q a q → Collects (f a) T q R) : Collects (x >>= f) (S ∪ T) p R := by
  rcases hx with ⟨a, q, hrun, hq, hext, hconstants, ha⟩ | ⟨q, hrun, hq, hext, hfull⟩
  · rw [Collects, bind_ok hrun, ← Finset.union_assoc, ← hconstants]
    rcases hf a q hq hext ha with ⟨b, r, hrun', hr, hext', h⟩ | ⟨r, hrun', hr, hext', h⟩
    · exact .inl ⟨b, r, hrun', hr, hext.trans hext', h⟩
    · exact .inr ⟨r, hrun', hr, hext.trans hext', h⟩
  · refine .inr ⟨q, bind_error hrun f, hq, hext, Nat.lt_of_lt_of_le hfull ?_⟩
    exact Nat.add_le_add_left (slotsOf_mono (Finset.union_subset_union_right Finset.subset_union_left)) 1

theorem Collects.pure (hp : p.Formed) {a : α} (ha : Q a p) : Collects (Pure.pure a) ∅ p Q :=
  .inl ⟨a, p, rfl, hp, .refl p, (Finset.union_empty _).symm, ha⟩

end

theorem add_of_some (h : p.indices[e]? = some i) : (add e).run p = .ok i p := by
  show add e p = _
  rw [add, h]

theorem add_of_none (h : p.indices[e]? = none) (hroom : p.next + e.slots ≤ slotLimit) :
    (add e).run p = .ok p.next (p.push e) := by
  show add e p = _
  rw [add, h]
  exact if_pos hroom

/-- The step from which every interning is made up: an entry whose parts are there. -/
theorem add_collects (hp : p.Formed) (he : p.meaning? e = some s) :
    Collects (add e) {s} p fun i q => q.symbolAt? i = some s := by
  cases h : p.indices[e]? with
  | some i =>
    have hi : p.symbolAt? i = some s := symbolAt?_eq_some.2 ⟨e, hp.indices_eq_some.1 h, he⟩
    have hs : s ∈ p.constants := hp.mem_constants.2 ⟨i, hi⟩
    refine .inl ⟨i, p, add_of_some h, hp, .refl p, ?_, hi⟩
    rw [Finset.union_eq_left.2 (Finset.singleton_subset_iff.2 hs)]
  | none =>
    by_cases hroom : p.next + e.slots ≤ slotLimit
    · have hq : (p.push e).Formed := hp.push h he hroom
      refine .inl ⟨p.next, p.push e, add_of_none h hroom, hq, extends_push p e, ?_, ?_⟩
      · rw [hp.constants_push hq he, Finset.union_comm, Finset.insert_eq]
      · refine symbolAt?_eq_some.2 ⟨e, ?_, (extends_push p e).meaning? he⟩
        exact hp.entryAt?_push_eq_some.2 (.inr ⟨rfl, rfl⟩)
    · have hs : s ∉ p.constants := fun hs => by
        obtain ⟨i, hi⟩ := hp.entry_of_mem hs he
        rw [← hp.indices_eq_some, h] at hi
        cases hi
      have hslots : slotsOf (insert s p.constants) = s.slots + slotsOf p.constants := Finset.sum_insert hs
      refine .inr ⟨p, ?_, hp, .refl p, ?_⟩
      · show add e p = _
        rw [add, h]
        exact if_neg hroom
      · rw [Finset.union_comm, ← Finset.insert_eq, hslots, ← slots_eq he]
        rw [hp.next_eq] at hroom
        omega

/-! ### Requests -/

variable {owner name descriptor : String}

theorem internUtf8_collects (hp : p.Formed) (text : String) :
    Collects (internUtf8 text) {.utf8 text} p fun i q => q.textAt? i = some text := by
  have h := add_collects hp (e := .utf8 text) (s := .utf8 text) rfl
  simp only [symbolAt?_eq_utf8] at h
  exact h

theorem internClass_collects (hp : p.Formed) (name : String) :
    Collects (internClass name) (Symbol.classParts name) p fun i q => q.classAt? i = some name := by
  refine (internUtf8_collects hp name).bind fun i q hq _ hi => ?_
  have h := add_collects hq (e := .className i) (s := .className name) (meaning?_eq_some.2 ⟨i, rfl, hi⟩)
  simp only [symbolAt?_eq_className] at h
  exact h

theorem internNameAndType_collects (hp : p.Formed) (name descriptor : String) :
    Collects (internNameAndType name descriptor) (Symbol.nameAndTypeParts name descriptor) p
      fun i q => q.nameAndTypeAt? i = some (name, descriptor) := by
  refine (internUtf8_collects hp name).bind fun i q hq _ hi => ?_
  refine (internUtf8_collects hq descriptor).bind fun j r hr hext hj => ?_
  have h := add_collects hr (e := .nameAndType i j) (s := .nameAndType name descriptor)
    (meaning?_eq_some.2 ⟨i, j, rfl, hext.textAt? hi, hj⟩)
  simp only [symbolAt?_eq_nameAndType] at h
  exact h

/-- The three kinds of members differ in the last entry only. -/
theorem internMember_collects (hp : p.Formed) (entry : Nat → Nat → Entry) (kind : String → String → String → Symbol)
    (hkind : ∀ (q : ConstantPool) i j, q.meaning? (entry i j) = (q.memberAt? i j).map fun (o, n, d) => kind o n d)
    (owner name descriptor : String) :
    Collects (internMember entry owner name descriptor) (Symbol.memberParts kind owner name descriptor) p
      fun i q => q.symbolAt? i = some (kind owner name descriptor) := by
  refine (internClass_collects hp owner).bind fun i q hq _ hi => ?_
  refine (internNameAndType_collects hq name descriptor).bind fun j r hr hext hj => ?_
  refine add_collects hr ?_
  rw [hkind, memberAt?_eq_some.2 ⟨hext.classAt? hi, hj⟩]
  rfl

theorem intern_collects (hp : p.Formed) (s : Symbol) :
    Collects (intern s) s.parts p fun i q => q.symbolAt? i = some s := by
  cases s with
  | utf8 text => exact add_collects hp rfl
  | integer value => exact add_collects hp rfl
  | long value => exact add_collects hp rfl
  | string text =>
    refine (internUtf8_collects hp text).bind fun i q hq _ hi => ?_
    exact add_collects hq (meaning?_eq_some.2 ⟨i, rfl, hi⟩)
  | className name =>
    simp only [symbolAt?_eq_className]
    exact internClass_collects hp name
  | nameAndType name descriptor =>
    simp only [symbolAt?_eq_nameAndType]
    exact internNameAndType_collects hp name descriptor
  | field owner name descriptor => exact internMember_collects hp .field .field (fun _ _ _ => rfl) ..
  | method owner name descriptor => exact internMember_collects hp .method .method (fun _ _ _ => rfl) ..
  | interfaceMethod owner name descriptor =>
    exact internMember_collects hp .interfaceMethod .interfaceMethod (fun _ _ _ => rfl) ..

theorem symbolAt?_of_intern (hp : p.Formed) (h : (intern s).run p = .ok i q) : q.symbolAt? i = some s := by
  rcases intern_collects hp s with ⟨j, r, hrun, -, -, -, hj⟩ | ⟨r, hrun, -⟩
  · rw [h] at hrun
    cases hrun
    exact hj
  · rw [h] at hrun
    cases hrun

/-! ### Asking again -/

section
variable (hp : p.Formed)
include hp

theorem add_of_entryAt? (h : p.entryAt? i = some e) : (add e).run p = .ok i p :=
  add_of_some (hp.indices_eq_some.2 h)

theorem internUtf8_of_textAt? {text : String} (h : p.textAt? i = some text) : (internUtf8 text).run p = .ok i p :=
  add_of_entryAt? hp (textAt?_eq_some.1 h)

theorem internClass_of_classAt? {name : String} (h : p.classAt? i = some name) :
    (internClass name).run p = .ok i p := by
  obtain ⟨j, hi, hj⟩ := classAt?_eq_some.1 h
  rw [internClass, bind_ok (internUtf8_of_textAt? hp hj), add_of_entryAt? hp hi]

theorem internNameAndType_of_nameAndTypeAt? (h : p.nameAndTypeAt? i = some (name, descriptor)) :
    (internNameAndType name descriptor).run p = .ok i p := by
  obtain ⟨j, k, hi, hj, hk⟩ := nameAndTypeAt?_eq_some.1 h
  rw [internNameAndType, bind_ok (internUtf8_of_textAt? hp hj), bind_ok (internUtf8_of_textAt? hp hk),
    add_of_entryAt? hp hi]

theorem internMember_of_memberAt? {entry : Nat → Nat → Entry} {k : Nat} (hi : p.entryAt? i = some (entry j k))
    (h : p.memberAt? j k = some (owner, name, descriptor)) :
    (internMember entry owner name descriptor).run p = .ok i p := by
  obtain ⟨hj, hk⟩ := memberAt?_eq_some.1 h
  rw [internMember, bind_ok (internClass_of_classAt? hp hj), bind_ok (internNameAndType_of_nameAndTypeAt? hp hk),
    add_of_entryAt? hp hi]

/-- A constant that is there keeps its index, and the pool stays as it is. -/
theorem intern_of_symbolAt? (h : p.symbolAt? i = some s) : (intern s).run p = .ok i p := by
  obtain ⟨e, hi, he⟩ := symbolAt?_eq_some.1 h
  rw [meaning?_eq_some] at he
  cases s with
  | utf8 | integer | long =>
    obtain rfl := he
    exact add_of_entryAt? hp hi
  | string text =>
    obtain ⟨j, rfl, hj⟩ := he
    rw [intern, bind_ok (internUtf8_of_textAt? hp hj), add_of_entryAt? hp hi]
  | className name =>
    obtain ⟨j, rfl, hj⟩ := he
    exact internClass_of_classAt? hp (classAt?_eq_some.2 ⟨j, hi, hj⟩)
  | nameAndType name descriptor =>
    obtain ⟨j, k, rfl, hj, hk⟩ := he
    exact internNameAndType_of_nameAndTypeAt? hp (nameAndTypeAt?_eq_some.2 ⟨j, k, hi, hj, hk⟩)
  | field | method | interfaceMethod =>
    obtain ⟨j, k, rfl, hjk⟩ := he
    exact internMember_of_memberAt? hp hi hjk

end

end ConstantPool

end BlockAssembler
