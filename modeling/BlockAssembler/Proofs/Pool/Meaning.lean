import BlockAssembler.ConstantPool
import Mathlib.Data.Finset.Basic
import Mathlib.Data.Finset.Insert

/-! What the entries of a pool mean. The indices in an entry are looked up among the entries
themselves, down to the texts, which gives the constant that the entry stands for. A pool is
formed by adding entries one after the other, each new, each with a meaning in the pool before
it, and as long as there is room. In such a pool nothing is there twice, and the table of
indices agrees with the entries. An entry keeps its meaning when others are added. -/

namespace BlockAssembler

theorem Entry.slots_pos (e : Entry) : 0 < e.slots := by
  cases e <;> simp [slots]

/-- The slots that the entry for a constant takes. -/
def Symbol.slots : Symbol → Nat
  | long _ => 2
  | _ => 1

namespace ConstantPool

/-! ### Lookup -/

/-- The entry with an index. -/
def entryAt? (p : ConstantPool) (i : Nat) : Option Entry := (p.entries.find? (·.1 = i)).map Prod.snd

def textAt? (p : ConstantPool) (i : Nat) : Option String :=
  match p.entryAt? i with
  | some (.utf8 text) => some text
  | _ => none

def classAt? (p : ConstantPool) (i : Nat) : Option String :=
  match p.entryAt? i with
  | some (.className name) => p.textAt? name
  | _ => none

def nameAndTypeAt? (p : ConstantPool) (i : Nat) : Option (String × String) :=
  match p.entryAt? i with
  | some (.nameAndType name descriptor) => do return (← p.textAt? name, ← p.textAt? descriptor)
  | _ => none

def memberAt? (p : ConstantPool) (owner nameAndType : Nat) : Option (String × String × String) := do
  return (← p.classAt? owner, ← p.nameAndTypeAt? nameAndType)

/-- The constant that an entry stands for, if its indices name entries of the right kinds. -/
def meaning? (p : ConstantPool) : Entry → Option Symbol
  | .utf8 text => some (.utf8 text)
  | .integer value => some (.integer value)
  | .long value => some (.long value)
  | .string text => (p.textAt? text).map .string
  | .className name => (p.textAt? name).map .className
  | .nameAndType name descriptor => do return .nameAndType (← p.textAt? name) (← p.textAt? descriptor)
  | .field owner nameAndType => (p.memberAt? owner nameAndType).map fun (o, n, d) => .field o n d
  | .method owner nameAndType => (p.memberAt? owner nameAndType).map fun (o, n, d) => .method o n d
  | .interfaceMethod owner nameAndType =>
    (p.memberAt? owner nameAndType).map fun (o, n, d) => .interfaceMethod o n d

/-- The constant at an index. -/
def symbolAt? (p : ConstantPool) (i : Nat) : Option Symbol := (p.entryAt? i).bind p.meaning?

/-- All constants of a pool. -/
def constants (p : ConstantPool) : Finset Symbol :=
  (p.entries.toList.filterMap fun x => p.meaning? x.2).toFinset

variable {p q r : ConstantPool} {i j k : Nat} {e f : Entry} {s t : Symbol} {text owner name descriptor : String}

theorem textAt?_eq_some : p.textAt? i = some text ↔ p.entryAt? i = some (.utf8 text) := by
  unfold textAt?
  split
  · next h => simp [h]
  · next h => exact iff_of_false (by simp) (h text)

theorem classAt?_eq_some :
    p.classAt? i = some name ↔ ∃ j, p.entryAt? i = some (.className j) ∧ p.textAt? j = some name := by
  unfold classAt?
  split
  · next h => simp [h]
  · next h => exact iff_of_false (by simp) fun ⟨j, hj, _⟩ => h j hj

theorem nameAndTypeAt?_eq_some : p.nameAndTypeAt? i = some (name, descriptor) ↔
    ∃ j k, p.entryAt? i = some (.nameAndType j k) ∧ p.textAt? j = some name ∧ p.textAt? k = some descriptor := by
  unfold nameAndTypeAt?
  split
  · next h => simp [h, Option.bind_eq_some_iff]
  · next h => exact iff_of_false (by simp) fun ⟨j, k, hjk, _⟩ => h j k hjk

theorem memberAt?_eq_some : p.memberAt? i j = some (owner, name, descriptor) ↔
    p.classAt? i = some owner ∧ p.nameAndTypeAt? j = some (name, descriptor) := by
  simp [memberAt?, Option.bind_eq_some_iff]

theorem symbolAt?_eq_some : p.symbolAt? i = some s ↔ ∃ e, p.entryAt? i = some e ∧ p.meaning? e = some s :=
  Option.bind_eq_some_iff

/-- What an entry has to be to stand for a constant. -/
def StandsFor (p : ConstantPool) (e : Entry) : Symbol → Prop
  | .utf8 text => e = .utf8 text
  | .integer value => e = .integer value
  | .long value => e = .long value
  | .string text => ∃ i, e = .string i ∧ p.textAt? i = some text
  | .className name => ∃ i, e = .className i ∧ p.textAt? i = some name
  | .nameAndType name descriptor =>
    ∃ i j, e = .nameAndType i j ∧ p.textAt? i = some name ∧ p.textAt? j = some descriptor
  | .field owner name descriptor => ∃ i j, e = .field i j ∧ p.memberAt? i j = some (owner, name, descriptor)
  | .method owner name descriptor => ∃ i j, e = .method i j ∧ p.memberAt? i j = some (owner, name, descriptor)
  | .interfaceMethod owner name descriptor =>
    ∃ i j, e = .interfaceMethod i j ∧ p.memberAt? i j = some (owner, name, descriptor)

theorem meaning?_eq_some : p.meaning? e = some s ↔ p.StandsFor e s := by
  cases e <;> cases s <;> simp [meaning?, StandsFor, Option.bind_eq_some_iff]

/-! ### Adding entries -/

/-- Entries are added behind those there are, and none of these is changed or removed. -/
def Extends (p q : ConstantPool) : Prop := p.entries.toList <+: q.entries.toList

namespace Extends

theorem refl (p : ConstantPool) : p.Extends p := List.prefix_rfl

theorem trans (h : p.Extends q) (h' : q.Extends r) : p.Extends r := List.IsPrefix.trans h h'

theorem entryAt? (h : p.Extends q) (hi : p.entryAt? i = some e) : q.entryAt? i = some e := by
  obtain ⟨rest, hrest⟩ := h
  obtain ⟨x, hx, rfl⟩ := Option.map_eq_some_iff.1 hi
  rw [← Array.find?_toList] at hx
  rw [ConstantPool.entryAt?, ← Array.find?_toList, ← hrest, List.find?_append, hx]
  rfl

theorem textAt? (h : p.Extends q) (hi : p.textAt? i = some text) : q.textAt? i = some text :=
  textAt?_eq_some.2 (h.entryAt? (textAt?_eq_some.1 hi))

theorem classAt? (h : p.Extends q) (hi : p.classAt? i = some name) : q.classAt? i = some name := by
  obtain ⟨j, hj, hname⟩ := classAt?_eq_some.1 hi
  exact classAt?_eq_some.2 ⟨j, h.entryAt? hj, h.textAt? hname⟩

theorem nameAndTypeAt? (h : p.Extends q) {x : String × String} (hi : p.nameAndTypeAt? i = some x) :
    q.nameAndTypeAt? i = some x := by
  obtain ⟨j, k, hjk, hname, hdescriptor⟩ := nameAndTypeAt?_eq_some.1 hi
  exact nameAndTypeAt?_eq_some.2 ⟨j, k, h.entryAt? hjk, h.textAt? hname, h.textAt? hdescriptor⟩

theorem memberAt? (h : p.Extends q) {x : String × String × String} (hi : p.memberAt? i j = some x) :
    q.memberAt? i j = some x := by
  obtain ⟨howner, hnameAndType⟩ := memberAt?_eq_some.1 hi
  exact memberAt?_eq_some.2 ⟨h.classAt? howner, h.nameAndTypeAt? hnameAndType⟩

theorem meaning? (h : p.Extends q) (he : p.meaning? e = some s) : q.meaning? e = some s := by
  rw [meaning?_eq_some] at he ⊢
  cases s with
  | utf8 | integer | long => exact he
  | string | className => exact he.imp fun _ => .imp_right h.textAt?
  | nameAndType => exact he.imp fun _ => .imp fun _ => .imp_right <| .imp h.textAt? h.textAt?
  | field | method | interfaceMethod => exact he.imp fun _ => .imp fun _ => .imp_right h.memberAt?

theorem symbolAt? (h : p.Extends q) (hi : p.symbolAt? i = some s) : q.symbolAt? i = some s := by
  obtain ⟨e, he, hs⟩ := symbolAt?_eq_some.1 hi
  exact symbolAt?_eq_some.2 ⟨e, h.entryAt? he, h.meaning? hs⟩

end Extends

/-- The pool with one more entry, at the next free slot. -/
def push (p : ConstantPool) (e : Entry) : ConstantPool :=
  ⟨p.entries.push (p.next, e), p.indices.insert e p.next, p.next + e.slots⟩

theorem extends_push (p : ConstantPool) (e : Entry) : p.Extends (p.push e) := by
  rw [Extends, push, Array.toList_push]
  exact List.prefix_append ..

theorem entryAt?_push : (p.push e).entryAt? i = (p.entryAt? i).or (if p.next = i then some e else none) := by
  simp only [entryAt?, push, Array.find?_push, decide_eq_true_eq]
  cases p.entries.find? (·.1 = i) with
  | some x => rfl
  | none => split <;> rfl

theorem indices_empty : empty.indices[e]? = none := by simp [empty]

theorem indices_push : (p.push e).indices[f]? = if e = f then some p.next else p.indices[f]? := by
  rw [push, Std.HashMap.getElem?_insert]
  simp

/-! ### Pools formed by adding -/

/-- Every entry is new, has a meaning in the pool before it, and fits into the slots that are left. -/
inductive Formed : ConstantPool → Prop
  | empty : Formed empty
  | push {p : ConstantPool} {e : Entry} {s : Symbol} (hp : Formed p) (hnew : p.indices[e]? = none)
      (hmeaning : p.meaning? e = some s) (hroom : p.next + e.slots ≤ slotLimit) : Formed (p.push e)

namespace Formed

theorem lt_next (hp : p.Formed) (h : (i, e) ∈ p.entries) : i < p.next := by
  induction hp with
  | empty => simp [ConstantPool.empty] at h
  | @push p e' s _ _ _ _ ih =>
    have hpos := e'.slots_pos
    show i < p.next + e'.slots
    rcases Array.mem_push.1 h with h | h
    · exact Nat.lt_add_right _ (ih h)
    · obtain ⟨rfl, rfl⟩ := Prod.mk.inj h
      omega

theorem next_le (hp : p.Formed) : p.next ≤ slotLimit := by
  cases hp with
  | empty => decide
  | push _ _ _ hroom => exact hroom

theorem mem_entries (h : p.entryAt? i = some e) : (i, e) ∈ p.entries := by
  obtain ⟨⟨j, f⟩, hfind, rfl⟩ := Option.map_eq_some_iff.1 h
  obtain rfl : j = i := by simpa using Array.find?_some hfind
  exact Array.mem_of_find?_eq_some hfind

theorem entryAt?_next (hp : p.Formed) : p.entryAt? p.next = none := by
  cases h : p.entryAt? p.next with
  | none => rfl
  | some e => exact absurd (hp.lt_next (mem_entries h)) (Nat.lt_irrefl _)

theorem entryAt?_push_eq_some (hp : p.Formed) :
    (p.push e).entryAt? i = some f ↔ p.entryAt? i = some f ∨ p.next = i ∧ e = f := by
  rw [entryAt?_push, Option.or_eq_some_iff]
  refine or_congr_right ⟨fun ⟨_, h⟩ => ?_, ?_⟩
  · split at h
    · next heq => exact ⟨heq, Option.some.inj h⟩
    · cases h
  · rintro ⟨rfl, rfl⟩
    exact ⟨hp.entryAt?_next, if_pos rfl⟩

theorem entryAt?_eq_some (hp : p.Formed) : p.entryAt? i = some e ↔ (i, e) ∈ p.entries := by
  refine ⟨mem_entries, fun h => ?_⟩
  induction hp with
  | empty => simp [ConstantPool.empty] at h
  | push hp _ _ _ ih =>
    rw [hp.entryAt?_push_eq_some]
    rcases Array.mem_push.1 h with h | h
    · exact .inl (ih h)
    · obtain ⟨rfl, rfl⟩ := Prod.mk.inj h
      exact .inr ⟨rfl, rfl⟩

/-- The table gives the index of every entry, and has no others. -/
theorem indices_eq_some (hp : p.Formed) : p.indices[e]? = some i ↔ p.entryAt? i = some e := by
  induction hp with
  | empty => simp [ConstantPool.empty, ConstantPool.entryAt?]
  | @push p e' s hp hnew _ _ ih =>
    rw [indices_push, hp.entryAt?_push_eq_some]
    by_cases he : e' = e
    · subst he
      have hold : p.entryAt? i ≠ some e' := fun h => by
        rw [← ih, hnew] at h
        cases h
      simp [hold]
    · simp [he, ih]

theorem entryAt?_inj (hp : p.Formed) (hi : p.entryAt? i = some e) (hj : p.entryAt? j = some e) : i = j := by
  rw [← hp.indices_eq_some] at hi hj
  exact Option.some.inj (hi.symm.trans hj)

/-- Every entry stands for a constant. -/
theorem exists_meaning (hp : p.Formed) (h : p.entryAt? i = some e) : ∃ s, p.meaning? e = some s := by
  induction hp with
  | empty => simp [ConstantPool.empty, ConstantPool.entryAt?] at h
  | @push p e' s hp _ hmeaning _ ih =>
    rcases hp.entryAt?_push_eq_some.1 h with h | ⟨-, rfl⟩
    · obtain ⟨t, ht⟩ := ih h
      exact ⟨t, (extends_push p e').meaning? ht⟩
    · exact ⟨s, (extends_push p e').meaning? hmeaning⟩

/-! ### Constants are there once -/

theorem textAt?_inj (hp : p.Formed) (hi : p.textAt? i = some text) (hj : p.textAt? j = some text) : i = j :=
  hp.entryAt?_inj (textAt?_eq_some.1 hi) (textAt?_eq_some.1 hj)

theorem classAt?_inj (hp : p.Formed) (hi : p.classAt? i = some name) (hj : p.classAt? j = some name) : i = j := by
  obtain ⟨k, hk, hname⟩ := classAt?_eq_some.1 hi
  obtain ⟨l, hl, hname'⟩ := classAt?_eq_some.1 hj
  obtain rfl := hp.textAt?_inj hname hname'
  exact hp.entryAt?_inj hk hl

theorem nameAndTypeAt?_inj (hp : p.Formed) {x : String × String} (hi : p.nameAndTypeAt? i = some x)
    (hj : p.nameAndTypeAt? j = some x) : i = j := by
  obtain ⟨k, l, hkl, hname, hdescriptor⟩ := nameAndTypeAt?_eq_some.1 hi
  obtain ⟨k', l', hkl', hname', hdescriptor'⟩ := nameAndTypeAt?_eq_some.1 hj
  obtain rfl := hp.textAt?_inj hname hname'
  obtain rfl := hp.textAt?_inj hdescriptor hdescriptor'
  exact hp.entryAt?_inj hkl hkl'

theorem memberAt?_inj (hp : p.Formed) {i' j' : Nat} {x : String × String × String} (h : p.memberAt? i j = some x)
    (h' : p.memberAt? i' j' = some x) : i = i' ∧ j = j' := by
  obtain ⟨howner, hnameAndType⟩ := memberAt?_eq_some.1 h
  obtain ⟨howner', hnameAndType'⟩ := memberAt?_eq_some.1 h'
  exact ⟨hp.classAt?_inj howner howner', hp.nameAndTypeAt?_inj hnameAndType hnameAndType'⟩

/-- Only one entry stands for a constant. -/
theorem meaning?_inj (hp : p.Formed) (he : p.meaning? e = some s) (hf : p.meaning? f = some s) : e = f := by
  rw [meaning?_eq_some] at he hf
  cases s with
  | utf8 | integer | long => exact he.trans hf.symm
  | string | className =>
    obtain ⟨i, rfl, hi⟩ := he
    obtain ⟨j, rfl, hj⟩ := hf
    rw [hp.textAt?_inj hi hj]
  | nameAndType =>
    obtain ⟨i, j, rfl, hi, hj⟩ := he
    obtain ⟨i', j', rfl, hi', hj'⟩ := hf
    rw [hp.textAt?_inj hi hi', hp.textAt?_inj hj hj']
  | field | method | interfaceMethod =>
    obtain ⟨i, j, rfl, h⟩ := he
    obtain ⟨i', j', rfl, h'⟩ := hf
    rw [(hp.memberAt?_inj h h').1, (hp.memberAt?_inj h h').2]

/-- An index fits sixteen bits. -/
theorem index_lt (hp : p.Formed) (hi : p.symbolAt? i = some s) : i < 65536 := by
  obtain ⟨e, he, -⟩ := symbolAt?_eq_some.1 hi
  have hle : p.next ≤ 65535 := hp.next_le
  exact Nat.lt_trans (hp.lt_next (mem_entries he)) (Nat.lt_succ_of_le hle)

theorem mem_constants (hp : p.Formed) : s ∈ p.constants ↔ ∃ i, p.symbolAt? i = some s := by
  simp only [constants, List.mem_toFinset, List.mem_filterMap, Array.mem_toList_iff, Prod.exists,
    symbolAt?_eq_some, hp.entryAt?_eq_some]

/-- The entry that stands for a constant of the pool. -/
theorem entry_of_mem (hp : p.Formed) (hs : s ∈ p.constants) (he : p.meaning? e = some s) :
    ∃ i, p.entryAt? i = some e := by
  obtain ⟨i, hi⟩ := hp.mem_constants.1 hs
  obtain ⟨f, hf, hmeaning⟩ := symbolAt?_eq_some.1 hi
  exact ⟨i, hp.meaning?_inj hmeaning he ▸ hf⟩

theorem constants_push (hp : p.Formed) (hq : (p.push e).Formed) (he : p.meaning? e = some s) :
    (p.push e).constants = insert s p.constants := by
  have hnew : (p.push e).meaning? e = some s := (extends_push p e).meaning? he
  ext t
  rw [Finset.mem_insert, hq.mem_constants, hp.mem_constants]
  constructor
  · rintro ⟨i, hi⟩
    obtain ⟨f, hf, hmeaning⟩ := symbolAt?_eq_some.1 hi
    rcases hp.entryAt?_push_eq_some.1 hf with hf | ⟨-, rfl⟩
    · obtain ⟨t', ht'⟩ := hp.exists_meaning hf
      obtain rfl := Option.some.inj (((extends_push p e).meaning? ht').symm.trans hmeaning)
      exact .inr ⟨i, symbolAt?_eq_some.2 ⟨f, hf, ht'⟩⟩
    · exact .inl (Option.some.inj (hmeaning.symm.trans hnew))
  · rintro (rfl | ⟨i, hi⟩)
    · exact ⟨p.next, symbolAt?_eq_some.2 ⟨e, hp.entryAt?_push_eq_some.2 (.inr ⟨rfl, rfl⟩), hnew⟩⟩
    · exact ⟨i, (extends_push p e).symbolAt? hi⟩

end Formed

theorem slots_eq (he : p.meaning? e = some s) : e.slots = s.slots := by
  cases e <;> cases s <;> simp_all [meaning?_eq_some, StandsFor, Entry.slots, Symbol.slots]

/-! ### Constants of one kind -/

theorem symbolAt?_eq_utf8 : p.symbolAt? i = some (.utf8 text) ↔ p.textAt? i = some text := by
  simp [symbolAt?_eq_some, meaning?_eq_some, StandsFor, textAt?_eq_some]

theorem symbolAt?_eq_className : p.symbolAt? i = some (.className name) ↔ p.classAt? i = some name := by
  simp only [symbolAt?_eq_some, meaning?_eq_some, StandsFor, classAt?_eq_some]
  constructor
  · rintro ⟨_, hi, j, rfl, hj⟩
    exact ⟨j, hi, hj⟩
  · rintro ⟨j, hi, hj⟩
    exact ⟨_, hi, j, rfl, hj⟩

theorem symbolAt?_eq_nameAndType :
    p.symbolAt? i = some (.nameAndType name descriptor) ↔ p.nameAndTypeAt? i = some (name, descriptor) := by
  simp only [symbolAt?_eq_some, meaning?_eq_some, StandsFor, nameAndTypeAt?_eq_some]
  constructor
  · rintro ⟨_, hi, j, k, rfl, hj, hk⟩
    exact ⟨j, k, hi, hj, hk⟩
  · rintro ⟨j, k, hi, hj, hk⟩
    exact ⟨_, hi, j, k, rfl, hj, hk⟩

end ConstantPool

end BlockAssembler
