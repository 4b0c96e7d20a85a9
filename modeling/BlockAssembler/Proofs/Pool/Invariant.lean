import BlockAssembler.Proofs.Pool.Interning
import Mathlib.Algebra.GroupWithZero.Nat
import Mathlib.Data.List.Nodup

/-! A pool over a whole run of requests, those included that it has no room for. Its entries are
numbered without gaps, none is there twice, and what they refer to comes before them. Entries
stay as they are, so an index that has been given denotes the same constant from then on. -/

namespace BlockAssembler

/-! ### Entries and what they refer to -/

inductive EntryKind
  | utf8
  | integer
  | long
  | string
  | className
  | nameAndType
  | field
  | method
  | interfaceMethod
  deriving DecidableEq

namespace Entry

def kind : Entry → EntryKind
  | utf8 _ => .utf8
  | integer _ => .integer
  | long _ => .long
  | string _ => .string
  | className _ => .className
  | nameAndType .. => .nameAndType
  | field .. => .field
  | method .. => .method
  | interfaceMethod .. => .interfaceMethod

/-- The indices that an entry holds, each with the kind of entry it has to name. -/
def operands : Entry → List (Nat × EntryKind)
  | utf8 _ | integer _ | long _ => []
  | string text => [(text, .utf8)]
  | className name => [(name, .utf8)]
  | nameAndType name descriptor => [(name, .utf8), (descriptor, .utf8)]
  | field owner typed | method owner typed | interfaceMethod owner typed =>
    [(owner, .className), (typed, .nameAndType)]

end Entry

namespace ConstantPool

/-- The entries of a pool by their position, and the slots they take. -/
structure Sound (p : ConstantPool) : Prop where
  first : ∀ i e, p.entries[0]? = some (i, e) → i = 1
  next : ∀ (k i j : Nat) e f, p.entries[k]? = some (i, e) → p.entries[k + 1]? = some (j, f) → j = i + e.slots
  size_eq : p.size = (p.entries.toList.map fun x => x.2.slots).sum
  /-- slot zero is not used, and the count that includes it has to fit sixteen bits -/
  size_le : p.size ≤ 65534
  nodup : (p.entries.toList.map Prod.snd).Nodup
  operands : ∀ (k i : Nat) e, p.entries[k]? = some (i, e) →
    ∀ x ∈ e.operands, ∃ l < k, ∃ f, p.entries[l]? = some (x.1, f) ∧ f.kind = x.2

variable {p q : ConstantPool} {i j k : Nat} {e : Entry} {s : Symbol}

theorem exists_operand (he : p.meaning? e = some s) :
    ∀ x ∈ e.operands, ∃ f, p.entryAt? x.1 = some f ∧ f.kind = x.2 := by
  have htext {i : Nat} {text : String} (hi : p.textAt? i = some text) :
      ∃ f, p.entryAt? i = some f ∧ f.kind = .utf8 := ⟨_, textAt?_eq_some.1 hi, rfl⟩
  have hmember {i j : Nat} {x : String × String × String} (h : p.memberAt? i j = some x) :
      (∃ f, p.entryAt? i = some f ∧ f.kind = .className) ∧ ∃ f, p.entryAt? j = some f ∧ f.kind = .nameAndType := by
    obtain ⟨howner, hnameAndType⟩ := memberAt?_eq_some.1 h
    obtain ⟨_, hi, -⟩ := classAt?_eq_some.1 howner
    obtain ⟨_, _, hj, -⟩ := nameAndTypeAt?_eq_some.1 hnameAndType
    exact ⟨⟨_, hi, rfl⟩, _, hj, rfl⟩
  rw [meaning?_eq_some] at he
  cases s with
  | utf8 | integer | long =>
    obtain rfl := he
    simp [Entry.operands]
  | string | className =>
    obtain ⟨i, rfl, hi⟩ := he
    simpa [Entry.operands] using htext hi
  | nameAndType =>
    obtain ⟨i, j, rfl, hi, hj⟩ := he
    simpa [Entry.operands] using ⟨htext hi, htext hj⟩
  | field | method | interfaceMethod =>
    obtain ⟨i, j, rfl, h⟩ := he
    simpa [Entry.operands] using hmember h

namespace Formed

theorem next_eq_sum (hp : p.Formed) : p.next = 1 + (p.entries.toList.map fun x => x.2.slots).sum := by
  induction hp with
  | empty => rfl
  | @push p e s _ _ _ _ ih =>
    show p.next + e.slots = 1 + ((p.entries.push (p.next, e)).toList.map fun x => x.2.slots).sum
    rw [Array.toList_push, List.map_append, List.sum_append, List.map_singleton, List.sum_singleton, ← Nat.add_assoc,
      ← ih]

/-- An index counts the slots of the entries before. -/
theorem index_eq (hp : p.Formed) (h : p.entries[k]? = some (i, e)) :
    i = 1 + ((p.entries.toList.take k).map fun x => x.2.slots).sum := by
  induction hp with
  | empty => simp [ConstantPool.empty] at h
  | @push p e' s hp _ _ _ ih =>
    show i = 1 + (((p.entries.push (p.next, e')).toList.take k).map fun x => x.2.slots).sum
    rw [ConstantPool.push, Array.getElem?_push] at h
    rw [Array.toList_push]
    split at h
    · next hk =>
      obtain ⟨rfl, rfl⟩ := Prod.mk.inj (Option.some.inj h)
      rw [hk, ← Array.length_toList, List.take_left, ← hp.next_eq_sum]
    · have hk := (Array.getElem?_eq_some_iff.1 h).1
      rw [List.take_append_of_le_length (by simpa using Nat.le_of_lt hk)]
      exact ih h

theorem nodup (hp : p.Formed) : (p.entries.toList.map Prod.snd).Nodup := by
  induction hp with
  | empty => exact .nil
  | @push p e s hp hnew _ _ ih =>
    rw [ConstantPool.push, Array.toList_push, List.map_append, List.map_singleton, List.nodup_append_comm]
    refine List.nodup_cons.2 ⟨fun h => ?_, ih⟩
    obtain ⟨⟨i, f⟩, hmem, rfl⟩ := List.mem_map.1 h
    rw [hp.indices_eq_some.2 (hp.entryAt?_eq_some.2 (by simpa using hmem))] at hnew
    cases hnew

theorem operands (hp : p.Formed) (h : p.entries[k]? = some (i, e)) :
    ∀ x ∈ e.operands, ∃ l < k, ∃ f, p.entries[l]? = some (x.1, f) ∧ f.kind = x.2 := by
  induction hp with
  | empty => simp [ConstantPool.empty] at h
  | @push p e' s hp _ hmeaning _ ih =>
    intro x hx
    obtain ⟨l, hl, hlsize, f, hf, hkind⟩ : ∃ l < k, l < p.entries.size ∧ ∃ f, p.entries[l]? = some (x.1, f) ∧
        f.kind = x.2 := by
      rw [ConstantPool.push, Array.getElem?_push] at h
      split at h
      · next hk =>
        obtain ⟨rfl, rfl⟩ := Prod.mk.inj (Option.some.inj h)
        obtain ⟨f, hf, hkind⟩ := exists_operand hmeaning x hx
        obtain ⟨l, hl⟩ := Array.mem_iff_getElem?.1 (hp.entryAt?_eq_some.1 hf)
        have hlt := (Array.getElem?_eq_some_iff.1 hl).1
        exact ⟨l, hk ▸ hlt, hlt, f, hl, hkind⟩
      · obtain ⟨l, hl, f, hf, hkind⟩ := ih h x hx
        exact ⟨l, hl, (Array.getElem?_eq_some_iff.1 hf).1, f, hf, hkind⟩
    refine ⟨l, hl, f, ?_, hkind⟩
    rw [ConstantPool.push, Array.getElem?_push, if_neg (Nat.ne_of_lt hlsize), hf]

theorem sound (hp : p.Formed) : p.Sound where
  first i e h := hp.index_eq h
  next k i j e f h h' := by
    have hi := hp.index_eq h
    have hj := hp.index_eq h'
    rw [List.take_add_one, Array.getElem?_toList, h, List.map_append, List.sum_append, ← Nat.add_assoc, ← hi] at hj
    exact hj
  size_eq := by rw [size, hp.next_eq_sum, Nat.add_sub_cancel_left]
  size_le := Nat.sub_le_sub_right hp.next_le 1
  nodup := hp.nodup
  operands _ _ _ h := hp.operands h

end Formed

/-! ### Runs -/

/-- The pool that a request leaves, also if it is refused. -/
def after (p : ConstantPool) (s : Symbol) : ConstantPool :=
  match (intern s).run p with
  | .ok _ q | .error _ q => q

/-- The pool that requests leave, one after the other. -/
def afterAll (requests : List Symbol) (p : ConstantPool) : ConstantPool := requests.foldl after p

theorem formed_after (hp : p.Formed) (s : Symbol) : (p.after s).Formed ∧ p.Extends (p.after s) := by
  rcases intern_collects hp s with ⟨i, q, hrun, hq, hext, -⟩ | ⟨q, hrun, hq, hext, -⟩
  · rw [after, hrun]
    exact ⟨hq, hext⟩
  · rw [after, hrun]
    exact ⟨hq, hext⟩

theorem formed_afterAll (hp : p.Formed) (requests : List Symbol) :
    (afterAll requests p).Formed ∧ p.Extends (afterAll requests p) := by
  induction requests generalizing p with
  | nil => exact ⟨hp, .refl p⟩
  | cons s requests ih =>
    obtain ⟨hq, hext⟩ := formed_after hp s
    obtain ⟨hr, hext'⟩ := ih hq
    exact ⟨hr, hext.trans hext'⟩

/-- Whatever a new pool has been asked for, also beyond its room: the entries of then are those of
now with others behind them, and well formed. A further request is refused only for lack of room,
and the index it otherwise gives denotes what was asked for, then and after whatever follows. -/
theorem sound_afterAll (earlier later : List Symbol) :
    (afterAll later (afterAll earlier empty)).Sound ∧
      (afterAll earlier empty).entries.toList <+: (afterAll later (afterAll earlier empty)).entries.toList ∧
      ∀ s, match (intern s).run (afterAll earlier empty) with
        | .ok i q => ∀ more, (afterAll more q).symbolAt? i = some s
        | .error e _ => e = .poolOverflow := by
  have hearlier := (formed_afterAll .empty earlier).1
  obtain ⟨hlater, hext⟩ := formed_afterAll hearlier later
  refine ⟨hlater.sound, hext, fun s => ?_⟩
  rcases intern_collects hearlier s with ⟨i, q, hrun, hq, -, -, hi⟩ | ⟨q, hrun, -⟩
  · rw [hrun]
    exact fun more => (formed_afterAll hq more).2.symbolAt? hi
  · rw [hrun]

end ConstantPool

end BlockAssembler
