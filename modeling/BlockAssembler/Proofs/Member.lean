import BlockAssembler.Member

/-! Members from their texts. A field descriptor and a method descriptor are never the same text, and
either reads back as the type that it spells, so a member is given by its three texts. -/

namespace BlockAssembler

namespace FieldType

theorem ofDescriptor?_descriptor (t : FieldType) : ofDescriptor? t.descriptor = some t := by
  have h := read_spelling t []
  rw [List.append_nil] at h
  rw [ofDescriptor?, descriptor, String.toList_ofList, h]

/-- A type starts with a letter of its own, a name, or a bracket. -/
theorem spelling_eq_cons (t : FieldType) : ∃ c cs, t.spelling = c :: cs ∧ c ≠ '(' ∧ c ≠ ')' ∧ c ≠ 'V' := by
  cases t with
  | primitive p => exact ⟨p.letter, [], rfl, by cases p <;> decide⟩
  | object name _ => exact ⟨'L', _, rfl, by decide⟩
  | array component => exact ⟨'[', _, rfl, by decide⟩

end FieldType

namespace MethodType

theorem readParams_spelling (ts : List FieldType) (rest : List Char) :
    readParams (ts.flatMap FieldType.spelling ++ ')' :: rest) = some (ts, rest) := by
  induction ts with
  | nil => simp [readParams]
  | cons t ts ih =>
    have hread := t.read_spelling (ts.flatMap FieldType.spelling ++ ')' :: rest)
    obtain ⟨c, cs, hspelling, -, hc, -⟩ := t.spelling_eq_cons
    rw [List.flatMap_cons, List.append_assoc]
    rw [hspelling, List.cons_append] at hread ⊢
    rw [readParams, if_neg hc]
    split
    · next h => cases hread.symm.trans h
    · next u rest' h =>
      obtain ⟨rfl, rfl⟩ := Prod.mk.inj (Option.some.inj (hread.symm.trans h))
      rw [ih]
      rfl

theorem readResult_spelling (t : FieldType) : readResult t.spelling = some (some t, []) := by
  have hread := t.read_spelling []
  obtain ⟨c, cs, hspelling, -, -, hc⟩ := t.spelling_eq_cons
  rw [List.append_nil] at hread
  rw [hspelling] at hread ⊢
  rw [readResult, if_neg hc, hread]
  rfl

theorem ofDescriptor?_descriptor (m : MethodType) : ofDescriptor? m.descriptor = some m := by
  obtain ⟨params, result⟩ := m
  rw [ofDescriptor?, descriptor, String.toList_ofList, spelling]
  cases result with
  | none => simp [readParams_spelling, readResult]
  | some t => simp [readParams_spelling, readResult_spelling]

/-- No method descriptor is a field descriptor. -/
theorem fieldType_descriptor (m : MethodType) : FieldType.ofDescriptor? m.descriptor = none := by
  rw [FieldType.ofDescriptor?, descriptor, String.toList_ofList, spelling]
  simp [FieldType.read, Primitive.ofLetter?]

end MethodType

/-- The member that three texts name. -/
def MemberRef.ofText? (owner name descriptor : String) : Option MemberRef :=
  match FieldType.ofDescriptor? descriptor with
  | some type => some (.field ⟨owner, name, type⟩)
  | none => (MethodType.ofDescriptor? descriptor).map fun type => .method ⟨owner, name, type⟩

theorem MemberRef.ofText?_self (m : MemberRef) : ofText? m.owner m.name m.descriptor = some m := by
  cases m with
  | field f => simp [ofText?, owner, name, descriptor, FieldRef.descriptor, FieldType.ofDescriptor?_descriptor]
  | method m =>
    simp [ofText?, owner, name, descriptor, MethodRef.descriptor, MethodType.fieldType_descriptor,
      MethodType.ofDescriptor?_descriptor]

end BlockAssembler
