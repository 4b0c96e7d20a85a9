import BlockAssembler.Proofs.Member

/-! What a descriptor is. The grammar is given on its own, as a relation between a text and the number of
slots of what the text spells. A text reads as a type exactly if it spells one, with nothing in front of it
and nothing behind it, and no text spells two types. -/

namespace BlockAssembler

namespace FieldType

/-- The text of a type that takes a number of slots. -/
inductive Spells : List Char → Nat → Prop
  | single {c : Char} (hc : c ∈ ['B', 'C', 'F', 'I', 'S', 'Z']) : Spells [c] 1
  | double {c : Char} (hc : c ∈ ['J', 'D']) : Spells [c] 2
  | object {name : List Char} (unbroken : ';' ∉ name) : Spells ('L' :: (name ++ [';'])) 1
  | array {component : List Char} {n : Nat} (h : Spells component n) : Spells ('[' :: component) 1

variable {cs rest : List Char} {t : FieldType} {n : Nat}

theorem spells_spelling (t : FieldType) : Spells t.spelling t.slots := by
  induction t with
  | primitive p =>
    cases p with
    | long | double => exact .double (by decide)
    | byte | char | float | int | short | boolean => exact .single (by decide)
  | object name unbroken => exact .object unbroken
  | array component ih => exact .array ih

theorem spells_iff : Spells cs n ↔ ∃ t : FieldType, t.spelling = cs ∧ t.slots = n := by
  constructor
  · intro h
    induction h with
    | @single c hc =>
      simp only [List.mem_cons, List.not_mem_nil, or_false] at hc
      rcases hc with rfl | rfl | rfl | rfl | rfl | rfl
      · exact ⟨.primitive .byte, rfl, rfl⟩
      · exact ⟨.primitive .char, rfl, rfl⟩
      · exact ⟨.primitive .float, rfl, rfl⟩
      · exact ⟨.primitive .int, rfl, rfl⟩
      · exact ⟨.primitive .short, rfl, rfl⟩
      · exact ⟨.primitive .boolean, rfl, rfl⟩
    | @double c hc =>
      simp only [List.mem_cons, List.not_mem_nil, or_false] at hc
      rcases hc with rfl | rfl
      · exact ⟨.primitive .long, rfl, rfl⟩
      · exact ⟨.primitive .double, rfl, rfl⟩
    | object unbroken => exact ⟨.object _ unbroken, rfl, rfl⟩
    | array _ ih =>
      obtain ⟨t, rfl, -⟩ := ih
      exact ⟨.array t, rfl, rfl⟩
  · rintro ⟨t, rfl, rfl⟩
    exact t.spells_spelling

/-! ### Reading -/

theorem letter_of_ofLetter? {c : Char} {p : Primitive} (h : Primitive.ofLetter? c = some p) : p.letter = c := by
  unfold Primitive.ofLetter? at h
  split at h <;> cases h <;> rfl

/-- The name ends where the first semicolon stands. -/
theorem spelling_of_readName (h : readName cs = some (t, rest)) : 'L' :: cs = t.spelling ++ rest := by
  unfold readName at h
  split at h
  · cases h
  · next c rest' hdrop =>
    cases h
    have hc : c = ';' := by
      have hhead := List.head?_dropWhile_not (· != ';') cs
      rw [hdrop] at hhead
      simpa using hhead
    have hwhole := List.takeWhile_append_dropWhile (p := (· != ';')) (l := cs)
    rw [hdrop, hc] at hwhole
    rw [spelling, List.cons_append, List.append_assoc, List.singleton_append, hwhole]

/-- What has been read is the front of the text. -/
theorem spelling_of_read (h : read cs = some (t, rest)) : cs = t.spelling ++ rest := by
  induction cs generalizing t with
  | nil => cases h
  | cons c cs ih =>
    rw [read] at h
    split at h
    · next p hp =>
      cases h
      rw [spelling, letter_of_ofLetter? hp, List.singleton_append]
    · split at h
      · next hc =>
        subst hc
        exact spelling_of_readName h
      · split at h
        · next hc =>
          obtain ⟨⟨component, rest'⟩, hread, heq⟩ := Option.map_eq_some_iff.1 h
          cases heq
          rw [hc, ih hread, spelling, List.cons_append]
        · cases h

theorem ofDescriptor?_eq_some {s : String} : ofDescriptor? s = some t ↔ t.descriptor = s := by
  constructor
  · intro h
    unfold ofDescriptor? at h
    split at h
    · next hread =>
      cases h
      rw [descriptor, ← List.append_nil t.spelling, ← spelling_of_read hread, String.ofList_toList]
    · cases h
  · rintro rfl
    exact t.ofDescriptor?_descriptor

theorem descriptor_injective : Function.Injective descriptor := fun t t' h =>
  Option.some.inj (by rw [← t.ofDescriptor?_descriptor, h, t'.ofDescriptor?_descriptor])

theorem spelling_eq_toList {s : String} : t.spelling = s.toList ↔ t.descriptor = s := by
  rw [descriptor, ← String.toList_inj, String.toList_ofList]

theorem slots_ofDescriptor? {s : String} : (ofDescriptor? s).map slots = some n ↔ Spells s.toList n := by
  simp only [Option.map_eq_some_iff, spells_iff, ofDescriptor?_eq_some, spelling_eq_toList]

end FieldType

namespace MethodType

/-- The texts of types one after the other, and the slots that they take together. -/
inductive SpellsParams : List Char → Nat → Prop
  | nil : SpellsParams [] 0
  | cons {first rest : List Char} {n k : Nat} (h : FieldType.Spells first n) (hrest : SpellsParams rest k) :
    SpellsParams (first ++ rest) (n + k)

/-- The text of a result: of none, or of a type. -/
inductive SpellsResult : List Char → Nat → Prop
  | void : SpellsResult ['V'] 0
  | type {cs : List Char} {n : Nat} (h : FieldType.Spells cs n) : SpellsResult cs n

/-- The text of a method type whose arguments and whose result take some slots. -/
inductive Spells : List Char → Nat → Nat → Prop
  | mk {params result : List Char} {args ret : Nat} (hparams : SpellsParams params args)
    (hresult : SpellsResult result ret) : Spells ('(' :: (params ++ ')' :: result)) args ret

variable {cs rest : List Char} {ts : List FieldType} {r : Option FieldType} {m : MethodType} {n args ret : Nat}

/-- The text of a result. -/
def resultSpelling : Option FieldType → List Char
  | none => ['V']
  | some t => t.spelling

theorem spelling_eq (m : MethodType) :
    m.spelling = '(' :: (m.params.flatMap FieldType.spelling ++ ')' :: resultSpelling m.result) := by
  obtain ⟨params, _ | result⟩ := m <;> rfl

theorem spellsParams_iff : SpellsParams cs n ↔
    ∃ ts : List FieldType, ts.flatMap FieldType.spelling = cs ∧ ts.foldr (fun t n => t.slots + n) 0 = n := by
  constructor
  · intro h
    induction h with
    | nil => exact ⟨[], rfl, rfl⟩
    | cons h _ ih =>
      obtain ⟨t, rfl, rfl⟩ := FieldType.spells_iff.1 h
      obtain ⟨ts, rfl, rfl⟩ := ih
      exact ⟨t :: ts, rfl, rfl⟩
  · rintro ⟨ts, rfl, rfl⟩
    induction ts with
    | nil => exact .nil
    | cons t ts ih => exact .cons t.spells_spelling ih

theorem spellsResult_iff : SpellsResult cs n ↔
    ∃ r : Option FieldType, resultSpelling r = cs ∧ resultSlots ⟨[], r⟩ = n := by
  constructor
  · rintro (_ | h)
    · exact ⟨none, rfl, rfl⟩
    · obtain ⟨t, rfl, rfl⟩ := FieldType.spells_iff.1 h
      exact ⟨some t, rfl, rfl⟩
  · rintro ⟨_ | t, rfl, rfl⟩
    · exact .void
    · exact .type t.spells_spelling

theorem spells_iff : Spells cs args ret ↔
    ∃ m : MethodType, m.spelling = cs ∧ m.argSlots = args ∧ m.resultSlots = ret := by
  constructor
  · rintro ⟨hparams, hresult⟩
    obtain ⟨ts, rfl, rfl⟩ := spellsParams_iff.1 hparams
    obtain ⟨r, rfl, rfl⟩ := spellsResult_iff.1 hresult
    exact ⟨⟨ts, r⟩, spelling_eq _, rfl, rfl⟩
  · rintro ⟨m, rfl, rfl, rfl⟩
    rw [spelling_eq]
    exact .mk (spellsParams_iff.2 ⟨m.params, rfl, rfl⟩) (spellsResult_iff.2 ⟨m.result, rfl, rfl⟩)

/-! ### Reading -/

theorem spelling_of_readParams (h : readParams cs = some (ts, rest)) :
    cs = ts.flatMap FieldType.spelling ++ ')' :: rest := by
  induction cs using readParams.induct generalizing ts with
  | case1 => simp [readParams] at h
  | case2 cs =>
    rw [readParams, if_pos rfl] at h
    cases h
    rfl
  | case3 c cs hc hread =>
    rw [readParams, if_neg hc] at h
    split at h
    · cases h
    · next hread' => cases hread.symm.trans hread'
  | case4 c cs hc t rest' hread _ ih =>
    rw [readParams, if_neg hc] at h
    split at h
    · cases h
    · next u rest'' hread' =>
      cases hread.symm.trans hread'
      obtain ⟨⟨us, after⟩, hrest, heq⟩ := Option.map_eq_some_iff.1 h
      cases heq
      rw [FieldType.spelling_of_read hread, ih hrest, List.flatMap_cons, List.append_assoc]

theorem spelling_of_readResult (h : readResult cs = some (r, rest)) : cs = resultSpelling r ++ rest := by
  cases cs with
  | nil => cases h
  | cons c cs =>
    rw [readResult] at h
    split at h
    · next hc =>
      cases h
      rw [hc, resultSpelling, List.singleton_append]
    · obtain ⟨⟨t, after⟩, hread, heq⟩ := Option.map_eq_some_iff.1 h
      cases heq
      exact FieldType.spelling_of_read hread

theorem ofDescriptor?_eq_some {s : String} : ofDescriptor? s = some m ↔ m.descriptor = s := by
  constructor
  · intro h
    unfold ofDescriptor? at h
    split at h
    · next cs htext =>
      split at h
      · cases h
      · next params cs hparams =>
        split at h
        · next result hresult =>
          cases h
          have hspelling := spelling_eq ⟨params, result⟩
          rw [← List.append_nil (resultSpelling result), ← spelling_of_readResult hresult,
            ← spelling_of_readParams hparams, ← htext] at hspelling
          rw [descriptor, hspelling, String.ofList_toList]
        · cases h
    · cases h
  · rintro rfl
    exact m.ofDescriptor?_descriptor

theorem descriptor_injective : Function.Injective descriptor := fun m m' h =>
  Option.some.inj (by rw [← m.ofDescriptor?_descriptor, h, m'.ofDescriptor?_descriptor])

theorem spelling_eq_toList {s : String} : m.spelling = s.toList ↔ m.descriptor = s := by
  rw [descriptor, ← String.toList_inj, String.toList_ofList]

/-- The slots of the arguments and of the result. -/
def shape (m : MethodType) : Nat × Nat := (m.argSlots, m.resultSlots)

theorem shape_ofDescriptor? {s : String} :
    (ofDescriptor? s).map shape = some (args, ret) ↔ Spells s.toList args ret := by
  simp only [Option.map_eq_some_iff, spells_iff, ofDescriptor?_eq_some, spelling_eq_toList, shape, Prod.mk.injEq]

/-- A text reads as a field type or as a method type exactly if it spells one, with the slots that the grammar
gives; any other text is not read at all. What a text spells is one type. -/
theorem descriptors_read (s : String) :
    (∀ n, (FieldType.ofDescriptor? s).map FieldType.slots = some n ↔ FieldType.Spells s.toList n) ∧
      (∀ args ret, (ofDescriptor? s).map shape = some (args, ret) ↔ Spells s.toList args ret) ∧
      (FieldType.ofDescriptor? s = none ↔ ¬ ∃ n, FieldType.Spells s.toList n) ∧
      (ofDescriptor? s = none ↔ ¬ ∃ args ret, Spells s.toList args ret) ∧
      Function.Injective FieldType.descriptor ∧ Function.Injective descriptor := by
  refine ⟨fun n => FieldType.slots_ofDescriptor?, fun args ret => shape_ofDescriptor?, ?_, ?_,
    FieldType.descriptor_injective, descriptor_injective⟩
  · simp only [← FieldType.slots_ofDescriptor?]
    cases FieldType.ofDescriptor? s <;> simp
  · simp only [← shape_ofDescriptor?]
    cases ofDescriptor? s <;> simp [shape]

end MethodType

end BlockAssembler
