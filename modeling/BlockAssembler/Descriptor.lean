/-! Descriptors: the written form of the types of fields and of methods. A type is
a tree, a descriptor is its spelling, and reading a descriptor gives the tree
back, so the number of operand stack slots is a function of the tree alone. A
name inside an object type ends at the first semicolon and may hold any other
character; the type keeps that as a field, so that every tree has a spelling that
reads back as itself. -/

namespace BlockAssembler

/-- The types written with one letter. -/
inductive Primitive
  | byte
  | char
  | float
  | int
  | short
  | boolean
  | long
  | double
  deriving DecidableEq, Repr

namespace Primitive

def letter : Primitive → Char
  | byte => 'B'
  | char => 'C'
  | float => 'F'
  | int => 'I'
  | short => 'S'
  | boolean => 'Z'
  | long => 'J'
  | double => 'D'

def ofLetter? : Char → Option Primitive
  | 'B' => some byte
  | 'C' => some char
  | 'F' => some float
  | 'I' => some int
  | 'S' => some short
  | 'Z' => some boolean
  | 'J' => some long
  | 'D' => some double
  | _ => none

/-- A long and a double take two slots of the operand stack. -/
def slots : Primitive → Nat
  | long => 2
  | double => 2
  | _ => 1

theorem ofLetter?_letter (p : Primitive) : ofLetter? p.letter = some p := by
  cases p <;> rfl

end Primitive

/-- The type of a field, of an argument or of a result. -/
inductive FieldType
  | primitive (p : Primitive)
  | object (name : List Char) (unbroken : ';' ∉ name)
  | array (component : FieldType)
  deriving DecidableEq

namespace FieldType

def spelling : FieldType → List Char
  | primitive p => [p.letter]
  | object name _ => 'L' :: (name ++ [';'])
  | array component => '[' :: component.spelling

/-- An array of any component is one reference. -/
def slots : FieldType → Nat
  | primitive p => p.slots
  | _ => 1

/-- A name reaches to the first semicolon, which has to be there. -/
def readName (cs : List Char) : Option (FieldType × List Char) :=
  match cs.dropWhile (· != ';') with
  | [] => none
  | _ :: rest =>
    some (object (cs.takeWhile (· != ';'))
      (fun h => absurd (List.all_eq_true.1 List.all_takeWhile _ h) (by decide)), rest)

/-- Reads one type from the front and returns what follows it. -/
def read : List Char → Option (FieldType × List Char)
  | [] => none
  | c :: cs =>
    match Primitive.ofLetter? c with
    | some p => some (primitive p, cs)
    | none =>
      if c = 'L' then readName cs
      else if c = '[' then (read cs).map fun (component, rest) => (array component, rest)
      else none

theorem length_lt_of_read {cs rest : List Char} {t : FieldType} (h : read cs = some (t, rest)) :
    rest.length < cs.length := by
  induction cs generalizing t rest with
  | nil => simp [read] at h
  | cons c cs ih =>
    rw [read] at h
    split at h
    · simp only [Option.some.injEq, Prod.mk.injEq] at h
      simp [h.2]
    · split at h
      · rw [readName] at h
        split at h
        · simp at h
        · next heq =>
          simp only [Option.some.injEq, Prod.mk.injEq] at h
          have := (List.dropWhile_sublist (l := cs) (· != ';')).length_le
          rw [heq] at this
          simp only [List.length_cons] at this ⊢
          rw [← h.2]; omega
      · split at h
        · obtain ⟨⟨u, r⟩, hr, he⟩ := Option.map_eq_some_iff.1 h
          simp only [Prod.mk.injEq] at he
          have := ih hr
          simp only [List.length_cons]; rw [← he.2]; omega
        · simp at h

private theorem dropWhile_name {name : List Char} (h : ';' ∉ name) (rest : List Char) :
    (name ++ ';' :: rest).dropWhile (· != ';') = ';' :: rest := by
  induction name with
  | nil => simp
  | cons c name ih =>
    simp only [List.mem_cons, not_or] at h
    simp [ih h.2, Ne.symm h.1]

private theorem takeWhile_name {name : List Char} (h : ';' ∉ name) (rest : List Char) :
    (name ++ ';' :: rest).takeWhile (· != ';') = name := by
  induction name with
  | nil => simp
  | cons c name ih =>
    simp only [List.mem_cons, not_or] at h
    simp [ih h.2, Ne.symm h.1]

/-- A spelling reads back as its type, whatever follows it. -/
theorem read_spelling (t : FieldType) (rest : List Char) :
    read (t.spelling ++ rest) = some (t, rest) := by
  induction t with
  | primitive p => simp [spelling, read, Primitive.ofLetter?_letter]
  | object name h =>
    simp [spelling, read, Primitive.ofLetter?, readName, dropWhile_name h, takeWhile_name h]
  | array component ih => simp [spelling, read, Primitive.ofLetter?, ih]

/-- The type that a text spells, if the text is one descriptor and nothing more. -/
def ofDescriptor? (text : String) : Option FieldType :=
  match read text.toList with
  | some (t, []) => some t
  | _ => none

def descriptor (t : FieldType) : String := String.ofList t.spelling

end FieldType

/-- The types of the arguments and of the result; no result is written `V`. -/
structure MethodType where
  params : List FieldType
  result : Option FieldType
  deriving DecidableEq

namespace MethodType

def spelling (m : MethodType) : List Char :=
  '(' :: (m.params.flatMap FieldType.spelling ++ ')' ::
    (match m.result with
    | none => ['V']
    | some t => t.spelling))

/-- The slots of the arguments; the receiver is not counted. -/
def argSlots (m : MethodType) : Nat := m.params.foldr (fun t n => t.slots + n) 0

def resultSlots (m : MethodType) : Nat :=
  match m.result with
  | none => 0
  | some t => t.slots

/-- Reads argument types up to the closing parenthesis and returns what follows it. -/
def readParams : List Char → Option (List FieldType × List Char)
  | [] => none
  | c :: cs =>
    if c = ')' then some ([], cs)
    else
      match h : FieldType.read (c :: cs) with
      | none => none
      | some (t, rest) =>
        have := FieldType.length_lt_of_read h
        (readParams rest).map fun (ts, rest) => (t :: ts, rest)
  termination_by cs => cs.length
  decreasing_by exact this

def readResult : List Char → Option (Option FieldType × List Char)
  | [] => none
  | c :: cs =>
    if c = 'V' then some (none, cs)
    else (FieldType.read (c :: cs)).map fun (t, rest) => (some t, rest)

/-- The method type that a text spells, if the text is one descriptor and nothing more. -/
def ofDescriptor? (text : String) : Option MethodType :=
  match text.toList with
  | '(' :: cs =>
    match readParams cs with
    | none => none
    | some (params, cs) =>
      match readResult cs with
      | some (result, []) => some ⟨params, result⟩
      | _ => none
  | _ => none

def descriptor (m : MethodType) : String := String.ofList m.spelling

end MethodType

end BlockAssembler
