import BlockAssembler.Lowering
import BlockAssembler.Proofs.Run

/-! The standard runtime. All its members are well formed, and each call and each field moves the slots
that the streams of lowering count on. -/

namespace BlockAssembler

theorem exists_ok_of_any {ε α : Type} {x : Except ε α} {p : α → Bool} (h : x.toOption.any p = true) :
    ∃ a, x = .ok a ∧ p a = true := by
  cases x with
  | ok a => exact ⟨a, rfl, h⟩
  | error e => cases h

theorem FieldRef.ofText_eq_ok {descriptor : String} {type : FieldType}
    (h : FieldType.ofDescriptor? descriptor = some type) (owner name : String) :
    ofText owner name descriptor = .ok ⟨owner, name, type⟩ := by
  rw [ofText, h]

namespace Runtime

/-- The slots that a call takes and gives. -/
def Moves (x : Except AssemblyError MethodRef) (arguments results : Nat) : Prop :=
  ∃ method, x = .ok method ∧ method.type.argSlots = arguments ∧ method.type.resultSlots = results

theorem moves_of_any {x : Except AssemblyError MethodRef} {arguments results : Nat}
    (h : (x.toOption.any fun method =>
      method.type.argSlots == arguments && method.type.resultSlots == results) = true) : Moves x arguments results := by
  obtain ⟨method, hx, hslots⟩ := exists_ok_of_any h
  exact ⟨method, hx, by simpa using hslots⟩

theorem moves_truth : Moves standard.truth 0 1 := moves_of_any (by decide +kernel)

theorem moves_tableLookup : Moves standard.tableLookup 1 1 := moves_of_any (by decide +kernel)

theorem moves_intMaker : Moves standard.intMaker 2 1 := moves_of_any (by decide +kernel)

theorem moves_strConstructor : Moves standard.strConstructor 1 0 := moves_of_any (by decide +kernel)

/-- A field of one slot. -/
def HasField (x : Except AssemblyError FieldRef) : Prop := ∃ field, x = .ok field ∧ field.type.slots = 1

theorem hasField_globals (owner : String) : HasField (standard.globals owner) := by
  have hany : ((FieldType.ofDescriptor? standard.tableDescriptor).any fun type => type.slots == 1) = true := by
    decide +kernel
  obtain ⟨type, htype, hslots⟩ := (Option.any_eq_true _ _).1 hany
  exact ⟨_, FieldRef.ofText_eq_ok htype owner _, by simpa using hslots⟩

theorem hasField_builtins : HasField standard.builtins := by
  have hany : (standard.builtins.toOption.any fun field => field.type.slots == 1) = true := by decide +kernel
  obtain ⟨field, hfield, hslots⟩ := exists_ok_of_any hany
  exact ⟨field, hfield, by simpa using hslots⟩

theorem hasField_bool (value : Bool) : HasField (standard.bool value) := by
  have hany : ((standard.bool value).toOption.any fun field => field.type.slots == 1) = true := by
    cases value <;> decide +kernel
  obtain ⟨field, hfield, hslots⟩ := exists_ok_of_any hany
  exact ⟨field, hfield, by simpa using hslots⟩

end Runtime

namespace Lowering

variable {m : Module} {name : String} {items : List Item}

/-- The lookup of a name, out of the members it needs. -/
theorem lookup_eq_ok (h : lookup m name = .ok items) : ∃ get globals builtins,
    m.config.tableLookup = .ok get ∧ m.config.globals m.descriptor = .ok globals ∧ m.config.builtins = .ok builtins ∧
      items = [.op (.getstatic globals), .op (.ldc (.string name)), .op (.invoke .virtual get),
        .beginIf [.op .dup] .ifnonnull, .op .pop, .op (.getstatic builtins), .op (.ldc (.string name)),
        .op (.invoke .virtual get), .endIf] := by
  obtain ⟨get, hget, h⟩ := except_bind_eq_ok.1 h
  obtain ⟨globals, hglobals, h⟩ := except_bind_eq_ok.1 h
  obtain ⟨builtins, hbuiltins, h⟩ := except_bind_eq_ok.1 h
  exact ⟨get, globals, builtins, hget, hglobals, hbuiltins, (Except.ok.inj h).symm⟩

theorem exists_lookup (hconfig : m.config = .standard) (name : String) : ∃ items, lookup m name = .ok items := by
  obtain ⟨get, hget, -⟩ := Runtime.moves_tableLookup
  obtain ⟨globals, hglobals, -⟩ := Runtime.hasField_globals m.descriptor
  obtain ⟨builtins, hbuiltins, -⟩ := Runtime.hasField_builtins
  exact ⟨_, by rw [lookup, hconfig, hget, hglobals, hbuiltins]; rfl⟩

end Lowering

end BlockAssembler
