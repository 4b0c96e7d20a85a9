import BlockAssembler.Proofs.Body.Handlers
import BlockAssembler.Proofs.Lowering.Standard
import BlockAssembler.Proofs.Machine

/-! The lookup of a name, as a balanced stream and as instructions. Executed from its first instruction
on, it leaves what the globals have under the name or else what the builtins have, and it asks the
builtins only if the globals have nothing. -/

namespace BlockAssembler

namespace Lowering

variable (get : MethodRef) (globals builtins : FieldRef) (name : String)

def lookupBody : Body :=
  .op (.getstatic globals) (.op (.ldc (.string name)) (.op (.invoke .virtual get)
    (.chain (.op .dup .nil) .ifnonnull
      (.op .pop (.op (.getstatic builtins) (.op (.ldc (.string name)) (.op (.invoke .virtual get) .nil))))
      .done .nil)))

/-- The instructions of a lookup; the jump leads behind the last one. -/
def lookupCode : List Opcode :=
  [.getstatic globals, .ldc (.string name), .invoke .virtual get, .dup, .branch .ifnonnull 13, .pop,
    .getstatic builtins, .ldc (.string name), .invoke .virtual get]

theorem jumpless_lookupBody : (lookupBody get globals builtins name).Jumpless := by
  simp [lookupBody, Body.Jumpless, Arms.Jumpless, Opcode.isJump, Opcode.distance?]

theorem receiving_lookupBody : (lookupBody get globals builtins name).Receiving := by
  simp [lookupBody, Body.Receiving, Arms.Receiving]

theorem code_lookupBody (n : Nat) : (lookupBody get globals builtins name).code n =
    [.plain (.getstatic globals), .plain (.ldc (.string name)), .plain (.invoke .virtual get), .plain .dup,
      .branch .ifnonnull (n + 9), .plain .pop, .plain (.getstatic builtins), .plain (.ldc (.string name)),
      .plain (.invoke .virtual get)] := rfl

end Lowering

namespace Machine

variable {w : World} {c : Code} {s : State} {globals builtins : FieldRef} {name : String}

/-- What a name means: the entry of the globals, or else that of the builtins. -/
def World.meaning (w : World) (globals builtins : FieldRef) (name : String) : Option Referent :=
  (w.entry globals name).or (w.entry builtins name)

/-- The tables that have to be asked for it. -/
def World.sources (w : World) (globals builtins : FieldRef) (name : String) : List FieldRef :=
  if (w.entry globals name).isSome then [globals] else [globals, builtins]

/-- The machine when it has asked a table for a name. -/
def State.ask (w : World) (field : FieldRef) (name : String) (s : State) : State where
  pc := s.pc + 3 + 3 + 3
  stack := .reference (w.entry field name) :: s.stack
  locals := s.locals
  asked := s.asked ++ [field]

theorem executes_ask {field : FieldRef} {s' : State}
    (hfield : c.at? s.pc = some (.getstatic field)) (hname : c.at? (s.pc + 3) = some (.ldc (.string name)))
    (hget : c.at? (s.pc + 3 + 3) = some (.invoke .virtual w.get)) (hrest : Executes w c (s.ask w field name) s') :
    Executes w c s s' := .next hfield rfl (.next hname rfl (.next hget (if_pos rfl) hrest))

theorem executes_lookup (h : c.Spells s.pc (Lowering.lookupCode w.get globals builtins name)) :
    Executes w c s { s with
      pc := s.pc + 23
      stack := .reference (w.meaning globals builtins name) :: s.stack
      asked := s.asked ++ w.sources globals builtins name } := by
  obtain ⟨hglobals, hname, hget, hdup, hjump, hpop, hbuiltins, hname', hget', -⟩ := h
  refine executes_ask hglobals hname hget (.next hdup rfl ?_)
  refine .next hjump (exec_ifnonnull rfl 13) ?_
  rw [World.meaning, World.sources]
  cases hentry : w.entry globals name with
  | some target =>
    -- the entry has been doubled, and the test takes one of the two
    refine .of_eq (State.ext ?_ ?_ rfl ?_)
    · show s.pc + 3 + 3 + 3 + 1 + 13 = s.pc + 23
      omega
    · simp [State.ask, hentry]
    · simp [State.ask]
  | none =>
    refine .next hpop rfl (executes_ask hbuiltins hname' hget' (.of_eq (State.ext ?_ ?_ ?_ ?_)))
    · show s.pc + 3 + 3 + 3 + 1 + 3 + 1 + 3 + 3 + 3 = s.pc + 23
      omega
    · simp [State.ask]
    · simp [State.ask]
    · simp [State.ask]

end Machine

end BlockAssembler
