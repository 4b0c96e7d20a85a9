import BlockAssembler.Proofs.Block.Plain
import BlockAssembler.Proofs.Body.Levels

/-! Tame streams: the handlers take the exception, no instruction is a jump, and the stack is kept. They are put
together from the instructions up, each piece with the number of values it finds and the number it leaves. -/

namespace BlockAssembler

/-! ### One tree behind another -/

theorem Body.Jumpless.append {s t : Body} (hs : s.Jumpless) (ht : t.Jumpless) : (s.append t).Jumpless := by
  cases s with
  | nil => exact ht
  | op opcode rest => exact ⟨hs.1, Body.Jumpless.append (s := rest) hs.2 ht⟩
  | guarded body catches handler more rest =>
    exact ⟨hs.1, hs.2.1, hs.2.2.1, Body.Jumpless.append (s := rest) hs.2.2.2 ht⟩
  | chain condition test body more rest =>
    exact ⟨hs.1, hs.2.1, hs.2.2.1, Body.Jumpless.append (s := rest) hs.2.2.2 ht⟩

theorem Body.Keeps.append {s t : Body} {x y z : Int} (hs : s.Keeps x y) (ht : t.Keeps y z) : (s.append t).Keeps x z := by
  match s with
  | .nil =>
    obtain rfl : x = y := hs
    exact ht
  | .op opcode rest => exact ⟨hs.1, Body.Keeps.append (s := rest) hs.2 ht⟩
  | .guarded body catches handler more rest =>
    exact ⟨hs.1, hs.2.1, hs.2.2.1, Body.Keeps.append (s := rest) hs.2.2.2 ht⟩
  | .chain condition test body more rest =>
    exact ⟨hs.1, hs.2.1, hs.2.2.1, Body.Keeps.append (s := rest) hs.2.2.2 ht⟩

/-! ### Tame trees -/

/-- The handlers take the exception, no instruction is a jump, and the stack is kept. -/
structure Body.Tame (t : Body) (x y : Int) : Prop where
  receiving : t.Receiving
  jumpless : t.Jumpless
  keeps : t.Keeps x y

structure Catches.Tame (t : Catches) (x : Int) : Prop where
  receiving : t.Receiving
  jumpless : t.Jumpless
  keeps : t.Keeps x

structure Arms.Tame (t : Arms) (x : Int) : Prop where
  receiving : t.Receiving
  jumpless : t.Jumpless
  keeps : t.Keeps x

section
variable {s t body condition first rest : Body} {more : Catches} {arms : Arms} {x y z : Int}

namespace Body.Tame

theorem nil (x : Int) : Body.nil.Tame x x := ⟨trivial, trivial, rfl⟩

theorem op {opcode : Opcode} (hjump : opcode.isJump = false) (hpops : opcode.pops ≤ x)
    (h : rest.Tame (x + opcode.stackEffect) y) : (Body.op opcode rest).Tame x y :=
  ⟨h.receiving, ⟨hjump, h.jumpless⟩, hpops, h.keeps⟩

theorem append (hs : s.Tame x y) (ht : t.Tame y z) : (s.append t).Tame x z :=
  ⟨hs.receiving.append ht.receiving, hs.jumpless.append ht.jumpless, hs.keeps.append ht.keeps⟩

theorem guarded (catches : Option String) (hbody : body.Tame x x) (hreceives : first.receives = true)
    (hfirst : first.Tame 1 x) (hmore : more.Tame x) : (Body.guarded body catches first more .nil).Tame x x where
  receiving := ⟨hbody.receiving, ⟨hreceives, hfirst.receiving⟩, hmore.receiving, trivial⟩
  jumpless := ⟨hbody.jumpless, hfirst.jumpless, hmore.jumpless, trivial⟩
  keeps := ⟨hbody.keeps, hfirst.keeps, hmore.keeps, rfl⟩

theorem chain (test : Test) (hcondition : condition.Tame x (x + 1)) (hbody : body.Tame x x) (hmore : arms.Tame x)
    (hrest : rest.Tame x y) : (Body.chain condition test body arms rest).Tame x y where
  receiving := ⟨hcondition.receiving, hbody.receiving, hmore.receiving, hrest.receiving⟩
  jumpless := ⟨hcondition.jumpless, hbody.jumpless, hmore.jumpless, hrest.jumpless⟩
  keeps := ⟨hcondition.keeps, hbody.keeps, hmore.keeps, hrest.keeps⟩

end Body.Tame

theorem Catches.Tame.done (x : Int) : Catches.done.Tame x := ⟨trivial, trivial, trivial⟩

theorem Catches.Tame.handler (catches : Option String) (hreceives : body.receives = true) (hbody : body.Tame 1 x)
    (hmore : more.Tame x) : (Catches.handler catches body more).Tame x :=
  ⟨⟨⟨hreceives, hbody.receiving⟩, hmore.receiving⟩, ⟨hbody.jumpless, hmore.jumpless⟩, hbody.keeps, hmore.keeps⟩

theorem Arms.Tame.done (x : Int) : Arms.done.Tame x := ⟨trivial, trivial, trivial⟩

theorem Arms.Tame.otherwise (hbody : body.Tame x x) : (Arms.otherwise body).Tame x :=
  ⟨hbody.receiving, hbody.jumpless, hbody.keeps⟩

theorem Arms.Tame.elseIf (test : Test) (hcondition : condition.Tame x (x + 1)) (hbody : body.Tame x x)
    (hmore : arms.Tame x) : (Arms.elseIf condition test body arms).Tame x where
  receiving := ⟨hcondition.receiving, hbody.receiving, hmore.receiving⟩
  jumpless := ⟨hcondition.jumpless, hbody.jumpless, hmore.jumpless⟩
  keeps := ⟨hcondition.keeps, hbody.keeps, hmore.keeps⟩

end

/-- The stream of such a tree. -/
def Keeping (x y : Int) (items : List Item) : Prop := ∃ t : Body, t.Tame x y ∧ t.items = items

namespace Keeping

variable {items items' : List Item} {x y z : Int}

theorem nil (x : Int) : Keeping x x [] := ⟨.nil, .nil x, rfl⟩

theorem append (h : Keeping x y items) (h' : Keeping y z items') : Keeping x z (items ++ items') := by
  obtain ⟨s, hs, rfl⟩ := h
  obtain ⟨t, ht, rfl⟩ := h'
  exact ⟨s.append t, hs.append ht, s.items_append t⟩

theorem cons_op {opcode : Opcode} (hjump : opcode.isJump = false) (hpops : opcode.pops ≤ x)
    (h : Keeping (x + opcode.stackEffect) y items) : Keeping x y (.op opcode :: items) := by
  obtain ⟨t, ht, rfl⟩ := h
  exact ⟨.op opcode t, .op hjump hpops ht, rfl⟩

theorem op {opcode : Opcode} (hjump : opcode.isJump = false) (hpops : opcode.pops ≤ x) :
    Keeping x (x + opcode.stackEffect) [.op opcode] := cons_op hjump hpops (nil _)

/-- Leaves one value more. -/
theorem push {opcode : Opcode} (hjump : opcode.isJump = false) (hpops : opcode.pops ≤ x)
    (heffect : opcode.stackEffect = 1) : Keeping x (x + 1) [.op opcode] := heffect ▸ op hjump hpops

/-- Takes the only value. -/
theorem take {opcode : Opcode} (hjump : opcode.isJump = false) (hpops : opcode.pops ≤ 1)
    (heffect : opcode.stackEffect = -1) : Keeping 1 0 [.op opcode] := by
  have h := op hjump hpops
  rwa [heffect] at h

end Keeping

end BlockAssembler
