import BlockAssembler.Proofs.Code.Operands
import BlockAssembler.Proofs.Pool.Invariant
import Mathlib.Data.Set.Finite.Basic

/-! Writing a code object again. A pool is asked for constants and takes the operands of whole code
objects, and some of this is refused, which may leave a part of it behind. Whatever happens, the
entries of before are still there, so a code object that has been written once finds all its
operands and has the same bytes from then on. This does not take any room: there are always requests
that use up the last slot, and it holds behind these, too. -/

namespace BlockAssembler

open ConstantPool

section
variable {α β : Type} {x : Interning α} {f : α → Interning β} {p : ConstantPool}

/-- The pool after a computation, also if that fails. -/
def ConstantPool.afterRun (p : ConstantPool) (x : Interning α) : ConstantPool :=
  match x.run p with
  | .ok _ q | .error _ q => q

/-- The computation only adds to a pool, and the pool stays formed, also if the computation fails. -/
def Grows (x : Interning α) : Prop := ∀ p : ConstantPool, p.Formed → (p.afterRun x).Formed ∧ p.Extends (p.afterRun x)

theorem grows_pure (a : α) : Grows (pure a) := fun p hp => ⟨hp, .refl p⟩

theorem grows_ensure (c : Prop) [Decidable c] (e : AssemblyError) : Grows (ensure c e) := by
  intro p hp
  by_cases hc : c
  · rw [afterRun, ensure_run hc]
    exact ⟨hp, .refl p⟩
  · rw [afterRun, ensure_run_error hc]
    exact ⟨hp, .refl p⟩

theorem grows_intern (s : Symbol) : Grows (intern s) := by
  intro p hp
  have hleft : p.afterRun (intern s) = p.after s := by
    rw [afterRun, after]
    cases (intern s).run p <;> rfl
  rw [hleft]
  exact formed_after hp s

theorem afterRun_bind_ok {a : α} {q : ConstantPool} (h : x.run p = .ok a q) :
    p.afterRun (x >>= f) = q.afterRun (f a) := by
  rw [afterRun, bind_ok h]
  rfl

theorem afterRun_bind_error {e : AssemblyError} {q : ConstantPool} (h : x.run p = .error e q) :
    p.afterRun (x >>= f) = p.afterRun x := by
  rw [afterRun, bind_error h, afterRun, h]

theorem Grows.bind (hx : Grows x) (hf : ∀ a, Grows (f a)) : Grows (x >>= f) := by
  intro p hp
  obtain ⟨hq, hext⟩ := hx p hp
  cases h : x.run p with
  | ok a q =>
    rw [afterRun, h] at hq hext
    obtain ⟨hr, hext'⟩ := hf a q hq
    rw [afterRun_bind_ok h]
    exact ⟨hr, hext.trans hext'⟩
  | error e q =>
    rw [afterRun_bind_error h]
    exact ⟨hq, hext⟩

end

/-! ### Instructions and code objects -/

namespace Opcode

theorem grows_encodeIndexed (code : UInt8) (s : Symbol) : Grows (encodeIndexed code s) :=
  (grows_intern s).bind fun _ => grows_pure _

theorem grows_encodeJump (code : UInt8) (d : Int) : Grows (encodeJump code d) :=
  (grows_ensure _ _).bind fun _ => grows_pure _

theorem grows_encodeInterfaceCall (m : MemberRef) : Grows (encodeInterfaceCall m) :=
  (grows_encodeIndexed _ _).bind fun _ => (grows_ensure _ _).bind fun _ => grows_pure _

theorem grows_encode (op : Opcode) : Grows op.encode := by
  cases op with
  | iconst value =>
    rw [encode]
    split
    · exact grows_pure _
    · exact grows_pure _
    · exact grows_pure _
    · exact grows_encodeIndexed _ _
  | ldc value => cases value <;> exact grows_encodeIndexed _ _
  | new _ | checkcast _ | getstatic _ | putstatic _ => exact grows_encodeIndexed _ _
  | invoke dispatch m =>
    cases dispatch with
    | interface => exact grows_encodeInterfaceCall m
    | virtual | special | static => exact grows_encodeIndexed _ _
  | branch _ _ | goto _ => exact grows_encodeJump _ _
  | aload _ | astore _ | aconstNull | dup | pop | swap | voidReturn | areturn | athrow => exact grows_pure _

end Opcode

namespace Code

theorem grows_encodeInto (placed : List PlacedOpcode) (out : Array UInt8) : Grows (encodeInto placed out) := by
  induction placed generalizing out with
  | nil => exact grows_pure out
  | cons x placed ih => exact x.opcode.grows_encode.bind fun bytes => ih (out ++ bytes)

theorem settles_encodeInto (placed : List PlacedOpcode) (out : Array UInt8) :
    Settles (encodeInto placed out) fun _ => True := by
  induction placed generalizing out with
  | nil => exact settles_pure out
  | cons x placed ih => exact (x.opcode.settles_encode.mono fun _ _ => trivial).bind fun bytes => ih (out ++ bytes)

/-- A code object that has been written has the same bytes in every later pool, and adds nothing to it. -/
theorem repeats_encode {c : Code} {bytes : Array UInt8} {p q : ConstantPool} (hp : p.Formed)
    (h : c.encode.run p = .ok bytes q) : q.Formed ∧ Repeats c.encode bytes q := by
  rcases settles_encodeInto c.instructions.toList #[] p hp with ⟨_, _, hrun, hq, -, hagain⟩ | ⟨_, _, hrun, -⟩
  · rw [encode, hrun] at h
    cases h
    exact ⟨hq, hagain⟩
  · rw [encode, hrun] at h
    cases h

end Code

/-! ### Histories of a pool -/

namespace ConstantPool

/-- What a pool is used for: a request for one constant, or a code object that is written. -/
inductive Use
  | intern (s : Symbol)
  | encode (c : Code)

/-- The pool after a use, also if that is refused. -/
def afterUse (p : ConstantPool) : Use → ConstantPool
  | .intern s => p.afterRun (intern s)
  | .encode c => p.afterRun c.encode

def afterUses (uses : List Use) (p : ConstantPool) : ConstantPool := uses.foldl afterUse p

variable {p : ConstantPool}

theorem formed_afterUse (hp : p.Formed) (use : Use) : (p.afterUse use).Formed ∧ p.Extends (p.afterUse use) := by
  cases use with
  | intern s => exact grows_intern s p hp
  | encode c => exact Code.grows_encodeInto c.instructions.toList #[] p hp

theorem formed_afterUses (hp : p.Formed) (uses : List Use) :
    (afterUses uses p).Formed ∧ p.Extends (afterUses uses p) := by
  induction uses generalizing p with
  | nil => exact ⟨hp, .refl p⟩
  | cons use uses ih =>
    obtain ⟨hq, hext⟩ := formed_afterUse hp use
    obtain ⟨hr, hext'⟩ := ih hq
    exact ⟨hr, hext.trans hext'⟩

/-! ### Filling a pool -/

theorem exists_new_text (S : Finset Symbol) : ∃ text, .utf8 text ∉ S := by
  have hinj : Function.Injective fun letters => Symbol.utf8 (String.ofList letters) :=
    fun _ _ h => String.ofList_injective (Symbol.utf8.inj h)
  obtain ⟨_, ⟨letters, rfl⟩, hnew⟩ := (Set.infinite_range_of_injective hinj).exists_notMem_finset S
  exact ⟨String.ofList letters, hnew⟩

theorem afterUse_new_text (hp : p.Formed) {text : String} (hnew : .utf8 text ∉ p.constants)
    (hroom : p.next < slotLimit) : (p.afterUse (.intern (.utf8 text))).next = p.next + 1 := by
  have hindex : p.indices[Entry.utf8 text]? = none := by
    cases h : p.indices[Entry.utf8 text]? with
    | none => rfl
    | some i =>
      have hi : p.symbolAt? i = some (.utf8 text) := symbolAt?_eq_utf8.2 (textAt?_eq_some.2 (hp.indices_eq_some.1 h))
      exact absurd (hp.mem_constants.2 ⟨i, hi⟩) hnew
  have hrun : (intern (.utf8 text)).run p = .ok p.next (p.push (.utf8 text)) := add_of_none hindex hroom
  rw [afterUse, afterRun, hrun]
  rfl

/-- From every pool there is a way on to one without a free slot. -/
theorem exists_full (hp : p.Formed) : ∃ uses, (afterUses uses p).next = slotLimit := by
  induction hfree : slotLimit - p.next generalizing p with
  | zero => exact ⟨[], Nat.le_antisymm hp.next_le (Nat.sub_eq_zero_iff_le.1 hfree)⟩
  | succ free ih =>
    obtain ⟨text, hnew⟩ := exists_new_text p.constants
    have hnext := afterUse_new_text hp hnew (by omega)
    obtain ⟨uses, huses⟩ := ih (formed_afterUse hp (.intern (.utf8 text))).1 (by omega)
    exact ⟨.intern (.utf8 text) :: uses, huses⟩

end ConstantPool

namespace Code

variable {c : Code} {bytes : Array UInt8} {p : ConstantPool}

/-- Whatever a new pool has been used for, a code object that is then written has the same bytes again
after whatever follows, and writing it again leaves the pool as it is. The pool may have no free
slot left by then, and there is always something to follow after which it has none. -/
theorem encode_again (earlier : List Use) (h : c.encode.run (afterUses earlier empty) = .ok bytes p) :
    (∀ later, c.encode.run (afterUses later p) = .ok bytes (afterUses later p)) ∧
      ∃ later, (afterUses later p).next = slotLimit := by
  have hearlier := (formed_afterUses .empty earlier).1
  obtain ⟨hp, hagain⟩ := repeats_encode hearlier h
  refine ⟨fun later => ?_, exists_full hp⟩
  obtain ⟨hlater, hext⟩ := formed_afterUses hp later
  exact hagain _ hlater hext

/-- A jump that is too far behind an instruction that names a class: the class is in the pool when the
jump is refused. -/
def makesAndLeaps : Code := ⟨1, 0, #[⟨0, .new "a/B"⟩, ⟨3, .goto 40000⟩], #[]⟩

/-- A code object that finds what one before it, which was refused, has left behind. -/
theorem encode_again_makes :
    let c : Code := ⟨1, 0, #[⟨0, .new "a/B"⟩, ⟨3, .areturn⟩], #[]⟩
    let p := afterUses [.encode makesAndLeaps] empty
    p.size = 2 ∧ c.encode.run p = .ok #[0xbb, 0, 2, 0xb0] p ∧
      (∀ later, c.encode.run (afterUses later p) = .ok #[0xbb, 0, 2, 0xb0] (afterUses later p)) ∧
      ∃ later, (afterUses later p).next = slotLimit := by
  intro c p
  let named := empty.push (.utf8 "a/B")
  let taken := named.push (.className 1)
  have hclass : (intern (.className "a/B")).run empty = .ok 2 taken := by
    have hname : (internUtf8 "a/B").run empty = .ok 1 named := add_of_none indices_empty (by decide)
    have hnew : named.indices[Entry.className 1]? = none := by rw [indices_push, if_neg (by decide), indices_empty]
    rw [intern, internClass, bind_ok hname, add_of_none hnew (by decide)]
    rfl
  have hp : p = taken := by
    have hfar : (Opcode.goto 40000).encode.run taken = .error (.internal (.unpatchedDistance 40000)) taken :=
      bind_error (ensure_run_error (by decide) _) _
    have hrun : makesAndLeaps.encode.run empty = .error (.internal (.unpatchedDistance 40000)) taken :=
      (bind_ok (Opcode.encodeIndexed_run hclass 0xbb) _).trans (bind_error hfar _)
    show empty.afterRun makesAndLeaps.encode = taken
    rw [afterRun, hrun]
  have hthere : (intern (.className "a/B")).run taken = .ok 2 taken :=
    intern_of_symbolAt? (hp ▸ (formed_afterUses .empty _).1) (symbolAt?_of_intern .empty hclass)
  have hagain : c.encode.run p = .ok #[0xbb, 0, 2, 0xb0] p := by
    rw [hp]
    exact bind_ok (Opcode.encodeIndexed_run hthere 0xbb) _
  exact ⟨by rw [hp]; rfl, hagain, encode_again [.encode makesAndLeaps] hagain⟩

end Code

end BlockAssembler
