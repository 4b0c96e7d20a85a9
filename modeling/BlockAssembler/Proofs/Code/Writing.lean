import BlockAssembler.Code
import BlockAssembler.Proofs.Pool.Interning

/-! Writing instructions. A computation on a pool settles if, once it has given a value, it gives the
same value again in every later pool and adds nothing. Interning settles, so the bytes of an
instruction are those that it has in the pool of all the others, too. -/

namespace BlockAssembler

open ConstantPool

section
variable {α β : Type} {x : Interning α} {f : α → Interning β} {E : AssemblyError → Prop}

/-- In every pool with at least the entries of `q` the computation gives the same value and adds
nothing. -/
def Repeats (x : Interning α) (a : α) (q : ConstantPool) : Prop :=
  ∀ r : ConstantPool, r.Formed → q.Extends r → x.run r = .ok a r

/-- From a formed pool the computation ends well, with what it gives from then on, or it ends with one
of some errors. -/
def Settles (x : Interning α) (E : AssemblyError → Prop) : Prop := ∀ p : ConstantPool, p.Formed →
  (∃ a q, x.run p = .ok a q ∧ q.Formed ∧ p.Extends q ∧ Repeats x a q) ∨ ∃ e q, x.run p = .error e q ∧ E e

theorem Repeats.mono {a : α} {p q : ConstantPool} (h : Repeats x a p) (hpq : p.Extends q) : Repeats x a q :=
  fun r hr hqr => h r hr (hpq.trans hqr)

theorem Settles.mono {E' : AssemblyError → Prop} (h : Settles x E) (hE : ∀ e, E e → E' e) : Settles x E' :=
  fun p hp => (h p hp).imp_right fun ⟨e, q, hrun, he⟩ => ⟨e, q, hrun, hE e he⟩

theorem settles_pure (a : α) : Settles (pure a) E := fun p hp => .inl ⟨a, p, rfl, hp, .refl p, fun _ _ _ => rfl⟩

theorem Settles.bind (hx : Settles x E) (hf : ∀ a, Settles (f a) E) : Settles (x >>= f) E := fun p hp => by
  rcases hx p hp with ⟨a, q, hrun, hq, hext, hagain⟩ | ⟨e, q, hrun, he⟩
  · rw [bind_ok hrun]
    rcases hf a q hq with ⟨b, r, hrun', hr, hext', hagain'⟩ | h
    · refine .inl ⟨b, r, hrun', hr, hext.trans hext', fun s hs hrs => ?_⟩
      rw [bind_ok (hagain s hs (hext'.trans hrs)), hagain' s hs hrs]
    · exact .inr h
  · exact .inr ⟨e, q, bind_error hrun f, he⟩

theorem settles_ensure (c : Prop) [Decidable c] (e : AssemblyError) (he : ¬ c → E e) : Settles (ensure c e) E := by
  by_cases hc : c
  · rw [ensure, if_pos hc]
    exact settles_pure ()
  · exact fun p _ => .inr ⟨e, p, ensure_run_error hc e, he hc⟩

theorem settles_intern (s : Symbol) (he : E .poolOverflow) : Settles (intern s) E := fun p hp => by
  rcases intern_collects hp s with ⟨i, q, hrun, hq, hext, -, hi⟩ | ⟨q, hrun, -⟩
  · exact .inl ⟨i, q, hrun, hq, hext, fun r hr hqr => intern_of_symbolAt? hr (hqr.symbolAt? hi)⟩
  · exact .inr ⟨_, q, hrun, he⟩

end

/-! ### Instructions -/

theorem length_wide (n : Nat) : (wide n).length = 2 := rfl

namespace Opcode

variable {op : Opcode} {code : UInt8} {bytes : List UInt8} {p q : ConstantPool} {s : Symbol} {d : Int}

/-- Why an instruction cannot be written: the pool is full, a call of an interface method takes too
many slots, or a jump is too far. -/
inductive Refuses : Opcode → AssemblyError → Prop
  | full (op : Opcode) : Refuses op .poolOverflow
  | slots {m : MemberRef} (hm : 254 < m.argSlots) :
    Refuses (.invoke .interface m) (.malformedDescriptor m.descriptor)
  | distance {op : Opcode} {d : Int} (hd : op.distance? = some d) (hfar : ¬ fitsJump d) :
    Refuses op (.internal (.unpatchedDistance d))

theorem settles_encodeIndexed (code : UInt8) (s : Symbol) : Settles (encodeIndexed code s) op.Refuses :=
  (settles_intern s (.full op)).bind fun _ => settles_pure _

theorem settles_encodeJump (code : UInt8) (hd : op.distance? = some d) : Settles (encodeJump code d) op.Refuses :=
  (settles_ensure _ _ fun hfar => .distance hd hfar).bind fun _ => settles_pure _

theorem settles_encodeInterfaceCall (m : MemberRef) :
    Settles (encodeInterfaceCall m) (Refuses (.invoke .interface m)) := by
  refine (settles_encodeIndexed _ _).bind fun called => (settles_ensure _ _ fun hm => ?_).bind fun _ => settles_pure _
  exact .slots (by omega)

theorem settles_encode (op : Opcode) : Settles op.encode op.Refuses := by
  cases op with
  | iconst value =>
    rw [encode]
    split
    · exact settles_pure _
    · exact settles_pure _
    · exact settles_pure _
    · exact settles_encodeIndexed _ _
  | ldc value => cases value <;> exact settles_encodeIndexed _ _
  | new _ | checkcast _ | getstatic _ | putstatic _ => exact settles_encodeIndexed _ _
  | invoke dispatch m =>
    cases dispatch with
    | interface => exact settles_encodeInterfaceCall m
    | virtual | special | static => exact settles_encodeIndexed _ _
  | branch _ _ | goto _ => exact settles_encodeJump _ rfl
  | aload _ | astore _ | aconstNull | dup | pop | swap | voidReturn | areturn | athrow => exact settles_pure _

/-! ### Lengths -/

theorem length_encodeSlot (code implied : UInt8) (slot : UInt16) :
    (encodeSlot code implied slot).length = (aload slot).size := by
  cases h : slotForm slot <;> simp [encodeSlot, size, h, length_wide]

theorem length_encodeIndexed (h : (encodeIndexed code s).run p = .ok bytes q) : bytes.length = 3 := by
  obtain ⟨i, _, -, h⟩ := bind_eq_ok h
  cases h
  rfl

theorem length_encodeJump (h : (encodeJump code d).run p = .ok bytes q) : bytes.length = 3 := by
  obtain ⟨_, _, -, h⟩ := bind_eq_ok h
  cases h
  rfl

theorem length_encodeInterfaceCall {m : MemberRef} (h : (encodeInterfaceCall m).run p = .ok bytes q) :
    bytes.length = 5 := by
  obtain ⟨called, _, hcalled, h⟩ := bind_eq_ok h
  obtain ⟨_, _, -, h⟩ := bind_eq_ok h
  cases h
  rw [List.length_append, length_encodeIndexed hcalled]
  rfl

/-- An instruction takes as many bytes as its size says. -/
theorem length_encode (h : op.encode.run p = .ok bytes q) : bytes.length = op.size := by
  cases op with
  | iconst value =>
    cases hform : intForm value with
    | implied | byte | short =>
      simp only [encode, hform] at h
      cases h
      simp [size, hform, signedWide, length_wide]
    | pooled =>
      simp only [encode, hform] at h
      simpa only [size, hform] using length_encodeIndexed h
  | ldc value => cases value <;> exact length_encodeIndexed h
  | new _ | checkcast _ | getstatic _ | putstatic _ => exact length_encodeIndexed h
  | invoke dispatch m =>
    cases dispatch with
    | interface => exact length_encodeInterfaceCall h
    | virtual | special | static => exact length_encodeIndexed h
  | branch _ _ | goto _ => exact length_encodeJump h
  | aload slot | astore slot =>
    cases h
    exact length_encodeSlot ..
  | aconstNull | dup | pop | swap | voidReturn | areturn | athrow =>
    cases h
    rfl

end Opcode

/-! ### Sequences -/

namespace Code

/-- Instructions one by one with their bytes. -/
def Chunks (q : ConstantPool) : List PlacedOpcode → List (List UInt8) → Prop :=
  List.Forall₂ fun x bytes => x.opcode.encode.run q = .ok bytes q

theorem append_append_list {α : Type} (out : Array α) (xs ys : List α) : out ++ xs ++ ys = out ++ (xs ++ ys) := by
  apply Array.toList_inj.1
  simp only [Array.toList_appendList, List.append_assoc]

/-- Instructions are written one after the other, each with the bytes that it has from then on, or
one of them is refused. -/
theorem encodeInto_run (placed : List PlacedOpcode) (out : Array UInt8) {p : ConstantPool}
    (hp : p.Formed) :
    (∃ (chunks : List (List UInt8)) (q : ConstantPool),
        (encodeInto placed out).run p = .ok (out ++ chunks.flatten) q ∧
        q.Formed ∧ p.Extends q ∧ List.Forall₂ (fun x bytes => Repeats x.opcode.encode bytes q) placed chunks) ∨
      ∃ e q, (encodeInto placed out).run p = .error e q ∧ ∃ x ∈ placed, x.opcode.Refuses e := by
  induction placed generalizing out p with
  | nil => exact .inl ⟨[], p, by simp [encodeInto], hp, .refl p, .nil⟩
  | cons x placed ih =>
    rcases x.opcode.settles_encode p hp with ⟨bytes, q, hrun, hq, hext, hagain⟩ | ⟨e, q, hrun, he⟩
    · rw [encodeInto, bind_ok hrun]
      rcases ih (out ++ bytes) hq with ⟨chunks, r, hrun', hr, hext', hall⟩ | ⟨e, r, hrun', y, hy, he⟩
      · refine .inl ⟨bytes :: chunks, r, ?_, hr, hext.trans hext', .cons (hagain.mono hext') hall⟩
        rw [hrun', List.flatten_cons, append_append_list]
      · exact .inr ⟨e, r, hrun', y, List.mem_cons_of_mem x hy, he⟩
    · exact .inr ⟨e, q, bind_error hrun _, x, List.mem_cons_self, he⟩

theorem exists_refuses {p q : ConstantPool} (hp : p.Formed) {c : Code} {e : AssemblyError}
    (h : c.encode.run p = .error e q) : ∃ x ∈ c.instructions, x.opcode.Refuses e := by
  rcases encodeInto_run c.instructions.toList #[] hp with ⟨chunks, q', hrun, -⟩ | ⟨e', q', hrun, x, hx, he⟩
  · rw [encode, hrun] at h
    cases h
  · rw [encode, hrun] at h
    cases h
    exact ⟨x, by simpa using hx, he⟩

theorem exists_chunks {p q : ConstantPool} (hp : p.Formed) {c : Code} {bytes : Array UInt8}
    (h : c.encode.run p = .ok bytes q) : q.Formed ∧ p.Extends q ∧ ∃ chunks, bytes.toList = chunks.flatten ∧
      ∀ r : ConstantPool, r.Formed → q.Extends r → Chunks r c.instructions.toList chunks := by
  rcases encodeInto_run c.instructions.toList #[] hp with ⟨chunks, q', hrun, hq, hext, hall⟩ | ⟨e, q', hrun, -⟩
  · rw [encode, hrun] at h
    cases h
    refine ⟨hq, hext, chunks, by simp, fun r hr hqr => hall.imp fun _ _ hagain => hagain r hr hqr⟩
  · rw [encode, hrun] at h
    cases h

end Code

end BlockAssembler
