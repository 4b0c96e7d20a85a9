import BlockAssembler.Proofs.Code.Writing
import BlockAssembler.Proofs.Pool.Invariant
import BlockAssembler.Proofs.Member
import Mathlib.Data.List.Forall2

/-! Reading instructions back. The operation byte tells what follows it, an index is looked up in the
pool, and a member is given by its texts; so the bytes of an instruction read back as the
instruction, whatever follows them. Only a number that is too wide for an operand is written as the
constant it is. -/

namespace BlockAssembler

open ConstantPool

/-! ### Numbers -/

/-- Two bytes from the front, the high one first. -/
def wide? : List UInt8 → Option (Nat × List UInt8)
  | high :: low :: rest => some (256 * high.toNat + low.toNat, rest)
  | _ => none

theorem wide?_wide {n : Nat} (hn : n < 65536) (rest : List UInt8) : wide? (wide n ++ rest) = some (n, rest) := by
  have hhigh : (UInt8.ofNat (n / 256)).toNat = n / 256 := Nat.mod_eq_of_lt (by omega)
  have hlow : (UInt8.ofNat n).toNat = n % 256 := rfl
  simp only [wide, List.cons_append, List.nil_append, wide?, hhigh, hlow, Option.some.injEq, Prod.mk.injEq, and_true]
  omega

/-- A number from its two's complement. -/
theorem bmod_emod_toNat {v : Int} {n : Nat} (hn : 0 < n) (hle : -(n : Int) ≤ 2 * v) (hlt : 2 * v < n) :
    (((v % n).toNat : Nat) : Int).bmod n = v := by
  have hpos : 0 ≤ v % n := Int.emod_nonneg v (by omega)
  rw [Int.toNat_of_nonneg hpos, Int.emod_bmod]
  exact Int.bmod_eq_of_le_mul_two (by omega) (by omega)

namespace Opcode

/-! ### Reading -/

/-- What an instruction reads: itself and what follows it. -/
abbrev Reading := Option (Opcode × List UInt8)

def readByte (make : UInt8 → Opcode) : List UInt8 → Reading
  | byte :: rest => some (make byte, rest)
  | [] => none

def readWide (make : Nat → Opcode) (bytes : List UInt8) : Reading :=
  (wide? bytes).map fun (n, rest) => (make n, rest)

/-- An index and the constant that it denotes. -/
def readOperand (q : ConstantPool) (make : Symbol → Option Opcode) (bytes : List UInt8) : Reading := do
  let (i, rest) ← wide? bytes
  return (← make (← q.symbolAt? i), rest)

/-- The count of slots behind a call of an interface method says nothing that the method does not. -/
def readInterfaceCall (q : ConstantPool) (make : Symbol → Option Opcode) (bytes : List UInt8) : Reading :=
  (readOperand q make bytes).map fun (op, rest) => (op, rest.drop 2)

def loaded? : Symbol → Option Opcode
  | .integer value => some (ldc (.int value))
  | .long value => some (ldc (.long value))
  | .string value => some (ldc (.string value))
  | _ => none

def ofClass? (make : String → Opcode) : Symbol → Option Opcode
  | .className name => some (make name)
  | _ => none

def ofMember? (make : MemberRef → Opcode) : Symbol → Option Opcode
  | .field owner name descriptor | .method owner name descriptor | .interfaceMethod owner name descriptor =>
    (MemberRef.ofText? owner name descriptor).map make
  | _ => none

/-- Behind the operation byte that widens the slot of the next one. -/
def decodeWide : List UInt8 → Reading
  | 0x19 :: rest => readWide (fun n => aload (.ofNat n)) rest
  | 0x3a :: rest => readWide (fun n => astore (.ofNat n)) rest
  | _ => none

/-- The operation bytes that hold their operand themselves. -/
def decodeImplied (code : Nat) (rest : List UInt8) : Reading :=
  if 0x02 ≤ code ∧ code ≤ 0x08 then some (iconst (.ofInt (code - 3)), rest)
  else if 0x2a ≤ code ∧ code ≤ 0x2d then some (aload (.ofNat (code - 0x2a)), rest)
  else if 0x4b ≤ code ∧ code ≤ 0x4e then some (astore (.ofNat (code - 0x4b)), rest)
  else none

/-- The instruction in front of some bytes, and the bytes behind it. -/
def decode (q : ConstantPool) : List UInt8 → Reading
  | [] => none
  | code :: rest =>
    match code with
    | 0x01 => some (aconstNull, rest)
    | 0x10 => readByte (fun byte => iconst (.ofInt ((byte.toNat : Int).bmod 256))) rest
    | 0x11 => readWide (fun n => iconst (.ofInt ((n : Int).bmod 65536))) rest
    | 0x13 => readOperand q loaded? rest
    | 0x14 => readOperand q loaded? rest
    | 0x19 => readByte (fun byte => aload (.ofNat byte.toNat)) rest
    | 0x3a => readByte (fun byte => astore (.ofNat byte.toNat)) rest
    | 0x57 => some (pop, rest)
    | 0x59 => some (dup, rest)
    | 0x5f => some (swap, rest)
    | 0x99 => readWide (fun n => branch .ifeq ((n : Int).bmod 65536)) rest
    | 0x9a => readWide (fun n => branch .ifne ((n : Int).bmod 65536)) rest
    | 0xa7 => readWide (fun n => goto ((n : Int).bmod 65536)) rest
    | 0xb0 => some (areturn, rest)
    | 0xb1 => some (voidReturn, rest)
    | 0xb2 => readOperand q (ofMember? getstatic) rest
    | 0xb3 => readOperand q (ofMember? putstatic) rest
    | 0xb6 => readOperand q (ofMember? (invoke .virtual)) rest
    | 0xb7 => readOperand q (ofMember? (invoke .special)) rest
    | 0xb8 => readOperand q (ofMember? (invoke .static)) rest
    | 0xb9 => readInterfaceCall q (ofMember? (invoke .interface)) rest
    | 0xbb => readOperand q (ofClass? new) rest
    | 0xbf => some (athrow, rest)
    | 0xc0 => readOperand q (ofClass? checkcast) rest
    | 0xc4 => decodeWide rest
    | 0xc6 => readWide (fun n => branch .ifnull ((n : Int).bmod 65536)) rest
    | 0xc7 => readWide (fun n => branch .ifnonnull ((n : Int).bmod 65536)) rest
    | _ => decodeImplied code.toNat rest

/-- A number that no operand can hold is written as a constant that is loaded. -/
def canonical : Opcode → Opcode
  | iconst value =>
    match intForm value with
    | .pooled => ldc (.int value)
    | _ => iconst value
  | op => op

/-! ### What is written reads back -/

variable {op : Opcode} {code : UInt8} {bytes : List UInt8} {p q : ConstantPool} {s : Symbol} {d : Int}

theorem ofMember?_field (make : MemberRef → Opcode) (m : MemberRef) :
    ofMember? make (m.symbol .field) = some (make m) := by
  simp [ofMember?, MemberRef.symbol, MemberRef.ofText?_self]

theorem ofMember?_call (make : MemberRef → Opcode) (m : MemberRef) (dispatch : Dispatch) :
    ofMember? make (m.symbol dispatch.kind) = some (make m) := by
  cases dispatch <;> simp [ofMember?, MemberRef.symbol, Dispatch.kind, MemberRef.ofText?_self]

theorem readOperand_of_encodeIndexed (make : Symbol → Option Opcode) (hq : q.Formed)
    (h : (encodeIndexed code s).run q = .ok bytes q) (hmake : make s = some op) :
    ∃ operand : List UInt8, bytes = code :: operand ∧
      ∀ rest, readOperand q make (operand ++ rest) = some (op, rest) := by
  obtain ⟨i, q', hi, h⟩ := bind_eq_ok h
  cases h
  have hsymbol : q.symbolAt? i = some s := symbolAt?_of_intern hq hi
  refine ⟨wide i, rfl, fun rest => ?_⟩
  rw [readOperand, wide?_wide (hq.index_lt hsymbol)]
  simp [hsymbol, hmake]

theorem decode_of_encodeIndexed (make : Symbol → Option Opcode) (hq : q.Formed)
    (h : (encodeIndexed code s).run q = .ok bytes q) (hmake : make s = some op)
    (hdecode : ∀ rest, decode q (code :: rest) = readOperand q make rest) (rest : List UInt8) :
    decode q (bytes ++ rest) = some (op, rest) := by
  obtain ⟨operand, rfl, hread⟩ := readOperand_of_encodeIndexed make hq h hmake
  rw [List.cons_append, hdecode, hread]

theorem decode_of_encodeInterfaceCall (hq : q.Formed) {m : MemberRef}
    (h : (encodeInterfaceCall m).run q = .ok bytes q) (rest : List UInt8) :
    decode q (bytes ++ rest) = some (invoke .interface m, rest) := by
  obtain ⟨called, q', hcalled, hrest⟩ := bind_eq_ok h
  obtain ⟨_, q'', hcount, hdone⟩ := bind_eq_ok hrest
  obtain ⟨-, rfl⟩ := ensure_run_eq_ok hcount
  cases hdone
  obtain ⟨operand, rfl, hread⟩ := readOperand_of_encodeIndexed _ hq hcalled
    (ofMember?_call (invoke .interface) m .interface)
  rw [List.cons_append, List.cons_append, List.append_assoc]
  show readInterfaceCall q (ofMember? (invoke .interface)) _ = _
  rw [readInterfaceCall, hread]
  rfl

theorem readWide_wide (make : Nat → Opcode) {n : Nat} (hn : n < 65536) (rest : List UInt8) :
    readWide make (wide n ++ rest) = some (make n, rest) := by
  rw [readWide, wide?_wide hn]
  rfl

theorem readWide_signedWide (make : Int → Opcode) (hd : -32768 ≤ d ∧ d ≤ 32767) (rest : List UInt8) :
    readWide (fun n => make ((n : Int).bmod 65536)) (signedWide d ++ rest) = some (make d, rest) := by
  have hlt : (d % 65536).toNat < 65536 := by omega
  have hback : ((d % 65536).toNat : Int).bmod 65536 = d :=
    bmod_emod_toNat (n := 65536) (by decide) (by omega) (by omega)
  rw [signedWide, readWide_wide _ hlt, hback]

theorem readByte_signedByte (make : Int → Opcode) (hd : -128 ≤ d ∧ d ≤ 127) (rest : List UInt8) :
    readByte (fun byte => make ((byte.toNat : Int).bmod 256)) (signedByte d :: rest) = some (make d, rest) := by
  have hbyte : (signedByte d).toNat = (d % 256).toNat := Nat.mod_eq_of_lt (by omega)
  have hback : ((d % 256).toNat : Int).bmod 256 = d := bmod_emod_toNat (n := 256) (by decide) (by omega) (by omega)
  rw [readByte, hbyte, hback]

theorem decode_of_encodeJump (make : Int → Opcode) (h : (encodeJump code d).run p = .ok bytes q)
    (hdecode : ∀ rest, decode q (code :: rest) = readWide (fun n => make ((n : Int).bmod 65536)) rest)
    (rest : List UInt8) : decode q (bytes ++ rest) = some (make d, rest) := by
  obtain ⟨_, q', hfits, h⟩ := bind_eq_ok h
  cases h
  rw [List.cons_append, hdecode, readWide_signedWide make (ensure_run_eq_ok hfits).1]

/-! ### Forms -/

theorem slotForm_cases (slot : UInt16) :
    slotForm slot = .implied ∧ slot.toNat < 4 ∨ slotForm slot = .byte ∧ slot.toNat < 256 ∨
      slotForm slot = .wide := by
  unfold slotForm
  split
  · exact .inl ⟨rfl, by omega⟩
  · split
    · exact .inr (.inl ⟨rfl, by omega⟩)
    · exact .inr (.inr rfl)

theorem intForm_cases (value : Int32) :
    intForm value = .implied ∧ -1 ≤ value.toInt ∧ value.toInt ≤ 5 ∨
      intForm value = .byte ∧ -128 ≤ value.toInt ∧ value.toInt ≤ 127 ∨
      intForm value = .short ∧ -32768 ≤ value.toInt ∧ value.toInt ≤ 32767 ∨
      intForm value = .pooled ∧ (value.toInt < -32768 ∨ 32767 < value.toInt) := by
  unfold intForm
  dsimp only
  split
  · next h => exact .inl ⟨rfl, h⟩
  · split
    · next h => exact .inr (.inl ⟨rfl, h⟩)
    · split
      · next h => exact .inr (.inr (.inl ⟨rfl, h⟩))
      · exact .inr (.inr (.inr ⟨rfl, by omega⟩))

theorem decode_encodeSlot {implied : UInt8} (make : UInt16 → Opcode) (slot : UInt16)
    (himplied : ∀ n < 4, ∀ rest, decode q ((implied + UInt8.ofNat n) :: rest) = some (make (.ofNat n), rest))
    (hbyte : ∀ rest, decode q (code :: rest) = readByte (fun byte => make (.ofNat byte.toNat)) rest)
    (hwide : ∀ rest, decodeWide (code :: rest) = readWide (fun n => make (.ofNat n)) rest) (rest : List UInt8) :
    decode q (encodeSlot code implied slot ++ rest) = some (make slot, rest) := by
  have hslot : UInt16.ofNat slot.toNat = slot := UInt16.ofNat_toNat
  rcases slotForm_cases slot with ⟨hform, hlt⟩ | ⟨hform, hlt⟩ | hform
  · simp only [encodeSlot, hform, List.cons_append, List.nil_append, himplied _ hlt, hslot]
  · have hback : (UInt8.ofNat slot.toNat).toNat = slot.toNat := Nat.mod_eq_of_lt hlt
    simp only [encodeSlot, hform, List.cons_append, List.nil_append, hbyte, readByte, hback, hslot]
  · simp only [encodeSlot, hform, List.cons_append]
    show decodeWide (code :: (wide slot.toNat ++ rest)) = _
    rw [hwide, readWide_wide _ slot.toNat_lt, hslot]

theorem decode_impliedLoad : ∀ n < 4, ∀ rest,
    decode q ((0x2a + UInt8.ofNat n) :: rest) = some (aload (.ofNat n), rest)
  | 0, _, _ | 1, _, _ | 2, _, _ | 3, _, _ => rfl

theorem decode_impliedStore : ∀ n < 4, ∀ rest,
    decode q ((0x4b + UInt8.ofNat n) :: rest) = some (astore (.ofNat n), rest)
  | 0, _, _ | 1, _, _ | 2, _, _ | 3, _, _ => rfl

theorem decode_implied (value : Int32) (hle : -1 ≤ value.toInt) (hge : value.toInt ≤ 5) (rest : List UInt8) :
    decode q (signedByte (3 + value.toInt) :: rest) = some (iconst value, rest) := by
  have hcases : value.toInt = -1 ∨ value.toInt = 0 ∨ value.toInt = 1 ∨ value.toInt = 2 ∨ value.toInt = 3 ∨
      value.toInt = 4 ∨ value.toInt = 5 := by omega
  have hvalue : Int32.ofInt value.toInt = value := Int32.ofInt_toInt value
  rcases hcases with h | h | h | h | h | h | h
  all_goals
    rw [h] at hvalue ⊢
    rw [← hvalue]
    rfl

/-- An instruction reads back in every pool in which it is written. -/
theorem decode_encode (hq : q.Formed) (h : op.encode.run q = .ok bytes q) (rest : List UInt8) :
    decode q (bytes ++ rest) = some (op.canonical, rest) := by
  cases op with
  | aconstNull | dup | pop | swap | voidReturn | areturn | athrow =>
    cases h
    rfl
  | iconst value =>
    rcases intForm_cases value with ⟨hform, hle, hge⟩ | ⟨hform, hfits⟩ | ⟨hform, hfits⟩ | ⟨hform, -⟩
    · simp only [encode, hform] at h
      cases h
      simp only [canonical, hform]
      exact decode_implied value hle hge rest
    · simp only [encode, hform] at h
      cases h
      simp only [canonical, hform]
      show readByte (fun byte => iconst (.ofInt ((byte.toNat : Int).bmod 256))) (signedByte value.toInt :: rest) = _
      rw [readByte_signedByte (fun v => iconst (.ofInt v)) hfits, Int32.ofInt_toInt]
    · simp only [encode, hform] at h
      cases h
      simp only [canonical, hform]
      show readWide (fun n => iconst (.ofInt ((n : Int).bmod 65536))) (signedWide value.toInt ++ rest) = _
      rw [readWide_signedWide (fun v => iconst (.ofInt v)) hfits, Int32.ofInt_toInt]
    · simp only [encode, hform] at h
      simp only [canonical, hform]
      exact decode_of_encodeIndexed loaded? hq h rfl (fun _ => rfl) rest
  | ldc value =>
    cases value with
    | int _ | long _ | string _ => exact decode_of_encodeIndexed loaded? hq h rfl (fun _ => rfl) rest
  | aload slot =>
    cases h
    exact decode_encodeSlot aload slot decode_impliedLoad (fun _ => rfl) (fun _ => rfl) rest
  | astore slot =>
    cases h
    exact decode_encodeSlot astore slot decode_impliedStore (fun _ => rfl) (fun _ => rfl) rest
  | new name => exact decode_of_encodeIndexed (ofClass? new) hq h rfl (fun _ => rfl) rest
  | checkcast name => exact decode_of_encodeIndexed (ofClass? checkcast) hq h rfl (fun _ => rfl) rest
  | getstatic member =>
    exact decode_of_encodeIndexed _ hq h (ofMember?_field getstatic member) (fun _ => rfl) rest
  | putstatic member =>
    exact decode_of_encodeIndexed _ hq h (ofMember?_field putstatic member) (fun _ => rfl) rest
  | invoke dispatch member =>
    cases dispatch with
    | interface => exact decode_of_encodeInterfaceCall hq h rest
    | virtual | special | static =>
      exact decode_of_encodeIndexed _ hq h (ofMember?_call (invoke _) member _) (fun _ => rfl) rest
  | branch test d =>
    cases test with
    | ifeq => exact decode_of_encodeJump (branch .ifeq) h (fun _ => rfl) rest
    | ifne => exact decode_of_encodeJump (branch .ifne) h (fun _ => rfl) rest
    | ifnull => exact decode_of_encodeJump (branch .ifnull) h (fun _ => rfl) rest
    | ifnonnull => exact decode_of_encodeJump (branch .ifnonnull) h (fun _ => rfl) rest
  | goto d => exact decode_of_encodeJump goto h (fun _ => rfl) rest

/-! ### Telling instructions apart -/

/-- Two instructions that are the same, or that load the same constant, one as a number and one as the
constant. -/
def Alike (x y : Opcode) : Prop := x = y ∨ ∃ value : Int32, (value.toInt < -32768 ∨ 32767 < value.toInt) ∧
  (x = iconst value ∧ y = ldc (.int value) ∨ x = ldc (.int value) ∧ y = iconst value)

theorem canonical_cases (x : Opcode) : x.canonical = x ∨ ∃ value : Int32,
    (value.toInt < -32768 ∨ 32767 < value.toInt) ∧ x = iconst value ∧ x.canonical = ldc (.int value) := by
  cases x with
  | iconst value =>
    rcases intForm_cases value with ⟨hform, -⟩ | ⟨hform, -⟩ | ⟨hform, -⟩ | ⟨hform, hwide⟩
    · exact .inl (by simp only [canonical, hform])
    · exact .inl (by simp only [canonical, hform])
    · exact .inl (by simp only [canonical, hform])
    · exact .inr ⟨value, hwide, rfl, by simp only [canonical, hform]⟩
  | _ => exact .inl rfl

theorem alike_of_canonical_eq {x y : Opcode} (h : x.canonical = y.canonical) : x.Alike y := by
  rcases x.canonical_cases with hx | ⟨v, hv, rfl, hx⟩ <;> rcases y.canonical_cases with hy | ⟨w, hw, rfl, hy⟩
  · exact .inl (by rw [← hx, h, hy])
  · exact .inr ⟨w, hw, .inr ⟨by rw [← hx, h, hy], rfl⟩⟩
  · exact .inr ⟨v, hv, .inl ⟨rfl, by rw [← hy, ← h, hx]⟩⟩
  · rw [hx, hy] at h
    cases h
    exact .inl rfl

end Opcode

namespace Code

variable {q : ConstantPool} {xs ys : List PlacedOpcode} {chunks chunks' : List (List UInt8)}

/-- Each instruction is read off the front of the same bytes, so the two sequences agree step by step. -/
theorem Chunks.alike (hq : q.Formed) (hx : Chunks q xs chunks) (hy : Chunks q ys chunks')
    (h : chunks.flatten = chunks'.flatten) : List.Forall₂ (fun x y => x.opcode.Alike y.opcode) xs ys := by
  induction hx generalizing ys chunks' with
  | nil =>
    cases hy with
    | nil => exact .nil
    | @cons y bytes ys rest hbytes _ =>
      have hread := Opcode.decode_encode hq hbytes rest.flatten
      rw [← List.flatten_cons, ← h] at hread
      cases hread
  | @cons x bytes xs rest hbytes _ ih =>
    have hread := Opcode.decode_encode hq hbytes rest.flatten
    rw [← List.flatten_cons, h] at hread
    cases hy with
    | nil => cases hread
    | cons hbytes' hy =>
      rw [List.flatten_cons, Opcode.decode_encode hq hbytes'] at hread
      obtain ⟨hop, hrest⟩ := Prod.mk.inj (Option.some.inj hread)
      exact .cons (Opcode.alike_of_canonical_eq hop.symm) (ih hy hrest.symm)

/-- Two sequences of instructions that are written into a pool with the same bytes are the same, but for
the two ways to load a number that is too wide for an operand. -/
theorem encode_inj (requests : List Symbol) {a b : Code} {bytes bytes' : Array UInt8} {p q : ConstantPool}
    (ha : a.encode.run (afterAll requests empty) = .ok bytes p) (hb : b.encode.run p = .ok bytes' q)
    (h : bytes = bytes') :
    List.Forall₂ (fun x y => x.opcode.Alike y.opcode) a.instructions.toList b.instructions.toList := by
  obtain ⟨hp, -, chunks, hchunks, hall⟩ := exists_chunks (formed_afterAll .empty requests).1 ha
  obtain ⟨hq, hext, chunks', hchunks', hall'⟩ := exists_chunks hp hb
  refine (hall q hq hext).alike hq (hall' q hq (.refl q)) ?_
  rw [← hchunks, ← hchunks', h]

/-- A number as an instruction and as a constant, with a wide slot and a jump back behind it. -/
theorem encode_inj_wideNumber :
    let a : Code := ⟨1, 301, #[⟨0, .iconst 70000⟩, ⟨3, .astore 300⟩, ⟨7, .goto (-7)⟩], #[]⟩
    let b : Code := ⟨1, 301, #[⟨0, .ldc (.int 70000)⟩, ⟨3, .astore 300⟩, ⟨7, .goto (-7)⟩], #[]⟩
    let bytes : Array UInt8 := #[0x13, 0, 1, 0xc4, 0x3a, 1, 44, 0xa7, 0xff, 0xf9]
    let p : ConstantPool := empty.push (.integer 70000)
    a.encode.run (afterAll [] empty) = .ok bytes p ∧ b.encode.run p = .ok bytes p ∧
      List.Forall₂ (fun x y => x.opcode.Alike y.opcode) a.instructions.toList b.instructions.toList := by
  intro a b bytes p
  have hadd : (add (.integer 70000)).run empty = .ok 1 p := add_of_none indices_empty (by decide)
  have hagain : (add (.integer 70000)).run p = .ok 1 p := by
    show add _ _ = _
    rw [add, indices_push, if_pos rfl]
    rfl
  have ha : a.encode.run (afterAll [] empty) = .ok bytes p :=
    bind_ok (show (Opcode.encode (.iconst 70000)).run empty = .ok [0x13, 0, 1] p from bind_ok hadd _) _
  have hb : b.encode.run p = .ok bytes p :=
    bind_ok (show (Opcode.encode (.ldc (.int 70000))).run p = .ok [0x13, 0, 1] p from bind_ok hagain _) _
  exact ⟨ha, hb, encode_inj [] ha hb rfl⟩

end Code

end BlockAssembler
