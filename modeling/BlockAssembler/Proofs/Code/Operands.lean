import BlockAssembler.Proofs.Code.Bytes
import BlockAssembler.Proofs.Code.Decoding

/-! One code object in several pools. All that an instruction takes from a pool is the index of the
constant that it names, which stands in the two bytes behind its operation byte. So its bytes in two
pools differ there at most, and each of the two indices denotes the constant in its own pool. -/

namespace BlockAssembler

open ConstantPool

namespace Opcode

/-- The constant that an instruction names by an index. A member is of the kind that the operation asks
for, whatever the reference is to. -/
def constant? : Opcode → Option Symbol
  | iconst value =>
    match intForm value with
    | .pooled => some (.integer value)
    | _ => none
  | ldc (.int value) => some (.integer value)
  | ldc (.long value) => some (.long value)
  | ldc (.string text) => some (.string text)
  | new name | checkcast name => some (.className name)
  | getstatic m | putstatic m => some (.field m.owner m.name m.descriptor)
  | invoke .interface m => some (.interfaceMethod m.owner m.name m.descriptor)
  | invoke _ m => some (.method m.owner m.name m.descriptor)
  | _ => none

variable {op : Opcode} {code : UInt8} {bytes : List UInt8} {q : ConstantPool} {s : Symbol}

theorem encodeIndexed_run {p : ConstantPool} {i : Nat} (h : (intern s).run p = .ok i q) (code : UInt8) :
    (encodeIndexed code s).run p = .ok (code :: wide i) q := bind_ok h _

theorem encodeIndexed_eq_ok (hq : q.Formed) (h : (encodeIndexed code s).run q = .ok bytes q) :
    ∃ i < 65536, q.symbolAt? i = some s ∧ bytes = code :: wide i := by
  obtain ⟨i, r, hi, h⟩ := bind_eq_ok h
  cases h
  have hs := symbolAt?_of_intern hq hi
  exact ⟨i, hq.index_lt hs, hs, rfl⟩

/-- In every pool an index of the constant stands between the same bytes. -/
def Names (op : Opcode) (s : Symbol) : Prop := ∃ code rest, ∀ (q : ConstantPool) bytes, q.Formed →
  op.encode.run q = .ok bytes q → ∃ i < 65536, q.symbolAt? i = some s ∧ bytes = code :: (wide i ++ rest)

/-- The bytes are the same in every pool. -/
def Fixed (op : Opcode) : Prop := ∃ bytes, ∀ (q : ConstantPool) bytes', op.encode.run q = .ok bytes' q → bytes' = bytes

theorem names_of_encodeIndexed (h : op.encode = encodeIndexed code s) : op.Names s := by
  refine ⟨code, [], fun q bytes hq hrun => ?_⟩
  rw [h] at hrun
  simpa using encodeIndexed_eq_ok hq hrun

/-- Behind the index of an interface method is the count of its slots. -/
theorem names_of_encodeInterfaceCall {m : MemberRef} :
    (invoke .interface m).Names (.interfaceMethod m.owner m.name m.descriptor) := by
  refine ⟨Dispatch.interface.code, [UInt8.ofNat (m.argSlots + 1), 0], fun q bytes hq hrun => ?_⟩
  obtain ⟨called, r, hcalled, hrun⟩ := bind_eq_ok hrun
  obtain ⟨_, r', hcount, hrun⟩ := bind_eq_ok hrun
  cases hrun
  obtain ⟨-, rfl⟩ := ensure_run_eq_ok hcount
  obtain ⟨i, hlt, hi, rfl⟩ := encodeIndexed_eq_ok hq hcalled
  exact ⟨i, hlt, hi, rfl⟩

theorem fixed_of_pure (h : op.encode = pure bytes) : op.Fixed := by
  refine ⟨bytes, fun q bytes' hrun => ?_⟩
  rw [h] at hrun
  cases hrun
  rfl

theorem fixed_of_encodeJump {d : Int} (h : op.encode = encodeJump code d) : op.Fixed := by
  refine ⟨code :: signedWide d, fun q bytes' hrun => ?_⟩
  rw [h] at hrun
  obtain ⟨_, _, -, hrun⟩ := bind_eq_ok hrun
  cases hrun
  rfl

theorem names_of_constant? (hs : op.constant? = some s) : op.Names s := by
  cases op with
  | iconst value =>
    cases hform : intForm value with
    | pooled =>
      simp only [constant?, hform, Option.some.injEq] at hs
      have hencode : (iconst value).encode = encodeIndexed 0x13 s := by rw [encode, hform, ← hs]
      exact names_of_encodeIndexed hencode
    | implied | byte | short => simp [constant?, hform] at hs
  | ldc value =>
    cases value with
    | int _ | long _ | string _ =>
      obtain rfl := Option.some.inj hs
      exact names_of_encodeIndexed rfl
  | new _ | checkcast _ | getstatic _ | putstatic _ =>
    obtain rfl := Option.some.inj hs
    exact names_of_encodeIndexed rfl
  | invoke dispatch m =>
    cases dispatch with
    | interface =>
      obtain rfl := Option.some.inj hs
      exact names_of_encodeInterfaceCall
    | virtual | special | static =>
      obtain rfl := Option.some.inj hs
      exact names_of_encodeIndexed rfl
  | branch | goto | aload | astore | aconstNull | dup | pop | swap | voidReturn | areturn | athrow => cases hs

theorem fixed_of_constant? (hs : op.constant? = none) : op.Fixed := by
  cases op with
  | iconst value =>
    cases hform : intForm value with
    | pooled => simp [constant?, hform] at hs
    | implied | byte | short => exact fixed_of_pure (by rw [encode, hform])
  | ldc value => cases value <;> cases hs
  | new | checkcast | getstatic | putstatic => cases hs
  | invoke dispatch => cases dispatch <;> cases hs
  | branch | goto => exact fixed_of_encodeJump rfl
  | aload | astore | aconstNull | dup | pop | swap | voidReturn | areturn | athrow => exact fixed_of_pure rfl

end Opcode

namespace Code

/-- The number in the two bytes at a position. -/
def wideAt? (bytes : Array UInt8) (k : Nat) : Option Nat := (wide? (bytes.toList.drop k)).map Prod.fst

/-- The bytes of a code object in two pools say the same. They have the same length and differ in the
indices of constants at most; and the two indices of an instruction denote, each in its own pool, the
constant that the instruction names. -/
structure SaysSame (c : Code) (bytes bytes' : Array UInt8) (p q : ConstantPool) : Prop where
  size : bytes.size = bytes'.size
  fixed : ∀ k, (∀ x ∈ c.instructions, x.opcode.constant?.isSome → k ≠ x.offset + 1 ∧ k ≠ x.offset + 2) →
    bytes[k]? = bytes'[k]?
  operands : ∀ x ∈ c.instructions, ∀ s, x.opcode.constant? = some s →
    (wideAt? bytes (x.offset + 1)).bind p.symbolAt? = some s ∧
      (wideAt? bytes' (x.offset + 1)).bind q.symbolAt? = some s

variable {c : Code} {bytes bytes' : Array UInt8} {p q : ConstantPool}

theorem getElem?_of_extract {start stop k : Nat} (hle : start ≤ k) (hlt : k < stop) :
    bytes[k]? = (bytes.extract start stop).toList[k - start]? := by
  rw [Array.toList_extract, List.extract_eq_take_drop, List.getElem?_take, if_pos (by omega), List.getElem?_drop,
    Array.getElem?_toList, Nat.add_sub_cancel' hle]

namespace Written

theorem wideAt?_bind (h : c.Written bytes q) (hq : q.Formed) {x : PlacedOpcode} (hx : x ∈ c.instructions)
    {s : Symbol} (hs : x.opcode.constant? = some s) : (wideAt? bytes (x.offset + 1)).bind q.symbolAt? = some s := by
  obtain ⟨i, hi⟩ := Array.mem_iff_getElem?.1 hx
  obtain ⟨code, rest, hnames⟩ := Opcode.names_of_constant? hs
  obtain ⟨index, hindex, hsymbol, hslice⟩ := hnames q _ hq (h.slice i x hi)
  have hdrop : ∃ after, bytes.toList.drop (x.offset + 1) = wide index ++ after := by
    rw [Array.toList_extract, List.extract_eq_take_drop] at hslice
    have hwhole := List.take_append_drop (x.offset + x.opcode.size - x.offset) (bytes.toList.drop x.offset)
    rw [hslice, List.cons_append, List.append_assoc] at hwhole
    rw [← List.drop_drop, ← hwhole]
    exact ⟨_, rfl⟩
  obtain ⟨after, hdrop⟩ := hdrop
  rw [wideAt?, hdrop, wide?_wide hindex]
  exact hsymbol

theorem saysSame (hbytes : c.Written bytes p) (hbytes' : c.Written bytes' q) (hp : p.Formed) (hq : q.Formed)
    (hc : c.Contiguous) : c.SaysSame bytes bytes' p q where
  size := hbytes.size.trans hbytes'.size.symm
  operands x hx s hs := ⟨hbytes.wideAt?_bind hp hx hs, hbytes'.wideAt?_bind hq hx hs⟩
  fixed k hk := by
    by_cases hlength : k < c.length
    · obtain ⟨i, x, hi, hle, hlt⟩ := hc.exists_covering hlength
      rw [getElem?_of_extract hle hlt, getElem?_of_extract hle hlt]
      cases hs : x.opcode.constant? with
      | none =>
        obtain ⟨_, hfixed⟩ := Opcode.fixed_of_constant? hs
        rw [hfixed p _ (hbytes.slice i x hi), hfixed q _ (hbytes'.slice i x hi)]
      | some s =>
        obtain ⟨code, rest, hnames⟩ := Opcode.names_of_constant? hs
        obtain ⟨index, -, -, hslice⟩ := hnames p _ hp (hbytes.slice i x hi)
        obtain ⟨index', -, -, hslice'⟩ := hnames q _ hq (hbytes'.slice i x hi)
        rw [hslice, hslice']
        have hfree := hk x (Array.mem_of_getElem? hi) (by rw [hs]; rfl)
        -- in front of the index is the operation byte, behind it what the instruction always has there
        rcases Nat.eq_or_lt_of_le hle with heq | hgt
        · simp [← heq]
        · obtain ⟨n, hn⟩ : ∃ n, k - x.offset = n + 3 := ⟨k - x.offset - 3, by omega⟩
          rw [hn]
          rfl
    · rw [Array.getElem?_eq_none (by rw [hbytes.size]; omega), Array.getElem?_eq_none (by rw [hbytes'.size]; omega)]

end Written

end Code

namespace Builder

variable {b : Builder} {maxLocals : Nat} {c : Code} {bytes bytes' : Array UInt8} {p q : ConstantPool}

/-- Whatever calls a code object is assembled from, if none of them faults: what it is written as says
the same in every pool that takes it, whatever this has been asked for before. -/
theorem encode_saysSame (calls : List Call) (hcalls : Faultless calls empty)
    (hc : (assemble maxLocals).run (afterAll calls empty) = .ok c b) (earlier earlier' : List Symbol)
    (hp : c.encode.run (ConstantPool.afterAll earlier ConstantPool.empty) = .ok bytes p)
    (hq : c.encode.run (ConstantPool.afterAll earlier' ConstantPool.empty) = .ok bytes' q) :
    c.SaysSame bytes bytes' p q := by
  have harranged := (tidy_empty.afterAll hcalls).arranged
  have hgapless := (assemble_eq_ok harranged hc).gapless harranged
  obtain ⟨hpformed, -, chunks, hchunks, hall⟩ := Code.exists_chunks (formed_afterAll .empty earlier).1 hp
  obtain ⟨hqformed, -, chunks', hchunks', hall'⟩ := Code.exists_chunks (formed_afterAll .empty earlier').1 hq
  have hbytes := hgapless.written (hall p hpformed (.refl p)) hchunks
  have hbytes' := hgapless.written (hall' q hqformed (.refl q)) hchunks'
  exact hbytes.saysSame hbytes' hpformed hqformed hgapless

/-- A chain around an instruction that names a class. -/
def guardedNew : List Call := [
  .emit (.beginIf [.op .aconstNull] .ifnull), .appendAll [.new "a/B", .pop], .emit .endIf, .append .voidReturn]

/-- A new pool takes the name of the class and the class; one that has been asked for a string of this
name has got only the first. -/
theorem encode_saysSame_guardedNew :
    let bytes : Array UInt8 := #[0x01, 0xc6, 0, 7, 0xbb, 0, 2, 0x57, 0xb1]
    let bytes' : Array UInt8 := #[0x01, 0xc6, 0, 7, 0xbb, 0, 3, 0x57, 0xb1]
    Faultless guardedNew empty ∧ ∃ c b p q, (assemble 0).run (afterAll guardedNew empty) = .ok c b ∧
      c.encode.run (ConstantPool.afterAll [] ConstantPool.empty) = .ok bytes p ∧
      c.encode.run (ConstantPool.afterAll [.string "a/B"] ConstantPool.empty) = .ok bytes' q ∧
      c.SaysSame bytes bytes' p q := by
  intro bytes bytes'
  let c : Code := ⟨1, 0, #[⟨0, .aconstNull⟩, ⟨1, .branch .ifnull 7⟩, ⟨4, .new "a/B"⟩, ⟨7, .pop⟩, ⟨8, .voidReturn⟩], #[]⟩
  have hcalls : Faultless guardedNew empty := steady_empty.faultless (by decide +kernel)
  have hcode : (assemble 0).run' (afterAll guardedNew empty) = some c := by decide +kernel
  obtain ⟨b, hc⟩ := run'_eq_some.1 hcode
  let named := ConstantPool.empty.push (.utf8 "a/B")
  have hname : (internUtf8 "a/B").run ConstantPool.empty = .ok 1 named := add_of_none indices_empty (by decide)
  have hthere : named.indices[Entry.utf8 "a/B"]? = some 1 := by
    rw [indices_push, if_pos rfl]
    rfl
  have hnone (e : Entry) (he : .utf8 "a/B" ≠ e) : named.indices[e]? = none := by
    rw [indices_push, if_neg he, indices_empty]
  have hp : c.encode.run (ConstantPool.afterAll [] ConstantPool.empty) = .ok bytes (named.push (.className 1)) := by
    have hclass : (intern (.className "a/B")).run ConstantPool.empty = .ok 2 (named.push (.className 1)) := by
      rw [intern, internClass, bind_ok hname, add_of_none (hnone _ (by decide)) (by decide)]
      rfl
    exact bind_ok (Opcode.encodeIndexed_run hclass 0xbb) _
  have hq : c.encode.run (ConstantPool.afterAll [.string "a/B"] ConstantPool.empty) =
      .ok bytes' ((named.push (.string 1)).push (.className 1)) := by
    have hstring : (intern (.string "a/B")).run ConstantPool.empty = .ok 2 (named.push (.string 1)) := by
      rw [intern, bind_ok hname, add_of_none (hnone _ (by decide)) (by decide)]
      rfl
    have hclass : (intern (.className "a/B")).run (named.push (.string 1)) =
        .ok 3 ((named.push (.string 1)).push (.className 1)) := by
      have hstill : (named.push (.string 1)).indices[Entry.utf8 "a/B"]? = some 1 := by
        rw [indices_push, if_neg (by decide), hthere]
      have hnew : (named.push (.string 1)).indices[Entry.className 1]? = none := by
        rw [indices_push, if_neg (by decide), hnone _ (by decide)]
      rw [intern, internClass, internUtf8, bind_ok (add_of_some hstill), add_of_none hnew (by decide)]
      rfl
    rw [ConstantPool.afterAll, List.foldl_cons, List.foldl_nil, after, hstring]
    exact bind_ok (Opcode.encodeIndexed_run hclass 0xbb) _
  exact ⟨hcalls, c, b, _, _, hc, hp, hq, encode_saysSame guardedNew hcalls hc [] [.string "a/B"] hp hq⟩

end Builder

end BlockAssembler
