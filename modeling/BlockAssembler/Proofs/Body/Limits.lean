import BlockAssembler.Proofs.Body.Assembled
import BlockAssembler.Proofs.Body.Forward
import BlockAssembler.Proofs.Body.Language
import BlockAssembler.Proofs.Builder.Requests
import BlockAssembler.Proofs.Limits

/-! The limits of balanced streams. The records of a balanced stream are complete as soon as an
instruction follows, and their jumps lead onward. So whatever instructions follow, only a limit of the
format can stop the assembly. -/

namespace BlockAssembler

namespace Builder

variable {b b' : Builder}

/-- Adds instructions in any number of requests. -/
def appendEach : List (List Opcode) → Assembly Unit
  | [] => return
  | ops :: requests => do
    let _ ← appendAll ops
    appendEach requests

/-- Processes a balanced stream and then adds instructions behind it. -/
def continued (t : Body) (requests : List (List Opcode)) : Assembly Unit := do
  emitAll t.items
  appendEach requests

/-- How instructions are split into requests makes no difference. -/
theorem appendEach_run (hb : b.Waits) (requests : List (List Opcode)) :
    ∃ b', (appendEach requests).run b = .ok () b' ∧
      match requests.flatten with
      | [] => b' = b
      | op :: ops => Added op ops b b' := by
  induction requests generalizing b with
  | nil => exact ⟨b, rfl, rfl⟩
  | cons request requests ih =>
    rw [appendEach, List.flatten_cons]
    cases request with
    | nil => exact ih hb
    | cons op ops =>
      obtain ⟨b₁, hrun, hadded⟩ := appendAll_run hb op ops
      obtain ⟨b', hrun', hb'⟩ := ih hadded.waits
      refine ⟨b', by rw [bind_ok hrun, hrun'], ?_⟩
      rw [List.cons_append]
      cases hflatten : requests.flatten with
      | nil =>
        rw [hflatten] at hb'
        obtain rfl : b' = b₁ := hb'
        rwa [List.append_nil]
      | cons op' ops' =>
        rw [hflatten] at hb'
        exact hadded.trans hb'

/-- The records are those of a stream that has been ended, and nothing waits any more. -/
theorem Intact.ready (hb : b.Intact) (hp : b.pending = #[]) (hd : b.draft.Sound) (hopened : b.opened = []) {t : Body}
    (hrecords : b.records = ⟨t.ranges 0, t.chains 0⟩) : b.Ready where
  sturdy := hb.sturdy hp hd hopened
  arranged := hb.arranged
  opened := hopened
  pending := hp
  onward link hlink := by
    have hjump := (mem_links_iff hrecords link).1 hlink
    obtain ⟨i, instr, target, hi, htarget, rfl⟩ := mem_jumps.1 hjump
    have hlt := t.onward 0 i instr target hi htarget
    rw [Nat.zero_add] at hlt ⊢
    have hsize : target < b.arena.size := (isAlive_iff hb _).1 (((hb.sturdy hp hd hopened).link hlink).2 target rfl)
    refine ⟨i, target, rfl, hb.mem_code.2 (Nat.lt_trans hlt hsize), hb.mem_code.2 hsize, ?_⟩
    rwa [hb.position_eq (Nat.lt_trans hlt hsize), hb.position_eq hsize]
  landing h t₁ t₂ hlink hlink' := by
    obtain ⟨instr, hi, htarget⟩ := target_of_mem_jumps ((mem_links_iff hrecords _).1 hlink)
    obtain ⟨instr', hi', htarget'⟩ := target_of_mem_jumps ((mem_links_iff hrecords _).1 hlink')
    obtain rfl := Option.some.inj (hi.symm.trans hi')
    exact Option.some.inj (htarget.symm.trans htarget')

/-- What is left of a balanced stream when instructions have been added behind it. -/
theorem exists_ready (t : Body) {requests : List (List Opcode)} {op : Opcode} {ops : List Opcode}
    (hrequests : requests.flatten = op :: ops) :
    ∃ b, (continued t requests).run empty = .ok () b ∧ b.Ready := by
  obtain ⟨d, hemit, hopened, -⟩ := Draft.exists_emitAll t
  have hfollows := emitAll_empty_follows t.items
  rw [hemit] at hfollows
  obtain ⟨b, hrun, hb, rfl⟩ := hfollows
  obtain ⟨b', hrun', hadded⟩ := appendEach_run (waits_iff.2 hb.waits) requests
  rw [hrequests] at hadded
  have hadded : Added op ops b b' := hadded
  have hrecords : b'.records = b.draft.records := hadded.records
  have hrecords' : b'.draft.records = b.draft.records := (draft_of_settled hadded.pending).trans hrecords
  have hops : b.draft.opcodes <+: b'.draft.opcodes := by
    rw [← stored_eq, ← stored_eq, stored, stored, hadded.arena, List.map_append]
    exact List.prefix_append ..
  have hsound : b.draft.Sound := (Draft.reaches_of_emitAll t.items .empty _ hemit).sound Draft.sound_empty
  refine ⟨b', by rw [continued, bind_ok hrun, hrun'], ?_⟩
  exact (hadded.intact hb).ready hadded.pending (hsound.grow hops hadded.opened hrecords')
    (hadded.opened.trans hopened) (hrecords.trans (t.draft_eq hemit).2.2)

/-- Behind a balanced stream and at least one more instruction the assembly succeeds exactly if all limits of
the format are kept. Otherwise it reports the first one that is not: the depth of the stack, the number of
locals, the length of the code at its last instruction, and then the distance of the first jump that is too
long in the order of the records. The offsets that it stores are never refused for themselves. If it succeeds,
nothing that it stores has been cut off, and every field of the format holds what is stored in it. -/
theorem assemble_ok_iff_limits (t : Body) (requests : List (List Opcode)) (hrequests : requests.flatten ≠ [])
    (maxLocals : Nat) :
    ∃ b, (continued t requests).run empty = .ok () b ∧ b.pending = #[] ∧
      (∀ link ∈ b.links, ∃ h s, link = ⟨some h, some s⟩ ∧ h ∈ b.code ∧ s ∈ b.code ∧ 0 < b.span h s) ∧
      ((∃ c b', (assemble maxLocals).run b = .ok c b') ↔
        b.stackDepth ≤ 65535 ∧ maxLocals ≤ 65535 ∧ b.byteCount ≤ 65535 ∧
          ∀ h s, (⟨some h, some s⟩ : Link) ∈ b.links → b.span h s ≤ 32767) ∧
      (∀ e b', (assemble maxLocals).run b = .error e b' → b.overflow? maxLocals = some e) ∧
      ∀ c b', (assemble maxLocals).run b = .ok c b' → b.Exact maxLocals c := by
  obtain ⟨op, ops, hflatten⟩ := List.exists_cons_of_ne_nil hrequests
  obtain ⟨b, hrun, hb⟩ := exists_ready t hflatten
  refine ⟨b, hrun, hb.pending, fun link hlink => ?_, ?_, fun e b' he => hb.assemble_error he,
    fun c b' hc => hb.exact hc⟩
  · obtain ⟨h, s, rfl, hh, hs, -⟩ := hb.onward link hlink
    exact ⟨h, s, rfl, hh, hs, hb.span_pos hlink⟩
  · rw [hb.assemble_ok_iff, hb.overflow?_eq_none]

/-- A test over the return of what has been tested. -/
def tested : Body := .chain (.op (.aload 0) .nil) .ifnull (.op (.aload 0) (.op .areturn .nil)) .done .nil

/-- The test lands on what the second request adds. -/
theorem assemble_ok_iff_limits_tested :
    [[], [.aconstNull], [.areturn]].flatten ≠ ([] : List Opcode) ∧
      ∃ b c b', (continued tested [[], [.aconstNull], [.areturn]]).run empty = .ok () b ∧
        (assemble 1).run b = .ok c b' ∧ b.Exact 1 c := by
  have hrequests : [[], [.aconstNull], [.areturn]].flatten ≠ ([] : List Opcode) := by decide
  obtain ⟨b, hrun, -, -, -, -, hexact⟩ := assemble_ok_iff_limits tested [[], [.aconstNull], [.areturn]] hrequests 1
  have hcode :
      ((continued tested [[], [.aconstNull], [.areturn]] >>= fun _ => assemble 1).run' empty).isSome = true := by
    decide +kernel
  obtain ⟨c, hc⟩ := Option.isSome_iff_exists.1 hcode
  obtain ⟨b', hc⟩ := run'_eq_some.1 hc
  have hc : (assemble 1).run b = .ok c b' := (bind_ok hrun _).symm.trans hc
  exact ⟨hrequests, b, c, b', hrun, hc, hexact c b' hc⟩

end Builder

end BlockAssembler
