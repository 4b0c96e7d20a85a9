import BlockAssembler.Proofs.Builder.Requests
import BlockAssembler.Proofs.Renumbering

/-! Which fields follow a replacement. An instruction lists the anchors whose fields point at it, and by
this list they are pointed at its replacement; so the fields of anchors, and they alone, follow. The
jumps that a structure owns are in no list. If one of them is replaced, its structure goes on naming
it, though it is no longer in use. -/

namespace BlockAssembler.Builder

variable {b b' : Builder} {asked : List Anchor} {count : Nat} {op : Opcode}

/-- Where a handle would have to go when the last instructions are replaced. -/
def redirect (b : Builder) (count : Nat) (h : Handle) : Handle :=
  if h ∈ b.lastHandles count then b.arena.size else h

/-- All that pointed at one of the last instructions points at the replacement, and all else is as it
was. -/
def Redirected (count : Nat) (b b' : Builder) : Prop := b'.records = b.records.renumber (b.redirect count)

/-- A field that an instruction lists may point further on, which is in the part behind it. -/
theorem Coherent.mem_lastHandles_of_le (hb : b.Coherent asked) {h h' : Handle} (hh : h ∈ b.lastHandles count)
    (hh' : h' ∈ b.code) (hle : h ≤ h') : h' ∈ b.lastHandles count := by
  have hsorted := hb.sorted
  rw [← List.take_append_drop (b.code.size - count) b.code.toList, List.pairwise_append] at hsorted
  rw [← Array.mem_toList_iff, ← List.take_append_drop (b.code.size - count) b.code.toList, List.mem_append] at hh'
  rcases hh' with htake | hdrop
  · exact absurd (hsorted.2.2 h' htake h hh) (Nat.not_lt.2 hle)
  · exact hdrop

theorem Coherent.redirect_eq_self (hb : b.Coherent asked) (h : Handle) :
    b.redirect count h = h ↔ h ∉ b.lastHandles count := by
  refine ⟨fun heq hmem => ?_, fun hmem => if_neg hmem⟩
  rw [redirect, if_pos hmem] at heq
  exact Nat.ne_of_gt (hb.lt_of_mem (by simpa using List.mem_of_mem_drop hmem)) heq

theorem TailReplaced.records_eq (h : TailReplaced count op b b') (hb : b.Coherent asked) :
    b'.records = b.records.remap (b.redirect count) id := by
  obtain ⟨as, hrecords, has⟩ := h.records
  have hnew : b.arena.size ∉ b.lastHandles count := fun hmem =>
    Nat.lt_irrefl _ (hb.lt_of_mem (by simpa using List.mem_of_mem_drop hmem))
  rw [hrecords]
  refine Records.setAll_eq_remap ((hb.redirect_eq_self _).2 hnew) (fun a ha => ?_) fun a ha x hx =>
    (hb.redirect_eq_self x).2 fun hmem => ?_
  · obtain ⟨x, hx, hmem⟩ := (has a).1 ha
    obtain ⟨y, hy, hle⟩ := hb.behind a x hmem
    have halive := (hb.fields a y hy).1
    rw [field?_eq] at hy
    exact ⟨y, hy, if_pos (hb.mem_lastHandles_of_le hx ((hb.alive_iff y).1 halive) hle)⟩
  · rw [← field?_eq] at hx
    exact ha ((has a).2 ⟨x, hmem, (hb.fields a x hx).2⟩)

/-- Whatever calls have led to a builder, its last instructions can be replaced. Then the fields of
anchors that pointed at one of them point at the replacement, and no other field changes. So no
record goes on naming an instruction that has been replaced, if and only if none of these is a
jump of a structure. -/
theorem redirected_iff (calls : List Call) (hcalls : ProperAll calls empty) (hb : afterAll calls empty = b)
    (hcount : count ≤ b.code.size) (op : Opcode) :
    ∃ b', (replaceTail count op).run b = .ok b.arena.size b' ∧
      b'.records = b.records.remap (b.redirect count) id ∧
      (Redirected count b b' ↔ ∀ link ∈ b.links, ∀ h, link.jump = some h → h ∉ b.lastHandles count) := by
  have hcoherent : b.Coherent (askedBy calls empty) := hb ▸ (steady_empty.afterAll hcalls).coherent
  obtain ⟨b', hrun, h⟩ := hcoherent.arranged.replaceTail_run hcoherent.isSome_field? hcount op
  have hrecords := h.records_eq hcoherent
  refine ⟨b', hrun, hrecords, ?_⟩
  rw [Redirected, hrecords, Records.remap_eq_renumber_iff]
  exact forall₂_congr fun link _ => forall₂_congr fun x _ => hcoherent.redirect_eq_self x

/-- The end of a range within the last branch of a chain, and the start of another range behind both. -/
def joining : List Call := [
  .emit (.beginIf [.op .aconstNull] .ifnull), .append .aconstNull, .emit .beginElse, .emit .beginTry,
  .append .aconstNull, .emit (.beginCatch none), .append .pop, .emit .endTry, .emit .endIf, .emit .beginTry,
  .append .areturn]

theorem redirected_joining : ProperAll joining empty ∧ 2 ≤ (afterAll joining empty).code.size ∧
    ∃ b', (replaceTail 2 .voidReturn).run (afterAll joining empty) = .ok 8 b' ∧
      Redirected 2 (afterAll joining empty) b' ∧
      b'.records.ranges = [⟨some 4, some 8, some 5, #[⟨some 8, none, none⟩]⟩, ⟨some 8, none, none, #[]⟩] ∧
      b'.records.chains = [⟨#[⟨1, some 3, some 4⟩], some 8, true⟩] := by
  have hcalls : ProperAll joining empty := by decide
  have hcount : 2 ≤ (afterAll joining empty).code.size := by decide +kernel
  have hsize : (afterAll joining empty).arena.size = 8 := by decide +kernel
  have hjumps : ∀ link ∈ (afterAll joining empty).links, ∀ h, link.jump = some h →
      h ∉ (afterAll joining empty).lastHandles 2 := by decide +kernel
  obtain ⟨b', hrun, hrecords, hiff⟩ := redirected_iff joining hcalls rfl hcount .voidReturn
  rw [hsize] at hrun
  refine ⟨hcalls, hcount, b', hrun, hiff.2 hjumps, ?_, ?_⟩
  · rw [hrecords]
    decide +kernel
  · rw [hrecords]
    decide +kernel

/-- The test of a branch that has just been begun is the last instruction there is. -/
def openTest : List Call := [.emit (.beginIf [.op .aconstNull] .ifnull)]

/-- The test is replaced and its branch goes on naming it. -/
theorem not_redirected_openTest : ProperAll openTest empty ∧ (afterAll openTest empty).lastHandles 1 = [1] ∧
    ∃ b', (replaceTail 1 .voidReturn).run (afterAll openTest empty) = .ok 2 b' ∧ b'.isAlive 1 = false ∧
      b'.chains = #[⟨#[⟨1, none, none⟩], none, false⟩] ∧ ¬ Redirected 1 (afterAll openTest empty) b' := by
  have hcalls : ProperAll openTest empty := by decide
  have hlast : (afterAll openTest empty).lastHandles 1 = [1] := by decide +kernel
  have hafter : ((replaceTail 1 .voidReturn).run (afterAll openTest empty)) = .ok 2 ⟨
      #[⟨.aconstNull, #[], true⟩, ⟨.branch .ifnull 0, #[], false⟩, ⟨.voidReturn, #[], true⟩],
      #[0, 2], #[], #[⟨#[⟨1, none, none⟩], none, false⟩], [.chain 0], #[],
      #[.appended 0 .aconstNull, .appended 1 (.branch .ifnull 0)]⟩ := rfl
  refine ⟨hcalls, hlast, _, hafter, rfl, rfl, fun h => ?_⟩
  have hchains := congrArg Records.chains h
  revert hchains
  decide +kernel

end BlockAssembler.Builder
