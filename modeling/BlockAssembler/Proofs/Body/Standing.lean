import BlockAssembler.Proofs.Body.Links
import BlockAssembler.Proofs.Draft.Sound
import BlockAssembler.Proofs.Renumbering

/-! A balanced stream inside any other. What it has laid down is not touched by what comes behind
it: a step changes the record of an open structure only, and a balanced stream has ended all of its
own. So its jumps lead where its tree says, whatever stands around it. -/

namespace BlockAssembler.Draft

variable {d d' : Draft} {i : Nat}

/-- The record of a range that has been ended. -/
structure KeepsRange (i : Nat) (g : GuardedRange) (d : Draft) : Prop where
  record : d.records.ranges[i]? = some g
  ended : .range i ∉ d.opened

/-- The record of a chain that has been ended. -/
structure KeepsChain (i : Nat) (c : Chain) (d : Draft) : Prop where
  record : d.records.chains[i]? = some c
  ended : .chain i ∉ d.opened

theorem lt_of_getElem?_eq_some {α : Type} {l : List α} {x : α} (h : l[i]? = some x) : i < l.length :=
  (List.getElem?_eq_some_iff.1 h).1

theorem KeepsRange.step {g : GuardedRange} (hstep : Step d d') (h : KeepsRange i g d) : KeepsRange i g d' := by
  have hne {range : Nat} {outer : List Open} (hopened : d.opened = .range range :: outer) : i ≠ range := by
    rintro rfl
    exact h.ended (by simp [hopened])
  have htail : .range i ∉ d.popOpen.opened := fun hmem => h.ended (List.mem_of_mem_tail hmem)
  cases hstep with
  | append op => exact ⟨h.record, h.ended⟩
  | beginRange =>
    refine ⟨?_, fun hmem => ?_⟩
    · rw [ranges_beginRange, List.getElem?_append_left (lt_of_getElem?_eq_some h.record), h.record]
    · rcases List.mem_cons.1 hmem with heq | hmem
      · obtain rfl := Open.range.inj heq
        exact Nat.lt_irrefl _ (lt_of_getElem?_eq_some h.record)
      · exact h.ended hmem
  | beginHandler catches hopened =>
    refine ⟨?_, by simpa using h.ended⟩
    rw [ranges_beginHandler, List.getElem?_modify_ne _ _ (hne hopened).symm, ranges_endGuarded,
      List.getElem?_modify_ne _ _ (hne hopened).symm, h.record]
  | endRange hopened hhandlers =>
    refine ⟨?_, htail⟩
    show (d.records.ranges.modify _ _)[i]? = some g
    rw [List.getElem?_modify_ne _ _ (hne hopened).symm, h.record]
  | beginChain test => exact ⟨h.record, by simpa [Draft.beginChain, Draft.append] using h.ended⟩
  | endBranch hopened helse => exact ⟨by rw [ranges_endBranch, h.record], by simpa using h.ended⟩
  | addBranch test hopened => exact ⟨h.record, h.ended⟩
  | @beginElse chain _ hopened helse =>
    have hopen : .range i ∉ (d.endBranch chain).opened := by simpa using h.ended
    refine ⟨?_, hopen⟩
    show (d.endBranch chain).records.ranges[i]? = some g
    rw [ranges_endBranch, h.record]
  | endChain hopened => exact ⟨by rw [ranges_endChain]; exact h.record, by rw [opened_endChain]; exact htail⟩

theorem KeepsChain.step {c : Chain} (hstep : Step d d') (h : KeepsChain i c d) : KeepsChain i c d' := by
  have hne {chain : Nat} {outer : List Open} (hopened : d.opened = .chain chain :: outer) : i ≠ chain := by
    rintro rfl
    exact h.ended (by simp [hopened])
  have htail : .chain i ∉ d.popOpen.opened := fun hmem => h.ended (List.mem_of_mem_tail hmem)
  have hbranch {chain : Nat} {outer : List Open} (hopened : d.opened = .chain chain :: outer) :
      (d.endBranch chain).records.chains[i]? = some c := by
    rw [chains_endBranch, List.getElem?_modify_ne _ _ (hne hopened).symm, h.record]
  cases hstep with
  | append op => exact ⟨h.record, h.ended⟩
  | beginRange => exact ⟨h.record, by simpa [Draft.beginRange, await] using h.ended⟩
  | beginHandler catches hopened => exact ⟨by simpa using h.record, by simpa using h.ended⟩
  | endRange hopened hhandlers => exact ⟨h.record, htail⟩
  | beginChain test =>
    refine ⟨?_, fun hmem => ?_⟩
    · show (d.records.chains ++ _)[i]? = some c
      rw [List.getElem?_append_left (lt_of_getElem?_eq_some h.record), h.record]
    · rcases List.mem_cons.1 hmem with heq | hmem
      · obtain rfl := Open.chain.inj heq
        exact Nat.lt_irrefl _ (lt_of_getElem?_eq_some h.record)
      · exact h.ended hmem
  | endBranch hopened helse => exact ⟨hbranch hopened, by simpa using h.ended⟩
  | addBranch test hopened =>
    exact ⟨by rw [chains_addBranch, List.getElem?_modify_ne _ _ (hne hopened).symm, h.record], h.ended⟩
  | @beginElse chain _ hopened helse =>
    have hopen : .chain i ∉ (d.endBranch chain).opened := by simpa using h.ended
    refine ⟨?_, hopen⟩
    show ((d.endBranch chain).records.chains.modify chain _)[i]? = some c
    rw [List.getElem?_modify_ne _ _ (hne hopened).symm, hbranch hopened]
  | endChain hopened =>
    refine ⟨?_, by rw [opened_endChain]; exact htail⟩
    rw [chains_endChain, List.getElem?_modify_ne _ _ (hne hopened).symm]
    exact h.record

/-- The links of a balanced stream that has been emitted are there whatever is emitted behind it. -/
theorem links_of_body {t : Body} {d₀ : Draft} (hd : d.Sound) (hemit : emitAll t.items d = .ok d')
    (hbehind : Reaches d' d₀) {link : Link} (hlink : link ∈ jumps d.size (t.code d.size)) :
    link ∈ d₀.records.links := by
  obtain ⟨x, hrun, -, hadds⟩ := emits_body t (at_self d)
  obtain rfl : x = d' := Except.ok.inj (hrun.symm.trans hemit)
  rcases (t.listed_iff d.size link).2 hlink with hrange | hchain
  · obtain ⟨g, hg, hlink⟩ := List.mem_flatMap.1 hrange
    obtain ⟨j, hj⟩ := List.mem_iff_getElem?.1 hg
    have hkept : KeepsRange (d.records.ranges.length + j) g x := by
      refine ⟨?_, fun hmem => ?_⟩
      · rw [hadds.ranges, List.getElem?_append_right (Nat.le_add_right ..), Nat.add_sub_cancel_left, hj]
      · rw [hadds.opened] at hmem
        have := hd.range_lt _ hmem
        omega
    exact Records.mem_links_range
      (List.mem_of_getElem? (hbehind.keeps (fun hstep => KeepsRange.step hstep) hkept).record) hlink
  · obtain ⟨c, hc, hlink⟩ := List.mem_flatMap.1 hchain
    obtain ⟨j, hj⟩ := List.mem_iff_getElem?.1 hc
    have hkept : KeepsChain (d.records.chains.length + j) c x := by
      refine ⟨?_, fun hmem => ?_⟩
      · rw [hadds.chains, List.getElem?_append_right (Nat.le_add_right ..), Nat.add_sub_cancel_left, hj]
      · rw [hadds.opened] at hmem
        have := hd.chain_lt _ hmem
        omega
    exact Records.mem_links_chain
      (List.mem_of_getElem? (hbehind.keeps (fun hstep => KeepsChain.step hstep) hkept).record) hlink

end BlockAssembler.Draft
