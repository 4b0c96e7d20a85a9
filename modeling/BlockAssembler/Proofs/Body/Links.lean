import BlockAssembler.Proofs.Body.Emission

/-! The records of a balanced stream list the jumps of its code, each with the index it
lands on, and nothing else. -/

namespace BlockAssembler

/-- The jumps of linked code that begins at the index `n`. -/
def jumps : Nat → List Instr → List Link
  | _, [] => []
  | n, instr :: code =>
    (instr.target?.map fun target => ⟨some n, some target⟩).toList ++ jumps (n + 1) code

theorem jumps_append (n : Nat) (code code' : List Instr) :
    jumps n (code ++ code') = jumps n code ++ jumps (n + code.length) code' := by
  induction code generalizing n with
  | nil => rfl
  | cons instr code ih =>
    simp only [List.cons_append, jumps, ih, List.length_cons, List.append_assoc]
    congr 3
    omega

theorem mem_jumps {n : Nat} {code : List Instr} {link : Link} :
    link ∈ jumps n code ↔
      ∃ i instr target, code[i]? = some instr ∧ instr.target? = some target ∧
        link = ⟨some (n + i), some target⟩ := by
  induction code generalizing n with
  | nil => simp [jumps]
  | cons instr code ih =>
    rw [jumps, List.mem_append, ih]
    constructor
    · rintro (hhead | ⟨i, instr', target, hi, htarget, rfl⟩)
      · obtain ⟨target, htarget, rfl⟩ : ∃ target, instr.target? = some target ∧
            (⟨some n, some target⟩ : Link) = link := by simpa using hhead
        exact ⟨0, instr, target, rfl, htarget, rfl⟩
      · refine ⟨i + 1, instr', target, hi, htarget, ?_⟩
        rw [Nat.add_right_comm, Nat.add_assoc]
    · rintro ⟨i, instr', target, hi, htarget, rfl⟩
      cases i with
      | zero =>
        obtain rfl : instr = instr' := by simpa using hi
        exact .inl (by simp [htarget])
      | succ i =>
        refine .inr ⟨i, instr', target, by simpa using hi, htarget, ?_⟩
        rw [Nat.add_right_comm, Nat.add_assoc]

/-- A record of a range or of a chain lists the link. -/
def Listed (ranges : List GuardedRange) (chains : List Chain) (link : Link) : Prop :=
  link ∈ ranges.flatMap GuardedRange.links ∨ link ∈ chains.flatMap Chain.links

section
variable {ranges ranges' : List GuardedRange} {chains chains' : List Chain} {link : Link}

theorem listed_append :
    Listed (ranges ++ ranges') (chains ++ chains') link ↔
      Listed ranges chains link ∨ Listed ranges' chains' link := by
  simp only [Listed, List.flatMap_append, List.mem_append]
  exact or_or_or_comm

theorem listed_cons_range {g : GuardedRange} :
    Listed (g :: ranges) chains link ↔ link ∈ g.links ∨ Listed ranges chains link := by
  simp only [Listed, List.flatMap_cons, List.mem_append, or_assoc]

theorem listed_cons_chain {c : Chain} :
    Listed ranges (c :: chains) link ↔ link ∈ c.links ∨ Listed ranges chains link := by
  simp only [Listed, List.flatMap_cons, List.mem_append]
  exact or_left_comm

end

/-! ### One record -/

/-- The link of the jump that ends a handler or a body. -/
def SkipLink (skip : Option Handle) (join : Nat) (link : Link) : Prop :=
  ∃ jump, skip = some jump ∧ link = ⟨some jump, some join⟩

theorem mem_jumps_skipCode {n join : Nat} {live : Bool} {link : Link} :
    link ∈ jumps n (skipCode live join) ↔ SkipLink (if live then some n else none) join link := by
  cases live <;> simp [skipCode, jumps, SkipLink, Instr.target?]

theorem mem_branch_links {br : ChainBranch} {join : Nat} {link : Link} :
    link ∈ br.links (some join) ↔ link = ⟨some br.test, br.next⟩ ∨ SkipLink br.skip join link := by
  cases hskip : br.skip <;> simp [ChainBranch.links, SkipLink, hskip]

/-- A chain that leaves its join point open has no jump to it. -/
theorem links_record (branches : List ChainBranch) (hasElse : Bool) (join : Nat) :
    (Chain.record branches hasElse join).links = branches.flatMap (ChainBranch.links (some join)) := by
  by_cases hskips : (branches.any fun br => br.skip.isSome) = true
  · simp [Chain.links, Chain.record, hskips]
  · have hnone : ∀ br ∈ branches, br.skip = none := by simpa using hskips
    show branches.flatMap _ = _
    rw [List.flatMap_def, List.flatMap_def]
    refine congrArg _ (List.map_congr_left fun br hbr => ?_)
    simp [ChainBranch.links, hnone br hbr]

/-- The links of the handlers of a range that ends in front of `join`. -/
def handlerLinks (handlers : List Handler) (join : Nat) : List Link :=
  handlers.filterMap fun h => h.skip.map fun jump => ⟨some jump, some join⟩

theorem mem_handlerLinks_cons {h : Handler} {handlers : List Handler} {join : Nat} {link : Link} :
    link ∈ handlerLinks (h :: handlers) join ↔
      SkipLink h.skip join link ∨ link ∈ handlerLinks handlers join := by
  cases hskip : h.skip <;> simp [handlerLinks, SkipLink, hskip]

theorem mem_range_links {start : Option Handle} {stop join : Nat} {handlers : List Handler} {link : Link} :
    link ∈ GuardedRange.links ⟨start, some join, some stop, handlers.toArray⟩ ↔
      link = ⟨some stop, some join⟩ ∨ link ∈ handlerLinks handlers join := by
  simp [GuardedRange.links, handlerLinks]

/-! ### Trees -/

mutual

theorem Body.listed_iff (t : Body) (n : Nat) (link : Link) :
    Listed (t.ranges n) (t.chains n) link ↔ link ∈ jumps n (t.code n) := by
  match t with
  | .nil => simp [Listed, Body.ranges, Body.chains, Body.code, jumps]
  | .op opcode rest => exact rest.listed_iff (n + 1) link
  | .guarded body catches handler more rest =>
    simp only [Body.ranges, Body.chains, Body.code, jumps_append, jumps, List.mem_append, listed_append,
      listed_cons_range, Body.length_code, Catches.length_code, body.listed_iff, handler.listed_iff,
      rest.listed_iff, ← more.listed_iff, GuardedRange.record, mem_range_links, mem_handlerLinks_cons, Instr.target?,
      Option.map_some, Option.toList_some, List.mem_singleton]
    exact iff_of_eq (by ac_rfl)
  | .chain condition test body more rest =>
    simp only [Body.ranges, Body.chains, Body.code, jumps_append, jumps, List.mem_append, listed_append,
      listed_cons_chain, Body.length_code, Arms.length_code, condition.listed_iff, body.listed_iff,
      rest.listed_iff, ← more.listed_iff, links_record, List.flatMap_cons, mem_branch_links,
      Instr.target?, Option.map_some, Option.toList_some, List.mem_singleton]
    exact iff_of_eq (by ac_rfl)

theorem Catches.listed_iff (t : Catches) (n : Nat) (live : Bool) (join : Nat) (link : Link) :
    (SkipLink (t.skip n live) join link ∨ link ∈ handlerLinks (t.handlers n live) join) ∨
      Listed (t.ranges n live) (t.chains n live) link ↔ link ∈ jumps n (t.code n live join) := by
  match t with
  | .done =>
    simp [SkipLink, Catches.skip, Catches.handlers, handlerLinks, Listed, Catches.ranges, Catches.chains,
      Catches.code, jumps]
  | .handler catches body more =>
    simp only [Catches.skip, Catches.handlers, Catches.ranges, Catches.chains, Catches.code,
      jumps_append, List.mem_append, listed_append, length_skipCode, Body.length_code,
      mem_jumps_skipCode, mem_handlerLinks_cons, body.listed_iff, ← more.listed_iff]
    exact iff_of_eq (by ac_rfl)

theorem Arms.listed_iff (t : Arms) (n : Nat) (live : Bool) (join : Nat) (link : Link) :
    (SkipLink (t.skip n live) join link ∨
        link ∈ (t.branches n live).flatMap (ChainBranch.links (some join))) ∨
      Listed (t.ranges n live) (t.chains n live) link ↔ link ∈ jumps n (t.code n live join) := by
  match t with
  | .done =>
    simp [SkipLink, Arms.skip, Arms.branches, Listed, Arms.ranges, Arms.chains, Arms.code, jumps]
  | .otherwise body =>
    simp only [Arms.skip, Arms.branches, Arms.ranges, Arms.chains, Arms.code, jumps_append,
      List.mem_append, length_skipCode, mem_jumps_skipCode, body.listed_iff, List.flatMap_nil,
      List.not_mem_nil, or_false]
  | .elseIf condition test body more =>
    simp only [Arms.skip, Arms.branches, Arms.ranges, Arms.chains, Arms.code, jumps_append, jumps,
      List.mem_append, listed_append, length_skipCode, Body.length_code, mem_jumps_skipCode,
      List.flatMap_cons, mem_branch_links, condition.listed_iff, body.listed_iff, ← more.listed_iff,
      Instr.target?, Option.map_some, Option.toList_some, List.mem_singleton]
    exact iff_of_eq (by ac_rfl)

end

end BlockAssembler
