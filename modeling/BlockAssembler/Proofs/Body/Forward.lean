import BlockAssembler.Proofs.Body.Fetch
import BlockAssembler.Proofs.Depths

/-! The code object of a balanced stream has no way back: every jump lands behind itself,
and every handler lies behind the body that it guards. -/

namespace BlockAssembler

/-- Every jump of linked code that begins at the index `n` lands behind itself. -/
def Onward (n : Nat) (code : List Instr) : Prop :=
  ∀ i instr target, code[i]? = some instr → instr.target? = some target → n + i < target

namespace Onward

variable {n : Nat} {code code' : List Instr}

theorem nil : Onward n [] := by simp [Onward]

theorem cons {instr : Instr} (hinstr : ∀ target, instr.target? = some target → n < target)
    (h : Onward (n + 1) code) : Onward n (instr :: code) := by
  intro i x target hi htarget
  cases i with
  | zero =>
    obtain rfl : instr = x := by simpa using hi
    exact hinstr target htarget
  | succ i =>
    have := h i x target (by simpa using hi) htarget
    omega

theorem append {m : Nat} (h : Onward n code) (hm : m = n + code.length) (h' : Onward m code') :
    Onward n (code ++ code') := by
  intro i x target hi htarget
  rw [List.getElem?_append] at hi
  split at hi
  · exact h i x target hi htarget
  · have := h' _ x target hi htarget
    omega

theorem skip {live : Bool} {join : Nat} (hjoin : live = true → n < join)
    (h : Onward (n + skipSize live) code) : Onward n (skipCode live join ++ code) := by
  cases live with
  | false => exact h
  | true =>
    refine cons (fun target htarget => ?_) h
    obtain rfl : join = target := by simpa [Instr.target?] using htarget
    exact hjoin rfl

end Onward

theorem Arms.le_next (t : Arms) (n : Nat) (live : Bool) : n ≤ t.next n live := by
  cases t with
  | done => exact Nat.le_refl n
  | otherwise | elseIf => exact Nat.le_add_right ..

theorem skipSize_pos {live : Bool} (h : live = true) : skipSize live = 1 := by rw [h, skipSize, if_pos rfl]

mutual

theorem Body.onward (t : Body) (n : Nat) : Onward n (t.code n) := by
  match t with
  | .nil => exact .nil
  | .op opcode rest => exact (rest.onward (n + 1)).cons (by simp [Instr.target?])
  | .guarded body catches handler more rest =>
    refine (body.onward n).append (m := n + body.size) (by rw [body.length_code]) (.cons ?_ ?_)
    · intro target htarget
      have htarget' := Option.some.inj htarget
      omega
    · refine (handler.onward _).append (m := n + body.size + 1 + handler.size) (by rw [handler.length_code]) ?_
      refine (more.onward _ _ _ (Nat.le_refl _)).append (by rw [more.length_code]) (rest.onward _)
  | .chain condition test body more rest =>
    refine (condition.onward n).append (m := n + condition.size) (by rw [condition.length_code]) (.cons ?_ ?_)
    · intro target htarget
      have htarget' := Option.some.inj htarget
      have hnext := more.le_next (n + condition.size + 1 + body.size) (body.exit true)
      omega
    · refine (body.onward _).append (m := n + condition.size + 1 + body.size) (by rw [body.length_code]) ?_
      refine (more.onward _ _ _ (Nat.le_refl _)).append (by rw [more.length_code]) (rest.onward _)

theorem Catches.onward (t : Catches) (n : Nat) (live : Bool) (join : Nat) (hjoin : n + t.size live ≤ join) :
    Onward n (t.code n live join) := by
  match t with
  | .done => exact .nil
  | .handler catches body more =>
    rw [Catches.size] at hjoin
    refine .skip (fun hlive => ?_) ?_
    · rw [skipSize_pos hlive] at hjoin
      omega
    · refine (body.onward _).append (m := n + skipSize live + body.size) (by rw [body.length_code]) ?_
      exact more.onward _ _ _ (by omega)

theorem Arms.onward (t : Arms) (n : Nat) (live : Bool) (join : Nat) (hjoin : n + t.size live ≤ join) :
    Onward n (t.code n live join) := by
  match t with
  | .done => exact .nil
  | .otherwise body =>
    rw [Arms.size] at hjoin
    refine .skip (fun hlive => ?_) (body.onward _)
    rw [skipSize_pos hlive] at hjoin
    omega
  | .elseIf condition test body more =>
    rw [Arms.size] at hjoin
    refine .skip (fun hlive => ?_) ?_
    · rw [skipSize_pos hlive] at hjoin
      omega
    · refine (condition.onward _).append (m := n + skipSize live + condition.size) (by rw [condition.length_code])
        (.cons ?_ ?_)
      · intro target htarget
        have htarget' := Option.some.inj htarget
        have hnext := more.le_next (n + skipSize live + condition.size + 1 + body.size) (body.exit true)
        omega
      · refine (body.onward _).append (m := n + skipSize live + condition.size + 1 + body.size)
          (by rw [body.length_code]) ?_
        exact more.onward _ _ _ (by omega)

end

theorem Body.onward_linked (t : Body) : Onward 0 t.linked := by
  refine (t.onward 0).append rfl ?_
  unfold Body.ending
  split
  · exact Onward.nil.cons (by simp [Instr.target?])
  · exact .nil

/-! ### Handlers -/

/-- The range ends behind its start, and every handler starts behind that end. -/
def GuardedRange.Ordered (g : GuardedRange) : Prop :=
  ∃ start stop : Nat, g.start = some start ∧ g.skip = some stop ∧ start ≤ stop ∧
    ∀ k ∈ g.handlers, ∃ entry : Nat, k.start = some entry ∧ stop ≤ entry

theorem Catches.start_of_mem_handlers (t : Catches) (n : Nat) (live : Bool) :
    ∀ k ∈ t.handlers n live, ∃ start : Nat, k.start = some start ∧ n ≤ start := by
  fun_induction Catches.handlers t n live with
  | case1 => simp
  | case2 n live catches body more start ih =>
    intro k hk
    rcases List.mem_cons.1 hk with rfl | hk
    · exact ⟨_, rfl, Nat.le_add_right ..⟩
    · obtain ⟨start', hstart, hle⟩ := ih k hk
      exact ⟨start', hstart, by omega⟩

theorem GuardedRange.ordered_record (body : Body) (catches : Option String) (handler : Body)
    (more : Catches) (n : Nat) : (record body catches handler more n).Ordered := by
  refine ⟨n, n + body.size, rfl, rfl, Nat.le_add_right .., fun k hk => ?_⟩
  rcases List.mem_cons.1 (by simpa [record] using hk) with rfl | hk
  · exact ⟨n + body.size + 1, rfl, by omega⟩
  · obtain ⟨start, hstart, hle⟩ := more.start_of_mem_handlers _ _ k hk
    exact ⟨start, hstart, by omega⟩

mutual

theorem Body.ordered (t : Body) (n : Nat) : ∀ g ∈ t.ranges n, g.Ordered := by
  match t with
  | .nil => simp [Body.ranges]
  | .op opcode rest => exact rest.ordered (n + 1)
  | .guarded body catches handler more rest =>
    rw [Body.ranges, List.forall_mem_cons]
    simp only [List.forall_mem_append]
    exact ⟨GuardedRange.ordered_record body catches handler more n, body.ordered _,
      handler.ordered _, more.ordered _ _, rest.ordered _⟩
  | .chain condition test body more rest =>
    rw [Body.ranges]
    simp only [List.forall_mem_append]
    exact ⟨condition.ordered _, body.ordered _, more.ordered _ _, rest.ordered _⟩

theorem Catches.ordered (t : Catches) (n : Nat) (live : Bool) :
    ∀ g ∈ t.ranges n live, g.Ordered := by
  match t with
  | .done => simp [Catches.ranges]
  | .handler catches body more =>
    rw [Catches.ranges, List.forall_mem_append]
    exact ⟨body.ordered _, more.ordered _ _⟩

theorem Arms.ordered (t : Arms) (n : Nat) (live : Bool) :
    ∀ g ∈ t.ranges n live, g.Ordered := by
  match t with
  | .done => simp [Arms.ranges]
  | .otherwise body => exact body.ordered _
  | .elseIf condition test body more =>
    rw [Arms.ranges]
    simp only [List.forall_mem_append]
    exact ⟨condition.ordered _, body.ordered _, more.ordered _ _⟩

end

theorem GuardedRange.Ordered.stop_le_handler {g : GuardedRange} (h : g.Ordered)
    {ops : List Opcode} : ∀ e ∈ g.entries ops, e.stop ≤ e.handler := by
  intro e he
  unfold GuardedRange.entries at he
  split at he
  · obtain ⟨k, hk, rfl⟩ := List.mem_map.1 he
    obtain ⟨-, stop, -, hstop, -, hhandlers⟩ := h
    obtain ⟨start, hstart, hle⟩ := hhandlers k (by simpa using hk)
    simp only [entry, hstop, hstart, Option.getD_some]
    exact offset_mono hle
  · simp at he

/-! ### The code object -/

mutual

/-- The only jumps of the linked code are those of the structures. -/
theorem Body.Jumpless.isJump {t : Body} (h : t.Jumpless) (n : Nat) :
    ∀ instr ∈ t.code n, instr.target? = none → instr.opcode.isJump = false := by
  match t with
  | .nil => simp [Body.code]
  | .op opcode rest =>
    rw [Body.code, List.forall_mem_cons]
    exact ⟨fun _ => h.1, h.2.isJump _⟩
  | .guarded body catches handler more rest =>
    obtain ⟨hbody, hhandler, hmore, hrest⟩ := h
    simp only [Body.code, List.forall_mem_append, List.forall_mem_cons]
    exact ⟨hbody.isJump _, by simp [Instr.target?], hhandler.isJump _, hmore.isJump _ _ _, hrest.isJump _⟩
  | .chain condition test body more rest =>
    obtain ⟨hcondition, hbody, hmore, hrest⟩ := h
    simp only [Body.code, List.forall_mem_append, List.forall_mem_cons]
    exact ⟨hcondition.isJump _, by simp [Instr.target?], hbody.isJump _, hmore.isJump _ _ _, hrest.isJump _⟩

theorem Catches.Jumpless.isJump {t : Catches} (h : t.Jumpless) (n : Nat) (live : Bool) (join : Nat) :
    ∀ instr ∈ t.code n live join, instr.target? = none → instr.opcode.isJump = false := by
  match t with
  | .done => simp [Catches.code]
  | .handler catches body more =>
    simp only [Catches.code, List.forall_mem_append]
    exact ⟨by cases live <;> simp [skipCode, Instr.target?], h.1.isJump _, h.2.isJump _ _ _⟩

theorem Arms.Jumpless.isJump {t : Arms} (h : t.Jumpless) (n : Nat) (live : Bool) (join : Nat) :
    ∀ instr ∈ t.code n live join, instr.target? = none → instr.opcode.isJump = false := by
  match t with
  | .done => simp [Arms.code]
  | .otherwise body =>
    simp only [Arms.code, List.forall_mem_append]
    exact ⟨by cases live <;> simp [skipCode, Instr.target?], Body.Jumpless.isJump h _⟩
  | .elseIf condition test body more =>
    obtain ⟨hcondition, hbody, hmore⟩ := h
    simp only [Arms.code, List.forall_mem_append, List.forall_mem_cons]
    exact ⟨by cases live <;> simp [skipCode, Instr.target?], hcondition.isJump _, by simp [Instr.target?],
      hbody.isJump _, hmore.isJump _ _ _⟩

end

theorem Body.Jumpless.isJump_linked {t : Body} (h : t.Jumpless) :
    ∀ instr ∈ t.linked, instr.target? = none → instr.opcode.isJump = false := by
  rw [Body.linked, List.forall_mem_append]
  refine ⟨h.isJump 0, ?_⟩
  unfold Body.ending
  split
  · simp [Instr.opcode, Opcode.isJump, Opcode.distance?]
  · simp

theorem Instr.distance?_placed (ops : List Opcode) (i : Nat) {instr : Instr} {target : Nat}
    (h : instr.target? = some target) :
    (instr.placed ops i).distance? = some ((offset ops target : Int) - offset ops i) := by
  cases instr with
  | plain opcode => cases h
  | goto | branch =>
    obtain rfl := Option.some.inj h
    rfl

theorem Body.Assembled.forward {t : Body} {c : Code} (h : t.Assembled c) (ht : t.Jumpless) :
    c.Forward where
  sorted := by
    rw [h.instructions, Body.instructions, List.pairwise_iff_getElem]
    intro i j hi hj hij
    have hlt : i < t.opcodes.length := by
      rw [List.length_mapIdx] at hi
      rwa [opcodes, List.length_map]
    simpa using offset_lt hij hlt
  jumps p hp d hd := by
    rw [h.instructions, Body.instructions] at hp
    obtain ⟨i, hi, rfl⟩ := List.mem_mapIdx.1 hp
    cases htarget : t.linked[i].target? with
    | some target =>
      have honward := t.onward_linked i _ target (List.getElem?_eq_getElem hi) htarget
      have hlt : offset t.opcodes i < offset t.opcodes target :=
        offset_lt (by omega) (by rwa [opcodes, List.length_map])
      have hdistance := Instr.distance?_placed t.opcodes i htarget
      rw [show (t.linked[i].placed t.opcodes i).distance? = some d from hd, Option.some.injEq] at hdistance
      omega
    | none =>
      have hjump := ht.isJump_linked _ (List.getElem_mem hi) htarget
      simp only [Instr.placed_eq, htarget] at hd
      simp [Opcode.isJump, hd] at hjump
  handlers e he := by
    have he' : e ∈ c.exceptions.toList := by simpa using he
    rw [h.exceptions, List.mem_flatMap] at he'
    obtain ⟨g, hg, he⟩ := he'
    exact (t.ordered 0 g hg).stop_le_handler e he

end BlockAssembler
