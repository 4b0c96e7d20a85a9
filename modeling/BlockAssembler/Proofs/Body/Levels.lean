import BlockAssembler.Proofs.Body.Lines
import BlockAssembler.Proofs.Builder.Levels
import BlockAssembler.Proofs.Depths

/-! Balanced streams that keep the stack: a condition leaves one value more than it finds, and the bodies of a
structure leave what they find, a handler what its range finds. The scan goes through such a stream as if control
went from each instruction to the next. It nevertheless has the depth that control arrives with along a jump, for
the depth where a piece of the stream ends does not depend on how its end is reached. -/

namespace BlockAssembler

mutual

/-- The stream finds `x` values and leaves `y`, and no instruction takes more than there is. -/
def Body.Keeps : Body → Int → Int → Prop
  | .nil, x, y => x = y
  | .op opcode rest, x, y => opcode.pops ≤ x ∧ rest.Keeps (x + opcode.stackEffect) y
  | .guarded body _ handler more rest, x, y => body.Keeps x x ∧ handler.Keeps 1 x ∧ more.Keeps x ∧ rest.Keeps x y
  | .chain condition _ body more rest, x, y =>
    condition.Keeps x (x + 1) ∧ body.Keeps x x ∧ more.Keeps x ∧ rest.Keeps x y

/-- Every handler finds the exception alone and leaves `x` values. -/
def Catches.Keeps : Catches → Int → Prop
  | .done, _ => True
  | .handler _ body more, x => body.Keeps 1 x ∧ more.Keeps x

/-- Every body finds `x` values and leaves as many. -/
def Arms.Keeps : Arms → Int → Prop
  | .done, _ => True
  | .otherwise body, x => body.Keeps x x
  | .elseIf condition _ body more, x => condition.Keeps x (x + 1) ∧ body.Keeps x x ∧ more.Keeps x

end

/-- What an instruction leaves is not below zero. -/
theorem Opcode.pops_add_stackEffect (op : Opcode) : 0 ≤ op.pops + op.stackEffect := by
  cases op with
  | ldc constant => cases constant <;> simp [pops, stackEffect]
  | putstatic member | invoke dispatch member =>
    simp only [pops, stackEffect]
    omega
  | _ => simp [pops, stackEffect]

/-! ### The depths of the pieces -/

/-- The depth in front of the jump that ends what control can reach the end of when `live`. -/
def skipLevels (live : Bool) (x : Int) : List Int := if live then [x] else []

@[simp] theorem length_skipLevels (live : Bool) (x : Int) : (skipLevels live x).length = skipSize live := by
  cases live <;> rfl

theorem levels_skipLines (live : Bool) (x : Int) : levels x (skipLines live) = skipLevels live x := by
  cases live <;> rfl

@[simp] theorem remains_skipLines (live : Bool) (x : Int) : remains x (skipLines live) = x := by
  cases live with
  | false => rfl
  | true => exact Int.add_zero x

/-- A handler starts with the exception, whatever stands in front of it leaves. -/
theorem levels_entered (z : Int) (lines : List Line) : levels z (entered lines) = levels 1 lines := by
  cases lines with
  | nil => rfl
  | cons line lines =>
    rw [entered, levels, levels, Line.leaves, Line.leaves, Line.reset, Line.reset]
    simp

theorem remains_entered {lines : List Line} (hlines : lines ≠ []) (z : Int) :
    remains z (entered lines) = remains 1 lines := by
  cases lines with
  | nil => exact absurd rfl hlines
  | cons line lines =>
    rw [entered, remains_cons, remains_cons, Line.leaves, Line.leaves, Line.reset, Line.reset]
    simp

theorem leaves_goto (x : Int) : Line.leaves ⟨.goto 0, false⟩ x = x := Int.add_zero x

theorem leaves_branch (test : Test) (x : Int) : Line.leaves ⟨.branch test 0, false⟩ (x + 1) = x :=
  Int.add_neg_cancel_right x 1

mutual

/-- The scan leaves a stream with what the stream leaves. -/
theorem Body.Keeps.remains {t : Body} {x y : Int} (h : t.Keeps x y) (ht : t.Receiving) :
    BlockAssembler.remains x t.lines = y := by
  match t with
  | .nil => exact h
  | .op opcode rest => exact Body.Keeps.remains (t := rest) h.2 ht
  | .guarded body catches handler more rest =>
    obtain ⟨hbody, hhandler, hmore, hrest⟩ := h
    obtain ⟨hbody', ⟨hreceives, hhandler'⟩, hmore', hrest'⟩ := ht
    rw [Body.lines, remains_append, hbody.remains hbody', remains_cons, leaves_goto, remains_append,
      remains_entered (Body.lines_ne_nil hreceives), hhandler.remains hhandler', remains_append, hmore.remains hmore',
      hrest.remains hrest']
  | .chain condition test body more rest =>
    obtain ⟨hcondition, hbody, hmore, hrest⟩ := h
    obtain ⟨hcondition', hbody', hmore', hrest'⟩ := ht
    rw [Body.lines, remains_append, hcondition.remains hcondition', remains_cons, leaves_branch, remains_append,
      hbody.remains hbody', remains_append, hmore.remains hmore', hrest.remains hrest']

theorem Catches.Keeps.remains {t : Catches} {x : Int} (h : t.Keeps x) (ht : t.Receiving) (live : Bool) :
    BlockAssembler.remains x (t.lines live) = x := by
  match t with
  | .done => rfl
  | .handler catches body more =>
    obtain ⟨hbody, hmore⟩ := h
    obtain ⟨⟨hreceives, hbody'⟩, hmore'⟩ := ht
    rw [Catches.lines, remains_append, remains_skipLines, remains_append,
      remains_entered (Body.lines_ne_nil hreceives), hbody.remains hbody', hmore.remains hmore']

theorem Arms.Keeps.remains {t : Arms} {x : Int} (h : t.Keeps x) (ht : t.Receiving) (live : Bool) :
    BlockAssembler.remains x (t.lines live) = x := by
  match t with
  | .done => rfl
  | .otherwise body => rw [Arms.lines, remains_append, remains_skipLines, Body.Keeps.remains (t := body) h ht]
  | .elseIf condition test body more =>
    obtain ⟨hcondition, hbody, hmore⟩ := h
    obtain ⟨hcondition', hbody', hmore'⟩ := ht
    rw [Arms.lines, remains_append, remains_skipLines, remains_append, hcondition.remains hcondition', remains_cons,
      leaves_branch, remains_append, hbody.remains hbody', hmore.remains hmore']

end

theorem levels_guarded {body handler rest : Body} {catches : Option String} {more : Catches} {x y : Int}
    (h : (Body.guarded body catches handler more rest).Keeps x y)
    (ht : (Body.guarded body catches handler more rest).Receiving) :
    levels x (Body.guarded body catches handler more rest).lines =
      levels x body.lines ++ x :: (levels 1 handler.lines ++
        (levels x (more.lines (handler.exit true)) ++ levels x rest.lines)) := by
  obtain ⟨hbody, hhandler, hmore, -⟩ := h
  obtain ⟨hbody', ⟨hreceives, hhandler'⟩, hmore', -⟩ := ht
  rw [Body.lines, levels_append, hbody.remains hbody', levels, leaves_goto, levels_append, levels_entered,
    remains_entered (Body.lines_ne_nil hreceives), hhandler.remains hhandler', levels_append, hmore.remains hmore']
  rfl

theorem levels_chain {condition body rest : Body} {test : Test} {more : Arms} {x y : Int}
    (h : (Body.chain condition test body more rest).Keeps x y)
    (ht : (Body.chain condition test body more rest).Receiving) :
    levels x (Body.chain condition test body more rest).lines =
      levels x condition.lines ++ (x + 1) :: (levels x body.lines ++
        (levels x (more.lines (body.exit true)) ++ levels x rest.lines)) := by
  obtain ⟨hcondition, hbody, hmore, -⟩ := h
  obtain ⟨hcondition', hbody', hmore', -⟩ := ht
  rw [Body.lines, levels_append, hcondition.remains hcondition', levels, leaves_branch, levels_append,
    hbody.remains hbody', levels_append, hmore.remains hmore']
  rfl

theorem levels_handler {body : Body} {catches : Option String} {more : Catches} {x : Int} (h : body.Keeps 1 x)
    (hreceives : body.receives = true) (ht : body.Receiving) (live : Bool) :
    levels x ((Catches.handler catches body more).lines live) =
      skipLevels live x ++ (levels 1 body.lines ++ levels x (more.lines (body.exit true))) := by
  rw [Catches.lines, levels_append, levels_skipLines, remains_skipLines, levels_append, levels_entered,
    remains_entered (Body.lines_ne_nil hreceives), h.remains ht]

theorem levels_otherwise (body : Body) (x : Int) (live : Bool) :
    levels x ((Arms.otherwise body).lines live) = skipLevels live x ++ levels x body.lines := by
  rw [Arms.lines, levels_append, levels_skipLines, remains_skipLines]

theorem levels_elseIf {condition body : Body} {test : Test} {more : Arms} {x : Int}
    (h : (Arms.elseIf condition test body more).Keeps x) (ht : (Arms.elseIf condition test body more).Receiving)
    (live : Bool) :
    levels x ((Arms.elseIf condition test body more).lines live) =
      skipLevels live x ++ (levels x condition.lines ++ (x + 1) :: (levels x body.lines ++
        levels x (more.lines (body.exit true)))) := by
  obtain ⟨hcondition, hbody, hmore⟩ := h
  obtain ⟨hcondition', hbody', hmore'⟩ := ht
  rw [Arms.lines, levels_append, levels_skipLines, remains_skipLines, levels_append, hcondition.remains hcondition',
    levels, leaves_branch, levels_append, hbody.remains hbody']
  rfl

/-! ### Pieces of a sequence -/

/-- Among all depths those of a piece stand from the index `n` on. -/
def LevelsAt (all : List Int) (n : Nat) (piece : List Int) : Prop := ∀ i z, piece[i]? = some z → all[n + i]? = some z

namespace LevelsAt

variable {all piece piece' : List Int} {n m : Nat} {x : Int}

theorem head (h : LevelsAt all n (x :: piece)) : all[n]? = some x := h 0 x rfl

theorem front (h : LevelsAt all n (piece ++ piece')) : LevelsAt all n piece := by
  intro i z hi
  refine h i z ?_
  rwa [List.getElem?_append_left (List.getElem?_eq_some_iff.1 hi).1]

theorem behind (h : LevelsAt all n (piece ++ piece')) (hm : m = n + piece.length) : LevelsAt all m piece' := by
  intro i z hi
  have hall := h (piece.length + i) z (by rwa [List.getElem?_append_right (by omega), Nat.add_sub_cancel_left])
  rwa [hm, Nat.add_assoc]

theorem tail (h : LevelsAt all n (x :: piece)) : LevelsAt all (n + 1) piece := by
  have hsplit : LevelsAt all n ([x] ++ piece) := h
  exact hsplit.behind rfl

end LevelsAt

/-- Every instruction of the code finds what it takes, and a jump leaves the depth that its target has. -/
def Steady (all : List Int) (n : Nat) (code : List Instr) : Prop :=
  ∀ i instr, code[i]? = some instr → ∃ z, all[n + i]? = some z ∧ instr.opcode.pops ≤ z ∧
    ∀ target, instr.target? = some target → all[target]? = some (z + instr.opcode.stackEffect)

namespace Steady

variable {all : List Int} {n m join : Nat} {code code' : List Instr} {x : Int} {live : Bool}

theorem nil (all : List Int) (n : Nat) : Steady all n [] := by simp [Steady]

theorem cons (instr : Instr) (hx : all[n]? = some x) (hpops : instr.opcode.pops ≤ x)
    (htarget : ∀ target, instr.target? = some target → all[target]? = some (x + instr.opcode.stackEffect))
    (h : Steady all (n + 1) code) : Steady all n (instr :: code) := by
  intro i y hi
  cases i with
  | zero =>
    obtain rfl := Option.some.inj hi
    exact ⟨x, hx, hpops, htarget⟩
  | succ i =>
    have hrest := h i y hi
    rwa [Nat.add_assoc, Nat.add_comm 1 i] at hrest

theorem append (h : Steady all n code) (hm : m = n + code.length) (h' : Steady all m code') :
    Steady all n (code ++ code') := by
  intro i instr hi
  rw [List.getElem?_append] at hi
  split at hi
  · exact h i instr hi
  · have hrest := h' _ instr hi
    rwa [hm, Nat.add_assoc, Nat.add_sub_cancel' (by omega)] at hrest

/-- A jump to the join point, if control can reach it. -/
theorem skip (hat : LevelsAt all n (skipLevels live x)) (hx : 0 ≤ x)
    (hjoin : live = true → all[join]? = some x) (h : Steady all (n + skipSize live) code) :
    Steady all n (skipCode live join ++ code) := by
  cases live with
  | false => exact h
  | true =>
    refine cons (.goto join) hat.head hx (fun target htarget => ?_) h
    obtain rfl := Option.some.inj htarget
    rw [hjoin rfl]
    exact congrArg some (Int.add_zero x).symm

/-- The branch takes the value of the condition, whether it is taken or not. -/
theorem clause {test : Test} {next : Nat} {piece : List Int} (hat : LevelsAt all n ((x + 1) :: piece)) (hx : 0 ≤ x)
    (hnext : all[next]? = some x) (h : Steady all (n + 1) code) : Steady all n (.branch test next :: code) := by
  refine cons (.branch test next) hat.head ?_ (fun target htarget => ?_) h
  · show (1 : Int) ≤ x + 1
    omega
  · obtain rfl := Option.some.inj htarget
    rw [hnext]
    exact congrArg some (Int.add_neg_cancel_right x 1).symm

end Steady

/-! ### Where a piece starts -/

section
variable {all : List Int}

/-- A stream starts with the depth it finds, even if it has no instruction and something else stands there. -/
theorem Body.Keeps.start {t : Body} {x y : Int} {n : Nat} (h : t.Keeps x y) (ht : t.Receiving)
    (hat : LevelsAt all n (levels x t.lines)) (hend : t.exit true = true → all[n + t.size]? = some y) :
    all[n]? = some x := by
  match t with
  | .nil =>
    obtain rfl : x = y := h
    exact hend rfl
  | .op opcode rest => exact hat.head
  | .guarded body catches handler more rest =>
    rw [levels_guarded h ht] at hat
    exact h.1.start ht.1 hat.front fun _ => (hat.behind (by rw [length_levels, body.length_lines])).head
  | .chain condition test body more rest =>
    rw [levels_chain h ht] at hat
    exact h.1.start ht.1 hat.front fun _ => (hat.behind (by rw [length_levels, condition.length_lines])).head

/-- Where control can reach the end of the handler before, the depth is that of the join point. -/
theorem Catches.Keeps.resume {t : Catches} {x : Int} {n : Nat} (h : t.Keeps x) (ht : t.Receiving)
    (hat : LevelsAt all n (levels x (t.lines true))) (hjoin : all[n + t.size true]? = some x) : all[n]? = some x := by
  cases t with
  | done => exact hjoin
  | handler catches body more =>
    rw [levels_handler h.1 ht.1.1 ht.1.2] at hat
    exact hat.front.head

/-- Where control can reach the end of the body before, the depth is that of the join point. -/
theorem Arms.Keeps.resume {t : Arms} {x : Int} {n : Nat} (h : t.Keeps x) (ht : t.Receiving)
    (hat : LevelsAt all n (levels x (t.lines true))) (hjoin : all[n + t.size true]? = some x) : all[n]? = some x := by
  cases t with
  | done => exact hjoin
  | otherwise body =>
    rw [levels_otherwise] at hat
    exact hat.front.head
  | elseIf condition test body more =>
    rw [levels_elseIf h ht] at hat
    exact hat.front.head

/-- The next branch starts with the depth that the branch before has found. -/
theorem Arms.Keeps.start {t : Arms} {x : Int} {n : Nat} {live skipped : Bool} (h : t.Keeps x) (ht : t.Receiving)
    (hat : LevelsAt all n (levels x (t.lines live))) (hjoin : t.exit skipped = true → all[n + t.size live]? = some x) :
    all[t.next n live]? = some x := by
  cases t with
  | done => exact hjoin rfl
  | otherwise body =>
    rw [levels_otherwise] at hat
    refine Body.Keeps.start (t := body) h ht (hat.behind (m := n + skipSize live) ?_) fun hexit => ?_
    · rw [length_skipLevels]
    · have hlast := hjoin (by rw [Arms.exit, hexit, Bool.or_true])
      rwa [Arms.size, ← Nat.add_assoc] at hlast
  | elseIf condition test body more =>
    rw [levels_elseIf h ht] at hat
    have hcondition := hat.behind (m := n + skipSize live) (by rw [length_skipLevels])
    have htest := hcondition.behind (m := n + skipSize live + condition.size)
      (by rw [length_levels, condition.length_lines])
    exact h.1.start ht.1 hcondition.front fun _ => htest.head

/-! ### Jumps -/

mutual

/-- If control can reach the end of the stream, what stands there has the depth that the stream leaves. -/
theorem Body.Keeps.steady {t : Body} {x y : Int} {n : Nat} (h : t.Keeps x y) (live : Bool) (ht : t.Receiving)
    (hx : 0 ≤ x) (hat : LevelsAt all n (levels x t.lines)) (hend : t.exit live = true → all[n + t.size]? = some y) :
    Steady all n (t.code n) := by
  match t with
  | .nil => exact .nil all n
  | .op opcode rest =>
    obtain ⟨hpops, hrest⟩ := h
    have heffect := opcode.pops_add_stackEffect
    refine .cons (.plain opcode) hat.head hpops (by simp [Instr.target?]) ?_
    refine hrest.steady (!opcode.isTerminal) ht (by omega) hat.tail fun hexit => ?_
    rw [Nat.add_assoc]
    exact hend hexit
  | .guarded body catches handler more rest =>
    rw [levels_guarded h ht] at hat
    obtain ⟨hbody, hhandler, hmore, hrest⟩ := h
    obtain ⟨hbody', ⟨hreceives, hhandler'⟩, hmore', hrest'⟩ := ht
    -- the jump over the handlers, the first handler, the others, and what follows
    have hat₁ := hat.behind (m := n + body.size) (by rw [length_levels, body.length_lines])
    have hat₂ := hat₁.tail
    have hat₃ := hat₂.behind (m := n + body.size + 1 + handler.size) (by rw [length_levels, handler.length_lines])
    have hat₄ := hat₃.behind (m := n + body.size + 1 + handler.size + more.size (handler.exit true))
      (by rw [length_levels, more.length_lines])
    have hend' : rest.exit true = true →
        all[n + body.size + 1 + handler.size + more.size (handler.exit true) + rest.size]? = some y := by
      intro hexit
      simpa only [Body.size, ← Nat.add_assoc] using hend hexit
    have hjoin := hrest.start hrest' hat₄ hend'
    refine (hbody.steady true hbody' hx hat.front fun _ => hat₁.head).append (m := n + body.size)
      (by rw [body.length_code]) (.cons (.goto _) hat₁.head hx (fun target htarget => ?_) ?_)
    · obtain rfl := Option.some.inj htarget
      rw [hjoin]
      exact congrArg some (Int.add_zero x).symm
    · refine (hhandler.steady true hhandler' (by decide) hat₂.front fun hexit => ?_).append
        (m := n + body.size + 1 + handler.size) (by rw [handler.length_code]) ?_
      · rw [hexit] at hat₃ hjoin
        exact hmore.resume hmore' hat₃.front hjoin
      · refine (hmore.steady hmore' hx hat₃.front rfl hjoin).append (by rw [more.length_code]) ?_
        exact hrest.steady true hrest' hx hat₄ hend'
  | .chain condition test body more rest =>
    rw [levels_chain h ht] at hat
    obtain ⟨hcondition, hbody, hmore, hrest⟩ := h
    obtain ⟨hcondition', hbody', hmore', hrest'⟩ := ht
    have hat₁ := hat.behind (m := n + condition.size) (by rw [length_levels, condition.length_lines])
    have hat₂ := hat₁.tail
    have hat₃ := hat₂.behind (m := n + condition.size + 1 + body.size) (by rw [length_levels, body.length_lines])
    have hat₄ := hat₃.behind (m := n + condition.size + 1 + body.size + more.size (body.exit true))
      (by rw [length_levels, more.length_lines])
    have hend' : rest.exit (more.exit (body.exit true)) = true →
        all[n + condition.size + 1 + body.size + more.size (body.exit true) + rest.size]? = some y := by
      intro hexit
      simpa only [Body.size, ← Nat.add_assoc] using hend hexit
    have hjoin : more.exit (body.exit true) = true →
        all[n + condition.size + 1 + body.size + more.size (body.exit true)]? = some x := by
      intro hexit
      rw [hexit] at hend'
      exact hrest.start hrest' hat₄ hend'
    refine (hcondition.steady true hcondition' hx hat.front fun _ => hat₁.head).append (m := n + condition.size)
      (by rw [condition.length_code]) ?_
    refine .clause hat₁ hx (hmore.start hmore' hat₃.front hjoin) ?_
    refine (hbody.steady true hbody' hx hat₂.front fun hexit => ?_).append
      (m := n + condition.size + 1 + body.size) (by rw [body.length_code]) ?_
    · rw [hexit] at hat₃ hjoin
      exact hmore.resume hmore' hat₃.front (hjoin more.exit_true)
    · refine (hmore.steady hmore' hx hat₃.front rfl id hjoin).append (by rw [more.length_code]) ?_
      exact hrest.steady _ hrest' hx hat₄ hend'

theorem Catches.Keeps.steady {t : Catches} {x : Int} {n join : Nat} {live : Bool} (h : t.Keeps x) (ht : t.Receiving)
    (hx : 0 ≤ x) (hat : LevelsAt all n (levels x (t.lines live))) (hjoin : join = n + t.size live)
    (hend : all[join]? = some x) : Steady all n (t.code n live join) := by
  match t with
  | .done => exact .nil all n
  | .handler catches body more =>
    obtain ⟨hbody, hmore⟩ := h
    obtain ⟨⟨hreceives, hbody'⟩, hmore'⟩ := ht
    rw [levels_handler hbody hreceives hbody'] at hat
    have hat₁ := hat.behind (m := n + skipSize live) (by rw [length_skipLevels])
    have hat₂ := hat₁.behind (m := n + skipSize live + body.size) (by rw [length_levels, body.length_lines])
    have hjoin' : join = n + skipSize live + body.size + more.size (body.exit true) := by
      rw [hjoin, Catches.size]
      omega
    refine .skip hat.front hx (fun _ => hend) ?_
    refine (hbody.steady true hbody' (by decide) hat₁.front fun hexit => ?_).append
      (m := n + skipSize live + body.size) (by rw [body.length_code]) (hmore.steady hmore' hx hat₂ hjoin' hend)
    rw [hexit] at hat₂ hjoin'
    exact hmore.resume hmore' hat₂ (hjoin' ▸ hend)

/-- `skipped` says whether a branch so far jumps to the join point, and control reaches that only along a jump or
behind the last body. -/
theorem Arms.Keeps.steady {t : Arms} {x : Int} {n join : Nat} {live skipped : Bool} (h : t.Keeps x) (ht : t.Receiving)
    (hx : 0 ≤ x) (hat : LevelsAt all n (levels x (t.lines live))) (hjoin : join = n + t.size live)
    (hskipped : live = true → skipped = true) (hend : t.exit skipped = true → all[join]? = some x) :
    Steady all n (t.code n live join) := by
  match t with
  | .done => exact .nil all n
  | .otherwise body =>
    rw [levels_otherwise] at hat
    refine .skip hat.front hx (fun hlive => hend (by rw [hskipped hlive, Arms.exit, Bool.true_or])) ?_
    refine Body.Keeps.steady (t := body) h true ht hx (hat.behind (by rw [length_skipLevels])) fun hexit => ?_
    rw [Nat.add_assoc, ← Arms.size, ← hjoin]
    exact hend (by rw [Arms.exit, hexit, Bool.or_true])
  | .elseIf condition test body more =>
    rw [levels_elseIf h ht] at hat
    obtain ⟨hcondition, hbody, hmore⟩ := h
    obtain ⟨hcondition', hbody', hmore'⟩ := ht
    have hat₀ := hat.behind (m := n + skipSize live) (by rw [length_skipLevels])
    have hat₁ := hat₀.behind (m := n + skipSize live + condition.size) (by rw [length_levels, condition.length_lines])
    have hat₂ := hat₁.tail
    have hat₃ := hat₂.behind (m := n + skipSize live + condition.size + 1 + body.size)
      (by rw [length_levels, body.length_lines])
    have hjoin' : join = n + skipSize live + condition.size + 1 + body.size + more.size (body.exit true) := by
      rw [hjoin, Arms.size]
      omega
    rw [Arms.exit] at hend
    refine .skip hat.front hx (fun hlive => hend (by rw [hskipped hlive, Bool.true_or, more.exit_true])) ?_
    refine (hcondition.steady true hcondition' hx hat₀.front fun _ => hat₁.head).append
      (m := n + skipSize live + condition.size) (by rw [condition.length_code]) ?_
    refine .clause hat₁ hx (hmore.start hmore' hat₃ (hjoin' ▸ hend)) ?_
    refine (hbody.steady true hbody' hx hat₂.front fun hexit => ?_).append
      (m := n + skipSize live + condition.size + 1 + body.size) (by rw [body.length_code]) ?_
    · rw [hexit] at hat₃ hjoin'
      rw [hexit, Bool.or_true] at hend
      exact hmore.resume hmore' hat₃ (hjoin' ▸ hend more.exit_true)
    · exact hmore.steady hmore' hx hat₃ hjoin' (fun hlive => by rw [hlive, Bool.or_true]) hend

end

end

end BlockAssembler
