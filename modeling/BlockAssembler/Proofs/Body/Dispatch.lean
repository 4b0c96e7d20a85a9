import BlockAssembler.Proofs.Body.Fetch

/-! Where a throw goes. The table is searched from its first entry on, and it lists the
ranges in the order in which they were begun. A range is begun before every range inside
its body, so of the ranges around an instruction the outermost is asked first. -/

namespace BlockAssembler

/-- Whether the instruction with the index `i` is guarded by the range. -/
def GuardedRange.contains (g : GuardedRange) (i : Nat) : Bool :=
  g.start.any (· ≤ i) && g.skip.any (i < ·)

/-! ### Guards -/

mutual

/-- For each instruction of a stream the ranges whose guarded body it belongs to, the
outermost first; `outer` guards the stream as a whole. -/
def Body.guards : Body → Nat → List GuardedRange → List (List GuardedRange)
  | .nil, _, _ => []
  | .op _ rest, n, outer => outer :: rest.guards (n + 1) outer
  | .guarded body catches handler more rest, n, outer =>
    let stop := n + body.size
    let last := stop + 1 + handler.size
    body.guards n (outer ++ [.record body catches handler more n]) ++ outer ::
      (handler.guards (stop + 1) outer ++ (more.guards last (handler.exit true) outer ++
        rest.guards (last + more.size (handler.exit true)) outer))
  | .chain condition _ body more rest, n, outer =>
    let jump := n + condition.size
    let stop := jump + 1 + body.size
    condition.guards n outer ++ outer :: (body.guards (jump + 1) outer ++
      (more.guards stop (body.exit true) outer ++ rest.guards (stop + more.size (body.exit true)) outer))

def Catches.guards : Catches → Nat → Bool → List GuardedRange → List (List GuardedRange)
  | .done, _, _, _ => []
  | .handler _ body more, n, live, outer =>
    let start := n + skipSize live
    List.replicate (skipSize live) outer ++
      (body.guards start outer ++ more.guards (start + body.size) (body.exit true) outer)

def Arms.guards : Arms → Nat → Bool → List GuardedRange → List (List GuardedRange)
  | .done, _, _, _ => []
  | .otherwise body, n, live, outer =>
    List.replicate (skipSize live) outer ++ body.guards (n + skipSize live) outer
  | .elseIf condition _ body more, n, live, outer =>
    let start := n + skipSize live
    let jump := start + condition.size
    List.replicate (skipSize live) outer ++ (condition.guards start outer ++ outer ::
      (body.guards (jump + 1) outer ++ more.guards (jump + 1 + body.size) (body.exit true) outer))

end

mutual

@[simp] theorem Body.length_guards (t : Body) (n : Nat) (outer : List GuardedRange) :
    (t.guards n outer).length = t.size := by
  match t with
  | .nil => rfl
  | .op opcode rest =>
    simp only [Body.guards, Body.size, List.length_cons, rest.length_guards]
    omega
  | .guarded body catches handler more rest =>
    simp only [Body.guards, Body.size, List.length_append, List.length_cons, body.length_guards,
      handler.length_guards, more.length_guards, rest.length_guards]
    omega
  | .chain condition test body more rest =>
    simp only [Body.guards, Body.size, List.length_append, List.length_cons, condition.length_guards,
      body.length_guards, more.length_guards, rest.length_guards]
    omega

@[simp] theorem Catches.length_guards (t : Catches) (n : Nat) (live : Bool) (outer : List GuardedRange) :
    (t.guards n live outer).length = t.size live := by
  match t with
  | .done => rfl
  | .handler catches body more =>
    simp only [Catches.guards, Catches.size, List.length_append, List.length_replicate,
      body.length_guards, more.length_guards]

@[simp] theorem Arms.length_guards (t : Arms) (n : Nat) (live : Bool) (outer : List GuardedRange) :
    (t.guards n live outer).length = t.size live := by
  match t with
  | .done => rfl
  | .otherwise body =>
    simp only [Arms.guards, Arms.size, List.length_append, List.length_replicate, body.length_guards]
  | .elseIf condition test body more =>
    simp only [Arms.guards, Arms.size, List.length_append, List.length_cons, List.length_replicate,
      condition.length_guards, body.length_guards, more.length_guards]
    omega

end

/-! ### Ranges and their guards -/

/-- The range begins at `start` and ends in front of `stop`. -/
def GuardedRange.Spans (g : GuardedRange) (start stop : Nat) : Prop :=
  g.start = some start ∧ g.skip = some stop

theorem GuardedRange.Spans.contains_iff {g : GuardedRange} {start stop : Nat} (h : g.Spans start stop)
    (i : Nat) : g.contains i = true ↔ start ≤ i ∧ i < stop := by
  simp [contains, h.1, h.2]

/-- The labels name, for each index from `n` on, the ranges that contain it, behind those
that are outside of all; and no range reaches beyond the labels. -/
structure Labels (ranges : List GuardedRange) (n : Nat) (labels : List (List GuardedRange))
    (outer : List GuardedRange) : Prop where
  within : ∀ g ∈ ranges, ∃ start stop, g.Spans start stop ∧ n ≤ start ∧ stop ≤ n + labels.length
  eq : ∀ i guards, labels[i]? = some guards → guards = outer ++ ranges.filter (·.contains (n + i))

namespace Labels

variable {ranges ranges' : List GuardedRange} {n : Nat} {labels labels' : List (List GuardedRange)}
  {outer : List GuardedRange}

theorem filter_eq_nil (h : Labels ranges n labels outer) {i : Nat} (hi : i < n ∨ n + labels.length ≤ i) :
    ranges.filter (·.contains i) = [] := by
  rw [List.filter_eq_nil_iff]
  intro g hg hcontains
  obtain ⟨start, stop, hspans, hstart, hstop⟩ := h.within g hg
  have := (hspans.contains_iff i).1 hcontains
  omega

theorem unguarded (n k : Nat) (outer : List GuardedRange) : Labels [] n (List.replicate k outer) outer where
  within := by simp
  eq i guards hi := by
    obtain ⟨-, rfl⟩ := by simpa [List.getElem?_replicate] using hi
    simp

theorem append {m : Nat} (h : Labels ranges n labels outer) (hm : m = n + labels.length)
    (h' : Labels ranges' m labels' outer) : Labels (ranges ++ ranges') n (labels ++ labels') outer where
  within g hg := by
    rw [List.length_append]
    rcases List.mem_append.1 hg with hg | hg
    · obtain ⟨start, stop, hspans, hstart, hstop⟩ := h.within g hg
      exact ⟨start, stop, hspans, hstart, by omega⟩
    · obtain ⟨start, stop, hspans, hstart, hstop⟩ := h'.within g hg
      exact ⟨start, stop, hspans, by omega, by omega⟩
  eq i guards hi := by
    rw [List.filter_append]
    rcases Nat.lt_or_ge i labels.length with hlt | hge
    · rw [List.getElem?_append_left hlt] at hi
      rw [h'.filter_eq_nil (.inl (by omega)), List.append_nil]
      exact h.eq i guards hi
    · rw [List.getElem?_append_right hge] at hi
      rw [h.filter_eq_nil (.inr (by omega)), List.nil_append]
      have heq := h'.eq _ guards hi
      rwa [hm, Nat.add_assoc, Nat.add_sub_cancel' hge] at heq

/-- Instructions outside of all ranges that follow. -/
theorem skip {k : Nat} (h : Labels ranges (n + k) labels outer) :
    Labels ranges n (List.replicate k outer ++ labels) outer :=
  (unguarded n k outer).append (by simp) h

theorem cons (h : Labels ranges (n + 1) labels outer) : Labels ranges n (outer :: labels) outer :=
  h.skip (k := 1)

/-- A range around all labels. -/
theorem guard {g : GuardedRange} (h : Labels ranges n labels (outer ++ [g]))
    (hg : g.Spans n (n + labels.length)) : Labels (g :: ranges) n labels outer where
  within x hx := by
    rcases List.mem_cons.1 hx with rfl | hx
    · exact ⟨n, _, hg, Nat.le_refl _, Nat.le_refl _⟩
    · exact h.within x hx
  eq i guards hi := by
    have hlt := (List.getElem?_eq_some_iff.1 hi).1
    rw [List.filter_cons, if_pos ((hg.contains_iff _).2 (by omega)), h.eq i guards hi]
    simp

end Labels

mutual

theorem Body.labels (t : Body) (n : Nat) (outer : List GuardedRange) :
    Labels (t.ranges n) n (t.guards n outer) outer := by
  match t with
  | .nil => exact .unguarded n 0 outer
  | .op opcode rest => exact (rest.labels (n + 1) outer).cons
  | .guarded body catches handler more rest =>
    have hspans : (GuardedRange.record body catches handler more n).Spans n (n + body.size) := ⟨rfl, rfl⟩
    have hguard := (body.labels n (outer ++ [.record body catches handler more n])).guard
      (by rwa [body.length_guards])
    refine hguard.append (m := n + body.size) (by simp) (.cons ?_)
    refine (handler.labels _ outer).append (m := n + body.size + 1 + handler.size) (by simp) ?_
    exact (more.labels _ _ outer).append (by simp) (rest.labels _ outer)
  | .chain condition test body more rest =>
    refine (condition.labels n outer).append (m := n + condition.size) (by simp) (.cons ?_)
    refine (body.labels _ outer).append (m := n + condition.size + 1 + body.size) (by simp) ?_
    exact (more.labels _ _ outer).append (by simp) (rest.labels _ outer)

theorem Catches.labels (t : Catches) (n : Nat) (live : Bool) (outer : List GuardedRange) :
    Labels (t.ranges n live) n (t.guards n live outer) outer := by
  match t with
  | .done => exact .unguarded n 0 outer
  | .handler catches body more =>
    refine .skip ?_
    exact (body.labels (n + skipSize live) outer).append
      (m := n + skipSize live + body.size) (by simp) (more.labels _ _ outer)

theorem Arms.labels (t : Arms) (n : Nat) (live : Bool) (outer : List GuardedRange) :
    Labels (t.ranges n live) n (t.guards n live outer) outer := by
  match t with
  | .done => exact .unguarded n 0 outer
  | .otherwise body => exact .skip (body.labels _ outer)
  | .elseIf condition test body more =>
    refine .skip ?_
    refine (condition.labels (n + skipSize live) outer).append
      (m := n + skipSize live + condition.size) (by simp) (.cons ?_)
    exact (body.labels _ outer).append
      (m := n + skipSize live + condition.size + 1 + body.size) (by simp) (more.labels _ _ outer)

end

/-! ### Dispatch -/

/-- The entry that the target machine selects for a throw at `pc`: the first one whose offsets
contain `pc` and whose class is one of those the thrown value is of. -/
def Code.handlerFor (c : Code) (pc : Nat) (thrown : String → Bool) : Option ExceptionEntry :=
  c.exceptions.find? fun e => decide (e.start ≤ pc) && decide (pc < e.stop) && e.catches.all thrown

/-- Whether the handler takes a value that is of the classes `thrown`. -/
def Handler.takes (thrown : String → Bool) (k : Handler) : Bool := k.catches.all thrown

/-- The first range with a handler that takes the thrown value, and its first such handler. -/
def dispatch (ops : List Opcode) (thrown : String → Bool) (guards : List GuardedRange) :
    Option ExceptionEntry :=
  guards.findSome? fun g => (g.handlers.toList.find? (·.takes thrown)).map (g.entry ops)

theorem offset_le_iff {ops : List Opcode} {i : Nat} (hi : i < ops.length) (j : Nat) :
    offset ops j ≤ offset ops i ↔ j ≤ i := by
  constructor
  · intro h
    refine Nat.le_of_not_lt fun hlt => ?_
    have := offset_lt hlt hi
    omega
  · exact offset_mono

theorem lt_offset_iff {ops : List Opcode} {i : Nat} (hi : i < ops.length) (j : Nat) :
    offset ops i < offset ops j ↔ i < j := by
  constructor
  · intro h
    refine Nat.lt_of_not_le fun hle => ?_
    have hmono : offset ops j ≤ offset ops i := offset_mono hle
    omega
  · exact fun hlt => offset_lt hlt hi

/-- A range that does not guard an instruction has no entry for it. -/
theorem find?_entries {g : GuardedRange} {start stop : Nat} (hg : g.Spans start stop)
    {ops : List Opcode} {i : Nat} (hi : i < ops.length) (thrown : String → Bool) :
    (g.entries ops).find? (fun e =>
        decide (e.start ≤ offset ops i) && decide (offset ops i < e.stop) && e.catches.all thrown)
      = if g.contains i then (g.handlers.toList.find? (·.takes thrown)).map (g.entry ops) else none := by
  have hstart : g.start.getD 0 = start := by rw [hg.1, Option.getD_some]
  have hstop : g.skip.getD 0 = stop := by rw [hg.2, Option.getD_some]
  by_cases hcontains : start ≤ i ∧ i < stop
  · have hle := (offset_le_iff hi start).2 hcontains.1
    have hlt := (lt_offset_iff hi stop).2 hcontains.2
    have hentries : g.entries ops = g.handlers.toList.map (g.entry ops) := by
      rw [GuardedRange.entries, hstart, hstop, if_pos (by omega)]
    rw [if_pos ((hg.contains_iff i).2 hcontains), hentries, List.find?_map]
    congr 2
    funext k
    simp [GuardedRange.entry, hstart, hstop, hle, hlt, Handler.takes]
  · rw [if_neg (mt (hg.contains_iff i).1 hcontains), List.find?_eq_none]
    intro e he
    have hfields : e.start = offset ops start ∧ e.stop = offset ops stop := by
      unfold GuardedRange.entries at he
      split at he
      · obtain ⟨k, -, rfl⟩ := List.mem_map.1 he
        simp [GuardedRange.entry, hstart, hstop]
      · simp at he
    have hle := offset_le_iff hi start
    have hlt := lt_offset_iff hi stop
    simp only [hfields, hle, hlt]
    simp
    omega

theorem findSome?_filter {α β : Type} {l : List α} {q : α → Bool} {f f' : α → Option β}
    (h : ∀ x ∈ l, f x = if q x then f' x else none) : l.findSome? f = (l.filter q).findSome? f' := by
  induction l with
  | nil => rfl
  | cons x l ih =>
    rw [List.findSome?_cons, h x (by simp), ih fun y hy => h y (by simp [hy]), List.filter_cons]
    cases q x <;> simp [List.findSome?_cons]

/-- A throw from an instruction of the stream goes to the outermost range around it that has
a handler for it, and to the first such handler; it goes nowhere exactly if no range
around it has one. -/
theorem Body.handlerFor_assembled {t : Body} {maxLocals : Nat} {c : Code}
    (h : assembled t.items maxLocals = .ok c) {i : Nat} {guards : List GuardedRange}
    (hi : (t.guards 0 [])[i]? = some guards) (thrown : String → Bool) :
    c.handlerFor (offset t.opcodes i) thrown = dispatch t.opcodes thrown guards ∧
      (c.handlerFor (offset t.opcodes i) thrown = none ↔
        ∀ g ∈ guards, ∀ k ∈ g.handlers, k.takes thrown = false) := by
  have hlabels := t.labels 0 []
  have hlt : i < t.opcodes.length := by
    have hlt := (List.getElem?_eq_some_iff.1 hi).1
    rw [t.length_guards] at hlt
    simp only [opcodes, linked, List.length_map, List.length_append, t.length_code]
    omega
  have hguards : guards = (t.ranges 0).filter (·.contains i) := by simpa using hlabels.eq i guards hi
  have hselect : c.handlerFor (offset t.opcodes i) thrown = dispatch t.opcodes thrown guards := by
    rw [Code.handlerFor, ← Array.find?_toList, (t.assembled_eq_ok h).exceptions, List.find?_flatMap,
      dispatch, hguards]
    refine findSome?_filter fun g hg => ?_
    obtain ⟨start, stop, hspans, -, -⟩ := hlabels.within g hg
    exact find?_entries hspans hlt thrown
  refine ⟨hselect, ?_⟩
  rw [hselect, dispatch, List.findSome?_eq_none_iff]
  simp

/-- A guarded range whose body is a guarded range. -/
def Body.nested : Body :=
  .guarded (.guarded (.op .aconstNull (.op .pop .nil)) none (.op .pop .nil) .done .nil) none
    (.op .pop .nil) .done (.op .voidReturn .nil)

def Body.nestedCode : Code where
  maxStack := 1
  maxLocals := 0
  instructions := #[⟨0, .aconstNull⟩, ⟨1, .pop⟩, ⟨2, .goto 4⟩, ⟨5, .pop⟩, ⟨6, .goto 4⟩, ⟨9, .pop⟩,
    ⟨10, .voidReturn⟩]
  exceptions := #[⟨0, 6, 9, none⟩, ⟨0, 2, 5, none⟩]

/-- What the inner body throws goes to the outer handler. -/
theorem Body.handlerFor_nested :
    Body.nestedCode.handlerFor (offset Body.nested.opcodes 0) (fun _ => true) =
        dispatch Body.nested.opcodes (fun _ => true) ((Body.nested.guards 0 []).headD []) ∧
      (Body.nestedCode.handlerFor (offset Body.nested.opcodes 0) (fun _ => true) = none ↔
        ∀ g ∈ (Body.nested.guards 0 []).headD [], ∀ k ∈ g.handlers, k.takes (fun _ => true) = false) := by
  have hcode : assembled Body.nested.items 0 = .ok Body.nestedCode := by decide +kernel
  have hguards : (Body.nested.guards 0 [])[0]? = some ((Body.nested.guards 0 []).headD []) := by
    decide +kernel
  exact Body.handlerFor_assembled hcode hguards fun _ => true

/-- The innermost range does not come first. -/
theorem Body.not_innermost_first :
    ¬ ∀ (t : Body) (maxLocals : Nat) (c : Code) (i : Nat) (guards : List GuardedRange)
      (thrown : String → Bool), t.Jumpless → assembled t.items maxLocals = .ok c →
        (t.guards 0 [])[i]? = some guards →
          c.handlerFor (offset t.opcodes i) thrown = dispatch t.opcodes thrown guards.reverse := by
  intro hinner
  have hjump : Body.nested.Jumpless := by
    simp [nested, Jumpless, Catches.Jumpless, Opcode.isJump, Opcode.distance?]
  have hcode : assembled Body.nested.items 0 = .ok Body.nestedCode := by decide +kernel
  have hguards : (Body.nested.guards 0 [])[0]? = some ((Body.nested.guards 0 []).headD []) := by
    decide +kernel
  have hne : Body.nestedCode.handlerFor (offset Body.nested.opcodes 0) (fun _ => true) ≠
      dispatch Body.nested.opcodes (fun _ => true) ((Body.nested.guards 0 []).headD []).reverse := by
    decide +kernel
  exact hne (hinner _ _ _ _ _ _ hjump hcode hguards)

end BlockAssembler
