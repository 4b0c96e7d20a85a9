import BlockAssembler.Proofs.Body.Dispatch

/-! What the exception table says about a stream. Every marker that begins a guarded body has
a site: where its body begins, the body itself, and for every handler where it begins. The
table is read off the sites in their order, and the sites lie in one another as the markers
do. -/

namespace BlockAssembler

/-- A handler and the index of the first instruction behind its marker. -/
structure Landing where
  catches : Option String
  start : Nat
  body : Body

/-- A guarded body, the index of the first instruction behind its marker, and its handlers in order. -/
structure Site where
  start : Nat
  body : Body
  landings : List Landing

/-- The index of the jump that ends the guarded body. -/
def Site.stop (s : Site) : Nat := s.start + s.body.size

def Catches.landings : Catches → Nat → Bool → List Landing
  | .done, _, _ => []
  | .handler catches body more, n, live =>
    let start := n + skipSize live
    ⟨catches, start, body⟩ :: more.landings (start + body.size) (body.exit true)

mutual

/-- The sites of a stream whose first instruction has the index `n`, in the order of their markers. -/
def Body.sites : Body → Nat → List Site
  | .nil, _ => []
  | .op _ rest, n => rest.sites (n + 1)
  | .guarded body catches handler more rest, n =>
    let stop := n + body.size
    let last := stop + 1 + handler.size
    ⟨n, body, ⟨catches, stop + 1, handler⟩ :: more.landings last (handler.exit true)⟩ ::
      (body.sites n ++ (handler.sites (stop + 1) ++ (more.sites last (handler.exit true) ++
        rest.sites (last + more.size (handler.exit true)))))
  | .chain condition _ body more rest, n =>
    let jump := n + condition.size
    let stop := jump + 1 + body.size
    condition.sites n ++ (body.sites (jump + 1) ++ (more.sites stop (body.exit true) ++
      rest.sites (stop + more.size (body.exit true))))

def Catches.sites : Catches → Nat → Bool → List Site
  | .done, _, _ => []
  | .handler _ body more, n, live =>
    let start := n + skipSize live
    body.sites start ++ more.sites (start + body.size) (body.exit true)

def Arms.sites : Arms → Nat → Bool → List Site
  | .done, _, _ => []
  | .otherwise body, n, live => body.sites (n + skipSize live)
  | .elseIf condition _ body more, n, live =>
    let start := n + skipSize live
    let jump := start + condition.size
    condition.sites start ++ (body.sites (jump + 1) ++
      more.sites (jump + 1 + body.size) (body.exit true))

end

/-! ### Sites and records -/

/-- What the entries of a range are read from: its ends, and the starts and classes of its handlers. -/
def GuardedRange.outline (g : GuardedRange) : Option Handle × Option Handle × List (Option Handle × Option String) :=
  (g.start, g.skip, g.handlers.toList.map fun k => (k.start, k.catches))

def Site.outline (s : Site) : Option Handle × Option Handle × List (Option Handle × Option String) :=
  (some s.start, some s.stop, s.landings.map fun l => (some l.start, l.catches))

theorem Catches.outline_handlers (t : Catches) (n : Nat) (live : Bool) :
    (t.handlers n live).map (fun k => (k.start, k.catches)) =
      (t.landings n live).map fun l => (some l.start, l.catches) := by
  fun_induction Catches.handlers t n live with
  | case1 => rfl
  | case2 n live catches body more start ih =>
    rw [Catches.landings, List.map_cons, List.map_cons, ih]

mutual

theorem Body.outline_ranges (t : Body) (n : Nat) :
    (t.ranges n).map GuardedRange.outline = (t.sites n).map Site.outline := by
  match t with
  | .nil => rfl
  | .op opcode rest => exact rest.outline_ranges (n + 1)
  | .guarded body catches handler more rest =>
    rw [Body.ranges, Body.sites, List.map_cons, List.map_cons]
    simp only [List.map_append, body.outline_ranges, handler.outline_ranges, more.outline_ranges,
      rest.outline_ranges]
    congr 1
    simp [GuardedRange.outline, GuardedRange.record, Site.outline, Site.stop, more.outline_handlers]
  | .chain condition test body more rest =>
    simp only [Body.ranges, Body.sites, List.map_append, condition.outline_ranges, body.outline_ranges,
      more.outline_ranges, rest.outline_ranges]

theorem Catches.outline_ranges (t : Catches) (n : Nat) (live : Bool) :
    (t.ranges n live).map GuardedRange.outline = (t.sites n live).map Site.outline := by
  match t with
  | .done => rfl
  | .handler catches body more =>
    simp only [Catches.ranges, Catches.sites, List.map_append, body.outline_ranges, more.outline_ranges]

theorem Arms.outline_ranges (t : Arms) (n : Nat) (live : Bool) :
    (t.ranges n live).map GuardedRange.outline = (t.sites n live).map Site.outline := by
  match t with
  | .done => rfl
  | .otherwise body => exact body.outline_ranges _
  | .elseIf condition test body more =>
    simp only [Arms.ranges, Arms.sites, List.map_append, condition.outline_ranges, body.outline_ranges,
      more.outline_ranges]

end

/-! ### Sites in the code -/

/-- The body of the site, the jump behind it and its handlers stand in the code where the site says. -/
structure Site.InCode (code : List Instr) (s : Site) : Prop where
  body : CodeAt code s.start (s.body.code s.start)
  jump : ∃ target, code[s.stop]? = some (.goto target)
  landings : ∀ l ∈ s.landings, CodeAt code l.start (l.body.code l.start)

section
variable {code : List Instr}

theorem CodeAt.skip {n join : Nat} {live : Bool} {piece : List Instr}
    (h : CodeAt code n (skipCode live join ++ piece)) : CodeAt code (n + skipSize live) piece := by
  simpa using h.right

theorem Catches.landings_inCode (t : Catches) {n join : Nat} {live : Bool} (h : CodeAt code n (t.code n live join)) :
    ∀ l ∈ t.landings n live, CodeAt code l.start (l.body.code l.start) := by
  match t with
  | .done => simp [Catches.landings]
  | .handler catches body more =>
    have h' := h.skip
    have hmore := h'.right
    rw [body.length_code] at hmore
    rw [Catches.landings, List.forall_mem_cons]
    exact ⟨h'.left, more.landings_inCode hmore⟩

mutual

theorem Body.sites_inCode (t : Body) {n : Nat} (h : CodeAt code n (t.code n)) :
    ∀ s ∈ t.sites n, s.InCode code := by
  match t with
  | .nil => simp [Body.sites]
  | .op opcode rest => exact rest.sites_inCode h.tail
  | .guarded body catches handler more rest =>
    have hjump := h.right
    rw [body.length_code] at hjump
    have hmore := hjump.tail.right
    rw [handler.length_code] at hmore
    have hrest := hmore.right
    rw [more.length_code] at hrest
    have hlandings : ∀ l ∈ (⟨catches, n + body.size + 1, handler⟩ : Landing) ::
        more.landings (n + body.size + 1 + handler.size) (handler.exit true),
        CodeAt code l.start (l.body.code l.start) := by
      rw [List.forall_mem_cons]
      exact ⟨hjump.tail.left, more.landings_inCode hmore.left⟩
    rw [Body.sites, List.forall_mem_cons]
    simp only [List.forall_mem_append]
    exact ⟨⟨h.left, ⟨_, hjump.head⟩, hlandings⟩, body.sites_inCode h.left, handler.sites_inCode hjump.tail.left,
      more.sites_inCode hmore.left, rest.sites_inCode hrest⟩
  | .chain condition test body more rest =>
    have hjump := h.right
    rw [condition.length_code] at hjump
    have hmore := hjump.tail.right
    rw [body.length_code] at hmore
    have hrest := hmore.right
    rw [more.length_code] at hrest
    rw [Body.sites]
    simp only [List.forall_mem_append]
    exact ⟨condition.sites_inCode h.left, body.sites_inCode hjump.tail.left, more.sites_inCode hmore.left,
      rest.sites_inCode hrest⟩

theorem Catches.sites_inCode (t : Catches) {n join : Nat} {live : Bool} (h : CodeAt code n (t.code n live join)) :
    ∀ s ∈ t.sites n live, s.InCode code := by
  match t with
  | .done => simp [Catches.sites]
  | .handler catches body more =>
    have h' := h.skip
    have hmore := h'.right
    rw [body.length_code] at hmore
    rw [Catches.sites, List.forall_mem_append]
    exact ⟨body.sites_inCode h'.left, more.sites_inCode hmore⟩

theorem Arms.sites_inCode (t : Arms) {n join : Nat} {live : Bool} (h : CodeAt code n (t.code n live join)) :
    ∀ s ∈ t.sites n live, s.InCode code := by
  match t with
  | .done => simp [Arms.sites]
  | .otherwise body => exact body.sites_inCode h.skip
  | .elseIf condition test body more =>
    have h' := h.skip
    have hjump := h'.right
    rw [condition.length_code] at hjump
    have hmore := hjump.tail.right
    rw [body.length_code] at hmore
    rw [Arms.sites]
    simp only [List.forall_mem_append]
    exact ⟨condition.sites_inCode h'.left, body.sites_inCode hjump.tail.left, more.sites_inCode hmore⟩

end

end

/-! ### Sites among each other -/

/-- The second site lies behind the first one, or inside its guarded body. -/
def Site.Clear (s s' : Site) : Prop := s.stop ≤ s'.start ∨ s.start ≤ s'.start ∧ s'.stop < s.stop

/-- The sites lie from `n` on and in front of `m`, each clear of those before it. -/
structure Spread (sites : List Site) (n m : Nat) : Prop where
  le : n ≤ m
  within : ∀ s ∈ sites, n ≤ s.start ∧ s.stop < m
  clear : sites.Pairwise Site.Clear

namespace Spread

variable {sites sites' : List Site} {n m k : Nat}

theorem nil (n : Nat) : Spread [] n n := ⟨Nat.le_refl n, by simp, .nil⟩

theorem endingAt (h : Spread sites n k) (hk : k = m) : Spread sites n m := hk ▸ h

theorem append (h : Spread sites n k) (h' : Spread sites' k m) : Spread (sites ++ sites') n m where
  le := Nat.le_trans h.le h'.le
  within s hs := by
    have hle := h.le
    have hle' := h'.le
    rcases List.mem_append.1 hs with hs | hs
    · have hwithin := h.within s hs
      omega
    · have hwithin := h'.within s hs
      omega
  clear := by
    refine List.pairwise_append.2 ⟨h.clear, h'.clear, fun s hs s' hs' => .inl ?_⟩
    have hwithin := h.within s hs
    have hwithin' := h'.within s' hs'
    omega

/-- Instructions in front of all sites. -/
theorem skip (h : Spread sites (n + k) m) : Spread sites n m where
  le := Nat.le_trans (Nat.le_add_right n k) h.le
  within s hs := by
    have hwithin := h.within s hs
    omega
  clear := h.clear

/-- A site around all others. -/
theorem guard {s : Site} (h : Spread sites s.start s.stop) : Spread (s :: sites) s.start (s.stop + 1) where
  le := Nat.le_succ_of_le h.le
  within x hx := by
    rcases List.mem_cons.1 hx with rfl | hx
    · exact ⟨Nat.le_refl _, Nat.lt_succ_self _⟩
    · have hwithin := h.within x hx
      omega
  clear := List.pairwise_cons.2 ⟨fun x hx => .inr (h.within x hx), h.clear⟩

end Spread

mutual

theorem Body.spread (t : Body) (n : Nat) : Spread (t.sites n) n (n + t.size) := by
  match t with
  | .nil => exact .nil n
  | .op opcode rest =>
    exact (rest.spread (n + 1)).skip.endingAt (by rw [Body.size]; omega)
  | .guarded body catches handler more rest =>
    have hguard := (body.spread n).guard (s := ⟨n, body, ⟨catches, n + body.size + 1, handler⟩ ::
      more.landings (n + body.size + 1 + handler.size) (handler.exit true)⟩)
    have hrest := (more.spread (n + body.size + 1 + handler.size) (handler.exit true)).append (rest.spread _)
    have hall := hguard.append ((handler.spread (n + body.size + 1)).append hrest)
    exact hall.endingAt (by rw [Body.size]; omega)
  | .chain condition test body more rest =>
    have hrest := (more.spread (n + condition.size + 1 + body.size) (body.exit true)).append (rest.spread _)
    have hbody := (body.spread (n + condition.size + 1)).append hrest
    have hall := (condition.spread n).append hbody.skip
    exact hall.endingAt (by rw [Body.size]; omega)

theorem Catches.spread (t : Catches) (n : Nat) (live : Bool) : Spread (t.sites n live) n (n + t.size live) := by
  match t with
  | .done => exact .nil n
  | .handler catches body more =>
    have hall := ((body.spread (n + skipSize live)).append (more.spread _ (body.exit true))).skip
    exact hall.endingAt (by rw [Catches.size]; omega)

theorem Arms.spread (t : Arms) (n : Nat) (live : Bool) : Spread (t.sites n live) n (n + t.size live) := by
  match t with
  | .done => exact .nil n
  | .otherwise body =>
    exact (body.spread (n + skipSize live)).skip.endingAt (by rw [Arms.size]; omega)
  | .elseIf condition test body more =>
    have hbody := (body.spread (n + skipSize live + condition.size + 1)).append (more.spread _ (body.exit true))
    have hall := ((condition.spread (n + skipSize live)).append hbody.skip).skip
    exact hall.endingAt (by rw [Arms.size]; omega)

end

/-! ### The code object -/

/-- The piece of linked code stands at the index `n` of the code object, every jump with its distance. -/
def Code.Holds (c : Code) (n : Nat) (piece : List Instr) : Prop :=
  ∀ i instr, piece[i]? = some instr →
    c.instructions[n + i]? = some ⟨offset c.opcodes (n + i), instr.placed c.opcodes (n + i)⟩

/-- The entries of a site: one for each handler in order, and none if the body has no instruction. -/
def Site.entries (c : Code) (s : Site) : List ExceptionEntry :=
  if s.body.size = 0 then []
  else s.landings.map fun l =>
    ⟨offset c.opcodes s.start, offset c.opcodes s.stop, offset c.opcodes l.start, l.catches⟩

/-- The offsets of the site enclose the instructions of its body and no others; the body, the jump that
ends it and the handlers stand where the site says. -/
structure Site.LiesIn (c : Code) (s : Site) : Prop where
  guarded : ∀ (i : Nat) (p : PlacedOpcode), c.instructions[i]? = some p →
    (offset c.opcodes s.start ≤ p.offset ∧ p.offset < offset c.opcodes s.stop ↔ s.start ≤ i ∧ i < s.stop)
  body : c.Holds s.start (s.body.code s.start)
  jump : ∃ d, c.instructions[s.stop]? = some ⟨offset c.opcodes s.stop, .goto d⟩
  landings : ∀ l ∈ s.landings, c.Holds l.start (l.body.code l.start) ∧
    (s.body.size ≠ 0 → l.start < c.instructions.size)

theorem offset_congr {ops ops' : List Opcode} (h : ops.map Opcode.size = ops'.map Opcode.size) (i : Nat) :
    offset ops i = offset ops' i := by
  rw [offset, offset, List.map_take, List.map_take, h]

theorem Instr.size_placed (ops : List Opcode) (i : Nat) (instr : Instr) :
    (instr.placed ops i).size = instr.opcode.size := by
  cases instr <;> rfl

namespace Laid

variable {code : List Instr} {ranges : List GuardedRange} {c : Code}

theorem getElem? (h : Laid code ranges c) (i : Nat) : c.instructions[i]? = code[i]?.map fun instr =>
    ⟨offset (code.map Instr.opcode) i, instr.placed (code.map Instr.opcode) i⟩ := by
  rw [← Array.getElem?_toList, h.instructions, List.getElem?_mapIdx]

theorem size_instructions (h : Laid code ranges c) : c.instructions.size = code.length := by
  rw [← Array.length_toList, h.instructions, List.length_mapIdx]

theorem offset_eq (h : Laid code ranges c) : offset c.opcodes = offset (code.map Instr.opcode) := by
  funext i
  refine offset_congr ?_ i
  apply List.ext_getElem?
  intro j
  rw [Code.opcodes, h.instructions]
  cases hj : code[j]? with
  | none => simp [hj]
  | some instr => simp [hj, Instr.size_placed]

theorem holds (h : Laid code ranges c) {n : Nat} {piece : List Instr} (hpiece : CodeAt code n piece) :
    c.Holds n piece := by
  intro i instr hi
  have hplaced (k : Nat) : instr.placed c.opcodes k = instr.placed (code.map Instr.opcode) k := by
    rw [Instr.placed_eq, Instr.placed_eq, h.offset_eq]
  rw [h.getElem?, hpiece i instr hi, h.offset_eq, hplaced]
  rfl

/-- The guarded body has offsets of its own exactly if it has an instruction. -/
theorem guards_iff {s : Site} (hs : s.InCode code) :
    offset (code.map Instr.opcode) s.start < offset (code.map Instr.opcode) s.stop ↔ s.body.size ≠ 0 := by
  obtain ⟨target, hjump⟩ := hs.jump
  have hlt : s.stop < (code.map Instr.opcode).length := by
    rw [List.length_map]
    exact (List.getElem?_eq_some_iff.1 hjump).1
  have hstop : s.stop = s.start + s.body.size := rfl
  rw [lt_offset_iff (by omega)]
  omega

theorem liesIn (h : Laid code ranges c) {s : Site} (hs : s.InCode code)
    (hoffsets : s.body.size ≠ 0 → ∀ l ∈ s.landings, l.start < code.length) : s.LiesIn c where
  guarded i p hp := by
    have hlt : i < (code.map Instr.opcode).length := by
      rw [List.length_map, ← h.size_instructions]
      exact (Array.getElem?_eq_some_iff.1 hp).1
    rw [h.getElem?] at hp
    obtain ⟨instr, -, rfl⟩ := Option.map_eq_some_iff.1 hp
    rw [h.offset_eq, offset_le_iff hlt, lt_offset_iff hlt]
  body := h.holds hs.body
  jump := by
    obtain ⟨target, hjump⟩ := hs.jump
    exact ⟨_, by rw [h.getElem?, hjump, h.offset_eq]; rfl⟩
  landings l hl := ⟨h.holds (hs.landings l hl), fun hne => by
    rw [h.size_instructions]
    exact hoffsets hne l hl⟩

/-- A range and a site of the same outline have the same entries. -/
theorem entries_eq (h : Laid code ranges c) {s : Site} (hs : s.InCode code) {g : GuardedRange}
    (hg : g.outline = s.outline) : g.entries (code.map Instr.opcode) = s.entries c := by
  obtain ⟨hstart, hstop, hhandlers⟩ : g.start = some s.start ∧ g.skip = some s.stop ∧
      g.handlers.toList.map (fun k => (k.start, k.catches)) =
        s.landings.map fun l => (some l.start, l.catches) := by
    simpa [GuardedRange.outline, Site.outline] using hg
  have hguards := guards_iff hs
  rw [GuardedRange.entries, Site.entries, h.offset_eq, hstart, hstop, Option.getD_some, Option.getD_some]
  by_cases hempty : s.body.size = 0
  · rw [if_neg (fun hlt => hguards.1 hlt hempty), if_pos hempty]
  · rw [if_pos (hguards.2 hempty), if_neg hempty]
    have hentries := congrArg (List.map fun k : Option Handle × Option String =>
      (⟨offset (code.map Instr.opcode) s.start, offset (code.map Instr.opcode) s.stop,
        offset (code.map Instr.opcode) (k.1.getD 0), k.2⟩ : ExceptionEntry)) hhandlers
    rw [List.map_map, List.map_map] at hentries
    refine Eq.trans (List.map_congr_left fun k _ => ?_) hentries
    simp [GuardedRange.entry, hstart, hstop]

end Laid

theorem flatMap_eq_of_map_eq {α β γ δ : Type} {f : α → γ} {f' : β → γ} {g : α → List δ} {g' : β → List δ}
    {xs : List α} {ys : List β} (h : xs.map f = ys.map f') (hg : ∀ x, ∀ y ∈ ys, f x = f' y → g x = g' y) :
    xs.flatMap g = ys.flatMap g' := by
  induction xs generalizing ys with
  | nil =>
    obtain rfl : ys = [] := by simpa using h.symm
    rfl
  | cons x xs ih =>
    cases ys with
    | nil => cases h
    | cons y ys =>
      obtain ⟨hhead, htail⟩ := List.cons_eq_cons.1 h
      rw [List.flatMap_cons, List.flatMap_cons, hg x y (by simp) hhead,
        ih htail fun z w hw => hg z w (by simp [hw])]

/-- However a stream is assembled, its linked code comes first. -/
theorem Body.exists_laid (t : Body) {maxLocals : Nat} {c : Code}
    (h : assembled t.items maxLocals = .ok c ∨ assembledAsIs t.items maxLocals = .ok c) :
    ∃ code, CodeAt code 0 (t.code 0) ∧ Laid code (t.ranges 0) c := by
  rcases h with h | h
  · exact ⟨t.linked, codeAt_linked t, t.laid_assembled h⟩
  · exact ⟨t.code 0, fun i instr hi => by rwa [Nat.zero_add], t.laid_assembledAsIs h⟩

/-- The exception table is the entries of the sites in the order of their markers. Each site encloses
the instructions of its body, and of two sites one lies behind the other or strictly inside it. -/
theorem Body.exceptions_assembled (t : Body) {maxLocals : Nat} {c : Code}
    (h : assembled t.items maxLocals = .ok c ∨ assembledAsIs t.items maxLocals = .ok c) :
    (∀ (i : Nat) (p : PlacedOpcode), c.instructions[i]? = some p → p.offset = offset c.opcodes i) ∧
      c.exceptions.toList = (t.sites 0).flatMap (Site.entries c) ∧
      (∀ s ∈ t.sites 0, s.LiesIn c) ∧
      (t.sites 0).Pairwise fun s s' => offset c.opcodes s.stop ≤ offset c.opcodes s'.start ∨
        (offset c.opcodes s.start ≤ offset c.opcodes s'.start ∧
          offset c.opcodes s'.stop < offset c.opcodes s.stop) := by
  obtain ⟨code, hcode, hlaid⟩ := t.exists_laid h
  have hsites := t.sites_inCode hcode
  have houtlines := t.outline_ranges 0
  have hstop (s : Site) (hs : s ∈ t.sites 0) : s.stop < (code.map Instr.opcode).length := by
    obtain ⟨target, hjump⟩ := (hsites s hs).jump
    rw [List.length_map]
    exact (List.getElem?_eq_some_iff.1 hjump).1
  refine ⟨fun i p hp => ?_, ?_, fun s hs => hlaid.liesIn (hsites s hs) fun hne l hl => ?_, ?_⟩
  · rw [hlaid.getElem?] at hp
    obtain ⟨instr, -, rfl⟩ := Option.map_eq_some_iff.1 hp
    rw [hlaid.offset_eq]
  · rw [hlaid.exceptions]
    exact flatMap_eq_of_map_eq houtlines fun g s hs hg => hlaid.entries_eq (hsites s hs) hg
  · -- the record of the site has found an instruction for every handler
    have hmem : s.outline ∈ (t.ranges 0).map GuardedRange.outline := houtlines ▸ List.mem_map_of_mem hs
    obtain ⟨g, hg, heq⟩ := List.mem_map.1 hmem
    obtain ⟨hgstart, hgstop, hhandlers⟩ : g.start = some s.start ∧ g.skip = some s.stop ∧
        g.handlers.toList.map (fun k => (k.start, k.catches)) =
          s.landings.map fun l => (some l.start, l.catches) := by
      simpa [GuardedRange.outline, Site.outline] using heq
    have hl' : (some l.start, l.catches) ∈ g.handlers.toList.map fun k => (k.start, k.catches) :=
      hhandlers ▸ List.mem_map_of_mem hl
    obtain ⟨k, hk, hkl⟩ := List.mem_map.1 hl'
    have hguards := (Laid.guards_iff (hsites s hs)).2 hne
    obtain ⟨i, hi, hstart⟩ := hlaid.handlers g hg (by rwa [hgstart, hgstop]) k (by simpa using hk)
    have heq' : some i = some l.start := by rw [← hstart]; exact congrArg Prod.fst hkl
    rwa [← Option.some.inj heq']
  · rw [hlaid.offset_eq]
    refine (t.spread 0).clear.imp_of_mem fun {s s'} hs hs' hclear => ?_
    rcases hclear with hle | ⟨hle, hlt⟩
    · exact .inl (offset_mono hle)
    · exact .inr ⟨offset_mono hle, offset_lt hlt (hstop s' hs')⟩

/-- A guarded range with two handlers inside another one, and behind them one that guards nothing. -/
def Body.guardedTwice : Body :=
  .guarded (.op .aconstNull (.guarded (.op .pop .nil) (some "A") (.op .pop .nil)
      (.handler none (.op .pop .nil) .done) .nil)) none (.op .pop .nil) .done
    (.guarded .nil none (.op .pop .nil) .done .nil)

def Body.guardedTwiceCode : Code where
  maxStack := 1
  maxLocals := 0
  instructions := #[⟨0, .aconstNull⟩, ⟨1, .pop⟩, ⟨2, .goto 8⟩, ⟨5, .pop⟩, ⟨6, .goto 4⟩, ⟨9, .pop⟩, ⟨10, .goto 4⟩,
    ⟨13, .pop⟩, ⟨14, .goto 4⟩, ⟨17, .pop⟩, ⟨18, .voidReturn⟩]
  exceptions := #[⟨0, 10, 13, none⟩, ⟨1, 2, 5, some "A"⟩, ⟨1, 2, 9, none⟩]

theorem Body.exceptions_guardedTwice :
    Body.guardedTwiceCode.exceptions.toList =
        (Body.guardedTwice.sites 0).flatMap (Site.entries Body.guardedTwiceCode) ∧
      ∀ s ∈ Body.guardedTwice.sites 0, s.LiesIn Body.guardedTwiceCode := by
  have hcode : assembled Body.guardedTwice.items 0 = .ok Body.guardedTwiceCode := by decide +kernel
  obtain ⟨-, hexceptions, hsites, -⟩ := Body.exceptions_assembled Body.guardedTwice (.inl hcode)
  exact ⟨hexceptions, hsites⟩

end BlockAssembler
