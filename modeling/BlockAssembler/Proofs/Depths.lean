import BlockAssembler.Proofs.Execution

/-! The depths of the operand stack along all paths of a code object. Control goes on to
the next instruction, follows a jump, or leaves a guarded instruction for the handler of
an entry, which finds one value on the stack. If no edge leads backwards, one pass over
the instructions finds the greatest depth of every path: it keeps, for every offset, the
depths with which control arrives there. -/

namespace BlockAssembler

/-- The number of slots that an instruction takes from the stack. -/
def Opcode.pops : Opcode → Int
  | aconstNull | iconst _ | ldc _ | aload _ | new _ | getstatic _ | goto _ | voidReturn => 0
  | astore _ | dup | pop | checkcast _ | branch .. | areturn | athrow => 1
  | swap => 2
  | putstatic member => member.resultSlots
  | invoke dispatch member => member.argSlots + dispatch.receiverSlots

/-- An entry whose offsets contain `pc`. -/
def ExceptionEntry.Covers (e : ExceptionEntry) (pc : Int) : Prop := (e.start : Int) ≤ pc ∧ pc < e.stop

instance (e : ExceptionEntry) (pc : Int) : Decidable (e.Covers pc) :=
  inferInstanceAs (Decidable (_ ∧ _))

/-- Some path from the beginning arrives at an offset with a depth, and no instruction on it
takes more than there is. -/
inductive Code.DepthAt (c : Code) : Int → Int → Prop
  | start : DepthAt c 0 0
  | next {pc pc' depth : Int} {op : Opcode} (h : DepthAt c pc depth) (hop : c.at? pc = some op)
      (hpops : op.pops ≤ depth) (passed : Bool) (hnext : op.successor pc passed = some pc') :
      DepthAt c pc' (depth + op.stackEffect)
  | throw {pc depth : Int} {op : Opcode} {e : ExceptionEntry} (h : DepthAt c pc depth)
      (hop : c.at? pc = some op) (hpops : op.pops ≤ depth) (he : e ∈ c.exceptions)
      (hcovers : e.Covers pc) : DepthAt c e.handler 1

/-- No path exceeds the depth that the code object asks for. -/
def Code.StackSafe (c : Code) : Prop := ∀ pc depth, c.DepthAt pc depth → depth ≤ c.maxStack

/-! ### One pass -/

/-- Control arrives at an offset with a depth. -/
structure Arrival where
  pc : Int
  depth : Int
  deriving DecidableEq

namespace Code

/-- The greatest depth with which control arrives at an offset, if it does. -/
def greatestAt (arrivals : List Arrival) (pc : Int) : Option Int :=
  ((arrivals.filter fun a => a.pc = pc).map Arrival.depth).max?

/-- Where control leaves an instruction for, if it arrives there with a depth. -/
def leaving (c : Code) (p : PlacedOpcode) (depth : Int) : List Arrival :=
  [true, false].filterMap (fun passed =>
      (p.opcode.successor p.offset passed).map fun pc => ⟨pc, depth + p.opcode.stackEffect⟩)
    ++ (c.exceptions.toList.filter fun e => e.Covers p.offset).map fun e => ⟨e.handler, 1⟩

/-- Of the depths at an instruction the greatest goes on, unless it does not suffice. -/
def arrive (c : Code) (arrivals : List Arrival) (p : PlacedOpcode) : List Arrival :=
  match greatestAt arrivals p.offset with
  | none => arrivals
  | some depth =>
    if p.opcode.pops ≤ depth then arrivals ++ c.leaving p depth else arrivals

def arrivals (c : Code) : List Arrival := c.instructions.toList.foldl c.arrive [⟨0, 0⟩]

/-- The greatest depth of all paths. -/
def peak (c : Code) : Int := (c.arrivals.map Arrival.depth).foldl max 0

/-- The instructions lie in order, and no edge leads backwards. -/
structure Forward (c : Code) : Prop where
  sorted : c.instructions.toList.Pairwise fun p q => p.offset < q.offset
  jumps : ∀ p ∈ c.instructions.toList, ∀ d, p.opcode.distance? = some d → 0 < d
  handlers : ∀ e ∈ c.exceptions, e.stop ≤ e.handler

variable {c : Code} {arrivals : List Arrival} {p : PlacedOpcode} {a : Arrival}

theorem mem_arrive_of_mem (h : a ∈ arrivals) : a ∈ c.arrive arrivals p := by
  unfold arrive
  split
  · exact h
  · split
    · exact List.mem_append_left _ h
    · exact h

theorem mem_foldl_of_mem {ps : List PlacedOpcode} (h : a ∈ arrivals) : a ∈ ps.foldl c.arrive arrivals := by
  induction ps generalizing arrivals with
  | nil => exact h
  | cons p ps ih => exact ih (mem_arrive_of_mem h)

/-- What is new among the arrivals has left the instruction, with the greatest depth there. -/
theorem mem_arrive (h : a ∈ c.arrive arrivals p) :
    a ∈ arrivals ∨ ∃ depth, greatestAt arrivals p.offset = some depth ∧ p.opcode.pops ≤ depth ∧
      a ∈ c.leaving p depth := by
  unfold arrive at h
  split at h
  · exact .inl h
  · next depth hdepth =>
    split at h
    · next hpops =>
      rcases List.mem_append.1 h with h | h
      · exact .inl h
      · exact .inr ⟨depth, hdepth, hpops, h⟩
    · exact .inl h

theorem mem_leaving {depth : Int} :
    a ∈ c.leaving p depth ↔
      (∃ passed pc, p.opcode.successor p.offset passed = some pc ∧
        a = ⟨pc, depth + p.opcode.stackEffect⟩) ∨
      ∃ e ∈ c.exceptions, e.Covers p.offset ∧ a = ⟨e.handler, 1⟩ := by
  rw [leaving, List.mem_append, List.mem_filterMap, List.mem_map]
  constructor
  · rintro (⟨passed, -, hpc⟩ | ⟨e, he, rfl⟩)
    · obtain ⟨pc, hnext, rfl⟩ := Option.map_eq_some_iff.1 hpc
      exact .inl ⟨passed, pc, hnext, rfl⟩
    · obtain ⟨he, hcovers⟩ := List.mem_filter.1 he
      exact .inr ⟨e, by simpa using he, by simpa using hcovers, rfl⟩
  · rintro (⟨passed, pc, hnext, rfl⟩ | ⟨e, he, hcovers, rfl⟩)
    · exact .inl ⟨passed, by cases passed <;> simp, by rw [hnext]; rfl⟩
    · exact .inr ⟨e, List.mem_filter.2 ⟨by simpa using he, by simpa using hcovers⟩, rfl⟩

theorem mem_depths {pc depth : Int} :
    depth ∈ (arrivals.filter fun a => a.pc = pc).map Arrival.depth ↔ (⟨pc, depth⟩ : Arrival) ∈ arrivals := by
  rw [List.mem_map]
  constructor
  · rintro ⟨⟨pc', depth'⟩, ha, rfl⟩
    obtain ⟨hmem, hpc⟩ := List.mem_filter.1 ha
    obtain rfl : pc' = pc := by simpa using hpc
    exact hmem
  · exact fun ha => ⟨_, List.mem_filter.2 ⟨ha, by simp⟩, rfl⟩

theorem greatestAt_eq_some {pc depth : Int} (h : greatestAt arrivals pc = some depth) :
    (⟨pc, depth⟩ : Arrival) ∈ arrivals ∧ ∀ d, (⟨pc, d⟩ : Arrival) ∈ arrivals → d ≤ depth := by
  obtain ⟨hmem, hmax⟩ := List.max?_eq_some_iff.1 h
  exact ⟨mem_depths.1 hmem, fun d hd => hmax d (mem_depths.2 hd)⟩

theorem exists_greatestAt {pc depth : Int} (h : (⟨pc, depth⟩ : Arrival) ∈ arrivals) :
    ∃ d, greatestAt arrivals pc = some d ∧ depth ≤ d := by
  have hmem := mem_depths.2 h
  cases hd : greatestAt arrivals pc with
  | none =>
    rw [List.max?_eq_none_iff.1 hd] at hmem
    simp at hmem
  | some d => exact ⟨d, rfl, (greatestAt_eq_some hd).2 depth h⟩

/-! ### Forward code -/

theorem Forward.lt_of_leaving (hc : c.Forward) (hp : p ∈ c.instructions.toList) {depth : Int}
    (h : a ∈ c.leaving p depth) : (p.offset : Int) < a.pc := by
  rcases mem_leaving.1 h with ⟨passed, pc, hnext, rfl⟩ | ⟨e, he, hcovers, rfl⟩
  · have hpos := p.opcode.size_pos
    show (p.offset : Int) < pc
    rcases Opcode.eq_or_eq_of_successor hnext with rfl | ⟨d, hd, rfl⟩
    · omega
    · have := hc.jumps p hp d hd
      omega
  · have := hc.handlers e he
    have := hcovers.2
    show (p.offset : Int) < e.handler
    omega

/-- The instruction that is found at an offset, and what lies behind it. -/
theorem Forward.split_of_at? (hc : c.Forward) {pc : Int} {op : Opcode} (hop : c.at? pc = some op) :
    ∃ before p after, c.instructions.toList = before ++ p :: after ∧ (p.offset : Int) = pc ∧
      p.opcode = op ∧ ∀ q ∈ after, p.offset < q.offset := by
  rw [Code.at?, ← Array.find?_toList] at hop
  obtain ⟨p, hfind, rfl⟩ := Option.map_eq_some_iff.1 hop
  obtain ⟨hoffset, before, after, hsplit, -⟩ := List.find?_eq_some_iff_append.1 hfind
  have hsorted := hc.sorted
  rw [hsplit] at hsorted
  have hafter := (List.pairwise_cons.1 (List.pairwise_append.1 hsorted).2.1).1
  exact ⟨before, p, after, hsplit, by simpa using hoffset, rfl, hafter⟩

theorem Forward.at?_of_mem (hc : c.Forward) (hp : p ∈ c.instructions.toList) :
    c.at? p.offset = some p.opcode := by
  obtain ⟨before, after, hsplit⟩ := List.append_of_mem hp
  have hsorted := hc.sorted
  rw [hsplit] at hsorted
  have hbefore : ∀ q ∈ before, q.offset < p.offset := fun q hq =>
    (List.pairwise_append.1 hsorted).2.2 q hq p (by simp)
  have hfind : c.instructions.toList.find? (fun q => decide ((q.offset : Int) = p.offset)) = some p := by
    refine List.find?_eq_some_iff_append.2 ⟨by simp, before, after, hsplit, fun q hq => ?_⟩
    have := hbefore q hq
    simp
    omega
  rw [Code.at?, ← Array.find?_toList, hfind]
  rfl

/-- Every arrival is that of a path. -/
theorem Forward.depthAt_of_mem (hc : c.Forward) {ps : List PlacedOpcode}
    (hps : ∀ p ∈ ps, p ∈ c.instructions.toList) (harrivals : ∀ a ∈ arrivals, c.DepthAt a.pc a.depth) :
    ∀ a ∈ ps.foldl c.arrive arrivals, c.DepthAt a.pc a.depth := by
  induction ps generalizing arrivals with
  | nil => exact harrivals
  | cons p ps ih =>
    refine ih (fun q hq => hps q (by simp [hq])) fun a ha => ?_
    rcases mem_arrive ha with ha | ⟨depth, hdepth, hpops, ha⟩
    · exact harrivals a ha
    · have hop := hc.at?_of_mem (hps p (by simp))
      have hat : c.DepthAt p.offset depth := harrivals _ (greatestAt_eq_some hdepth).1
      rcases mem_leaving.1 ha with ⟨passed, pc, hnext, rfl⟩ | ⟨e, he, hcovers, rfl⟩
      · exact .next hat hop hpops passed hnext
      · exact .throw hat hop hpops he hcovers

/-- What arrives at an offset has done so before the instruction there is looked at. -/
theorem Forward.mem_of_mem_foldl (hc : c.Forward) {ps : List PlacedOpcode}
    (hps : ∀ p ∈ ps, p ∈ c.instructions.toList ∧ a.pc ≤ p.offset) (h : a ∈ ps.foldl c.arrive arrivals) :
    a ∈ arrivals := by
  induction ps generalizing arrivals with
  | nil => exact h
  | cons p ps ih =>
    obtain ⟨hp, hle⟩ := hps p (by simp)
    rcases mem_arrive (ih (fun q hq => hps q (by simp [hq])) h) with h | ⟨depth, -, -, h⟩
    · exact h
    · have := hc.lt_of_leaving hp h
      omega

/-- The pass follows every edge, with at least the depth of any path that takes it. -/
theorem Forward.leaving_mem_arrivals (hc : c.Forward) {pc depth : Int} {op : Opcode}
    (h : (⟨pc, depth⟩ : Arrival) ∈ c.arrivals) (hop : c.at? pc = some op) (hpops : op.pops ≤ depth) :
    ∃ p ∈ c.instructions.toList, ∃ d, (p.offset : Int) = pc ∧ p.opcode = op ∧ depth ≤ d ∧
      ∀ a ∈ c.leaving p d, a ∈ c.arrivals := by
  obtain ⟨before, p, after, hsplit, rfl, rfl, hafter⟩ := hc.split_of_at? hop
  have hfold : c.arrivals = after.foldl c.arrive (c.arrive (before.foldl c.arrive [⟨0, 0⟩]) p) := by
    rw [Code.arrivals, hsplit, List.foldl_append, List.foldl_cons]
  have hbefore : (⟨p.offset, depth⟩ : Arrival) ∈ before.foldl c.arrive [⟨0, 0⟩] := by
    rw [hfold, ← List.foldl_cons] at h
    refine hc.mem_of_mem_foldl (fun q hq => ⟨by rw [hsplit]; simp [hq], ?_⟩) h
    rcases List.mem_cons.1 hq with rfl | hq
    · exact Int.le_refl _
    · have := hafter q hq
      show (p.offset : Int) ≤ q.offset
      omega
  obtain ⟨d, hd, hle⟩ := exists_greatestAt hbefore
  refine ⟨p, by rw [hsplit]; simp, d, rfl, rfl, hle, fun a ha => ?_⟩
  rw [hfold]
  refine mem_foldl_of_mem ?_
  rw [arrive, hd]
  simp only [Int.le_trans hpops hle, if_true]
  exact List.mem_append_right _ ha

/-- No path arrives with a greater depth than the pass has found. -/
theorem Forward.exists_arrival (hc : c.Forward) {pc depth : Int} (h : c.DepthAt pc depth) :
    ∃ d, (⟨pc, d⟩ : Arrival) ∈ c.arrivals ∧ depth ≤ d := by
  induction h with
  | start => exact ⟨0, mem_foldl_of_mem (by simp), Int.le_refl _⟩
  | next h hop hpops passed hnext ih =>
    obtain ⟨d, hd, hle⟩ := ih
    obtain ⟨p, hp, d', rfl, rfl, hle', hleaving⟩ := hc.leaving_mem_arrivals hd hop (by omega)
    exact ⟨_, hleaving _ (mem_leaving.2 (.inl ⟨passed, _, hnext, rfl⟩)), by omega⟩
  | throw h hop hpops he hcovers ih =>
    obtain ⟨d, hd, hle⟩ := ih
    obtain ⟨p, hp, d', rfl, rfl, hle', hleaving⟩ := hc.leaving_mem_arrivals hd hop (by omega)
    exact ⟨1, hleaving _ (mem_leaving.2 (.inr ⟨_, he, hcovers, rfl⟩)), Int.le_refl _⟩

theorem foldl_max_le_iff {ds : List Int} {m n : Int} : ds.foldl max m ≤ n ↔ m ≤ n ∧ ∀ d ∈ ds, d ≤ n := by
  induction ds generalizing m with
  | nil => simp
  | cons d ds ih =>
    rw [List.foldl_cons, ih, Int.max_le]
    simp [and_assoc]

/-- The pass finds the greatest depth of all paths. -/
theorem Forward.peak_le_iff (hc : c.Forward) (n : Nat) :
    c.peak ≤ n ↔ ∀ pc depth, c.DepthAt pc depth → depth ≤ n := by
  rw [peak, foldl_max_le_iff]
  constructor
  · rintro ⟨-, h⟩ pc depth hdepth
    obtain ⟨d, hd, hle⟩ := hc.exists_arrival hdepth
    have := h d (List.mem_map.2 ⟨_, hd, rfl⟩)
    omega
  · refine fun h => ⟨by omega, fun d hd => ?_⟩
    obtain ⟨a, ha, rfl⟩ := List.mem_map.1 hd
    exact h a.pc a.depth (hc.depthAt_of_mem (fun _ hp => hp) (by simpa using DepthAt.start) a ha)

end Code

end BlockAssembler
