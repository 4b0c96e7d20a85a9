import BlockAssembler.Proofs.Body.ExceptionTable
import BlockAssembler.Proofs.Body.Forward

/-! Handlers that are entered by a throw only. If every handler begins with the instruction that
takes the exception off the stack, what stands in front of a handler is a jump over the handlers or
a terminal instruction, and no jump lands on its first instruction. A jump to the end of a piece
of code lands on whatever comes next; that is no handler, as a handler only follows directly upon
code whose end control cannot reach. -/

namespace BlockAssembler

/-- Takes the exception off the stack. -/
def Opcode.receives : Opcode → Bool
  | .pop | .astore _ => true
  | _ => false

/-- The first instruction takes the exception off the stack. -/
def Body.receives : Body → Bool
  | .op opcode _ => opcode.receives
  | _ => false

mutual

/-- Every handler starts by taking the exception off the stack. -/
def Body.Receiving : Body → Prop
  | .nil => True
  | .op _ rest => rest.Receiving
  | .guarded body _ handler more rest =>
    body.Receiving ∧ (handler.receives = true ∧ handler.Receiving) ∧ more.Receiving ∧ rest.Receiving
  | .chain condition _ body more rest =>
    condition.Receiving ∧ body.Receiving ∧ more.Receiving ∧ rest.Receiving

def Catches.Receiving : Catches → Prop
  | .done => True
  | .handler _ body more => (body.receives = true ∧ body.Receiving) ∧ more.Receiving

def Arms.Receiving : Arms → Prop
  | .done => True
  | .otherwise body => body.Receiving
  | .elseIf condition _ body more => condition.Receiving ∧ body.Receiving ∧ more.Receiving

end

/-! ### Sealed instructions -/

/-- In the code from the index `n` to the index `m` some instructions are sealed: what stands in front
of them never goes on to them, and no jump lands on them. Whether control goes on to the code from in
front of it is said by `entered`, and whether it reaches the end of it by `left`. -/
structure Sealed (code : List Instr) (starts : List Nat) (n m : Nat) (entered left : Bool) : Prop where
  length : m = n + code.length
  onward : ∀ instr ∈ code, ∀ target, instr.target? = some target → n < target
  targets : ∀ instr ∈ code, ∀ target, instr.target? = some target → target < m ∨ target = m ∧ left = true
  starts_lt : ∀ h ∈ starts, h < m
  blocked : ∀ h ∈ starts, h = n ∧ entered = false ∨
    ∃ i instr, h = n + i + 1 ∧ code[i]? = some instr ∧ instr.opcode.isTerminal = true
  clear : ∀ h ∈ starts, ∀ instr ∈ code, instr.target? ≠ some h
  passed : code = [] → entered = true → left = true
  stopped : left = false → code = [] ∧ entered = false ∨
    ∃ instr, code.getLast? = some instr ∧ instr.opcode.isTerminal = true

namespace Sealed

variable {code code' : List Instr} {starts starts' : List Nat} {n k m : Nat} {entered entered' left left' : Bool}

theorem nil (n : Nat) (live : Bool) : Sealed [] [] n n live live where
  length := rfl
  onward := by simp
  targets := by simp
  starts_lt := by simp
  blocked := by simp
  clear := by simp
  passed _ h := h
  stopped h := .inl ⟨rfl, h⟩

theorem endingAt (h : Sealed code starts n k entered left) (hk : k = m) : Sealed code starts n m entered left := hk ▸ h

theorem of_subset (h : Sealed code starts n m entered left) (hstarts : starts' ⊆ starts) :
    Sealed code starts' n m entered left :=
  { h with
    starts_lt := fun x hx => h.starts_lt x (hstarts hx)
    blocked := fun x hx => h.blocked x (hstarts hx)
    clear := fun x hx => h.clear x (hstarts hx) }

theorem le_start (h : Sealed code starts n m entered left) : ∀ x ∈ starts, n ≤ x := by
  intro x hx
  rcases h.blocked x hx with ⟨rfl, -⟩ | ⟨i, instr, rfl, -⟩
  · exact Nat.le_refl x
  · omega

theorem lt_start (h : Sealed code starts n m true left) : ∀ x ∈ starts, n < x := by
  intro x hx
  rcases h.blocked x hx with ⟨-, hfalse⟩ | ⟨i, instr, rfl, -⟩
  · cases hfalse
  · omega

/-- Control may be said to enter less and to leave more. -/
theorem weaken (h : Sealed code starts n m entered left) (hentered : entered' = true → entered = true)
    (hleft : left = true → left' = true) : Sealed code starts n m entered' left' where
  length := h.length
  onward := h.onward
  targets instr hinstr target htarget :=
    (h.targets instr hinstr target htarget).imp_right fun ⟨hm, hl⟩ => ⟨hm, hleft hl⟩
  starts_lt := h.starts_lt
  blocked x hx := (h.blocked x hx).imp_left fun ⟨hn, hfalse⟩ => ⟨hn, by
    rw [← Bool.not_eq_true] at hfalse ⊢
    exact mt hentered hfalse⟩
  clear := h.clear
  passed hcode he := hleft (h.passed hcode (hentered he))
  stopped hfalse := by
    have hleft' : left = false := by
      rw [← Bool.not_eq_true] at hfalse ⊢
      exact mt hleft hfalse
    refine (h.stopped hleft').imp_left fun ⟨hcode, he⟩ => ⟨hcode, ?_⟩
    rw [← Bool.not_eq_true] at he ⊢
    exact mt hentered he

theorem cons (instr : Instr) (hinstr : ∀ target, instr.target? = some target →
      n < target ∧ (target < m ∨ target = m ∧ left = true) ∧ target ∉ starts)
    (h : Sealed code starts (n + 1) m (!instr.opcode.isTerminal) left) (entered : Bool) :
    Sealed (instr :: code) starts n m entered left where
  length := by
    rw [h.length, List.length_cons]
    omega
  onward := List.forall_mem_cons.2 ⟨fun target htarget => (hinstr target htarget).1,
    fun x hx target htarget => Nat.lt_of_succ_lt (h.onward x hx target htarget)⟩
  targets := List.forall_mem_cons.2 ⟨fun target htarget => (hinstr target htarget).2.1, h.targets⟩
  starts_lt := h.starts_lt
  blocked x hx := by
    rcases h.blocked x hx with ⟨rfl, hterminal⟩ | ⟨i, y, rfl, hi, hterminal⟩
    · exact .inr ⟨0, instr, rfl, rfl, by simpa using hterminal⟩
    · exact .inr ⟨i + 1, y, by omega, by simpa using hi, hterminal⟩
  clear x hx := List.forall_mem_cons.2 ⟨fun htarget => (hinstr x htarget).2.2 hx, h.clear x hx⟩
  passed hcode := by cases hcode
  stopped hfalse := by
    rcases h.stopped hfalse with ⟨rfl, hterminal⟩ | ⟨x, hlast, hterminal⟩
    · exact .inr ⟨instr, rfl, by simpa using hterminal⟩
    · exact .inr ⟨x, by rw [List.getLast?_cons, hlast]; rfl, hterminal⟩

theorem append (h : Sealed code starts n k entered left) (h' : Sealed code' starts' k m left left') :
    Sealed (code ++ code') (starts ++ starts') n m entered left' where
  length := by
    rw [h'.length, h.length, List.length_append]
    omega
  onward := by
    have hlength := h.length
    refine List.forall_mem_append.2 ⟨h.onward, fun instr hinstr target htarget => ?_⟩
    have honward := h'.onward instr hinstr target htarget
    omega
  targets := by
    have hlength := h'.length
    refine List.forall_mem_append.2 ⟨fun instr hinstr target htarget => ?_, h'.targets⟩
    rcases h.targets instr hinstr target htarget with hlt | ⟨rfl, hleft⟩
    · exact .inl (by omega)
    · rcases eq_or_ne code' [] with rfl | hne
      · exact .inr ⟨hlength.symm, h'.passed rfl hleft⟩
      · have hpos := List.length_pos_iff.2 hne
        exact .inl (by omega)
  starts_lt := by
    have hlength := h'.length
    refine List.forall_mem_append.2 ⟨fun x hx => ?_, h'.starts_lt⟩
    have hlt := h.starts_lt x hx
    omega
  blocked := by
    have hlength := h.length
    refine List.forall_mem_append.2 ⟨fun x hx => ?_, fun x hx => ?_⟩
    · refine (h.blocked x hx).imp_right fun ⟨i, instr, hi, hinstr, hterminal⟩ => ⟨i, instr, hi, ?_, hterminal⟩
      rwa [List.getElem?_append_left (List.getElem?_eq_some_iff.1 hinstr).1]
    · rcases h'.blocked x hx with ⟨rfl, hfalse⟩ | ⟨i, instr, rfl, hinstr, hterminal⟩
      · rcases h.stopped hfalse with ⟨rfl, hentered⟩ | ⟨instr, hlast, hterminal⟩
        · exact .inl ⟨hlength, hentered⟩
        · rw [List.getLast?_eq_getElem?] at hlast
          have hlt := (List.getElem?_eq_some_iff.1 hlast).1
          exact .inr ⟨code.length - 1, instr, by omega, by rwa [List.getElem?_append_left hlt], hterminal⟩
      · refine .inr ⟨code.length + i, instr, by omega, ?_, hterminal⟩
        rwa [List.getElem?_append_right (by omega), Nat.add_sub_cancel_left]
  clear := by
    refine List.forall_mem_append.2 ⟨fun x hx => List.forall_mem_append.2 ⟨h.clear x hx, ?_⟩,
      fun x hx => List.forall_mem_append.2 ⟨?_, h'.clear x hx⟩⟩
    · intro instr hinstr htarget
      have honward := h'.onward instr hinstr x htarget
      have hlt := h.starts_lt x hx
      omega
    · intro instr hinstr htarget
      have hle := h'.le_start x hx
      rcases h.targets instr hinstr x htarget with hlt | ⟨rfl, hleft⟩
      · omega
      · subst hleft
        exact Nat.lt_irrefl x (h'.lt_start x hx)
  passed hcode hentered := by
    obtain ⟨hcode, hcode'⟩ := List.append_eq_nil_iff.1 hcode
    exact h'.passed hcode' (h.passed hcode hentered)
  stopped hfalse := by
    rcases h'.stopped hfalse with ⟨rfl, hleft⟩ | ⟨instr, hlast, hterminal⟩
    · rw [List.append_nil]
      exact h.stopped hleft
    · exact .inr ⟨instr, by rw [List.getLast?_append, hlast]; rfl, hterminal⟩

/-- If control does not enter from the front, the first instruction is sealed as well. -/
theorem land (h : Sealed code starts n m true left) (hcode : code ≠ []) : Sealed code (n :: starts) n m false left where
  length := h.length
  onward := h.onward
  targets := h.targets
  starts_lt := by
    have hlength := h.length
    have hpos := List.length_pos_iff.2 hcode
    exact List.forall_mem_cons.2 ⟨by omega, h.starts_lt⟩
  blocked := List.forall_mem_cons.2
    ⟨.inl ⟨rfl, rfl⟩, fun x hx => (h.blocked x hx).imp_left fun ⟨hn, _⟩ => ⟨hn, rfl⟩⟩
  clear := List.forall_mem_cons.2
    ⟨fun instr hinstr htarget => Nat.lt_irrefl n (h.onward instr hinstr n htarget), h.clear⟩
  passed _ hfalse := by cases hfalse
  stopped hfalse := (h.stopped hfalse).imp_left fun ⟨hnil, _⟩ => absurd hnil hcode

/-- A jump to the end in front, if control enters at all. -/
theorem skip {live : Bool} (h : Sealed code starts (n + skipSize live) m false left) (hleft : live = true → left = true) :
    Sealed (skipCode live m ++ code) starts n m live left := by
  cases live with
  | false => exact h
  | true =>
    refine cons (.goto m) (fun target htarget => ?_) h true
    obtain rfl : m = target := Option.some.inj htarget
    have hlength := h.length
    rw [skipSize_pos rfl] at hlength
    exact ⟨by omega, .inr ⟨rfl, hleft rfl⟩, fun hm => Nat.lt_irrefl m (h.starts_lt m hm)⟩

/-- A branch over a body to what comes next. -/
theorem clause (test : Test) {next jump stop join : Nat} {condition body more : List Instr}
    {first second third : List Nat} {live : Bool} (hcondition : Sealed condition first n jump entered left)
    (hbody : Sealed body second (jump + 1) stop true live) (hmore : Sealed more third stop join live left')
    (hstop : stop ≤ next) (hjoin : next < join ∨ next = join ∧ left' = true) (hnext : ∀ x ∈ third, next < x) :
    Sealed (condition ++ .branch test next :: (body ++ more)) (first ++ (second ++ third)) n join entered left' := by
  refine hcondition.append (cons (.branch test next) (fun target htarget => ?_) (hbody.append hmore) left)
  obtain rfl : next = target := Option.some.inj htarget
  have hlength := hbody.length
  refine ⟨by omega, hjoin, fun hmem => ?_⟩
  rcases List.mem_append.1 hmem with hsecond | hthird
  · exact Nat.not_lt_of_le hstop (hbody.starts_lt next hsecond)
  · exact Nat.lt_irrefl next (hnext next hthird)

end Sealed

/-! ### Streams -/

/-- Where the handlers of the sites begin. -/
def Site.entrances (sites : List Site) : List Nat := sites.flatMap fun s => s.landings.map Landing.start

@[simp] theorem Site.entrances_append (sites sites' : List Site) :
    entrances (sites ++ sites') = entrances sites ++ entrances sites' := List.flatMap_append

@[simp] theorem Site.entrances_cons (s : Site) (sites : List Site) :
    entrances (s :: sites) = s.landings.map Landing.start ++ entrances sites := List.flatMap_cons

theorem Body.code_ne_nil {t : Body} (h : t.receives = true) (n : Nat) : t.code n ≠ [] := by
  cases t with
  | op opcode rest => exact List.cons_ne_nil _ _
  | nil | guarded | chain => cases h

/-- The branch over the body before leads into the branches, or control can reach their end. -/
theorem Arms.next_lt (t : Arms) (n : Nat) (live : Bool) :
    t.next n live < n + t.size live ∨ t.next n live = n + t.size live ∧ t.exit live = true := by
  match t with
  | .done => exact .inr ⟨rfl, rfl⟩
  | .otherwise .nil => exact .inr ⟨rfl, Bool.or_true live⟩
  | .otherwise (.op ..) | .otherwise (.guarded ..) | .otherwise (.chain ..) | .elseIf .. =>
    simp only [Arms.next, Arms.size, Body.size]
    omega

mutual

theorem Body.Receiving.sealed {t : Body} (h : t.Receiving) (n : Nat) (live : Bool) :
    Sealed (t.code n) (Site.entrances (t.sites n)) n (n + t.size) live (t.exit live) := by
  match t with
  | .nil => exact .nil n live
  | .op opcode rest =>
    have hrest := Body.Receiving.sealed (t := rest) h (n + 1) !opcode.isTerminal
    refine (Sealed.cons (.plain opcode) (by simp [Instr.target?]) hrest live).endingAt ?_
    rw [Body.size]
    omega
  | .guarded body catches handler more rest =>
    obtain ⟨hbody, ⟨hfirst, hhandler⟩, hmore, hrest⟩ := h
    have hhandlers := ((hhandler.sealed (n + body.size + 1) true).land (handler.code_ne_nil hfirst _)).append
      (hmore.sealed (n + body.size + 1 + handler.size) (handler.exit true) rfl)
    have hjump := Sealed.cons (.goto _) (fun target htarget => by
      obtain rfl := Option.some.inj htarget
      exact ⟨by omega, .inr ⟨rfl, rfl⟩, fun hmem => Nat.lt_irrefl _ (hhandlers.starts_lt _ hmem)⟩)
      hhandlers (body.exit live)
    have hall := ((hbody.sealed n live).append hjump).append (hrest.sealed _ true)
    rw [Body.code, Body.size]
    simp only [List.append_assoc, List.cons_append] at hall
    refine (hall.of_subset ?_).endingAt (by omega)
    simp only [Body.sites, Site.entrances_cons, Site.entrances_append, List.map_cons]
    intro x
    simp only [List.mem_append, List.mem_cons]
    tauto
  | .chain condition test body more rest =>
    obtain ⟨hcondition, hbody, hmore, hrest⟩ := h
    have hnext := more.next_lt (n + condition.size + 1 + body.size) (body.exit true)
    obtain ⟨hbranches, hlt⟩ := hmore.sealed (n + condition.size + 1 + body.size) (body.exit true) rfl
    have hchain := Sealed.clause test (hcondition.sealed n live) (hbody.sealed (n + condition.size + 1) true)
      hbranches (more.le_next _ _) hnext hlt
    have hall := hchain.append (hrest.sealed _ _)
    rw [Body.code, Body.size]
    simp only [List.append_assoc, List.cons_append] at hall
    simp only [Body.sites, Site.entrances_append]
    exact hall.endingAt (by omega)

theorem Catches.Receiving.sealed {t : Catches} (h : t.Receiving) (n : Nat) (live : Bool) {join : Nat}
    (hjoin : join = n + t.size live) : Sealed (t.code n live join)
      ((t.landings n live).map Landing.start ++ Site.entrances (t.sites n live)) n join live true := by
  match t with
  | .done => exact ((Sealed.nil n live).weaken id fun _ => rfl).endingAt hjoin.symm
  | .handler catches body more =>
    obtain ⟨⟨hfirst, hbody⟩, hmore⟩ := h
    rw [Catches.size] at hjoin
    have hend : join = n + skipSize live + body.size + more.size (body.exit true) := by omega
    have hhandlers := ((hbody.sealed (n + skipSize live) true).land (body.code_ne_nil hfirst _)).append
      (hmore.sealed _ (body.exit true) hend)
    refine (hhandlers.skip fun _ => rfl).of_subset ?_
    simp only [Catches.landings, Catches.sites, Site.entrances_append, List.map_cons]
    intro x
    simp only [List.mem_append, List.mem_cons]
    tauto

theorem Arms.Receiving.sealed {t : Arms} (h : t.Receiving) (n : Nat) (live : Bool) {join : Nat}
    (hjoin : join = n + t.size live) :
    Sealed (t.code n live join) (Site.entrances (t.sites n live)) n join live (t.exit live) ∧
      ∀ x ∈ Site.entrances (t.sites n live), t.next n live < x := by
  match t with
  | .done =>
    have hnil : Sealed [] [] n n live true := (Sealed.nil n live).weaken id fun _ => rfl
    exact ⟨hnil.endingAt hjoin.symm, by simp [Arms.sites, Site.entrances]⟩
  | .otherwise body =>
    rw [Arms.size] at hjoin
    have hbody := (Body.Receiving.sealed (t := body) h (n + skipSize live) true).endingAt (m := join) (by omega)
    refine ⟨(hbody.weaken (by simp) fun hleft => ?_).skip fun hlive => ?_, hbody.lt_start⟩
    · rw [Arms.exit, hleft, Bool.or_true]
    · rw [Arms.exit, hlive, Bool.true_or]
  | .elseIf condition test body more =>
    obtain ⟨hcondition, hbody, hmore⟩ := h
    rw [Arms.size] at hjoin
    have hnext := more.next_lt (n + skipSize live + condition.size + 1 + body.size) (body.exit true)
    have hend : join = n + skipSize live + condition.size + 1 + body.size + more.size (body.exit true) := by omega
    obtain ⟨hbranches, hlt⟩ := hmore.sealed _ (body.exit true) hend
    have hclause := Sealed.clause test (hcondition.sealed (n + skipSize live) true)
      (hbody.sealed (n + skipSize live + condition.size + 1) true) hbranches (more.le_next _ _) (hend ▸ hnext) hlt
    simp only [Arms.sites, Site.entrances_append]
    refine ⟨(hclause.weaken (by simp) fun hleft => ?_).skip fun hlive => ?_, hclause.lt_start⟩
    · cases live with
      | false => exact hleft
      | true => exact more.exit_true
    · rw [Arms.exit, hlive]
      exact more.exit_true

end

/-- The handler takes the exception off the stack. -/
def Landing.Received (l : Landing) : Prop := ∃ opcode rest, l.body = .op opcode rest ∧ opcode.receives = true

theorem Body.exists_op {t : Body} (h : t.receives = true) : ∃ opcode rest, t = .op opcode rest ∧ opcode.receives = true := by
  cases t with
  | op opcode rest => exact ⟨opcode, rest, rfl, h⟩
  | nil | guarded | chain => cases h

theorem Catches.Receiving.received {t : Catches} (h : t.Receiving) (n : Nat) (live : Bool) :
    ∀ l ∈ t.landings n live, l.Received := by
  match t with
  | .done => simp [Catches.landings]
  | .handler catches body more =>
    obtain ⟨⟨hfirst, -⟩, hmore⟩ := h
    exact List.forall_mem_cons.2 ⟨Body.exists_op hfirst, hmore.received _ _⟩

mutual

theorem Body.Receiving.received {t : Body} (h : t.Receiving) (n : Nat) :
    ∀ s ∈ t.sites n, ∀ l ∈ s.landings, l.Received := by
  match t with
  | .nil => simp [Body.sites]
  | .op opcode rest => exact Body.Receiving.received (t := rest) h (n + 1)
  | .guarded body catches handler more rest =>
    obtain ⟨hbody, ⟨hfirst, hhandler⟩, hmore, hrest⟩ := h
    rw [Body.sites, List.forall_mem_cons, List.forall_mem_cons]
    simp only [List.forall_mem_append]
    exact ⟨⟨Body.exists_op hfirst, Catches.Receiving.received hmore _ _⟩, hbody.received _, hhandler.received _,
      hmore.received_sites _ _, hrest.received _⟩
  | .chain condition test body more rest =>
    obtain ⟨hcondition, hbody, hmore, hrest⟩ := h
    rw [Body.sites]
    simp only [List.forall_mem_append]
    exact ⟨hcondition.received _, hbody.received _, hmore.received _ _, hrest.received _⟩

theorem Catches.Receiving.received_sites {t : Catches} (h : t.Receiving) (n : Nat) (live : Bool) :
    ∀ s ∈ t.sites n live, ∀ l ∈ s.landings, l.Received := by
  match t with
  | .done => simp [Catches.sites]
  | .handler catches body more =>
    obtain ⟨⟨-, hbody⟩, hmore⟩ := h
    rw [Catches.sites, List.forall_mem_append]
    exact ⟨hbody.received _, hmore.received_sites _ _⟩

theorem Arms.Receiving.received {t : Arms} (h : t.Receiving) (n : Nat) (live : Bool) :
    ∀ s ∈ t.sites n live, ∀ l ∈ s.landings, l.Received := by
  match t with
  | .done => simp [Arms.sites]
  | .otherwise body => exact Body.Receiving.received (t := body) h _
  | .elseIf condition test body more =>
    obtain ⟨hcondition, hbody, hmore⟩ := h
    rw [Arms.sites]
    simp only [List.forall_mem_append]
    exact ⟨hcondition.received _, hbody.received _, hmore.received _ _⟩

end

/-- In the code the handler takes the exception off the stack, control does not go on to it from the
instruction in front, and no jump lands on it. -/
structure Landing.EnteredIn (code : List Instr) (l : Landing) : Prop where
  received : ∃ opcode rest, l.body = .op opcode rest ∧ opcode.receives = true ∧ code[l.start]? = some (.plain opcode)
  blocked : ∃ i instr, l.start = i + 1 ∧ code[i]? = some instr ∧ instr.opcode.isTerminal = true
  clear : ∀ instr ∈ code, instr.target? ≠ some l.start

theorem Body.Receiving.enteredIn {t : Body} (ht : t.Receiving) :
    ∀ s ∈ t.sites 0, ∀ l ∈ s.landings, l.EnteredIn t.linked := by
  intro s hs l hl
  have hsealed := ht.sealed 0 true
  have hmem : l.start ∈ Site.entrances (t.sites 0) := List.mem_flatMap.2 ⟨s, hs, List.mem_map_of_mem hl⟩
  have hcode := codeAt_linked t
  refine ⟨?_, ?_, ?_⟩
  · obtain ⟨opcode, rest, hbody, hreceives⟩ := ht.received 0 s hs l hl
    have hat := (t.sites_inCode hcode s hs).landings l hl
    rw [hbody, Body.code] at hat
    exact ⟨opcode, rest, hbody, hreceives, hat.head⟩
  · rcases hsealed.blocked _ hmem with ⟨-, hfalse⟩ | ⟨i, instr, hi, hinstr, hterminal⟩
    · cases hfalse
    · exact ⟨0 + i, instr, hi, hcode i instr hinstr, hterminal⟩
  · refine List.forall_mem_append.2 ⟨hsealed.clear _ hmem, ?_⟩
    unfold Body.ending
    split
    · simp [Instr.target?]
    · simp

end BlockAssembler
